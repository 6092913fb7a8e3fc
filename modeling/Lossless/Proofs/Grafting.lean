import Lossless.Edit.List
import Lossless.Proofs.Trees

/-! Fragments inside a document. The nodes of a fragment keep their leaves and their texts under
their new keys, and stand apart from what was there; wrapping a fragment leaves its text alone. -/

namespace Lossless

open List Layout Document ListRule

theorem head?_filter_of_imp {α : Type} {p q : α → Bool} {xs : List α} {a : α}
    (h : (xs.filter p).head? = some a) (ha : q a) (hqp : ∀ x, q x = true → p x) :
    (xs.filter q).head? = some a := by
  induction xs with
  | nil => cases h
  | cons x xs ih =>
    by_cases hx : p x
    · rw [filter_cons_of_pos hx, head?_cons, Option.some.injEq] at h
      rw [h, filter_cons_of_pos ha, head?_cons]
    · rw [filter_cons_of_neg hx] at h
      rw [filter_cons_of_neg fun hq => hx (hqp x hq)]
      exact ih h

theorem getLast?_filter_of_imp {α : Type} {p q : α → Bool} {xs : List α} {a : α}
    (h : (xs.filter p).getLast? = some a) (ha : q a)
    (hqp : ∀ x, q x = true → p x) : (xs.filter q).getLast? = some a := by
  rw [← head?_reverse, ← filter_reverse] at h ⊢
  exact head?_filter_of_imp h ha hqp

namespace Document

variable {doc fragment : Document} {node : Node} {b : Branch}

/-! ### Covered tokens -/

theorem visibleText_eq (doc : Document) (node : Node) :
    doc.visibleText node = join ((doc.coveredLeaves node).map doc.textOf) := by
  cases h : doc.range? node with
  | none => simp [visibleText, coveredLeaves, h, join]
  | some r =>
    simp only [visibleText, coveredLeaves, h, leavesIn, textOf, layout, map_take,
      map_drop]

theorem coveredLeaves_ends (h : doc.coveredLeaves node ≠ []) :
    (doc.coveredLeaves node).head? = doc.firstLeaf? node ∧
      (doc.coveredLeaves node).getLast? = doc.lastLeaf? node := by
  cases hr : doc.range? node with
  | none => simp [coveredLeaves, hr] at h
  | some r =>
    obtain ⟨first, last, j, hfirst, hlast, hpf, hpl, hstop⟩ := exists_of_range? hr
    have hcov : doc.coveredLeaves node = doc.leavesIn r := by rw [coveredLeaves, hr]
    rw [hcov, leavesIn] at h ⊢
    have hlt : r.start < r.stop := by
      by_contra hge
      rw [Nat.sub_eq_zero_of_le (Nat.le_of_not_lt hge), take_zero] at h
      exact h rfl
    have hlen := idxOf?_lt_length hpl
    constructor
    · rw [hfirst, head?_take, if_neg (by omega), head?_drop]
      exact getElem?_of_idxOf? hpf
    · rw [hlast, getLast?_take, if_neg (by omega), getElem?_drop]
      have : r.start + (r.stop - r.start - 1) = j := by omega
      rw [this, getElem?_of_idxOf? hpl]
      rfl

theorem coveredLeaves_sublist (doc : Document) (node : Node) :
    List.Sublist (doc.coveredLeaves node) doc.order := by
  rw [coveredLeaves]
  split
  · exact nil_sublist _
  · exact (take_sublist ..).trans (drop_sublist ..)

theorem coveredLeaves_subset (doc : Document) (node : Node) : doc.coveredLeaves node ⊆ doc.order :=
  (doc.coveredLeaves_sublist node).subset

theorem coveredLeaves_nodup (hn : doc.order.Nodup) (node : Node) : (doc.coveredLeaves node).Nodup :=
  hn.sublist (doc.coveredLeaves_sublist node)

/-! ### Grafts -/

theorem leaves_graft_rehome (hd : doc.Linked) (hf : fragment.Linked) (node : Node) :
    (doc.graft fragment).2.leaves (doc.rehome node) =
      (fragment.leaves node).map doc.rehomeLeaf := by
  revert node
  refine hf.induction ?_ ?_
  · intro l
    simp [rehome]
  · intro b ih
    have hg := linked_graft hd hf
    rw [rehome, hg.leaves_branch, hf.leaves_branch, children_graft_rehome, flatMap_map,
      map_flatMap]
    exact flatMap_congr ih

/-- No node of a fragment is around a node that was there before. -/
theorem not_around_graft (hd : doc.Linked) (hn : doc.Has node) (r : Branch) :
    ¬ (doc.graft fragment).2.Around (doc.rehomeBranch r) node := by
  intro h
  induction h with
  | self => exact not_has_rehome doc r hn
  | step hp _ ih =>
    rw [parent_graft_of_has hn] at hp
    exact ih (hd.has_parent hp)

/-- Of the tokens under the root of a fragment, those that it covers begin and end as all that it
covers. -/
theorem ends_graft_covered (hd : doc.Linked) (hf : fragment.Linked)
    (hne : fragment.coveredLeaves b ≠ []) :
    (((doc.graft fragment).2.leaves (doc.rehomeBranch b)).filter
        ((fragment.coveredLeaves b).map doc.rehomeLeaf).contains).head? =
      ((fragment.coveredLeaves b).map doc.rehomeLeaf).head? ∧
    (((doc.graft fragment).2.leaves (doc.rehomeBranch b)).filter
        ((fragment.coveredLeaves b).map doc.rehomeLeaf).contains).getLast? =
      ((fragment.coveredLeaves b).map doc.rehomeLeaf).getLast? := by
  obtain ⟨hhead, hlast⟩ := coveredLeaves_ends hne
  have hsub := coveredLeaves_subset fragment b
  have hleaves := leaves_graft_rehome hd hf b
  rw [rehome] at hleaves
  rw [hleaves]
  generalize fragment.coveredLeaves b = covered at hne hhead hlast hsub ⊢
  -- what a node covers is visible
  have hvisible : ∀ l, covered.contains l = true → fragment.order.contains l := by
    intro l hl
    rw [contains_iff_mem] at hl ⊢
    exact hsub hl
  have hfilter : ((fragment.leaves b).map doc.rehomeLeaf).filter
      (covered.map doc.rehomeLeaf).contains =
      ((fragment.leaves b).filter covered.contains).map doc.rehomeLeaf := by
    rw [filter_map]
    congr 1
    refine filter_congr fun l _ => ?_
    simp only [Function.comp_apply, contains_eq_mem,
      mem_map_of_injective doc.rehomeLeaf_injective]
  rw [hfilter, head?_map, head?_map, getLast?_map, getLast?_map]
  constructor
  · obtain ⟨a, ha⟩ := Option.ne_none_iff_exists'.1 (mt head?_eq_none_iff.1 hne)
    have hmem := contains_iff_mem.2 (mem_of_head? ha)
    rw [ha, head?_filter_of_imp (hhead.symm.trans ha) hmem hvisible]
  · obtain ⟨a, ha⟩ := Option.ne_none_iff_exists'.1 (mt getLast?_eq_none_iff.1 hne)
    have hmem := contains_iff_mem.2 (mem_of_getLast? ha)
    rw [ha, getLast?_filter_of_imp (hlast.symm.trans ha) hmem hvisible]

/-! ### Wrapping -/

theorem children_wrapRoot (doc : Document) (kind : Kind) (c : Branch) :
    (doc.wrapRoot kind).children c =
      if c = (doc.wrapRoot kind).root then [.branch doc.root] else doc.children c := by
  refine (Forest.children_pushChild (Forest.has_new_container doc.toForest kind) _ c).trans ?_
  have hnil : doc.children (doc.toForest.addContainer { kind }).1 = [] := by
    rw [Forest.children, Forest.container_of_not_has (Forest.not_has_addContainer _ _)]
  rw [Forest.children_addContainer, Forest.children_addContainer, hnil]
  rfl

theorem leaves_wrapRoot (h : doc.IsTree) (kind : Kind) :
    (doc.wrapRoot kind).leaves (.branch (doc.wrapRoot kind).root) =
      doc.leaves doc.root := by
  have hw := (h.wrapRoot kind).linked
  rw [hw.leaves_branch, children_wrapRoot, if_pos rfl, flatMap_singleton]
  refine h.linked.leaves_congr hw doc.root fun c hc => ?_
  rw [children_wrapRoot, if_neg]
  rintro rfl
  exact Forest.not_has_addContainer doc.toForest { kind } (hc.has_inside h.root_has)

theorem textOf_wrapRoot (doc : Document) (kind : Kind) (l : Leaf) :
    (doc.wrapRoot kind).textOf l = doc.textOf l :=
  Forest.textOf_pushChild ..

theorem rootKind_wrapRoot (doc : Document) (kind : Kind) : (doc.wrapRoot kind).rootKind = kind := by
  show ((doc.toForest.addContainer { kind }).2.pushChild (doc.toForest.addContainer { kind }).1
    doc.root).kindOf (doc.toForest.addContainer { kind }).1 = kind
  rw [Forest.kindOf_pushChild, Forest.kindOf, Forest.container_addContainer, if_pos rfl]

theorem kindOf_wrapRoot (hb : doc.Has b) (kind : Kind) :
    (doc.wrapRoot kind).kindOf b = doc.kindOf b := by
  have hne : b ≠ (doc.toForest.addContainer { kind }).1 := fun he =>
    Forest.not_has_addContainer doc.toForest { kind } (he ▸ hb)
  refine (Forest.kindOf_pushChild ..).trans ?_
  refine (congrArg Container.kind (Forest.container_addContainer ..)).trans ?_
  rw [if_neg hne]
  rfl

theorem coveredLeaves_wrapRoot (h : doc.IsTree) (kind : Kind) :
    (doc.wrapRoot kind).coveredLeaves (.branch (doc.wrapRoot kind).root) =
      doc.coveredLeaves doc.root := by
  have hv : (doc.wrapRoot kind).visibleLeaves (.branch (doc.wrapRoot kind).root) =
      doc.visibleLeaves doc.root := by
    rw [visibleLeaves, visibleLeaves, leaves_wrapRoot h]
    rfl
  have hr : (doc.wrapRoot kind).range? (.branch (doc.wrapRoot kind).root) =
      doc.range? doc.root := by
    rw [range?, range?, firstLeaf?, firstLeaf?, lastLeaf?, lastLeaf?, hv]
    rfl
  rw [coveredLeaves, coveredLeaves, hr]
  rfl

end Document

/-! ### Fragments as elements -/

section

variable {rule : ListRule} {fragment : Document}

theorem ListRule.isTree_wrap (h : fragment.IsTree) : (rule.wrap fragment).IsTree := by
  rw [wrap]
  split
  · exact h
  · exact h.wrapRoot _

theorem ListRule.rootKind_wrap (h : fragment.rootKind ≠ .comment) :
    (rule.wrap fragment).rootKind = rule.element := by
  rw [wrap]
  split
  · next hk =>
    simp only [Bool.or_eq_true, decide_eq_true_eq] at hk
    exact hk.resolve_left h
  · exact rootKind_wrapRoot ..

theorem ListRule.coveredLeaves_wrap (h : fragment.IsTree) :
    (rule.wrap fragment).coveredLeaves (.branch (rule.wrap fragment).root) =
      fragment.coveredLeaves fragment.root := by
  rw [wrap]
  split
  · rfl
  · exact coveredLeaves_wrapRoot h _

theorem ListRule.textOf_wrap (l : Leaf) : (rule.wrap fragment).textOf l = fragment.textOf l := by
  rw [wrap]
  split
  · rfl
  · exact textOf_wrapRoot ..

end

end Lossless
