import Lossless.Proofs.Landing
import Lossless.Proofs.Offered

/-! Elements that arrive at a line of a list. The element stands between what is beside the list,
the text keeps its ink, and only a placeholder goes with its delimiter. -/

namespace Lossless

open List Option Document Edit Node

theorem exists_neighbours_of_sublist {α : Type} {xs ys zs : List α} {a b : α}
    (h : zs <+ xs ++ a :: b :: ys) (hn : (xs ++ a :: b :: ys).Nodup) (ha : a ∈ zs) (hb : b ∈ zs) :
    ∃ xs' ys', zs = xs' ++ a :: b :: ys' ∧ xs' <+ xs := by
  obtain ⟨xs', rest, rfl, hxs, hrest⟩ := sublist_append_iff.1 h
  obtain ⟨-, hn, hapart⟩ := nodup_append.1 hn
  obtain ⟨hab, hb'⟩ := nodup_cons.1 hn
  have hlate : ∀ x ∈ a :: b :: ys, x ∈ xs' ++ rest → x ∈ rest := fun x hx hm =>
    (mem_append.1 hm).resolve_left fun hm => hapart x (hxs.subset hm) x hx rfl
  have ha := hlate a mem_cons_self ha
  have hb := hlate b (mem_cons_of_mem _ mem_cons_self) hb
  rcases sublist_cons_iff.1 hrest with hrest | ⟨rest, rfl, htail⟩
  · exact absurd (hrest.subset ha) hab
  have hb := (mem_cons.1 hb).resolve_left fun he => hab (he ▸ mem_cons_self)
  rcases sublist_cons_iff.1 htail with htail | ⟨ys', rfl, -⟩
  · exact absurd (htail.subset hb) (nodup_cons.1 hb').1
  exact ⟨xs', ys', rfl, hxs⟩

theorem Forest.Retexted.beside {f g : Forest} (h : f.Retexted g) (hf : f.Linked) (list : Branch) :
    g.leftLeaves list = f.leftLeaves list ∧
      g.rightLeaves list = f.rightLeaves list :=
  hf.beside_congr (h.linked hf) (fun b _ _ => h.children b) fun b _ => h.parent b

namespace Document

variable {doc mid after fragment : Document} {rule : ListRule} {list element added : Branch}
  {l mark : Leaf} {gone : List Leaf} {line m n : Nat}

/-! ### Lists that are unfolded first -/

theorem retexted_unfolded (doc : Document) (list : Branch) :
    doc.Retexted (doc.unfolded list).toForest := by
  unfold unfolded
  split
  · exact retexted_unfoldBody doc list
  · exact .refl _

theorem IsTree.widened_unfolded (h : doc.IsTree) (list : Branch) :
    Widened doc (doc.unfolded list) list := by
  have hforest := doc.retexted_unfolded list
  refine ⟨h.retains_unfolded list, ?_, fun n _ => hforest.leaves h.linked n, fun n hn _ => ?_⟩
  · rw [hforest.children]
  · rwa [hforest.children] at hn

theorem listElements_unfolded (doc : Document) (rule : ListRule) (list : Branch) :
    (doc.unfolded list).listElements rule list = doc.listElements rule list := by
  have hforest := doc.retexted_unfolded list
  simp only [listElements, Forest.branches, hforest.children, hforest.kindOf]

theorem clausesOnLines_of_hidden
    (h : ∀ e ∈ (doc.listElements rule list).head?, doc.visibleLeaves (.branch e) = []) :
    doc.clausesOnLines rule list = rule.multiline := by
  have hnone : ((doc.listElements rule list).head?.bind fun e => doc.range? e) = none :=
    bind_eq_none_iff.2 fun e he => range?_eq_none.2 (h e he)
  rw [clausesOnLines, hnone]

theorem le_getLast?_linesFor (hinline : doc.isInline rule list = false)
    (hn : n ∈ doc.linesFor rule list) (hm : (doc.linesFor rule list).getLast? = some m) :
    n ≤ m := by
  have hsorted : (doc.linesFor rule list).Pairwise (· < ·) := by
    rw [linesFor, hinline, if_neg Bool.false_ne_true, Span.toList]
    exact Pairwise.filter _ pairwise_lt_range'
  obtain ⟨init, hinit⟩ := getLast?_eq_some_iff.1 hm
  rw [hinit] at hn hsorted
  rcases mem_append.1 hn with hn | hn
  · exact ((pairwise_append.1 hsorted).2.2 n hn m (mem_singleton_self m)).le
  · exact (mem_singleton.1 hn).le

section

variable (h : doc.Aligned) (hinline : doc.isInline rule list = false)
include h hinline

theorem Aligned.isInline_unfolded : (doc.unfolded list).isInline rule list = false := by
  cases hs : doc.isSqueezed list with
  | false => rwa [Document.unfolded, hs, if_neg Bool.false_ne_true]
  | true =>
    rw [isInline, Bool.and_eq_false_iff] at hinline ⊢
    refine hinline.imp_right fun hclauses => ?_
    rw [Bool.not_eq_false'] at hclauses ⊢
    -- an element that shows something would stand on the line of the brackets
    have hhidden : ∀ e ∈ (doc.listElements rule list).head?,
        doc.visibleLeaves e = [] := by
      intro e he
      by_contra hne
      obtain ⟨x, hx⟩ := exists_mem_of_ne_nil _ hne
      obtain ⟨r, hr⟩ := exists_range? hx
      have hchild := (mem_listElements.1 (mem_of_mem_head? he)).1
      obtain ⟨s, hs', hstart, hstop⟩ := h.nested _ list r (h.tree.linked.down hchild) hr
      obtain ⟨hlow, hhigh⟩ := h.range_bounds hs'
      have hlt := range_nonempty h.tree.order_nodup (h.visible e) hr
      have hbefore := doc.layout.lineOf_mono (hlow.trans hstart)
      have hbehind := doc.layout.lineOf_mono (hlt.le.trans (hstop.trans hhigh))
      have hsame := lineOf_of_isSqueezed hs
      rw [clausesOnLines, he, bind_some, hr] at hclauses
      simp only [bne_iff_ne] at hclauses
      omega
    have hwidened := h.tree.widened_unfolded list
    rw [clausesOnLines_of_hidden hhidden] at hclauses
    rw [clausesOnLines_of_hidden, hclauses]
    intro e he
    rw [listElements_unfolded] at he
    have hchild := (mem_listElements.1 (mem_of_mem_head? he)).1
    refine eq_nil_iff_forall_not_mem.2 fun x hx => ?_
    have hmem := hwidened.visibleLeaves_subset hchild hx
    simp [hhidden e he] at hmem

theorem Aligned.enters_entryLine (hlist : doc.Has list)
    (habove : doc.ClearAbove rule list) (hline : line ∈ doc.linesFor rule list) :
    (doc.unfolded list).Enters list (doc.entryLine rule list line) := by
  have haligned := h.unfolded list
  have hopen := isSqueezed_unfolded h hlist
  have hinline' := h.isInline_unfolded hinline
  cases hs : doc.isSqueezed list with
  | false =>
    rw [entryLine, Document.unfolded, hs, if_neg Bool.false_ne_true, if_neg Bool.false_ne_true]
    exact enters_of_mem_linesFor h hinline hs hline habove
  | true =>
    obtain ⟨r, hr, ho⟩ := exists_right_of_isSqueezed h.tree.linked hs
    obtain ⟨mid, tokens, hclosing, hmid, hr, ho, he⟩ :=
      (bracketed_of_ordered h.tree h.ordered hlist).exists_closing hr ho
    rw [entryLine, hs, if_pos rfl, he]
    rw [Document.unfolded, hs, if_pos rfl, he] at haligned hopen hinline' ⊢
    have hmem := hclosing.mem_linesFor hmid hr ho hinline'
    obtain ⟨last, hlast⟩ : ∃ last,
        ((mid.closeWith list tokens).linesFor rule list).getLast? = some last :=
      ⟨_, getLast?_eq_some_getLast (ne_nil_of_mem hmem)⟩
    rw [hlast, getD_some]
    refine enters_of_left haligned hinline' hopen (mem_of_getLast? hlast) fun l hl i hi => ?_
    -- the line of the closing bracket is offered, and what is before the list is above it
    have hlt := hclosing.lt_of_position? hmid hr ho (mem_append_left _ hl) hi
    calc (mid.closeWith list tokens).layout.lineOf i
        ≤ (mid.closeWith list tokens).layout.lineOf (mid.trivia list).stop :=
          Layout.lineOf_mono _ hlt.le
      _ < _ := hclosing.lineOf_lt hmid hr ho
      _ ≤ last := le_getLast?_linesFor hinline' hmem hlast

end

theorem Lands.of_unfolded (hd : doc.IsTree)
    (h : Lands (doc.unfolded list) mid fragment list added) :
    Lands doc mid fragment list added := by
  have hforest := doc.retexted_unfolded list
  obtain ⟨hleft, hright⟩ := hforest.beside hd.linked list
  exact ⟨(hd.widened_unfolded list).trans h.toWidened, h.child,
    fun hhas => h.new (hforest.has _ hhas), h.carries, hleft ▸ hright ▸ h.between⟩

/-! ### Placeholders that go -/

/-- The delimiter of an element is the token before it, or for the first child the one behind it. -/
theorem delimiterOf?_eq_some (hn : (doc.children list).Nodup) :
    doc.delimiterOf? rule list element = some mark ↔ rule.delimiter.isEmpty = false ∧
      ((∃ xs ys, doc.children list = xs ++ .leaf mark :: .branch element :: ys) ∨
        ∃ ys, doc.children list = .branch element :: .leaf mark :: ys) := by
  unfold delimiterOf?
  cases hempty : rule.delimiter.isEmpty with
  | true => simp
  | false =>
    have hleaf : ∀ o : Option Node, o.bind leaf? = some mark ↔ o = some mark := by
      rintro (_ | _ | _) <;> simp [leaf?]
    simp only [Bool.false_eq_true, if_false, true_and, bind_eq_bind, bind_eq_some_iff]
    generalize doc.children list = children at hn
    constructor
    · rintro ⟨index, hindex, hget⟩
      have hat := getElem?_of_idxOf? hindex
      split at hget
      · next hzero =>
        subst hzero
        refine .inr ⟨children.drop 2, ?_⟩
        conv_lhs => rw [← drop_zero (l := children), drop_eq_getElem?_toList_append, hat,
          drop_eq_getElem?_toList_append, (hleaf _).1 hget]
        rfl
      · next hpos =>
        refine .inl ⟨children.take (index - 1), children.drop (index + 1), ?_⟩
        conv_lhs => rw [← take_append_drop (index - 1) children,
          drop_eq_getElem?_toList_append, (hleaf _).1 hget, Nat.sub_add_cancel (by omega),
          drop_eq_getElem?_toList_append, hat]
        rfl
    · rintro (⟨xs, ys, rfl⟩ | ⟨ys, rfl⟩)
      · have hout : branch element ∉ xs ++ [.leaf mark] := by
          intro hm
          rw [append_cons] at hn
          exact (nodup_append.1 hn).2.2 _ hm _ mem_cons_self rfl
        refine ⟨xs.length + 1, ?_, ?_⟩
        · rw [append_cons, idxOf?_append_cons hout, length_append, length_singleton]
        · simp [leaf?]
      · exact ⟨0, by simp [idxOf?, findIdx?_cons], by simp [leaf?]⟩

theorem Widened.delimiterOf? (h : Widened doc mid list) (he : .branch element ∈ doc.children list)
    (hmark : mid.delimiterOf? rule list element = some mark) (hold : doc.Has mark) :
    doc.delimiterOf? rule list element = some mark := by
  have hn := h.tree.linked.once list
  obtain ⟨hsome, hbeside⟩ := (delimiterOf?_eq_some hn).1 hmark
  have hsub := h.children
  refine (delimiterOf?_eq_some (h.start.linked.once list)).2 ⟨hsome, ?_⟩
  rcases hbeside with ⟨xs, ys, hkids⟩ | ⟨ys, hkids⟩
  · have hback := h.back mark (by simp [hkids]) hold
    rw [hkids] at hsub hn
    obtain ⟨xs', ys', he, -⟩ := exists_neighbours_of_sublist hsub hn hback he
    exact .inl ⟨xs', ys', he⟩
  · have hback := h.back mark (by simp [hkids]) hold
    rw [hkids, ← nil_append (_ :: _)] at hsub hn
    obtain ⟨xs', ys', he, hnil⟩ := exists_neighbours_of_sublist hsub hn he hback
    rw [sublist_nil.1 hnil] at he
    exact .inr ⟨ys', he⟩

theorem Widened.departs_subset (h : Widened doc mid list) (hd : doc.Aligned) (hm : mid.Aligned)
    (he : .branch element ∈ doc.children list) (ho : l ∈ doc.order)
    (hl : l ∈ mid.departs rule list element) : l ∈ doc.departs rule list element := by
  rcases mem_append.1 hl with hl | hl
  · exact mem_append_left _ (h.coveredLeaves_subset hd hm (h.visibleLeaves_subset he) ho hl)
  · exact mem_append_right _ (mem_toList.2
      (h.delimiterOf? he (mem_toList.1 hl) (hd.tree.order_has l ho)))

theorem Aligned.not_mem_coveredLeaves (h : doc.Aligned)
    (hl : l ∈ doc.leftLeaves element ++ doc.rightLeaves element) :
    l ∉ doc.coveredLeaves element := by
  intro hm
  obtain ⟨i, hi⟩ := exists_position (doc.coveredLeaves_subset _ hm)
  rw [coveredLeaves] at hm
  split at hm
  · cases hm
  next r hr =>
  have hin := (mem_leavesIn h.tree.order_nodup hi).1 hm
  obtain ⟨hstart, hstop⟩ := h.range_bounds hr
  rcases mem_append.1 hl with hl | hl
  · have := h.lt_trivia_start hl hi
    omega
  · have := h.trivia_stop_le hl hi
    omega

theorem mem_children_of_delimiterOf? (hn : (doc.children list).Nodup)
    (hmark : doc.delimiterOf? rule list element = some mark) : .leaf mark ∈ doc.children list := by
  obtain ⟨-, ⟨xs, ys, he⟩ | ⟨ys, he⟩⟩ := (delimiterOf?_eq_some hn).1 hmark <;> simp [he]

theorem Aligned.not_mem_departs (h : doc.Aligned)
    (hl : l ∈ doc.leftLeaves element ++ doc.rightLeaves element)
    (hnot : .leaf l ∉ doc.children list) : l ∉ doc.departs rule list element := by
  intro hm
  rcases mem_append.1 hm with hm | hm
  · exact h.not_mem_coveredLeaves hl hm
  · exact hnot (mem_children_of_delimiterOf? (h.tree.linked.once list) (mem_toList.1 hm))

section

variable (h : doc.Aligned) (he : .branch element ∈ doc.children list)
include h he

theorem Aligned.not_mem_departs_of_beside
    (hl : l ∈ doc.leftLeaves list ++ doc.rightLeaves list)
    (ho : l ∈ doc.order) : l ∉ doc.departs rule list element := by
  have hp := h.tree.linked.down he
  obtain ⟨xs, ys, hxy, hxs, -⟩ := h.tree.linked.exists_siblings hp
  refine h.not_mem_departs ?_ fun hm => h.not_mem_leaves_of_beside hl ho ?_
  · rw [h.tree.linked.leftLeaves_of_parent hp hxy hxs,
      h.tree.linked.rightLeaves_of_parent hp hxy hxs]
    rcases mem_append.1 hl with hl | hl <;> simp [hl]
  · rw [h.tree.linked.leaves_branch]
    exact mem_flatMap.2 ⟨_, hm, by rw [Forest.leaves_leaf]; exact mem_singleton_self l⟩

theorem Aligned.not_mem_departs_of_sibling (ha : .branch added ∈ doc.children list)
    (hne : added ≠ element) (hl : l ∈ doc.leaves added) :
    l ∉ doc.departs rule list element := by
  have hp := h.tree.linked.down he
  obtain ⟨xs, ys, hxy, hxs, -⟩ := h.tree.linked.exists_siblings hp
  refine h.not_mem_departs ?_ fun hm => ?_
  · rw [h.tree.linked.leftLeaves_of_parent hp hxy hxs,
      h.tree.linked.rightLeaves_of_parent hp hxy hxs]
    rw [hxy] at ha
    rcases mem_append.1 ha with ha | ha
    · exact mem_append_left _ (mem_append_right _ (mem_flatMap.2 ⟨_, ha, hl⟩))
    · have ha := (mem_cons.1 ha).resolve_left fun heq => hne (branch.inj heq)
      exact mem_append_right _ (mem_append_left _ (mem_flatMap.2 ⟨_, ha, hl⟩))
  · -- a child of the list is under no other child
    cases h.tree.linked.mem_leaves.1 hl with
    | step hparent haround =>
      rw [h.tree.linked.down hm] at hparent
      cases hparent
      exact h.tree.linked.not_around_of_child ha haround

end

/-- A fragment is an element of a list, between what stood beside the list, and the text has kept
its ink but for what has gone. -/
structure Arrived (doc after fragment : Document) (list added : Branch) (gone : List Leaf) : Prop
    extends Retains doc after gone where
  child : .branch added ∈ after.children list
  carries : after.Carries added fragment
  between : after.Between (doc.leftLeaves list) (after.leaves added)
    (doc.rightLeaves list)

theorem Lands.arrived (h : Lands doc mid fragment list added) :
    Arrived doc mid fragment list added [] :=
  ⟨h.toRetains, h.child, h.carries, h.between⟩

theorem Arrived.insertBreaks (h : Arrived doc mid fragment list added gone) (p n : Nat) :
    Arrived doc (mid.insertBreaks p n) fragment list added gone := by
  have hbreaks := h.tree.retains_insertBreaks p n
  have hkids : ∀ b, (mid.insertBreaks p n).children b = mid.children b :=
    children_insertBreaks mid p n
  have hleaves : (mid.insertBreaks p n).leaves added = mid.leaves added :=
    h.tree.linked.leaves_congr hbreaks.tree.linked added fun c _ => hkids c
  refine ⟨append_nil gone ▸ h.toRetains.trans hbreaks, hkids list ▸ h.child,
    h.carries.retains hbreaks hleaves fun _ _ _ => not_mem_nil, ?_⟩
  rw [hleaves]
  exact h.between.retains hbreaks (h.evolves.has_row h.tree)

theorem rewired_detachElement (doc : Document) (rule : ListRule) (list element : Branch) :
    doc.Rewired (doc.detachElement rule list element).toForest list := by
  obtain ⟨mark, late, heq, hlate⟩ := doc.detachElement_cases rule list element
  rw [heq]
  rcases hlate with rfl | ⟨span, rfl⟩
  · exact (rewired_dropMark mark doc list).removeChild element
  · exact (rewired_dropMark mark doc list).removeChild element

/-- An element that is new stays when an old one goes with its blank lines. -/
theorem Lands.detach (h : Lands doc mid fragment list added) (hd : doc.Aligned) (hm : mid.Aligned)
    (he : .branch element ∈ doc.children list) (rule : ListRule) :
    Arrived doc ((mid.withoutPadding rule list element).detachElement rule list element) fragment
        list added (doc.departs rule list element) ∧
      ((mid.withoutPadding rule list element).detachElement rule list element).Aligned := by
  obtain ⟨hcut, hthin⟩ : Retains mid (mid.withoutPadding rule list element) [] ∧
      Thinned mid (mid.withoutPadding rule list element) :=
    keeps_withoutPadding (P := fun d => Retains mid d [] ∧ Thinned mid d)
      ⟨h.tree.retains, .refl h.tree⟩ (fun d lines hd hblank =>
        ⟨hd.1.trans (hd.1.tree.retains_cut fun l hl => .inl (hblank l hl)), hd.2.cut _⟩)
      rule list element
  have hforest := (mid.withoutPadding_tables rule list element).1
  have haligned := hthin.aligned hm
  generalize mid.withoutPadding rule list element = cut at *
  have hwidened : Widened doc cut list :=
    h.toWidened.trans ⟨hcut, by rw [hforest], fun n _ => by rw [hforest],
      fun n hn _ => hforest ▸ hn⟩
  have hdetach := haligned.retains_detachElement rule list element
  have hne : added ≠ element := by
    rintro rfl
    exact h.new (h.start.linked.has_child he)
  have hchild : .branch added ∈ cut.children list := hforest ▸ h.child
  have hleaves : (cut.detachElement rule list element).leaves added =
      cut.leaves added :=
    (rewired_detachElement cut rule list element).leaves_eq haligned.tree.linked hdetach.tree.linked
      (haligned.tree.linked.has_child hchild) (haligned.tree.linked.not_around_of_child hchild)
  have hcarries := h.carries.retains hcut (by rw [hforest]) fun _ _ _ => not_mem_nil
  refine ⟨⟨(hwidened.toRetains.trans hdetach).mono fun l ho hl =>
    hwidened.departs_subset hd haligned he ho hl, mem_children_detachElement hne hchild rule,
    hcarries.retains hdetach hleaves fun l hl _ => ?_, ?_⟩,
    ((Thinned.refl haligned.tree).detachElement rule list element).aligned haligned⟩
  · exact haligned.not_mem_departs_of_sibling (hwidened.children.subset he) hchild hne hl
  · rw [hleaves, hforest]
    exact h.between.retains (hcut.trans hdetach) (h.evolves.has_row h.tree)

def replaced (doc : Document) (rule : ListRule) (list : Branch) : List Leaf :=
  (doc.placeholder? rule list).elim [] (doc.departs rule list)

theorem Aligned.not_mem_replaced (h : doc.Aligned)
    (hl : l ∈ doc.leftLeaves list ++ doc.rightLeaves list)
    (ho : l ∈ doc.order) : l ∉ doc.replaced rule list := by
  rw [replaced]
  cases hp : doc.placeholder? rule list with
  | none => exact not_mem_nil
  | some p =>
    exact h.not_mem_departs_of_beside (mem_listElements.1 (mem_of_placeholder? hp)).1 hl ho

theorem Lands.run_dropPlaceholder (h : Lands doc mid fragment list added) (hd : doc.Aligned)
    (hm : doc.listElements rule list ≠ [] → mid.Aligned)
    (hkind : rule.accepts (mid.kindOf added))
    (hrun : (dropPlaceholder rule list (doc.placeholder? rule list)).run mid = .ok () after) :
    Arrived doc after fragment list added (doc.replaced rule list) ∧
      (mid.Aligned → after.Aligned) := by
  rw [replaced]
  cases hp : doc.placeholder? rule list with
  | none =>
    rw [hp] at hrun
    cases hrun
    exact ⟨h.arrived, id⟩
  | some p =>
    have hmem := mem_of_placeholder? hp
    obtain ⟨hchild, haccepts⟩ := mem_listElements.1 hmem
    have hhas := h.start.linked.has_child hchild
    have haligned := hm (ne_nil_of_mem hmem)
    obtain ⟨taken, q, n, htake⟩ := run_takeFrom_beside
      (mem_listElements.2 ⟨h.children.subset hchild, by rwa [h.evolves.kindOf p hhas]⟩)
      (mem_listElements.2 ⟨h.child, hkind⟩) (fun he => h.new (he ▸ hhas)) h.tree.linked
    rw [hp] at hrun
    have hafter : ((mid.withoutPadding rule list p).detachElement rule list p).insertBreaks q n =
        after := by simpa [dropPlaceholder, htake] using hrun
    obtain ⟨harrived, hdetached⟩ := h.detach hd haligned hchild rule
    rw [← hafter]
    exact ⟨harrived.insertBreaks q n, fun _ => hdetached.insertBreaks q n⟩

theorem Aligned.trimStart (h : doc.Aligned) : doc.trimStart.Aligned :=
  Thinned.aligned ⟨h.tree.trimStart.tree, dropWhile_sublist _, fun _ => .refl _⟩ h

end Document

namespace Edit

variable {doc fragment : Document} {rule : ListRule} {list : Branch} {line : Nat}

theorem accepts_wrap (rule : ListRule) (hcomment : fragment.rootKind ≠ .comment) :
    rule.accepts (rule.wrap fragment).rootKind := by
  rw [ListRule.rootKind_wrap hcomment, ListRule.accepts, beq_self_eq_true, Bool.true_or]

section

variable (h : doc.Aligned) (hf : fragment.Aligned) (hlist : doc.Has list)
  (hrule : doc.listRule? list = some rule) (haccepts : rule.accepts fragment.rootKind)
  (hcomment : fragment.rootKind ≠ .comment) (hline : line ∈ doc.linesFor rule list)
include h hf hlist hrule haccepts hcomment hline

theorem arrived_addAtLine_clause (hinline : doc.isInline rule list) :
    ∃ added after, (addAtLine list line fragment).run doc = .ok added after ∧
      doc.Arrived after fragment list added (doc.replaced rule list) ∧
      ((doc.listElements rule list = [] → doc.visibleLeaves list = []) →
        after.Aligned) := by
  obtain ⟨index, after, hdrop, hrun⟩ := run_addAtLine_clause hrule (.inr haccepts) h.tree
    h.ordered hf.tree hinline hline
  have hrelaid := hf.tree.increaseIndent fragment.root (doc.indent list)
  have hclause := (hf.increaseIndent fragment.root (doc.indent list)).trimStart
  have hkind := (hrelaid.trans hrelaid.tree.trimStart).rootKind
  have hcarry := (carries_trimStart _).trans
    (hf.tree.carries_increaseIndent fragment.root (doc.indent list))
  generalize (fragment.increaseIndent fragment.root (doc.indent list)).trimStart =
    clause at *
  obtain ⟨hlands, haligned⟩ := h.lands_insertBeside hlist (hclause.wrap rule) rule index
  have hadded : (doc.insertBeside rule list index (rule.wrap clause)).2.kindOf
      (doc.insertBeside rule list index (rule.wrap clause)).1 = (rule.wrap clause).rootKind :=
    (mem_insertBeside h.tree.linked hlist (hclause.wrap rule).tree rule index).2.1
  have hlands := hlands.carry ((hclause.tree.carries_wrap rule).trans hcarry)
  obtain ⟨harrived, hkept⟩ := hlands.run_dropPlaceholder h
    (fun hne => haligned fun hnil => absurd hnil hne)
    (by rw [hadded]; exact accepts_wrap rule (hkind ▸ hcomment)) hdrop
  exact ⟨_, after, hrun, harrived, fun hstray => hkept (haligned hstray)⟩

theorem arrived_addAtLine_lines (habove : doc.ClearAbove rule list)
    (hinline : doc.isInline rule list = false) :
    ∃ added after, (addAtLine list line fragment).run doc = .ok added after ∧
      doc.Arrived after fragment list added (doc.replaced rule list) ∧ after.Aligned := by
  obtain ⟨mid, hdrop, hrun⟩ := run_addAtLine_lines hrule (.inr haccepts) h.tree h.ordered hf.tree
    hinline line (.inr hline)
  rw [decide_eq_false hcomment] at hdrop hrun
  have hunfolded := h.unfolded list
  have hlist' : (doc.unfolded list).Has list := (doc.retexted_unfolded list).has _ hlist
  have henters := h.enters_entryLine hinline hlist habove hline
  have hlands := ((hunfolded.lands_insertLines hlist' henters (hf.wrap rule) rule).of_unfolded
    h.tree).carry (hf.tree.carries_wrap rule)
  have haligned := hunfolded.insertLines hlist' henters (hf.wrap rule) rule false
  have hadded := (mem_insertLines hunfolded.tree.linked hlist' (hf.wrap rule).tree rule
    (doc.entryLine rule list line)).2.1
  obtain ⟨harrived, hkept⟩ := hlands.run_dropPlaceholder h (fun _ => haligned)
    (by rw [hadded]; exact accepts_wrap rule hcomment) hdrop
  refine ⟨_, _, hrun, ?_⟩
  split
  · -- the blank lines of a padded list are breaks, which part nothing
    exact keeps_padAround (P := fun d =>
        doc.Arrived d fragment list _ (doc.replaced rule list) ∧ d.Aligned)
      (fun d p n hd => ⟨hd.1.insertBreaks p n, hd.2.insertBreaks p n⟩)
      ⟨harrived, hkept haligned⟩ rule list _ false
  · exact ⟨harrived, hkept haligned⟩

/-- An element arrives at every line that a list offers. -/
theorem arrived_addAtLine (habove : doc.ClearAbove rule list) :
    ∃ added after, (addAtLine list line fragment).run doc = .ok added after ∧
      doc.Arrived after fragment list added (doc.replaced rule list) ∧
      ((doc.isInline rule list = true → doc.listElements rule list = [] →
        doc.visibleLeaves list = []) → after.Aligned) := by
  cases hinline : doc.isInline rule list with
  | true =>
    obtain ⟨added, after, hrun, harrived, haligned⟩ :=
      arrived_addAtLine_clause h hf hlist hrule haccepts hcomment hline hinline
    exact ⟨added, after, hrun, harrived, fun hstray => haligned (hstray rfl)⟩
  | false =>
    obtain ⟨added, after, hrun, harrived, haligned⟩ :=
      arrived_addAtLine_lines h hf hlist hrule haccepts hcomment hline habove hinline
    exact ⟨added, after, hrun, harrived, fun _ => haligned⟩

end

/-- An element that is added at an offered line shows the ink of its fragment, between the former
neighbours of its list. The ink of the text stays in its order, apart from a placeholder that is
replaced and its delimiter. So does the tree, except that a list of clauses which has none, but
shows stray delimiters, may take the new one on their wrong side. -/
theorem ink_addAtLine {lines : List Nat} (h : doc.IsTree) (ho : doc.Ordered) (hf : fragment.IsTree)
    (hfo : fragment.Ordered) (hlist : doc.Has (.branch list))
    (hrule : doc.listRule? list = some rule) (habove : doc.ClearAbove rule list)
    (hlines : doc.availableLines list = .ok lines) (hline : line ∈ lines)
    (hkind : doc.canAdd list fragment.rootKind = true) (hcomment : fragment.rootKind ≠ .comment) :
    ∃ added after, (addAtLine list line fragment).run doc = .ok added after ∧ after.IsTree ∧
      ((doc.isInline rule list = true → doc.listElements rule list = [] →
        doc.visibleLeaves (.branch list) = []) → after.Ordered) ∧
      .branch added ∈ after.children list ∧
      fragment.shownInk (.branch fragment.root) <+ after.shownInk (.branch added) ∧
      (∀ y ∈ doc.leftLeaf? (.branch list), (y ∈ doc.ink → y ∈ after.order) ∧
        ∀ x ∈ after.visibleLeaves (.branch added), after.Precedes y x) ∧
      (∀ z ∈ doc.rightLeaf? (.branch list), (z ∈ doc.ink → z ∈ after.order) ∧
        ∀ x ∈ after.visibleLeaves (.branch added), after.Precedes x z) ∧
      doc.ink.filter (!(doc.replaced rule list).contains ·) <+ after.order ∧
      ∀ l ∈ doc.order, after.textOf l = doc.textOf l := by
  have haccepts := (Grammar.accepts_of_listRule? hrule fragment.rootKind).2.symm.trans hkind
  rw [availableLines, hrule] at hlines
  cases hlines
  obtain ⟨added, after, hrun, harrived, haligned⟩ :=
    arrived_addAtLine ⟨h, ho⟩ ⟨hf, hfo⟩ hlist hrule haccepts hcomment hline habove
  have hkept : ∀ l ∈ doc.leftLeaves list ++ doc.rightLeaves list, l ∈ doc.ink →
      l ∈ after.order := fun l hl hink => harrived.kept l hink
    (Document.Aligned.not_mem_replaced ⟨h, ho⟩ hl (mem_ink.1 hink).1)
  have hshown : ∀ x ∈ after.visibleLeaves added, x ∈ after.leaves added :=
    fun x hx => (mem_visibleLeaves.1 hx).1
  refine ⟨added, after, hrun, harrived.tree, fun hstray => (haligned hstray).ordered,
    harrived.child, harrived.carries.shownInk, fun y hy => ?_, fun z hz => ?_, harrived.ink_sublist,
    fun l hl => harrived.evolves.textOf l (h.order_has l hl)⟩
  · rw [leftLeaf?_eq h.linked] at hy
    have hy := mem_of_mem_filter (mem_of_getLast? hy)
    exact ⟨hkept y (mem_append_left _ hy),
      fun x hx => harrived.between.left y hy x (hshown x hx)⟩
  · rw [rightLeaf?_eq h.linked] at hz
    have hz := mem_of_mem_filter (mem_of_mem_head? hz)
    exact ⟨hkept z (mem_append_right _ hz),
      fun x hx => harrived.between.right x (hshown x hx) z hz⟩

/-- Between parentheses that hold only a comma, an argument goes behind the comma, but becomes a
child before it. -/
theorem ink_addAtLine_comma :
    let rule : ListRule := { element := .argument, delimiter := ",", trailing := true }
    let start : Builder :=
      { grammar := Grammar.withShape .javaScript .argumentList (.list rule), source := "f(,)" }
    let calls : List Builder.Call := [.openNode .program, .token "f", .token "(",
      .openNode .argumentList, .token ",", .closeNode, .token ")", .closeNode]
    let fragment := Document.ofSource .javaScript .argument "x"
    ∃ doc, (start.run calls).finish = .ok doc ∧ doc.IsTree ∧ doc.Ordered ∧
      doc.children ⟨1⟩ = [.leaf ⟨2⟩] ∧ doc.availableLines ⟨1⟩ = .ok [0] ∧
      doc.canAdd ⟨1⟩ .argument = true ∧
      ∃ added after, (addAtLine ⟨1⟩ 0 fragment).run doc = .ok added after ∧
        after.children ⟨1⟩ = [.branch added, .leaf ⟨2⟩] ∧ after.text = "f(,x)" ∧
        ¬ after.Ordered := by
  intro rule start calls fragment
  let doc := (start.run calls).built
  have hfinish : (start.run calls).finish = .ok doc := by decide +kernel
  obtain ⟨htree, hordered⟩ := Builder.isTree_of_run hfinish
  have hf : fragment.Aligned := aligned_ofSource ..
  have hrule : doc.listRule? ⟨1⟩ = some rule := by decide +kernel
  have hlines : doc.availableLines ⟨1⟩ = .ok [0] := by decide +kernel
  have hkind : doc.canAdd ⟨1⟩ .argument := by decide +kernel
  have hcomma : doc.children ⟨1⟩ = [.leaf ⟨2⟩] := by decide +kernel
  obtain ⟨added, after, hrun, -, -, hchild, -⟩ := ink_addAtLine htree hordered hf.tree hf.ordered
    (by decide +kernel) hrule (.inl rfl) hlines (mem_singleton_self 0) hkind
    (by decide +kernel)
  have hafter : (addAtLine ⟨1⟩ 0 fragment).left doc = after := left_of_ok hrun
  have hchildren : after.children ⟨1⟩ = [.branch ⟨2⟩, .leaf ⟨2⟩] := by
    rw [← hafter]
    decide +kernel
  have hadded : added = ⟨2⟩ := by simpa [hchildren] using hchild
  refine ⟨doc, hfinish, htree, hordered, hcomma, hlines, hkind, added, after, hrun,
    hadded ▸ hchildren, ?_, fun h => ?_⟩
  · rw [← hafter]
    decide +kernel
  · have hpairwise := h ⟨1⟩
    rw [← hafter] at hpairwise
    revert hpairwise
    decide +kernel

end Edit

end Lossless
