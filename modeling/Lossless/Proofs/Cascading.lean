import Lossless.Proofs.Parting
import Lossless.Proofs.Placeholders
import Lossless.Proofs.Vacated

/-! Removing any node below the root. A removal climbs from the node to the first container that can
do without what is below it. It never climbs past the root, and whatever goes takes the tokens of
the node with it. -/

namespace Lossless

open List Option Forest Bool

theorem Grammar.not_accepts_leaf {language : Language} {kind : Kind} {rule : ListRule}
    (h : language.grammar.listRule? kind = some rule) :
    rule.accepts .token = false ∧ rule.accepts .newline = false := by
  have key : ∀ kind ∈ Kind.all, ∀ rule ∈ (language.grammar.listRule? kind).toList,
      rule.accepts .token = false ∧ rule.accepts .newline = false := by
    cases language <;> decide +kernel
  exact key kind (mem_all kind) rule (mem_toList.2 h)

namespace Document

variable {doc mid after fragment : Document} {rule : ListRule} {list element b c : Branch}
  {node n : Node} {r : Removal} {l : Leaf}

/-! ### Where the climb ends -/

/-- A removal that takes a node away, alone or with a container around it. -/
inductive Removes (doc : Document) (node : Node) : Removal → Prop
  | optional {b : Branch} {rule : OptionalRule} (hin : doc.leaves node ⊆ doc.leaves b) :
      Removes doc node (.optional b rule)
  | element {list element : Branch} {rule : ListRule} (hrule : doc.listRule? list = some rule)
      (he : element ∈ doc.listElements rule list) (hin : doc.Around element node) :
      Removes doc node (.element list element)
  | child {p : Branch} {n : Node} (hin : doc.leaves node ⊆ doc.leaves n) :
      Removes doc node (.child p n)

theorem leaves_subset_of_parent (h : doc.Linked) (hp : doc.parent node = some c) :
    doc.leaves node ⊆ doc.leaves c := by
  intro l hl
  rw [h.leaves_branch]
  exact mem_flatMap.2 ⟨node, h.up hp, hl⟩

theorem leaves_subset_of_around (h : doc.Linked) (ha : doc.Around b node) :
    doc.leaves node ⊆ doc.leaves b := by
  induction ha with
  | self => exact Subset.refl _
  | step hp _ ih => exact Subset.trans (leaves_subset_of_parent h hp) ih

theorem Removes.inside (h : doc.Linked) (hp : doc.parent node = some c)
    (hr : doc.Removes c r) : doc.Removes node r := by
  have hin := leaves_subset_of_parent h hp
  cases hr with
  | optional hsub => exact .optional (Subset.trans hin hsub)
  | element hrule he ha => exact .element hrule he (.step hp ha)
  | child hsub => exact .child (Subset.trans hin hsub)

theorem removal_of_parent (h : doc.Linked) (hp : doc.parent node = some c) :
    doc.removal node = ((doc.ownRemoval? node).or (doc.removalFrom? c node)).getD
      (doc.removal c) := by
  rw [removal, h.ancestors_of_parent hp, removalAlong]
  rfl

theorem removes_of_own (hne : node ≠ .branch doc.root) (hp : doc.parent node = some c)
    (hr : doc.ownRemoval? node = some r) : doc.Removes node r := by
  cases node with
  | leaf l => cases hr
  | branch b =>
    have hb : b ≠ doc.root := fun heq => hne (heq ▸ rfl)
    simp only [ownRemoval?, if_neg hb, hp, isNone_some, Bool.and_false, false_eq_true,
      if_false, map_eq_some_iff] at hr
    obtain ⟨rule, -, rfl⟩ := hr
    exact .optional (Subset.refl _)

/-- The root parts with anything below it, so the climb ends there at the latest. -/
theorem removalFrom?_root (hroot : doc.shapeOf doc.root ≠ .comment) (node : Node) :
    doc.removalFrom? doc.root node ≠ none := by
  unfold removalFrom?
  simp only [decide_true, Bool.or_true, if_true]
  split
  · split
    · split <;> exact some_ne_none _
    · exact some_ne_none _
  · exact some_ne_none _
  · next hshape => exact absurd hshape hroot
  · exact some_ne_none _

section

variable (hlists : ∀ kind rule, doc.grammar.listRule? kind = some rule →
  rule.accepts .token = false ∧ rule.accepts .newline = false)
include hlists

theorem removes_of_from (h : doc.Linked) (hp : doc.parent node = some c)
    (hr : doc.removalFrom? c node = some r) : doc.Removes node r := by
  have hplain : (if doc.keepsContent c node || c = doc.root then some (Removal.child c node)
      else none) = some r → doc.Removes node r := by
    intro hr
    split at hr
    · obtain rfl := some.inj hr
      exact .child (Subset.refl _)
    · cases hr
  unfold removalFrom? at hr
  dsimp only at hr
  split at hr
  · next rule hshape =>
    have hrule : doc.listRule? c = some rule := by
      unfold listRule? Grammar.listRule?
      rw [← shapeOf, hshape]
    split at hr
    · next haccepts =>
      cases node with
      | branch element =>
        obtain rfl := some.inj hr
        exact .element hrule (mem_listElements.2 ⟨h.up hp, haccepts⟩) .self
      | leaf l =>
        have hkind := hlists _ rule hrule
        rw [kind] at haccepts
        split at haccepts
        · exact absurd haccepts (by rw [hkind.2]; exact false_ne_true)
        · exact absurd haccepts (by rw [hkind.1]; exact false_ne_true)
    · exact hplain hr
  · obtain rfl := some.inj hr
    exact .optional (leaves_subset_of_parent h hp)
  · cases hr
  · exact hplain hr

theorem removes_removal (h : doc.Linked) (hroot : doc.shapeOf doc.root ≠ .comment)
    (hnode : doc.Around doc.root node) (hne : node ≠ .branch doc.root) :
    doc.Removes node (doc.removal node) := by
  induction hnode with
  | self => exact absurd rfl hne
  | @step node c hp _ ih =>
    rw [removal_of_parent h hp]
    cases hown : doc.ownRemoval? node with
    | some r => exact removes_of_own hne hp hown
    | none =>
      cases hfrom : doc.removalFrom? c node with
      | some r => exact removes_of_from hlists h hp hfrom
      | none =>
        refine .inside h hp (ih fun heq => ?_)
        obtain rfl := Node.branch.inj heq
        exact removalFrom?_root hroot node hfrom

end

/-! ### What goes with it -/

structure Sheds (doc after : Document) (node : Node) : Prop where
  root : after.root = doc.root
  gone : ∀ l ∈ doc.leaves node, l ∉ after.order
  hidden : after.visibleLeaves node = []

theorem Thinned.around (h : Thinned doc mid) (hd : doc.Linked) (ha : mid.Around b node) :
    doc.Around b node := by
  induction ha with
  | self => exact .self
  | step hp _ ih => exact .step (hd.down ((h.children _).subset (h.tree.linked.up hp))) ih

theorem Thinned.sheds (h : Thinned doc after) (hd : doc.IsTree) (hroot : after.root = doc.root)
    (hin : doc.leaves node ⊆ doc.leaves n) (hgone : ∀ l ∈ doc.visibleLeaves n, l ∉ after.order) :
    doc.Sheds after node := by
  have hout : ∀ l ∈ doc.leaves node, l ∉ after.order := fun l hl ho =>
    hgone l (mem_visibleLeaves.2 ⟨hin hl, h.order.subset ho⟩) ho
  refine ⟨hroot, hout, eq_nil_iff_forall_not_mem.2 fun l hl => ?_⟩
  obtain ⟨hleaf, ho⟩ := mem_visibleLeaves.1 hl
  exact hout l ((hd.linked.leaves_sublist h.tree.linked h.children node).subset hleaf) ho

section

variable (h : doc.Aligned)
include h

theorem Aligned.not_mem_of_clearOptional (rule : OptionalRule)
    (hl : l ∈ doc.visibleLeaves b) : l ∉ (doc.clearOptional rule b).order := by
  obtain ⟨r, hr⟩ := exists_range? hl
  obtain ⟨i, hi⟩ := exists_position (h.visible _ |>.subset hl)
  have hin := h.visibleLeaves_subset _ hl
  rw [coveredLeaves, hr] at hin
  have hbounds := (mem_leavesIn h.tree.order_nodup hi).1 hin
  obtain ⟨a, z, ha, hz, hcut, -⟩ := h.cutOptional_gap hr rule
  rw [Document.clearOptional, hr]
  intro ho
  obtain ⟨j, hj⟩ := exists_position (show _ ∈ (doc.cutOptional rule b r).order from ho)
  rcases Nat.lt_or_ge j a with hlt | hge
  · have := hi.symm.trans (hcut.position_before h.tree.order_nodup hj hlt)
    grind
  · have := hi.symm.trans (hcut.position_behind h.tree.order_nodup hj hge)
    have := hcut.le
    grind

theorem Aligned.sheds_clearOptional (rule : OptionalRule)
    (hin : doc.leaves node ⊆ doc.leaves b) : doc.Sheds (doc.clearOptional rule b) node := by
  have hev : Grows doc (doc.clearOptional rule b) :=
    (Evolves.refl h.tree.linked).clearOptional rule b
  exact ((Thinned.refl h.tree).clearOptional rule b).sheds h.tree hev.root hin
    fun _ => h.not_mem_of_clearOptional rule

theorem Aligned.sheds_detachChild (p : Branch) (hin : doc.leaves node ⊆ doc.leaves n) :
    doc.Sheds (doc.detachChild p n) node := by
  refine ((Thinned.refl h.tree).detachChild p n).sheds h.tree rfl hin fun l hl ho => ?_
  have hleft := (mem_filter.1 ho).2
  rw [contains_iff_mem.2 (h.visibleLeaves_subset n hl)] at hleft
  exact false_ne_true hleft

end

/-! ### Containers that a placeholder leaves alone -/

theorem children_insertChild_of_ne (hne : c ≠ list) (doc : Document) (i : Nat) (node : Node) :
    (doc.insertChild list i node).children c = doc.children c := by
  refine (children_setParent ..).trans ((children_setChildren ..).trans ?_)
  rw [if_neg fun heq => hne heq.1]

theorem children_addDelimiter_of_ne (hne : c ≠ list) (doc : Document) (rule : ListRule)
    (element : Branch) : (doc.addDelimiter rule list element).children c = doc.children c := by
  rcases doc.addDelimiter_cases rule list element with he | ⟨p, i, he⟩ <;> rw [he]
  exact children_insertChild_of_ne hne _ i _

section

variable (hc : doc.Has c) (hne : c ≠ list)
include hc hne

theorem children_insertLines_of_ne (rule : ListRule) (line : Nat) (fragment : Document)
    (isComment : Bool) :
    (doc.insertLines rule list line fragment isComment).2.children c = doc.children c := by
  have hplace : ∀ base p laid, doc.LinePlace line base p →
      (base.withTokens p laid).children c = doc.children c := by
    intro base p laid hplace
    have hbase : base.Has c ∧ base.children c = doc.children c := by
      rcases hplace.base_eq with rfl | rfl
      · exact ⟨hc, rfl⟩
      · rcases doc.endLine_cases with he | he <;> rw [he]
        · exact ⟨hc, rfl⟩
        · exact ⟨hc, rfl⟩
    exact (children_graft_of_has hbase.1 laid).trans hbase.2
  cases isComment with
  | true =>
    obtain ⟨base, p, hbase, he⟩ := doc.insertLines_comment rule list line fragment
    rw [he]
    exact hplace base p _ hbase
  | false =>
    obtain ⟨base, p, hbase, he⟩ := doc.insertLines_element rule list line fragment
    have hput := hplace base p (doc.lineFragment list fragment) hbase
    rw [he]
    generalize base.withTokens p (doc.lineFragment list fragment) = placed at hput
    generalize base.rehomeBranch (doc.lineFragment list fragment).root = added
    have hcomments : ∀ d : Document, d.updateComments.children c = d.children c := fun _ => rfl
    dsimp only
    rw [hcomments, children_addDelimiter_of_ne hne, placeChild, children_insertChild_of_ne hne, hput]

theorem children_refilled_of_ne (rule : ListRule) (line : Nat) (text : String) :
    (doc.refilled rule list line text).children c = doc.children c := by
  have hunfold : (doc.unfolded list).Has c ∧
      (doc.unfolded list).children c = doc.children c := by
    unfold unfolded
    split
    · exact ⟨(retexted_unfoldBody doc list).has _ hc, children_unfoldBody ..⟩
    · exact ⟨hc, rfl⟩
  have hlines := fun line fragment isComment =>
    (children_insertLines_of_ne hunfold.1 hne rule line fragment isComment).trans hunfold.2
  unfold refilled
  dsimp only
  split
  · exact Edit.keeps_padAround (P := fun d => d.children c = doc.children c)
      (fun d p n hd => (children_insertBreaks ..).trans hd) (hlines ..) ..
  · exact hlines ..

theorem children_putAlone_of_ne (h : doc.Linked) (hout : .branch list ∉ doc.children c)
    (hf : fragment.IsTree) (rule : ListRule) :
    (doc.putAlone rule list fragment).children c = doc.children c := by
  have hstock : (doc.stock rule fragment).2.children c = doc.children c :=
    (children_newLiteral ..).trans (children_graft_of_has hc fragment)
  have hev : Grows doc (doc.stock rule fragment).2 :=
    evolves_stock h hf (fun _ _ _ => trivial) rule
  refine (children_insertChild_of_ne hne _ 0 _).trans (Eq.trans ?_ hstock)
  show ((doc.stock rule fragment).2.makeRoom list).2.children c = _
  rcases (doc.stock rule fragment).2.makeRoom_cases list with he |
    ⟨tuple, delimiter, position, index, hp, he⟩
  · exact he c
  · rw [he]
    refine (rewired_separateSlot (hev.linked.has_parent hp) ..).children c (hev.has _ hc) ?_
    rintro rfl
    exact hout (hstock ▸ hev.linked.up hp)

end

end Document

namespace Edit

open Document

variable {doc mid : Document} {rule : ListRule} {list element c optional : Branch} {node : Node}

theorem children_refill_of_ne (h : doc.Aligned) (hc : doc.Has c) (hne : c ≠ list)
    (hout : .branch list ∉ doc.children c) (hrun : (refill rule list).run doc = .ok () mid) :
    mid.children c = doc.children c := by
  rcases run_refill (unfolds_of_ordered h.tree h.ordered rule list) with ⟨-, he⟩ |
    ⟨placeholder, line, hbare, ⟨-, he⟩ | ⟨-, index, he⟩⟩ <;>
    obtain ⟨-, rfl⟩ := EStateM.Result.ok.inj (hrun.symm.trans he)
  · rfl
  · exact children_refilled_of_ne hc hne ..
  · rw [insertBeside_eq, hbare.empty]
    simp only [getElem?_nil, ite_self, isEmpty_nil, if_true]
    exact children_putAlone_of_ne hc hne h.tree.linked hout
      ((((aligned_ofSource ..).increaseIndent ..).trimStart).wrap rule).tree rule

theorem run_takeFrom_of_last {optionalRule : OptionalRule}
    (hlast : doc.listElements rule list = [element])
    (hopt : doc.optionalAround? list = some (optional, optionalRule)) :
    ∃ taken, (takeFrom rule list element).run doc =
      .ok taken (doc.clearOptional optionalRule optional) := by
  have hrun : ∃ taken, (takeElement rule list element).run doc =
      .ok taken (doc.clearOptional optionalRule optional) := by
    unfold takeElement
    rw [run_get_bind]
    dsimp only
    rw [hlast, length_singleton, if_pos rfl, hopt]
    exact ⟨_, rfl⟩
  obtain ⟨taken, hrun⟩ := hrun
  refine ⟨taken, ?_⟩
  have hquiet : doc.withoutBlank rule list element = doc := by
    simp [withoutBlank, hlast]
  rw [takeFrom]
  split
  · rw [run_takePadded, hquiet, hrun, hlast, idxOf_cons_self]
    rfl
  · exact hrun

/-- An element goes, and a placeholder that comes in its place leaves alone what was below it. -/
theorem sheds_takeFrom (h : doc.Aligned) (he : element ∈ doc.listElements rule list)
    (hin : doc.Around element node) :
    ∃ taken after, (takeFrom rule list element).run doc = .ok taken after ∧
      doc.Sheds after node := by
  have hkid := (mem_listElements.1 he).1
  have hpart := h.parted hkid rule
  have hthin := (thinned_withoutPadding h.tree rule list element).detachElement rule list element
  have hopen : ∀ c, doc.Around element (.branch c) → c ≠ list ∧ .branch list ∉ doc.children c :=
    fun c hc => ⟨fun heq => h.tree.linked.not_around_of_child hkid (heq ▸ hc),
      fun hl => h.tree.linked.not_around_of_child hkid (.step (h.tree.linked.down hl) hc)⟩
  -- tokens stay away, and no container below the element gets a new child
  have key : ∀ mid p n, Retains ((doc.withoutPadding rule list element).detachElement rule list
        element) mid [] → (∀ c, doc.Around element (.branch c) → mid.children c =
        ((doc.withoutPadding rule list element).detachElement rule list element).children c) →
      doc.Sheds (mid.insertBreaks p n) node := by
    intro mid p n hmid hbelow
    have hrest := hmid.trans (hmid.tree.retains_insertBreaks p n)
    have hout : ∀ l ∈ doc.leaves node, l ∉ (mid.insertBreaks p n).order := by
      intro l hl ho
      have hmem : l ∈ doc.leaves element := leaves_subset_of_around h.tree.linked hin hl
      have hstay := hrest.old l ho (hpart.1.evolves.has _ (h.tree.linked.has_of_mem_leaves hmem))
      have hshown := mem_visibleLeaves.2 ⟨hmem, hthin.order.subset hstay⟩
      exact hpart.2.2 l (mem_departs.2 (.inl (h.visibleLeaves_subset _ hshown))) hstay
    refine ⟨(hpart.1.trans hrest).evolves.root, hout, eq_nil_iff_forall_not_mem.2 fun l hl => ?_⟩
    obtain ⟨hleaf, ho⟩ := mem_visibleLeaves.1 hl
    refine hout l ?_ ho
    cases node with
    | leaf m =>
      rw [leaves_leaf] at hleaf ⊢
      exact hleaf
    | branch b =>
      rw [hthin.tree.linked.leaves_congr hrest.tree.linked b fun c hc =>
        (children_insertBreaks ..).trans (hbelow c ((hthin.around h.tree.linked hc).trans hin))]
        at hleaf
      exact (h.tree.linked.leaves_sublist hthin.tree.linked hthin.children _).subset hleaf
  by_cases hother : ∃ other ∈ doc.listElements rule list, other ≠ element
  · obtain ⟨other, ho, hne⟩ := hother
    obtain ⟨taken, p, n, hrun⟩ := run_takeFrom_beside he ho hne h.tree.linked
    exact ⟨taken, _, hrun, key _ p n hthin.tree.retains fun _ _ => rfl⟩
  · have hlast := listElements_eq_singleton h.tree.linked fun e =>
      ⟨fun hm => by_contra fun hne => hother ⟨e, hm, hne⟩, fun heq => heq ▸ he⟩
    cases hopt : doc.optionalAround? list with
    | none =>
      obtain ⟨mid, hrefill, hmid⟩ := retains_refill hpart.2.1 (hpart.1.evolves.has _
        (h.tree.linked.has_parent (h.tree.linked.down hkid))) rule
      obtain ⟨taken, p, n, hrun⟩ := run_takeFrom_of_refill hopt hrefill
      refine ⟨taken, _, hrun, key mid p n hmid fun c hc => ?_⟩
      refine children_refill_of_ne hpart.2.1 (hpart.1.evolves.has _ (hc.has_inside
        (h.tree.linked.has_child hkid))) (hopen c hc).1 (fun hl => ?_) hrefill
      exact (hopen c hc).2 ((hthin.children c).subset hl)
    | some found =>
      obtain ⟨taken, hrun⟩ := run_takeFrom_of_last hlast hopt
      refine ⟨taken, _, hrun, h.sheds_clearOptional _ (leaves_subset_of_around h.tree.linked ?_)⟩
      have hp := parent_of_optionalAround? hopt
      exact hin.trans (.step (h.tree.linked.down hkid) (.step hp .self))

/-- Whatever node below the root is removed, the removal succeeds, keeps the root and takes every
token of the node out of the text. -/
theorem sheds_remove (h : doc.IsTree) (ho : doc.Ordered)
    (hlists : ∀ kind rule, doc.grammar.listRule? kind = some rule →
      rule.accepts .token = false ∧ rule.accepts .newline = false)
    (hroot : doc.shapeOf doc.root ≠ .comment) (hnode : doc.Around doc.root node)
    (hne : node ≠ .branch doc.root) :
    ∃ after, (remove node).run doc = .ok () after ∧ after.root = doc.root ∧
      (∀ l ∈ doc.leaves node, l ∉ after.order) ∧ after.visibleLeaves node = [] := by
  have ha : doc.Aligned := ⟨h, ho⟩
  have hremoves := removes_removal hlists h.linked hroot hnode hne
  have hrun : ∃ after, (remove node).run doc = .ok () after ∧ doc.Sheds after node := by
    unfold remove
    rw [run_get_bind]
    generalize doc.removal node = r at hremoves
    cases hremoves with
    | optional hin => exact ⟨_, rfl, ha.sheds_clearOptional _ hin⟩
    | child hin => exact ⟨_, rfl, ha.sheds_detachChild _ hin⟩
    | element hrule he hin =>
      obtain ⟨taken, after, hrun, hsheds⟩ := sheds_takeFrom ha he hin
      refine ⟨after, ?_, hsheds⟩
      simp [run_discard, removeElement, run_listRule hrule,
        h.linked.down (mem_listElements.1 he).1, hrun]
  obtain ⟨after, hrun, hsheds⟩ := hrun
  exact ⟨after, hrun, hsheds.root, hsheds.gone, hsheds.hidden⟩

/-- The only token of a statement takes the statement with it out of a body. -/
theorem sheds_remove_statement :
    let start : Builder := { grammar := .python, source := "def f:\n  x\n" }
    let calls : List Builder.Call := [.openNode .program, .openNode .function, .token "def",
      .token "f", .token ":", .openNode .enclosedBody, .openNode .statementList,
      .openNode .statement, .token "x", .closeNode, .closeNode, .closeNode, .closeNode, .closeNode]
    ∃ doc, (start.run calls).finish = .ok doc ∧ doc.IsTree ∧ doc.Ordered ∧
      doc.shapeOf doc.root ≠ .comment ∧ doc.Around doc.root (.leaf ⟨6⟩) ∧
      doc.removal (.leaf ⟨6⟩) = .element ⟨3⟩ ⟨4⟩ ∧
      ∃ after, (remove (.leaf ⟨6⟩)).run doc = .ok () after ∧ after.root = ⟨0⟩ ∧
        ⟨6⟩ ∉ after.order := by
  intro start calls
  let doc := (start.run calls).built
  have hfinish : (start.run calls).finish = .ok doc := by decide +kernel
  obtain ⟨htree, hordered⟩ := Builder.isTree_of_run hfinish
  have hpython : doc.grammar = Language.python.grammar := by decide +kernel
  have hroot : doc.shapeOf doc.root ≠ .comment := by decide +kernel
  have hnode : doc.Around doc.root (.leaf ⟨6⟩) :=
    (htree.linked.contains_iff _).1 (by decide +kernel)
  obtain ⟨after, hrun, hkept, hgone, -⟩ := sheds_remove htree hordered
    (fun _ _ h => Grammar.not_accepts_leaf (hpython ▸ h)) hroot hnode (by decide +kernel)
  have hremoval : doc.removal (.leaf ⟨6⟩) = .element ⟨3⟩ ⟨4⟩ := by decide +kernel
  have hzero : doc.root = ⟨0⟩ := by decide +kernel
  have hleaf : ⟨6⟩ ∈ doc.leaves (.leaf ⟨6⟩) := by decide +kernel
  exact ⟨doc, hfinish, htree, hordered, hroot, hnode, hremoval, after, hrun, hkept.trans hzero,
    hgone _ hleaf⟩

end Edit

end Lossless
