import Lossless.Proofs.Parting
import Lossless.Proofs.Restoring

/-! Lists that are cleared. What goes is the list with the white space and the comments inside its
bounds, and no bound has to be a token of the container around the list: what stands behind that
container may go too. -/

namespace Lossless

open List Option Document EStateM

namespace Document

variable {doc mid after : Document} {rule : ListRule} {list parent : Branch} {node : Node}
  {gone : List Leaf} {l x y : Leaf}

def clearSpan (doc : Document) (rule : ListRule) (list : Branch) : Span :=
  let topLevel := doc.isTopLevel list
  let trivia := doc.trivia list
  let range := doc.range? list
  if !rule.multiline then trivia
  else if !rule.below.applies topLevel then ⟨trivia.start, (range.map Span.stop).getD trivia.start⟩
  else if !rule.above.applies topLevel then ⟨(range.map Span.start).getD trivia.stop, trivia.stop⟩
  else trivia

def isFramed (doc : Document) (rule : ListRule) (list : Branch) : Bool :=
  let topLevel := doc.isTopLevel list
  rule.multiline && rule.above.applies topLevel && rule.below.applies topLevel

def stripped (doc : Document) (rule : ListRule) (list : Branch) : Document :=
  (doc.clearChildren list).cut (doc.clearSpan rule list)

theorem emptyList_eq (doc : Document) (rule : ListRule) (list : Branch) :
    doc.emptyList rule list = (if doc.isFramed rule list then
        let closing := (doc.stripped rule list).newIndentedBreak (doc.parentIndent list)
        closing.2.insertAt (doc.clearSpan rule list).start closing.1
      else doc.stripped rule list).updateComments :=
  rfl

/-- The optional around a list goes with it. -/
def clearedList (doc : Document) (rule : ListRule) (list : Branch) : Document :=
  ((doc.emptyList rule list).optionalAround? list).elim (doc.emptyList rule list) fun found =>
    (doc.emptyList rule list).clearOptional found.2 found.1

theorem children_clearedList_eq_nil (doc : Document) (rule : ListRule) (list : Branch) :
    (doc.clearedList rule list).children list = [] := by
  have hnil := doc.children_clearedList rule list
  rw [clearedList]
  cases hopt : (doc.emptyList rule list).optionalAround? list <;> rw [hopt] at hnil <;> exact hnil

section

variable (h : doc.Aligned)
include h

theorem Aligned.clearSpan_bounds (rule : ListRule) (list : Branch) :
    (doc.trivia list).start ≤ (doc.clearSpan rule list).start ∧
      (doc.clearSpan rule list).stop ≤ (doc.trivia list).stop := by
  have hle := doc.trivia_start_le list
  rw [clearSpan]
  cases hr : doc.range? list with
  | none =>
    split
    · exact ⟨le_rfl, le_rfl⟩
    split
    · exact ⟨le_rfl, hle⟩
    split
    · exact ⟨hle, le_rfl⟩
    · exact ⟨le_rfl, le_rfl⟩
  | some r =>
    have hbounds := h.range_bounds hr
    split
    · exact ⟨le_rfl, le_rfl⟩
    split
    · exact ⟨le_rfl, hbounds.2⟩
    split
    · exact ⟨hbounds.1, le_rfl⟩
    · exact ⟨le_rfl, le_rfl⟩

theorem Aligned.retains_stripped (rule : ListRule) (list : Branch) :
    Retains doc (doc.stripped rule list) (doc.leavesIn (doc.clearSpan rule list)) := by
  have hthin := ((Thinned.refl h.tree).clearChildren list).cut (doc.clearSpan rule list)
  refine .of_sublist (((Evolves.refl h.tree.linked).clearChildren list).cut _) h.tree hthin.tree
    hthin.order fun l ho hout => .inr ((not_mem_cut h.tree.order_nodup ho).1 hout)

theorem Aligned.retains_emptyList (rule : ListRule) (list : Branch) :
    Retains (doc.stripped rule list) (doc.emptyList rule list) [] := by
  have htree := (h.retains_stripped rule list).tree
  rw [emptyList_eq]
  refine Retains.updateComments ?_
  split
  · exact (Fresh.newIndentedBreak htree list _).retains htree
      ((Evolves.refl htree.linked).newIndentedBreak _) _
  · exact htree.retains

theorem Aligned.not_mem_emptyList (hl : l ∈ doc.ink) :
    l ∉ (doc.emptyList rule list).order ↔ l ∈ doc.leavesIn (doc.clearSpan rule list) := by
  have hstripped := h.retains_stripped rule list
  have hempty := h.retains_emptyList rule list
  have ho := (mem_ink.1 hl).1
  constructor
  · intro hout
    by_contra hnot
    exact hout ((hstripped.trans hempty).kept l hl (by simpa using hnot))
  · intro hin hafter
    have hkept := hempty.old l hafter (hstripped.evolves.has _ (h.tree.order_has l ho))
    have hcut : l ∉ (doc.stripped rule list).order := (not_mem_cut h.tree.order_nodup ho).2 hin
    exact hcut hkept

end

/-! ### The optional around a list -/

theorem rewired_newIndentedBreak (h : doc.Rewired mid.toForest list) (indent : String) :
    doc.Rewired (mid.newIndentedBreak indent).2.toForest list := by
  rw [newIndentedBreak]
  dsimp only
  rcases newLiteral_cases (mid.newToken Layout.lineBreak).2 indent with he | he <;> rw [he]
  · exact h.addToken _
  · exact (h.addToken _).addToken _

theorem rewired_emptyList (doc : Document) (rule : ListRule) (list : Branch) :
    doc.Rewired (doc.emptyList rule list).toForest list := by
  have hstripped : doc.Rewired (doc.stripped rule list).toForest list :=
    (Forest.Rewired.refl _ list).clearChildren
  rw [emptyList_eq]
  split
  · exact rewired_newIndentedBreak hstripped _
  · exact hstripped

theorem optionalAround?_of_rewired (h : doc.Linked) (hr : doc.Rewired mid.toForest list)
    (hg : mid.grammar = doc.grammar) (hlist : doc.Has list) :
    mid.optionalAround? list = doc.optionalAround? list := by
  have hparent : mid.parent list = doc.parent list :=
    hr.parent _ hlist fun hm => h.not_around_of_child hm .self
  have hkind : mid.kindOf list = doc.kindOf list := hr.kindOf list hlist
  unfold optionalAround? optionalRule?
  rw [hparent, hg, hkind]
  cases hp : doc.parent list with
  | none => rfl
  | some p =>
    have hkind : mid.kindOf p = doc.kindOf p := hr.kindOf p (h.has_parent hp)
    simp only [bind_eq_bind, bind_some, hkind]

theorem Aligned.covers_child (h : doc.Aligned) (hchild : .branch list ∈ doc.children parent) :
    doc.coveredLeaves list ⊆ doc.coveredLeaves parent := by
  intro l hl
  have hshown : doc.visibleLeaves list ⊆ doc.visibleLeaves parent := by
    intro x hx
    obtain ⟨hx, ho⟩ := mem_visibleLeaves.1 hx
    refine mem_visibleLeaves.2 ⟨?_, ho⟩
    rw [h.tree.linked.leaves_branch]
    exact mem_flatMap.2 ⟨_, hchild, hx⟩
  have hn := h.tree.order_nodup
  obtain ⟨x, hx, y, hy, hxy⟩ := (mem_coveredLeaves hn (h.visible _)).1 hl
  exact (mem_coveredLeaves hn (h.visible _)).2 ⟨x, hshown hx, y, hshown hy, hxy⟩

/-- What goes with a list that stands between two tokens of its container, the container covers. -/
theorem Aligned.covered_of_between (h : doc.Aligned) (hx : x ∈ doc.leftLeaves list)
    (hy : y ∈ doc.rightLeaves list) (hx' : x ∈ doc.visibleLeaves parent)
    (hy' : y ∈ doc.visibleLeaves parent)
    (hl : l ∈ doc.leavesIn (doc.clearSpan rule list)) : l ∈ doc.coveredLeaves parent := by
  have hn := h.tree.order_nodup
  have hsub : doc.leavesIn (doc.clearSpan rule list) ⊆ doc.order := fun _ hm =>
    mem_of_mem_drop (mem_of_mem_take hm)
  obtain ⟨i, hi⟩ := exists_position (hsub hl)
  obtain ⟨j, hj⟩ := exists_position (mem_visibleLeaves.1 hx').2
  obtain ⟨k, hk⟩ := exists_position (mem_visibleLeaves.1 hy').2
  obtain ⟨r, hr⟩ := exists_range? hx'
  have hin := (mem_leavesIn hn hi).1 hl
  have hbounds := h.clearSpan_bounds rule list
  have hleft := h.lt_trivia_start hx hj
  have hright := h.trivia_stop_le hy hk
  have hfirst := mem_range_of_sublist hn (h.visible _) hr hx' hj
  have hlast := mem_range_of_sublist hn (h.visible _) hr hy' hk
  rw [coveredLeaves, hr]
  refine (mem_leavesIn hn hi).2 ⟨?_, ?_⟩ <;> omega

/-- The ink that clearing a list takes from around the container that holds it. -/
def swept (doc : Document) (rule : ListRule) (list : Branch) : List Leaf :=
  let emptied := doc.emptyList rule list
  doc.leavesIn (doc.clearSpan rule list) ++ (doc.optionalAround? list).elim [] fun found =>
    (emptied.departingMark? found.2 found.1).toList ++ emptied.bystanders found.2 found.1

theorem Retains.mem_order_iff (h : Retains doc mid gone) (h' : Retains mid after [])
    (hl : l ∈ doc.ink) : l ∈ after.order ↔ l ∈ mid.order := by
  obtain ⟨ho, hink⟩ := mem_ink.1 hl
  have hhas := h.start.order_has l ho
  refine ⟨fun hm => h'.old l hm (h.evolves.has _ hhas), fun hm => ?_⟩
  exact h'.kept l (mem_ink.2 ⟨hm, (h.evolves.textOf l hhas).symm ▸ hink⟩) not_mem_nil

section

variable (h : doc.Aligned)
include h

theorem Aligned.retains_clearOptional (rule : OptionalRule) (optional : Branch) :
    Retains doc (doc.clearOptional rule optional) (doc.coveredLeaves optional ++
      ((doc.departingMark? rule optional).toList ++ doc.bystanders rule optional)) := by
  have hthin := (Thinned.refl h.tree).clearOptional rule optional
  refine .of_sublist ((Evolves.refl h.tree.linked).clearOptional rule optional) h.tree hthin.tree
    hthin.order fun l ho hout => ?_
  cases hink : Text.isBlank (doc.textOf l) with
  | true => exact .inl rfl
  | false =>
    right
    simpa using (h.not_mem_clearOptional ho hink rule optional).1 hout

theorem Aligned.retains_clearedList (rule : ListRule) (list : Branch) :
    ∃ gone, Retains doc (doc.clearedList rule list) gone := by
  have hempty := (h.retains_stripped rule list).trans (h.retains_emptyList rule list)
  rw [clearedList]
  cases (doc.emptyList rule list).optionalAround? list with
  | none => exact ⟨_, hempty⟩
  | some found =>
    exact ⟨_, hempty.trans ((h.emptyList rule list).retains_clearOptional found.2 found.1)⟩

theorem Aligned.clearedList (rule : ListRule) (list : Branch) :
    (doc.clearedList rule list).Aligned := by
  have hempty := h.emptyList rule list
  rw [Document.clearedList]
  cases (doc.emptyList rule list).optionalAround? list with
  | none => exact hempty
  | some found => exact hempty.clearOptional found.2 found.1

theorem Aligned.shown_emptyList (rule : ListRule) (list b : Branch) :
    (doc.emptyList rule list).visibleLeaves b ⊆ doc.visibleLeaves b := by
  have hempty := (h.retains_stripped rule list).trans (h.retains_emptyList rule list)
  have hsub := h.tree.linked.leaves_sublist hempty.tree.linked (fun c => ?_) b
  · intro x hx
    obtain ⟨hx, ho⟩ := mem_visibleLeaves.1 hx
    have hx := hsub.subset hx
    exact mem_visibleLeaves.2 ⟨hx, hempty.old x ho (h.tree.linked.has_of_mem_leaves hx)⟩
  · rw [children_emptyList_eq]
    split
    · exact nil_sublist _
    · exact .refl _

theorem Aligned.not_mem_clearedList (hparent : doc.parent list = some parent)
    (hl : l ∈ doc.ink) (hout : l ∉ doc.coveredLeaves parent) :
    l ∉ (doc.clearedList rule list).order ↔ l ∈ doc.swept rule list := by
  have hlinked := h.tree.linked
  have hempty := (h.retains_stripped rule list).trans (h.retains_emptyList rule list)
  have haligned := h.emptyList rule list
  have hspan : l ∉ (doc.emptyList rule list).order ↔ _ := h.not_mem_emptyList hl
  have haround : (doc.emptyList rule list).optionalAround? list = doc.optionalAround? list :=
    optionalAround?_of_rewired hlinked (doc.rewired_emptyList rule list) hempty.evolves.grammar
      (hlinked.has_child (hlinked.up hparent))
  obtain ⟨ho, hink⟩ := mem_ink.1 hl
  rw [Document.clearedList, swept, haround]
  cases hfound : doc.optionalAround? list with
  | none => simpa using hspan
  | some found =>
    obtain ⟨optional, optionalRule⟩ := found
    obtain rfl : parent = optional := some.inj
      (hparent.symm.trans (parent_of_optionalAround? hfound))
    by_cases hm : l ∈ (doc.emptyList rule list).order
    · have hink' : Text.isBlank ((doc.emptyList rule list).textOf l) = false :=
        (hempty.evolves.textOf l (h.tree.order_has l ho)).symm ▸ hink
      have hkept : l ∉ doc.leavesIn (doc.clearSpan rule list) := fun hin => hspan.2 hin hm
      have hinside : l ∉ (doc.emptyList rule list).coveredLeaves parent := fun hc =>
        hout (hempty.coveredLeaves_subset h haligned (h.shown_emptyList rule list _) ho hc)
      simpa [hkept, hinside] using haligned.not_mem_clearOptional hm hink' optionalRule parent
    · have hthin := (Thinned.refl haligned.tree).clearOptional optionalRule parent
      exact ⟨fun _ => mem_append_left _ (hspan.1 hm), fun _ hc => hm (hthin.order.subset hc)⟩

end

/-! ### Beside an element that is kept -/

/-- A document that has lost no ink but from within a list. -/
structure Shrunk (doc : Document) (list : Branch) (mid : Document) : Prop where
  retains : Retains doc mid (doc.coveredLeaves list)
  aligned : mid.Aligned
  leaves : mid.leaves list ⊆ doc.leaves list

namespace Shrunk

variable {element other : Branch} {taken : Document} (hs : doc.Shrunk list mid) (h : doc.Aligned)
include hs h

theorem departs_subset (he : .branch element ∈ mid.children list) (ho : l ∈ doc.order)
    (hl : l ∈ mid.departs rule list element) : l ∈ doc.coveredLeaves list := by
  have hlinked := hs.aligned.tree.linked
  rcases mem_departs.1 hl with hcovered | hmark
  · refine hs.retains.coveredLeaves_subset h hs.aligned (fun x hx => ?_) ho
      (hs.aligned.covers_child he hcovered)
    obtain ⟨hx, hox⟩ := mem_visibleLeaves.1 hx
    have hx := hs.leaves hx
    exact mem_visibleLeaves.2 ⟨hx, hs.retains.old x hox (h.tree.linked.has_of_mem_leaves hx)⟩
  · have hm := mem_children_of_delimiterOf? (hlinked.once list) hmark
    have hin := hlinked.mem_leaves.2 (.step (hlinked.down hm) .self)
    exact h.visibleLeaves_subset _ (mem_visibleLeaves.2 ⟨hs.leaves hin, ho⟩)

theorem takeFrom (he : element ∈ mid.listElements rule list)
    (ho : other ∈ mid.listElements rule list) (hne : other ≠ element)
    (hrun : (Edit.takeFrom rule list element).run mid = .ok taken after) :
    doc.Shrunk list after := by
  have hchild := (mem_listElements.1 he).1
  have hlinked := hs.aligned.tree.linked
  obtain ⟨hpart, haligned, -⟩ := hs.aligned.parted hchild rule
  have hthin := (thinned_withoutPadding hs.aligned.tree rule list element).detachElement rule list
    element
  obtain ⟨_, p, n, hrun'⟩ := Edit.run_takeFrom_beside he ho hne hlinked
  rw [hrun] at hrun'
  cases hrun'
  have hbreaks := hpart.tree.retains_insertBreaks p n
  refine ⟨(hs.retains.trans (hpart.trans hbreaks)).mono fun l ho hl => ?_,
    haligned.insertBreaks p n, fun l hl => hs.leaves ?_⟩
  · rw [append_nil, mem_append] at hl
    exact hl.elim id fun hl => hs.departs_subset h hchild ho hl
  · refine (hlinked.leaves_sublist hbreaks.tree.linked (fun b => ?_) _).subset hl
    rw [children_insertBreaks]
    exact hthin.children b

end Shrunk

end Document

namespace Edit

variable {doc : Document} {rule : ListRule} {list parent retained : Branch} {l x y : Leaf}

/-- A list that keeps no element is cleared and then given its placeholder. -/
theorem run_clearList_none (hrule : doc.listRule? list = some rule)
    (hfirst : doc.retainedFirst? rule list = none) :
    (clearList list).run doc = (refill rule list).run (doc.clearedList rule list) := by
  unfold clearList
  rw [run_bind, run_listRule hrule]
  dsimp only
  rw [run_get_bind, hfirst]
  dsimp only
  rw [run_bind, run_modify]
  dsimp only
  rw [clearedList]
  cases (doc.emptyList rule list).optionalAround? list <;> rfl

/-- A list that keeps its first element is rid of the others, the last one first. -/
theorem run_clearList_some (hrule : doc.listRule? list = some rule)
    (hfirst : doc.retainedFirst? rule list = some retained) :
    (clearList list).run doc = ((doc.listElements rule list).reverse.forM fun e =>
      if e = retained then pure () else discard <| removeElement list e : Edit Unit).run doc := by
  unfold clearList
  rw [run_bind, run_listRule hrule]
  dsimp only
  rw [run_get_bind, hfirst]

/-- The elements beside one that is kept take nothing with them that stands outside of the list. -/
theorem retains_clearList_some (h : doc.Aligned)
    (hrule : doc.listRule? list = some rule)
    (hfirst : doc.retainedFirst? rule list = some retained) :
    ∃ after, (clearList list).run doc = .ok () after ∧
      doc.Retains after (doc.coveredLeaves list) := by
  have hmem := mem_of_head? (filter_eq_some_iff.1 hfirst).1
  obtain ⟨after, hrun, hafter⟩ := exists_run_clear (P := doc.Shrunk list)
    (fun d e taken mid hs he hkept hne hrun => hs.takeFrom h he hkept hne hrun)
    ⟨h.tree.retains.mono (fun _ _ hl => nomatch hl), h, List.Subset.refl _⟩ h.tree.linked hrule hmem
    (nodup_reverse.2 (listElements_nodup h.tree.linked rule list))
    fun e he => mem_reverse.1 he
  exact ⟨after, (run_clearList_some hrule hfirst).trans hrun, hafter.retains⟩

/-- The ink outside of the container around a list stays when the list is cleared, unless clearing
reaches it: from the list to its bounds, or with the optional around the list. Between two tokens
of the container it reaches nothing. -/
theorem ink_clearList (h : doc.IsTree) (ho : doc.Ordered) (hrule : doc.listRule? list = some rule)
    (hparent : doc.parent (.branch list) = some parent) :
    ∃ after, (clearList list).run doc = .ok () after ∧
      (∀ l ∈ doc.order, after.textOf l = doc.textOf l) ∧
      after.order.filter doc.order.contains = doc.order.filter after.order.contains ∧
      (∀ l ∈ doc.ink, l ∉ doc.coveredLeaves (.branch parent) → (l ∉ after.order ↔
        doc.retainedFirst? rule list = none ∧ l ∈ doc.swept rule list)) ∧
      (doc.optionalAround? list = none → ∀ x ∈ doc.leftLeaves (.branch list),
        ∀ y ∈ doc.rightLeaves (.branch list), x ∈ doc.visibleLeaves (.branch parent) →
          y ∈ doc.visibleLeaves (.branch parent) →
            ∀ l ∈ doc.ink, l ∉ doc.coveredLeaves (.branch parent) → l ∈ after.order) := by
  have haligned : doc.Aligned := ⟨h, ho⟩
  have hlinked := h.linked
  have hchild := hlinked.up hparent
  cases hfirst : doc.retainedFirst? rule list with
  | some retained =>
    obtain ⟨after, hrun, hretains⟩ := retains_clearList_some haligned hrule hfirst
    have hkept : ∀ l ∈ doc.ink, l ∉ doc.coveredLeaves parent → l ∈ after.order :=
      fun l hl hout => hretains.kept l hl fun hm => hout (haligned.covers_child hchild hm)
    refine ⟨after, hrun, fun l hl => hretains.evolves.textOf l (h.order_has l hl), hretains.order,
      fun l hl hout => ?_, fun _ _ _ _ _ _ _ => hkept⟩
    exact ⟨fun hnot => absurd (hkept l hl hout) hnot, nofun⟩
  | none =>
    have hcleared := haligned.clearedList rule list
    obtain ⟨gone, hgone⟩ := haligned.retains_clearedList rule list
    obtain ⟨after, hrefill, hretains⟩ := retains_refill hcleared
      (hgone.evolves.has _ (hlinked.has_child hchild)) rule
    have hall := hgone.trans hretains
    have hlost : ∀ l ∈ doc.ink, l ∉ doc.coveredLeaves parent →
        (l ∉ after.order ↔ l ∈ doc.swept rule list) := by
      intro l hl hout
      rw [hgone.mem_order_iff hretains hl]
      exact haligned.not_mem_clearedList hparent hl hout
    refine ⟨after, (run_clearList_none hrule hfirst).trans hrefill,
      fun l hl => hall.evolves.textOf l (h.order_has l hl), hall.order,
      fun l hl hout => (hlost l hl hout).trans ⟨fun hs => ⟨rfl, hs⟩, And.right⟩, ?_⟩
    intro hopt x hx y hy hx' hy' l hl hout
    by_contra hnot
    have hswept := (hlost l hl hout).1 hnot
    rw [swept, hopt, elim_none, append_nil] at hswept
    exact hout (haligned.covered_of_between hx hy hx' hy' hswept)

/-- The comment behind a body that ends by its indentation goes with the statements of the body. -/
theorem ink_clearList_body :
    let start : Builder := { grammar := .python, source := "f:\n  a\n# c\n" }
    let calls : List Builder.Call := [.openNode .program, .token "f", .token ":",
      .openNode .enclosedBody, .openNode .statementList, .openNode .statement, .token "a",
      .closeNode, .closeNode, .closeNode, .comment "# c", .closeNode]
    ∃ doc rule, (start.run calls).finish = .ok doc ∧ doc.IsTree ∧ doc.Ordered ∧
      doc.listRule? ⟨2⟩ = some rule ∧ doc.parent (.branch ⟨2⟩) = some ⟨1⟩ ∧
      doc.coveredLeaves (.branch ⟨1⟩) = [⟨4⟩] ∧ ⟨6⟩ ∈ doc.ink ∧ doc.textOf ⟨6⟩ = "#" ∧
      ⟨6⟩ ∈ doc.swept rule ⟨2⟩ ∧
      ∃ after, (clearList ⟨2⟩).run doc = .ok () after ∧ ⟨6⟩ ∉ after.order ∧
        after.text = "f:\n    pass\n" := by
  intro start calls
  let doc := (start.run calls).built
  have hfinish : (start.run calls).finish = .ok doc := by decide +kernel
  obtain ⟨htree, hordered⟩ := Builder.isTree_of_run hfinish
  obtain ⟨rule, hrule⟩ : ∃ rule, doc.listRule? ⟨2⟩ = some rule :=
    isSome_iff_exists.1 (by decide +kernel)
  have hparent : doc.parent (.branch ⟨2⟩) = some ⟨1⟩ := by decide +kernel
  have hcovered : doc.coveredLeaves (.branch ⟨1⟩) = [⟨4⟩] := by decide +kernel
  have hink : ⟨6⟩ ∈ doc.ink := by decide +kernel
  obtain ⟨after, hrun, -, -, hlost, -⟩ := ink_clearList htree hordered hrule hparent
  have hafter : (clearList ⟨2⟩).left doc = after := left_of_ok hrun
  have hgone : ⟨6⟩ ∉ after.order := by
    rw [← hafter]
    decide +kernel
  refine ⟨doc, rule, hfinish, htree, hordered, hrule, hparent, hcovered, hink, by decide +kernel,
    ((hlost _ hink (by simp [hcovered])).1 hgone).2, after, hrun, hgone, ?_⟩
  rw [← hafter]
  decide +kernel

end Edit

end Lossless
