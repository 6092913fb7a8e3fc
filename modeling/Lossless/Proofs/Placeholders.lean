import Lossless.Proofs.Emptied
import Lossless.Proofs.Members
import Lossless.Proofs.Reachable
import Lossless.Proofs.Replacing

/-! Lists that show a placeholder. Whatever is put in and taken out, such a list is never empty: the
placeholder comes when the last element goes, and goes when an element comes. -/

namespace Lossless

open List Layout Forest Text Edit

/-! ### One line of text -/

namespace Text

theorem lines_of_no_break {cs : List Char} (h : '\n' ∉ cs) : lines cs = [cs] := by
  induction cs with
  | nil => rfl
  | cons c cs ih =>
    obtain ⟨hc, hcs⟩ := not_or.1 (mt mem_cons.2 h)
    rw [lines, if_neg (Ne.symm hc), ih hcs]

theorem gapPieces_of_inked {cs : List Char} (h : '\n' ∉ cs) (hne : cs ≠ [])
    (hink : ∀ c ∈ cs.head?, isBlankChar c = false) : gapPieces true cs = [cs] := by
  obtain ⟨c, cs, rfl⟩ := exists_cons_of_ne_nil hne
  have hc : isBlankChar c = false := hink c rfl
  simp [gapPieces, lines_of_no_break h, linePieces, hc]

end Text

/-- The text of a placeholder: one line that begins with ink. -/
structure Placeholder.IsLine (placeholder : Placeholder) : Prop where
  nonempty : placeholder.text ≠ ""
  line : '\n' ∉ placeholder.text.toList
  inked : ∀ c ∈ placeholder.text.toList.head?, Text.isBlankChar c = false

namespace Placeholder.IsLine

variable {placeholder : Placeholder} (h : placeholder.IsLine)
include h

theorem toList_ne_nil : placeholder.text.toList ≠ [] :=
  fun hnil => h.nonempty (String.toList_eq_nil_iff.1 hnil)

theorem isBlank : isBlank placeholder.text = false := by
  obtain ⟨c, cs, hcs⟩ := exists_cons_of_ne_nil h.toList_ne_nil
  have hc : Text.isBlankChar c = false := h.inked c (by rw [hcs]; rfl)
  rw [Text.isBlank, hcs, all_cons, hc, Bool.false_and]

end Placeholder.IsLine

/-- A list that shows a placeholder as soon as it has no element. -/
structure ListRule.Upholds (rule : ListRule) (placeholder : Placeholder) : Prop where
  declared : rule.placeholder = some placeholder
  scope : placeholder.scope = .always
  line : placeholder.IsLine
  above : rule.above = .always
  onLines : rule.trailing = false
  cleared : rule.retained = []

structure ListRule.Takes (rule : ListRule) (fragment : Document) : Prop where
  aligned : fragment.Aligned
  element : fragment.rootKind ≠ .comment
  accepts : rule.accepts fragment.rootKind = true

theorem Edit.run_removeElement_eq {doc : Document} {rule : ListRule} {list element : Branch}
    (hrule : doc.listRule? list = some rule) (hparent : doc.parent element = some list) :
    (removeElement list element).run doc = (takeFrom rule list element).run doc := by
  unfold removeElement
  rw [EStateM.run_bind, run_listRule hrule]
  dsimp only
  rw [run_get_bind, if_pos hparent]

theorem ListRule.Upholds.retainedFirst? {rule : ListRule} {placeholder : Placeholder}
    (hu : rule.Upholds placeholder) (doc : Document) (list : Branch) :
    doc.retainedFirst? rule list = none := by
  rw [Document.retainedFirst?, hu.cleared]
  exact Option.filter_eq_none_iff.2 fun _ _ => nofun

namespace Document

variable {doc mid after fragment : Document} {rule : ListRule} {list added element e : Branch}
  {placeholder : Placeholder} {l : Leaf} {n : Node} {text : String} {line : Nat}

theorem sourceTokens_of_isLine (h : placeholder.IsLine) :
    sourceTokens placeholder.text = [⟨placeholder.text, some ⟨0⟩⟩] := by
  have hink : placeholder.text.toList.all isBlankChar = false := h.isBlank
  rw [sourceTokens, gapPieces_of_inked h.line h.toList_ne_nil h.inked, map_singleton,
    hink, String.ofList_toList]
  rfl

theorem leaves_ofSource (h : placeholder.IsLine) (grammar : Grammar) (kind : Kind) :
    (ofSource grammar kind placeholder.text).leaves (.branch ⟨0⟩) = [⟨0⟩] ∧
      ⟨0⟩ ∈ (ofSource grammar kind placeholder.text).ink ∧
      (ofSource grammar kind placeholder.text).textOf ⟨0⟩ = placeholder.text := by
  have htokens := sourceTokens_of_isLine h
  have htext : (ofSource grammar kind placeholder.text).textOf ⟨0⟩ = placeholder.text := by
    rw [Forest.textOf, token_ofSource, htokens]
    rfl
  refine ⟨?_, mem_ink.2 ⟨?_, ?_⟩, htext⟩
  · rw [(linked_ofSource ..).leaves_branch, children_ofSource, htokens]
    rfl
  · have horder : (ofSource grammar kind placeholder.text).order =
        (List.range (sourceTokens placeholder.text).length).map Leaf.mk := rfl
    rw [horder, htokens]
    exact mem_singleton_self _
  · rw [htext]
    exact h.isBlank

theorem visibleText_of_leaves (h : doc.IsTree) (hleaves : doc.leaves element = [l])
    (hl : l ∈ doc.order) : doc.visibleText element = doc.textOf l := by
  obtain ⟨xs, ys, ho⟩ := append_of_mem hl
  have hcovered : doc.coveredLeaves element = [l] :=
    coveredLeaves_of_block h.order_nodup ho (fun m hm _ => hleaves ▸ hm) (by simp [hleaves])
      (by simp [hleaves])
  rw [visibleText_eq, hcovered]
  simp [join]

theorem Carries.visibleText (h : doc.IsTree) (hline : placeholder.IsLine) {grammar : Grammar}
    {kind : Kind} (hcarries : doc.Carries element (.ofSource grammar kind placeholder.text)) :
    doc.visibleText element = placeholder.text := by
  obtain ⟨hleaves, hink, htext⟩ := leaves_ofSource hline grammar kind
  obtain ⟨place, hplace, hkept⟩ := hcarries
  obtain ⟨hin, hsame⟩ := hkept ⟨0⟩ (hleaves ▸ mem_singleton_self _) hink
  have hone : doc.leaves element = [place ⟨0⟩] := hplace.trans (congrArg _ hleaves)
  rw [visibleText_of_leaves h hone hin, hsame, htext]

/-! ### The lines of a list without elements -/

theorem lines?_of_isMark (hbreak : isBreak rule.delimiter = false) (hn : doc.IsMark rule n)
    {lines : Span} (hlines : doc.lines? n = some lines) : lines.stop = lines.start + 1 := by
  obtain ⟨l, rfl, -, htext⟩ := hn
  cases hr : doc.range? l with
  | none =>
    rw [lines?, hr] at hlines
    cases hlines
  | some r =>
    obtain ⟨first, last, j, hfirst, hlast, hi, hj, hstop⟩ := exists_of_range? hr
    have hin : ∀ x ∈ doc.visibleLeaves l, x = l := fun x hx => by
      simpa using (mem_visibleLeaves.1 hx).1
    obtain rfl := hin first (mem_of_mem_head? hfirst)
    obtain rfl := hin last (mem_of_getLast? hlast)
    obtain rfl : r.start = j := Option.some.inj (hi.symm.trans hj)
    have hsucc := lineOf_succ (layout_getElem? (getElem?_of_idxOf? hi))
    rw [htext, hbreak] at hsucc
    rw [lines?_of_range? hr] at hlines
    cases hlines
    rw [hstop, hsucc]
    rfl

theorem linesFor_ne_nil_of_lines (habove : rule.above = .always) (htrailing : rule.trailing = false)
    (hone : ∀ n ∈ doc.children list, ∀ lines, doc.lines? n = some lines →
      lines.stop = lines.start + 1) : doc.linesFor rule list ≠ [] := by
  have hbounds : (doc.boundedLines rule list).start < (doc.boundedLines rule list).stop :=
    boundedLines_start_lt (by rw [habove]; rfl)
  rw [linesFor, isInline, htrailing, Bool.false_and, if_neg Bool.false_ne_true]
  refine ne_nil_of_mem (mem_filter.2 ⟨Span.mem_toList.2 ⟨le_rfl, hbounds⟩, ?_⟩)
  rw [Bool.not_eq_true', any_eq_false]
  intro lines hlines
  obtain ⟨n, hn, hlines⟩ := mem_filterMap.1 hlines
  have hone := hone n hn lines hlines
  simp only [Bool.and_eq_true, decide_eq_true_eq]
  omega

/-! ### Placeholders that come in -/

def HoldsOnly (doc : Document) (rule : ListRule) (list : Branch) (text : String) : Prop :=
  ∃ p, doc.listElements rule list = [p] ∧ doc.visibleText p = text

theorem listElements_eq_singleton (h : doc.Linked)
    (hmem : ∀ e, e ∈ doc.listElements rule list ↔ e = added) :
    doc.listElements rule list = [added] := by
  refine perm_singleton.1 ((perm_ext_iff_of_nodup (listElements_nodup h rule list)
    (nodup_singleton _)).2 fun e => ?_)
  rw [hmem, mem_singleton]

structure Refills (doc after : Document) (rule : ListRule) (list p : Branch) (text : String) :
    Prop where
  enlists : Enlists doc after rule list p
  arrived : Arrived doc after (.ofSource doc.grammar rule.element text) list p []
  aligned : after.Aligned

theorem Refills.insertBreaks (h : Refills doc after rule list e text) (p n : Nat) :
    Refills doc (after.insertBreaks p n) rule list e text :=
  ⟨h.enlists.insertBreaks p n, h.arrived.insertBreaks p n, h.aligned.insertBreaks p n⟩

theorem Refills.holdsOnly (h : Refills doc after rule list e placeholder.text)
    (hline : placeholder.IsLine) (hempty : doc.listElements rule list = []) :
    after.HoldsOnly rule list placeholder.text := by
  refine ⟨e, listElements_eq_singleton h.aligned.tree.linked fun e' => ?_,
    Carries.visibleText h.aligned.tree hline h.arrived.carries⟩
  rw [h.enlists.mem_listElements, hempty, mem_nil_iff, or_false]

section

variable (hu : rule.Upholds placeholder) (h : doc.Aligned) (hlist : doc.Has list)
include hu h hlist

theorem Aligned.lands_entryLine (hf : fragment.Aligned)
    (haccepts : rule.accepts fragment.rootKind = true)
    (hline : doc.entryLine rule list line ∈ (doc.unfolded list).linesFor rule list) :
    let placed := (doc.unfolded list).insertLines rule list (doc.entryLine rule list line) fragment
      false
    Enlists doc placed.2 rule list placed.1 ∧ Lands doc placed.2 fragment list placed.1 ∧
      placed.2.Aligned := by
  have hunfolded := h.unfolded list
  have hlist' : (doc.unfolded list).Has list := (doc.retexted_unfolded list).has _ hlist
  have hinline : (doc.unfolded list).isInline rule list = false := by
    rw [isInline, hu.onLines, Bool.false_and]
  have henters := enters_of_mem_linesFor hunfolded hinline (isSqueezed_unfolded h hlist) hline
    (Or.inl (by rw [hu.above]; rfl))
  exact ⟨(enlists_insertLines hlist' hf.tree haccepts hunfolded.tree.linked _).of_unfolded
      h.tree.linked, (hunfolded.lands_insertLines hlist' henters hf rule).of_unfolded h.tree,
    hunfolded.insertLines hlist' henters hf rule false⟩

/-- A list without elements is given its placeholder as an element if a line is offered. -/
theorem Aligned.exists_refills (helement : rule.element ≠ .comment)
    (hempty : doc.listElements rule list = []) (hlines : doc.linesFor rule list ≠ []) :
    ∃ p after, (Edit.refill rule list).run doc = .ok () after ∧
      Refills doc after rule list p placeholder.text := by
  let fragment : Document := .ofSource doc.grammar rule.element placeholder.text
  have hkind : fragment.rootKind = rule.element := rfl
  have hunfolds := unfolds_of_ordered h.tree h.ordered rule list
  obtain ⟨line, hline⟩ : ∃ line, (doc.linesFor rule list).head? = some line :=
    ⟨_, head?_eq_some_head hlines⟩
  have hbare : doc.Bare rule list placeholder line :=
    ⟨hu.declared, hline, hempty, by rw [hu.scope]; rfl⟩
  have hentry : doc.entryLine rule list line ∈ (doc.unfolded list).linesFor rule list := by
    rcases run_placeAtLine hunfolds line fragment with ⟨hmem, -⟩ | ⟨-, hnot, -⟩
    · exact hmem
    · exact absurd (mem_of_head? hline) hnot
  have haccepts : rule.accepts fragment.rootKind = true := by
    rw [ListRule.accepts, hkind, beq_self_eq_true, Bool.true_or]
  obtain ⟨henlists, hlands, haligned⟩ := h.lands_entryLine hu hlist (aligned_ofSource ..) haccepts
    hentry
  have hrefills := Refills.mk henlists hlands.arrived haligned
  rcases run_refill hunfolds with ⟨hnone, -⟩ | ⟨placeholder', line', hbare', hrun⟩
  · exact absurd hbare (hnone placeholder line)
  · obtain rfl := Option.some.inj (hbare'.declared.symm.trans hu.declared)
    obtain rfl := Option.some.inj (hbare'.offered.symm.trans hline)
    rcases hrun with ⟨-, hrun⟩ | ⟨hinline, -⟩
    · refine ⟨((doc.unfolded list).insertLines rule list (doc.entryLine rule list line') fragment
        false).1, _, hrun, ?_⟩
      rw [refilled, decide_eq_false helement]
      split
      · exact keeps_padAround (P := fun d => Refills doc d rule list _ placeholder'.text)
          (fun _ p n hd => hd.insertBreaks p n) hrefills rule list _ false
      · exact hrefills
    · rw [isInline, hu.onLines, Bool.false_and] at hinline
      cases hinline

end

/-! ### Lists that are never empty -/

/-- A list outside of optionals that holds elements and delimiters only, and some element. -/
structure Upheld (doc : Document) (rule : ListRule) (list : Branch) : Prop where
  aligned : doc.Aligned
  listed : doc.listRule? list = some rule
  alone : doc.optionalAround? list = none
  tidy : doc.Tidy rule list
  nonempty : doc.listElements rule list ≠ []

theorem optionalAround?_of_evolves {ok : Kind → Kind → Prop} (hev : Evolves ok doc after)
    (hlist : doc.Has list) (h : doc.optionalAround? list = none) :
    after.optionalAround? list = none := by
  by_contra hsome
  obtain ⟨found, hfound⟩ := Option.ne_none_iff_exists'.1 hsome
  have hparent := parent_of_optionalAround? hfound
  rcases hev.edges _ _ (hev.linked.up hparent) with hold | ⟨hnew, -⟩
  · have hdown := hev.start.down hold
    have hkind := hev.kindOf _ (hev.start.has_parent hdown)
    refine hsome (Eq.trans ?_ h)
    simp only [optionalAround?, optionalRule?, hparent, hdown, Option.bind_eq_bind,
      Option.bind_some, hkind, hev.grammar, hev.kindOf _ hlist]
  · exact hnew hlist

theorem Evolves.listElements_eq {ok : Kind → Kind → Prop} (hev : Evolves ok doc after)
    (hkids : after.children list = doc.children list) :
    after.listElements rule list = doc.listElements rule list := by
  unfold listElements
  rw [branches, branches, hkids]
  refine filter_congr fun b hb => ?_
  obtain ⟨n, hn, hb⟩ := mem_filterMap.1 hb
  cases n <;> cases hb
  rw [hev.kindOf b (hev.start.has_child hn)]

theorem placeholder?_eq_some (hu : rule.Upholds placeholder) : doc.placeholder? rule list = some e ↔
    doc.listElements rule list = [e] ∧ doc.visibleText e = placeholder.text := by
  have hscope : placeholder.scope.applies (doc.isTopLevel list) = true := by
    rw [hu.scope]
    rfl
  rw [placeholder?, hu.declared]
  simp only [Option.bind_eq_bind, Option.bind_some, hscope, if_true]
  split
  · next p hone =>
    rw [hone]
    constructor
    · intro h
      split at h
      · cases h
        exact ⟨rfl, ‹_›⟩
      · cases h
    · rintro ⟨heq, htext⟩
      cases heq
      rw [if_pos htext]
  · next hnone => exact ⟨(fun h => by cases h), fun h => absurd h.1 (hnone e)⟩

namespace Upheld

variable (hs : doc.Upheld rule list)
include hs

theorem has : doc.Has list := by
  obtain ⟨e, he⟩ := exists_mem_of_ne_nil _ hs.nonempty
  exact has_of_mem_children (mem_listElements.1 he).1

theorem evolves (hev : Grows doc after) (haligned : after.Aligned)
    (htidy : after.Tidy rule list) (he : e ∈ after.listElements rule list) :
    after.Upheld rule list :=
  ⟨haligned, (hev.listRule?_eq hs.has).trans hs.listed,
    optionalAround?_of_evolves hev hs.has hs.alone, htidy, ne_nil_of_mem he⟩

/-- When an element has come in, the list holds it, and nothing else if it held the placeholder. -/
theorem dropPlaceholder (hu : rule.Upholds placeholder) (h : Enlists doc mid rule list added)
    (hlands : Lands doc mid fragment list added) (hm : mid.Aligned)
    (hrun : (Edit.dropPlaceholder rule list (doc.placeholder? rule list)).run mid = .ok () after) :
    after.Upheld rule list ∧ (doc.HoldsOnly rule list placeholder.text →
      after.listElements rule list = [added]) := by
  obtain ⟨hmem, hev, htidy⟩ := Edit.run_dropPlaceholder_eq_ok h hm.tree hrun
  have haligned := (hlands.run_dropPlaceholder hs.aligned (fun _ => hm) h.accepts hrun).2 hm
  refine ⟨hs.evolves hev haligned (htidy hs.tidy) ((hmem added).2 (Or.inl rfl)), ?_⟩
  rintro ⟨p, hone, htext⟩
  have hp := (placeholder?_eq_some hu).2 ⟨hone, htext⟩
  refine listElements_eq_singleton haligned.tree.linked fun e => ?_
  rw [hmem, hone, hp, mem_singleton]
  exact ⟨fun h => h.resolve_right fun hboth => hboth.2 (congrArg some hboth.1.symm), Or.inl⟩

theorem insertBreaks (p n : Nat) : (doc.insertBreaks p n).Upheld rule list := by
  have hev : Grows doc (doc.insertBreaks p n) :=
    (Evolves.refl hs.aligned.tree.linked).insertBreaks p n
  have hkids := children_insertBreaks doc p n
  have helements : (doc.insertBreaks p n).listElements rule list = _ :=
    hev.listElements_eq (hkids list)
  obtain ⟨e, he⟩ := exists_mem_of_ne_nil _ hs.nonempty
  refine hs.evolves hev (hs.aligned.insertBreaks p n) (fun m hm => ?_) (helements.symm ▸ he)
  rw [helements]
  exact (hs.tidy m (hkids list ▸ hm)).imp_right fun hmark => hmark.evolves hev

section

variable (hu : rule.Upholds placeholder)
include hu

/-- An element comes in at a line, and the placeholder is no longer there. -/
theorem addAtLine (hf : rule.Takes fragment)
    (hrun : (Edit.addAtLine list line fragment).run doc = .ok added after) :
    after.Upheld rule list ∧ (doc.HoldsOnly rule list placeholder.text →
      after.listElements rule list = [added]) := by
  have hinline : doc.isInline rule list = false := by rw [isInline, hu.onLines, Bool.false_and]
  have hkind := Or.inr (a := fragment.rootKind = .comment) hf.accepts
  have hunfolds := unfolds_of_ordered hs.aligned.tree hs.aligned.ordered rule list
  obtain ⟨hentry, hline⟩ : doc.entryLine rule list line ∈ (doc.unfolded list).linesFor rule list ∧
      (doc.isSqueezed list = true ∨ line ∈ doc.linesFor rule list) := by
    have hoffered : doc.isSqueezed list = true ∨ line ∈ doc.linesFor rule list := by
      by_contra hnot
      rw [not_or, Bool.not_eq_true] at hnot
      rw [run_addAtLine_refused hs.listed hkind hs.aligned.tree hs.aligned.ordered
        (Or.inl hnot.1) hnot.2] at hrun
      cases hrun
    rcases run_placeAtLine hunfolds line fragment with ⟨hmem, -⟩ | ⟨hopen, hnot, -⟩
    · exact ⟨hmem, hoffered⟩
    · rw [hopen] at hoffered
      exact absurd (hoffered.resolve_left Bool.false_ne_true) hnot
  obtain ⟨mid, hdrop, hrun'⟩ := run_addAtLine_lines hs.listed hkind hs.aligned.tree
    hs.aligned.ordered hf.aligned.tree hinline line hline
  obtain ⟨henlists, hlands, haligned⟩ := hs.aligned.lands_entryLine hu hs.has
    (hf.aligned.wrap rule) (accepts_wrap rule hf.element) hentry
  rw [decide_eq_false hf.element] at hdrop hrun'
  have hmid := hs.dropPlaceholder hu henlists hlands haligned hdrop
  rw [hrun] at hrun'
  cases hrun'
  split
  · refine keeps_padAround (P := fun d => d.Upheld rule list ∧
      (doc.HoldsOnly rule list placeholder.text → d.listElements rule list = [_]))
      (fun d p n hd => ⟨hd.1.insertBreaks p n, fun hp => ?_⟩) hmid rule list _ false
    have hev : Grows d (d.insertBreaks p n) :=
      (Evolves.refl hd.1.aligned.tree.linked).insertBreaks p n
    exact (hev.listElements_eq (children_insertBreaks d p n list)).trans (hd.2 hp)
  · exact hmid

theorem add {index : Nat} (hf : rule.Takes fragment)
    (hrun : (Edit.add list index fragment).run doc = .ok added after) :
    after.Upheld rule list ∧ (doc.HoldsOnly rule list placeholder.text →
      after.listElements rule list = [added]) := by
  have hlinked := hs.aligned.tree.linked
  obtain ⟨rfl, hdrop⟩ := run_add_ok hs.listed hrun
  have hwrap := hf.aligned.wrap rule
  obtain ⟨hlands, haligned⟩ := hs.aligned.lands_insertBeside hs.has hwrap rule index
  exact hs.dropPlaceholder hu (enlists_insertBeside hs.has hwrap.tree
    (accepts_wrap rule hf.element) hlinked index) hlands
    (haligned fun hnil => absurd hnil hs.nonempty) hdrop

theorem removeLast (helement : rule.element ≠ .comment)
    (hone : doc.listElements rule list = [element]) :
    let parted := (doc.withoutPadding rule list element).detachElement rule list element
    ∃ taken after, (Edit.removeElement list element).run doc = .ok taken after ∧
      (parted.linesFor rule list ≠ [] →
        after.Upheld rule list ∧ after.HoldsOnly rule list placeholder.text) ∧
      (parted.linesFor rule list = [] → after.listElements rule list = []) := by
  intro parted
  have hchild := (mem_listElements.1 (hone ▸ mem_singleton_self element)).1
  have hremove := run_removeElement_eq hs.listed (hs.aligned.tree.linked.down hchild)
  obtain ⟨-, haligned, -⟩ : _ ∧ parted.Aligned ∧ _ := hs.aligned.parted hchild rule
  have hdelists : Delists doc parted list element := delists_detachElement hs.aligned.tree ..
  have hempty : parted.listElements rule list = [] := by
    refine eq_nil_iff_forall_not_mem.2 fun e he => ?_
    obtain ⟨hne, he⟩ := hdelists.mem_listElements.1 he
    exact hne (mem_singleton.1 (hone ▸ he))
  by_cases hlines : parted.linesFor rule list = []
  · have hrefill : (refill rule list).run parted = .ok () parted := by
      rcases run_refill (unfolds_of_ordered haligned.tree haligned.ordered rule list) with
        ⟨-, hrun⟩ | ⟨_, _, hbare, -⟩
      · exact hrun
      · simpa [hlines] using hbare.offered
    obtain ⟨taken, q, n, hrun⟩ := run_takeFrom_of_refill hs.alone hrefill
    have hev : Grows parted (parted.insertBreaks q n) :=
      (Evolves.refl haligned.tree.linked).insertBreaks q n
    exact ⟨taken, _, hremove.trans hrun, fun h => absurd hlines h, fun _ =>
      (hev.listElements_eq (children_insertBreaks parted q n list)).trans hempty⟩
  · obtain ⟨p, mid, hrefill, hrefills⟩ := haligned.exists_refills hu
      (hdelists.evolves.has _ hs.has) helement hempty hlines
    obtain ⟨taken, q, n, hrun⟩ := run_takeFrom_of_refill hs.alone hrefill
    have hrefills := hrefills.insertBreaks q n
    have hafter := hs.evolves (hdelists.evolves.trans hrefills.enlists.evolves) hrefills.aligned
      (hrefills.enlists.tidy (hdelists.tidy hs.tidy))
      (hrefills.enlists.mem_listElements.2 (Or.inl rfl))
    exact ⟨taken, _, hremove.trans hrun,
      fun _ => ⟨hafter, hrefills.holdsOnly hu.line hempty⟩, fun h => absurd h hlines⟩

/-- An element goes, and the placeholder comes for the last one if no delimiter is a break. -/
theorem removeElement (helement : rule.element ≠ .comment)
    (hbreak : isBreak rule.delimiter = false) (he : element ∈ doc.listElements rule list) :
    ∃ taken after, (Edit.removeElement list element).run doc = .ok taken after ∧
      after.Upheld rule list ∧ (doc.listElements rule list = [element] →
        after.HoldsOnly rule list placeholder.text) := by
  have hlinked := hs.aligned.tree.linked
  have hchild := (mem_listElements.1 he).1
  obtain ⟨-, haligned, -⟩ := hs.aligned.parted hchild rule
  have hdelists := delists_detachElement hs.aligned.tree rule list element
  by_cases hother : ∃ other ∈ doc.listElements rule list, other ≠ element
  · obtain ⟨other, ho, hne⟩ := hother
    obtain ⟨taken, p, n, hrun⟩ := run_takeFrom_beside he ho hne hlinked
    have hafter := hdelists.insertBreaks p n
    refine ⟨taken, _, (run_removeElement_eq hs.listed (hlinked.down hchild)).trans hrun,
      hs.evolves hafter.evolves (haligned.insertBreaks p n) (hafter.tidy hs.tidy)
        (hafter.mem_listElements.2 ⟨hne, ho⟩), fun hone => ?_⟩
    exact absurd (mem_singleton.1 (hone ▸ ho)) hne
  · have hone : doc.listElements rule list = [element] :=
      listElements_eq_singleton hlinked fun e =>
        ⟨fun h => by_contra fun hne => hother ⟨e, h, hne⟩, fun h => h ▸ he⟩
    obtain ⟨taken, after, hrun, hrefills, -⟩ := hs.removeLast hu helement hone
    obtain ⟨hafter, honly⟩ := hrefills <|
      linesFor_ne_nil_of_lines hu.above hu.onLines fun n hn lines hlines => by
        refine lines?_of_isMark hbreak ((hdelists.tidy hs.tidy n hn).resolve_left ?_) hlines
        rintro ⟨e, h, -⟩
        obtain ⟨hne, h⟩ := hdelists.mem_listElements.1 h
        exact hne (mem_singleton.1 (hone ▸ h))
    exact ⟨taken, after, hrun, hafter, fun _ => honly⟩

/-- All elements go, and the placeholder comes. -/
theorem clearList (helement : rule.element ≠ .comment) :
    ∃ after, (Edit.clearList list).run doc = .ok () after ∧ after.Upheld rule list ∧
      after.HoldsOnly rule list placeholder.text := by
  have hrun := Edit.run_clearList_none hs.listed (hu.retainedFirst? doc list)
  have hkids := doc.children_clearedList_eq_nil rule list
  have haligned := hs.aligned.clearedList rule list
  obtain ⟨gone, hgone⟩ := hs.aligned.retains_clearedList rule list
  have hempty := listElements_of_nil hkids rule
  obtain ⟨p, after, hrefill, hrefills⟩ := haligned.exists_refills hu (hgone.evolves.has _ hs.has)
    helement hempty (linesFor_ne_nil_of_lines hu.above hu.onLines fun n hn => by simp [hkids] at hn)
  have hafter := hs.evolves (hgone.evolves.trans hrefills.enlists.evolves) hrefills.aligned
    (hrefills.enlists.tidy fun n hn => by simp [hkids] at hn)
    (hrefills.enlists.mem_listElements.2 (Or.inl rfl))
  exact ⟨after, hrun.trans hrefill, hafter, hrefills.holdsOnly hu.line hempty⟩

theorem clearList_of_comment (helement : rule.element = .comment) :
    ∃ after, (Edit.clearList list).run doc = .ok () after ∧ after.listElements rule list = [] := by
  have hrun := run_clearList_none hs.listed (hu.retainedFirst? doc list)
  have hkids := doc.children_clearedList_eq_nil rule list
  have haligned := hs.aligned.clearedList rule list
  obtain ⟨gone, hgone⟩ := hs.aligned.retains_clearedList rule list
  have hlist := hgone.evolves.has _ hs.has
  generalize doc.clearedList rule list = cleared at *
  have hempty : ∀ after, Evolves (fun _ _ => False) cleared after →
      after.listElements rule list = [] := by
    refine fun after hev => eq_nil_iff_forall_not_mem.2 fun e he => ?_
    rcases hev.edges _ _ (mem_listElements.1 he).1 with hold | hnew
    · simp [hkids] at hold
    · exact hnew.2
  rcases run_refill (unfolds_of_ordered haligned.tree haligned.ordered rule list) with
    ⟨-, hrefill⟩ | ⟨p, line, -, ⟨-, hrefill⟩ | ⟨hinline, -⟩⟩
  · exact ⟨_, hrun.trans hrefill, hempty _ (.refl haligned.tree.linked)⟩
  · refine ⟨_, hrun.trans hrefill, hempty _ ?_⟩
    have hunfolded : Evolves (fun _ _ => False) cleared (cleared.unfolded list) :=
      (Evolves.refl haligned.tree.linked).unfolded list
    have hedges : ∀ q c, .branch c ∈ (ofSource cleared.grammar rule.element p.text).children q →
        False := fun q c hc => by
      simpa [parent_branch_ofSource] using (linked_ofSource ..).down hc
    have hplaced := hunfolded.trans (evolves_insertLines hunfolded.linked (hunfolded.has _ hlist)
      (isTree_ofSource ..) hedges (fun h : true = false => nomatch h) rule
      (cleared.entryLine rule list line))
    rw [refilled, decide_eq_true helement]
    split
    · exact keeps_padAround (fun d q n hd => hd.insertBreaks q n) hplaced rule list _ true
    · exact hplaced
  · rw [isInline, hu.onLines, Bool.false_and] at hinline
    cases hinline

end

end Upheld

end Document

/-- A request that puts an element into a list, takes one out of it or clears it. -/
inductive Request.Turns (rule : ListRule) (list : Branch) : Request → Prop
  | addAtLine (line : Nat) {fragment : Document} (hf : rule.Takes fragment) :
      Turns rule list (.addAtLine list line fragment)
  | add (index : Nat) {fragment : Document} (hf : rule.Takes fragment) :
      Turns rule list (.add list index fragment)
  | removeElement (element : Branch) : Turns rule list (.removeElement list element)
  | clearList : Turns rule list (.clearList list)

namespace Document

variable {doc mid after : Document} {rule : ListRule} {list : Branch} {placeholder : Placeholder}

theorem Upheld.step {request : Request} (hs : doc.Upheld rule list) (hu : rule.Upholds placeholder)
    (helement : rule.element ≠ .comment) (hbreak : isBreak rule.delimiter = false)
    (ht : request.Turns rule list) (hrun : request.run.run doc = .ok () after) :
    after.Upheld rule list := by
  cases ht with
  | addAtLine line hf =>
    obtain ⟨added, hrun⟩ := Edit.exists_run_of_discard hrun
    exact (hs.addAtLine hu hf hrun).1
  | add index hf =>
    obtain ⟨added, hrun⟩ := exists_run_of_discard hrun
    exact (hs.add hu hf hrun).1
  | removeElement element =>
    obtain ⟨taken, hrun⟩ := Edit.exists_run_of_discard hrun
    obtain ⟨-, -, hparent, -⟩ := Edit.taken_eq hrun
    have hchild := hs.aligned.tree.linked.up hparent
    have he : element ∈ doc.listElements rule list := by
      rcases hs.tidy _ hchild with ⟨e, he, heq⟩ | ⟨l, hl, -⟩
      · cases heq
        exact he
      · cases hl
    obtain ⟨_, _, hrun', hafter, -⟩ := hs.removeElement hu helement hbreak he
    rw [hrun] at hrun'
    cases hrun'
    exact hafter
  | clearList =>
    obtain ⟨_, hrun', hafter, -⟩ := hs.clearList hu helement
    have hrun : (Edit.clearList list).run doc = .ok () after := hrun
    rw [hrun] at hrun'
    cases hrun'
    exact hafter

theorem Upheld.requests {requests : List Request} (hs : doc.Upheld rule list)
    (hu : rule.Upholds placeholder) (helement : rule.element ≠ .comment)
    (hbreak : isBreak rule.delimiter = false)
    (ht : ∀ request ∈ requests, request.Turns rule list)
    (hrun : (requests.forM Request.run).run doc = .ok () after) : after.Upheld rule list := by
  induction requests generalizing doc with
  | nil =>
    cases hrun
    exact hs
  | cons request requests ih =>
    rw [forM_eq_forM, forM_cons] at hrun
    obtain ⟨_, mid, hfirst, hrest⟩ := Edit.run_bind_eq_ok hrun
    exact ih (hs.step hu helement hbreak (ht request mem_cons_self) hfirst)
      (fun r hr => ht r (mem_cons_of_mem _ hr)) hrest

/-- A list with a placeholder is never empty, whatever is put into it, taken out of it or cleared:
the placeholder goes when an element comes, and comes when the last one goes. Two kinds of lists are
left empty: one whose delimiters are breaks, when these keep every line from the placeholder, and
one of comments, where the placeholder is no element. -/
theorem upheld_of_requests (hu : rule.Upholds placeholder) (h : doc.IsTree) (ho : doc.Ordered)
    (hrule : doc.listRule? list = some rule) (hopt : doc.optionalAround? list = none)
    (htidy : doc.Tidy rule list) (hne : doc.listElements rule list ≠ []) {requests : List Request}
    (ht : ∀ request ∈ requests, request.Turns rule list)
    (hrun : (requests.forM Request.run).run doc = .ok () mid) :
    (rule.element ≠ .comment → Layout.isBreak rule.delimiter = false →
      mid.listElements rule list ≠ [] ∧
      (∀ line fragment added after, rule.Takes fragment →
        (Edit.addAtLine list line fragment).run mid = .ok added after →
        mid.HoldsOnly rule list placeholder.text → after.listElements rule list = [added]) ∧
      (∀ index fragment added after, rule.Takes fragment →
        (Edit.add list index fragment).run mid = .ok added after →
        mid.HoldsOnly rule list placeholder.text → after.listElements rule list = [added]) ∧
      (∀ element, mid.listElements rule list = [element] →
        ∃ taken after, (Edit.removeElement list element).run mid = .ok taken after ∧
          after.HoldsOnly rule list placeholder.text) ∧
      ∃ after, (Edit.clearList list).run mid = .ok () after ∧
        after.HoldsOnly rule list placeholder.text) ∧
    (rule.element ≠ .comment → ∀ element, doc.listElements rule list = [element] →
      ∃ taken after, (Edit.removeElement list element).run doc = .ok taken after ∧
        (after.HoldsOnly rule list placeholder.text ↔
          ((doc.withoutPadding rule list element).detachElement rule list element).linesFor rule
            list ≠ [])) ∧
    (rule.element = .comment → ∃ after, (Edit.clearList list).run doc = .ok () after ∧
      after.listElements rule list = []) := by
  have hs : doc.Upheld rule list := ⟨⟨h, ho⟩, hrule, hopt, htidy, hne⟩
  refine ⟨fun helement hbreak => ?_, fun helement element hone => ?_,
    fun helement => hs.clearList_of_comment hu helement⟩
  · have hmid := hs.requests hu helement hbreak ht hrun
    refine ⟨hmid.nonempty, fun line fragment added after hf hrun => (hmid.addAtLine hu hf hrun).2,
      fun index fragment added after hf hrun => (hmid.add hu hf hrun).2, fun element hone => ?_, ?_⟩
    · obtain ⟨taken, after, hrun, -, honly⟩ :=
        hmid.removeElement hu helement hbreak (hone ▸ List.mem_singleton_self element)
      exact ⟨taken, after, hrun, honly hone⟩
    · obtain ⟨after, hrun, -, honly⟩ := hmid.clearList hu helement
      exact ⟨after, hrun, honly⟩
  · obtain ⟨taken, after, hrun, hrefills, hempty⟩ := hs.removeLast hu helement hone
    refine ⟨taken, after, hrun, fun honly hlines => ?_, fun hlines => (hrefills hlines).2⟩
    obtain ⟨p, hp, -⟩ := honly
    rw [hempty hlines] at hp
    cases hp

/-- The members of a class give way to a placeholder, and that to a new member. -/
theorem upheld_of_requests_class :
    let start : Builder := { grammar := .python, source := "class A:\n    x\n" }
    let calls : List Builder.Call := [.openNode .program, .token "class", .token "A", .token ":",
      .openNode .enclosedBody, .openNode .classMemberList, .openNode .member, .token "x", .closeNode,
      .closeNode, .closeNode, .closeNode]
    let requests : List Request :=
      [.clearList ⟨2⟩, .addAtLine ⟨2⟩ 1 (.ofSource .python .member "y = 1")]
    ∃ doc rule mid, (start.run calls).finish = .ok doc ∧ doc.IsTree ∧ doc.Ordered ∧
      doc.listRule? ⟨2⟩ = some rule ∧ rule.Upholds ⟨"pass", .always⟩ ∧
      (requests.forM Request.run).run doc = .ok () mid ∧
      mid.text = "class A:\n    y = 1\n" ∧ ∃ element taken after,
        (Edit.removeElement ⟨2⟩ element).run mid = .ok taken after ∧
          after.HoldsOnly rule ⟨2⟩ "pass" ∧ after.text = "class A:\n    pass\n" := by
  intro start calls requests
  let rule : ListRule :=
    { ListRule.onLines .member [.method, .function, .classDefinition, .property, .assignment]
        [⟨.method, 1, .always⟩, ⟨.function, 1, .always⟩] with
      below := .nested
      placeholder := some ⟨"pass", .always⟩ }
  let doc := (start.run calls).built
  have hfinish : (start.run calls).finish = .ok doc := by decide +kernel
  obtain ⟨htree, hordered⟩ := Builder.isTree_of_run hfinish
  have hrule : doc.listRule? ⟨2⟩ = some rule := by decide +kernel
  have hhead : "pass".toList.head? = some 'p' := by decide +kernel
  have hline : Placeholder.IsLine ⟨"pass", .always⟩ :=
    ⟨by decide +kernel, by decide +kernel, fun c hc => by cases hhead.symm.trans hc; rfl⟩
  have hu : rule.Upholds ⟨"pass", .always⟩ := ⟨rfl, rfl, hline, rfl, rfl, rfl⟩
  have htidy : doc.Tidy rule ⟨2⟩ := by
    have hkids : doc.children ⟨2⟩ = [.branch ⟨3⟩] := by decide +kernel
    intro n hn
    obtain rfl := List.mem_singleton.1 (hkids ▸ hn)
    exact Or.inl ⟨⟨3⟩, by decide +kernel, rfl⟩
  have ht : ∀ request ∈ requests, request.Turns rule ⟨2⟩ := by
    intro request hr
    rcases List.mem_pair.1 hr with rfl | rfl
    · exact .clearList
    · exact .addAtLine 1 ⟨Document.aligned_ofSource .., by decide +kernel, by decide +kernel⟩
  have hok : ((requests.forM Request.run).run' doc).isSome = true := by decide +kernel
  cases hrun : (requests.forM Request.run).run doc with
  | error e after =>
    delta EStateM.run' at hok
    rw [hrun] at hok
    cases hok
  | ok _ mid =>
    have hmid := Edit.left_of_ok hrun
    have helements : mid.listElements rule ⟨2⟩ = [⟨5⟩] := by
      rw [← hmid]
      decide +kernel
    obtain ⟨-, -, -, hremove, -⟩ := (upheld_of_requests hu htree hordered hrule (by decide +kernel)
      htidy (by decide +kernel) ht hrun).1 (by decide +kernel) (by decide +kernel)
    obtain ⟨taken, after, hremoved, honly⟩ := hremove ⟨5⟩ helements
    refine ⟨doc, rule, mid, hfinish, htree, hordered, hrule, hu, hrun, ?_, ⟨5⟩, taken, after,
      hremoved, honly, ?_⟩
    · rw [← hmid]
      decide +kernel
    · rw [← Edit.left_of_ok hremoved, ← hmid]
      decide +kernel

end Document

end Lossless
