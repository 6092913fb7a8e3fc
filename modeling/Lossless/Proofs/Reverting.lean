import Lossless.Proofs.Lined

/-! Elements put on lines of their own and taken out again. What is left is the text as it was, with
the indentation of the list where that is not white space, and with the blank lines that the
neighbours of the element ask for. -/

namespace Lossless

open List Option Layout

namespace Layout

variable {before after ts us : Layout} {indent : String}

theorem closeUp_lines (hopens : before.getLast?.all isBreak = true)
    (hstart : before = [] → indent = "") :
    closeUp (before ++ if indent.isEmpty then [] else [indent]) (lineBreak :: after) =
      if isGap indent then before ++ after else before ++ indent :: after := by
  rcases before.eq_nil_or_concat' with rfl | ⟨xs, b, rfl⟩
  · rw [hstart rfl]
    rfl
  · obtain rfl : b = lineBreak := by simpa [isBreak] using hopens
    have hopen : ∀ gaps : Layout, (∀ gap ∈ gaps, isGap gap = true) →
        closeUp (xs ++ [lineBreak] ++ gaps) (lineBreak :: after) = xs ++ [lineBreak] ++ after := by
      intro gaps hgaps
      rw [append_assoc, singleton_append, closeUp, spaceBefore_of_open (by decide) hgaps,
        if_neg (cons_ne_nil _ _), length_append, Nat.add_sub_cancel, take_left]
      simp
    by_cases hempty : indent.isEmpty = true
    · rw [String.isEmpty_iff] at hempty
      rw [hempty]
      exact hopen [] (forall_mem_nil _)
    · rw [if_neg hempty]
      split
      · next hgap => exact hopen [indent] (forall_mem_singleton.2 hgap)
      · next hgap =>
        rw [closeUp, spaceBefore_concat]
        by_cases hbreak : isBreak indent = true
        · rw [if_pos hbreak, if_neg (cons_ne_nil _ _), length_append, length_singleton,
            Nat.add_sub_cancel, take_left, eq_of_beq hbreak]
        · have hink : ¬ Text.isBlank indent = true := fun hblank => hgap (by
            simp [isGap, hblank, hbreak])
          rw [if_neg hbreak, if_neg hink, if_pos rfl]
          simp [spaceAfter, isBreak]

theorem size_of_perm (h : ts.Perm us) : ts.size = us.size := by
  induction h with
  | nil => rfl
  | cons t _ ih => rw [size, size, ih]
  | swap t u ts => simp only [size, Nat.add_left_comm]
  | trans _ _ ih ih' => exact ih.trans ih'

end Layout

namespace Document

variable {doc mid : Document} {rule : ListRule} {list added left right : Branch} {p n : Nat}
  {us block : List Leaf} {nl : Leaf}

theorem sublist_placed {α : Type} (f : Branch → Option α) (bs : List Branch) :
    ((bs.filterMap fun b => (f b).map (·, b)).map Prod.snd).Sublist bs := by
  induction bs with
  | nil => exact .slnil
  | cons b bs ih =>
    rw [filterMap_cons]
    cases f b with
    | none => exact ih.cons b
    | some a => exact ih.cons_cons b

theorem elementsAndComments_spec (h : doc.Linked) (hc : doc.ListsComments)
    (haccepts : rule.accepts .comment = false) (list : Branch) :
    (doc.elementsAndComments rule list).Nodup ∧ ∀ b ∈ doc.elementsAndComments rule list,
      b ∈ doc.listElements rule list ∨ rule.accepts (doc.kindOf b) = false := by
  let place (bs : List Branch) : List (Span × Branch) :=
    bs.filterMap fun b => (doc.range? (.branch b)).map (·, b)
  let inside := (place doc.comments).filter fun c => (doc.trivia list).covers c.1 &&
    !(place (doc.listElements rule list)).any fun e => e.1.covers c.1
  have helements : ((place (doc.listElements rule list)).map Prod.snd).Sublist
      (doc.listElements rule list) := sublist_placed ..
  have hcomments : (inside.map Prod.snd).Sublist doc.comments :=
    (filter_sublist.map _).trans (sublist_placed ..)
  have hperm : (doc.elementsAndComments rule list).Perm
      ((place (doc.listElements rule list)).map Prod.snd ++ inside.map Prod.snd) := by
    rw [← map_append]
    exact (mergeSort_perm ..).map _
  have hkind : ∀ b ∈ inside.map Prod.snd, rule.accepts (doc.kindOf b) = false := fun b hb => by
    rw [hc.comments_kind b (hcomments.subset hb)]
    exact haccepts
  refine ⟨hperm.nodup_iff.2 (nodup_append.2
    ⟨(listElements_nodup h rule list).sublist helements, hc.comments_once.sublist hcomments, ?_⟩),
    fun b hb => ?_⟩
  · rintro b hb _ hb' rfl
    have htrue := (mem_listElements.1 (helements.subset hb)).2
    rw [hkind b hb'] at htrue
    cases htrue
  · exact (mem_append.1 (hperm.subset hb)).imp (fun hb => helements.subset hb) (hkind b)

theorem TakesLines.rules_eq (ht : TakesLines doc mid list added p us block nl) (h : doc.IsTree)
    (hlist : doc.Has list) : mid.listRule? list = doc.listRule? list ∧
      mid.optionalAround? list = doc.optionalAround? list := by
  refine ⟨?_, optionalAround?_of_rewired h.linked ht.rewired ht.grammar_eq hlist⟩
  rw [listRule?, ht.grammar_eq, ht.rewired.kindOf list hlist]
  rfl

theorem TakesLines.layout_detach (h : TakesLines doc mid list added p us block nl)
    (hd : doc.IsTree) (hdelimiter : rule.delimiter = "")
    (hstart : doc.layout.take p = [] → doc.indent list = "") :
    (mid.detachElement rule list added).layout =
      if isGap (doc.indent list) then doc.layout
      else doc.layout.take p ++ doc.indent list :: doc.layout.drop p := by
  have hnone : mid.delimiterOf? rule list added = none := by simp [delimiterOf?, hdelimiter]
  have htexts : ∀ ls : List Leaf, ls ⊆ doc.order → ls.map mid.textOf = ls.map doc.textOf :=
    fun ls hls => map_congr_left fun l hl => h.rewired.textOf l (hd.order_has l (hls hl))
  have horder : mid.order.filter (!(mid.delimiterOf? rule list added).toList.contains ·) =
      (doc.order.take p ++ us) ++ (block ++ nl :: doc.order.drop p) := by
    rw [hnone, filter_eq_self.2 (by simp), h.order_eq]
  rw [layout_detachElement h.tree h.child horder h.ne_nil h.first h.last, map_append, map_cons,
    h.indent_eq, htexts _ (take_subset ..), htexts _ (drop_subset ..), map_take, map_drop,
    eq_of_beq h.ends]
  refine (closeUp_lines h.opens hstart).trans ?_
  rw [← layout, take_append_drop]

/-! ### Blank lines that come in -/

theorem perm_layout_insertBreaks (h : doc.IsTree) (p n : Nat) :
    (doc.insertBreaks p n).layout.Perm (replicate n lineBreak ++ doc.layout) := by
  induction n generalizing doc with
  | zero => exact .refl _
  | succ n ih =>
    let nl := (doc.newToken lineBreak).1
    let first := (doc.newToken lineBreak).2.insertAt p [nl]
    have hperm : first.order.Perm (nl :: doc.order) := by
      have := perm_append_comm_assoc (doc.order.take p) [nl] (doc.order.drop p)
      rwa [take_append_drop, ← append_assoc] at this
    have hold : doc.order.map first.textOf = doc.layout :=
      map_congr_left fun l hl => textOf_newToken_of_has (h.order_has l hl) _
    have hlayout : first.layout.Perm (lineBreak :: doc.layout) := by
      have hmap := hperm.map first.textOf
      rwa [map_cons, hold, show first.textOf nl = lineBreak from textOf_newToken ..]
        at hmap
    refine (ih (h.insertNew _ p).tree).trans ((hlayout.append_left _).trans ?_)
    rw [replicate_succ]
    exact perm_middle

theorem text_insertBreaks (h : doc.IsTree) (p n : Nat) :
    (doc.insertBreaks p n).text = doc.text ↔ n = 0 := by
  refine ⟨fun htext => ?_, fun hn => by rw [hn]; rfl⟩
  have hsize : (doc.insertBreaks p n).layout.size = doc.layout.size := by
    rw [← utf8ByteSize_join, ← utf8ByteSize_join]
    exact congrArg String.utf8ByteSize htext
  have hbreaks : ∀ n, n ≤ size (replicate n lineBreak) := by
    intro n
    induction n with
    | zero => exact Nat.zero_le _
    | succ n ih =>
      rw [replicate_succ, size]
      have hone : lineBreak.utf8ByteSize = 1 := rfl
      omega
  rw [size_of_perm (perm_layout_insertBreaks h p n), size_append] at hsize
  have := hbreaks n
  omega

def linesBetween? (doc : Document) (left right : Branch) : Option Nat := do
  let above ← doc.lines? left
  let below ← doc.lines? right
  return below.start - above.stop

def leastBetween (doc : Document) (rule : ListRule) (list left right : Branch) : Nat :=
  max (doc.blankLinesFor rule list left) (doc.blankLinesFor rule list right)

theorem text_separate (h : doc.IsTree) (hleft : left ∈ doc.listElements rule list)
    (hright : right ∈ doc.listElements rule list) (isNew : Bool) :
    (doc.separate rule list left right isNew).text = doc.text ↔
      ∀ gap, doc.linesBetween? left right = some gap →
        doc.leastBetween rule list left right ≤ gap := by
  have haccepts : (!isNew && !(rule.accepts (doc.kindOf left) &&
      rule.accepts (doc.kindOf right))) = false := by
    simp [(mem_listElements.1 hleft).2, (mem_listElements.1 hright).2]
  rw [separate, haccepts, if_neg Bool.false_ne_true, linesBetween?]
  cases hl : doc.lines? left with
  | none => simp
  | some above =>
    cases hr : doc.range? right with
    | none => simp [lines?, hr]
    | some r =>
      have hbelow : doc.lines? right = some (doc.layout.linesOf r) := by
        rw [lines?, hr]
        rfl
      rw [hbelow]
      dsimp only
      rw [text_insertBreaks h, Nat.sub_eq_zero_iff_le, leastBetween]
      exact ⟨fun hle gap hgap => some.inj hgap ▸ hle, fun hle => hle _ rfl⟩

/-- The neighbours of an element that has gone are the last one before it and the first behind. -/
theorem rejoin_of_split {as bs : List Branch} (h : doc.listElements rule list = as ++ bs) :
    doc.rejoin rule list as.length = (as.getLast?.bind fun left => bs.head?.map fun right =>
      doc.separate rule list left right false).getD doc := by
  have hright : (as ++ bs)[as.length]? = bs.head? := by
    rw [getElem?_append_right le_rfl, Nat.sub_self, head?_eq_getElem?]
  rw [rejoin, h, hright]
  rcases eq_nil_or_concat' as with rfl | ⟨front, left, rfl⟩
  · rfl
  · have hleft : (if (front ++ [left]).length = 0 then none
        else (front ++ [left] ++ bs)[(front ++ [left]).length - 1]?) = some left := by
      simp
    rw [hleft]
    cases bs <;> simp

theorem listElements_detach (h : doc.IsTree) (he : added ∈ doc.listElements rule list) :
    let gone := (doc.withoutPadding rule list added).detachElement rule list added
    ∃ as bs, doc.listElements rule list = as ++ added :: bs ∧
      gone.listElements rule list = as ++ bs ∧
      (doc.listElements rule list).idxOf added = as.length := by
  intro gone
  have hdelists : Delists doc gone list added := delists_detachElement h rule list added
  have hthin : Thinned doc gone :=
    (thinned_withoutPadding h rule list added).detachElement rule list added
  clear_value gone
  obtain ⟨as, bs, hsplit⟩ := append_of_mem he
  have hnodup := listElements_nodup h.linked rule list
  rw [hsplit, nodup_middle, nodup_cons] at hnodup
  obtain ⟨hnot, hrest⟩ := hnodup
  have hmem : ∀ e, e ∈ gone.listElements rule list ↔ e ≠ added ∧ e ∈ as ++ bs := by
    intro e
    rw [hdelists.mem_listElements, hsplit]
    simp only [mem_append, mem_cons]
    tauto
  have hsub : gone.listElements rule list <+ as ++ added :: bs := by
    have hkinds : ∀ e ∈ gone.branches list, gone.kindOf e = doc.kindOf e := by
      intro e hge
      obtain ⟨n, hn, hbranch⟩ := mem_filterMap.1 hge
      cases n with
      | leaf l => cases hbranch
      | branch b =>
        cases hbranch
        exact hdelists.evolves.kindOf e (h.linked.has_child (hdelists.back _ hn))
    rw [← hsplit, listElements, listElements, filter_congr fun e hge => by rw [hkinds e hge]]
    exact ((hthin.children list).filterMap _).filter _
  refine ⟨as, bs, hsplit, ?_, ?_⟩
  · obtain ⟨xs, ys, heq, hxs, hys⟩ := sublist_append_iff.1 hsub
    have hys' : ys <+ bs := by
      rcases sublist_cons_iff.1 hys with hys | ⟨zs, rfl, -⟩
      · exact hys
      · exact absurd ((hmem added).1 (by simp [heq])).1 (by simp)
    rw [heq]
    refine (hxs.append hys').eq_of_length_le (Nodup.subperm hrest fun e hm => ?_).length_le
    rw [← heq, hmem]
    exact ⟨fun he => hnot (he ▸ hm), hm⟩
  · rw [hsplit, idxOf_append_of_notMem fun hm => hnot (mem_append_left _ hm),
      idxOf_cons_self, Nat.add_zero]

theorem padAround_of_split {xs ys : List Branch}
    (hitems : doc.elementsAndComments rule list = xs ++ added :: ys) (hxs : added ∉ xs)
    (isComment : Bool) : doc.padAround rule list added isComment =
      let above := xs.getLast?.elim doc fun left => doc.separate rule list left added isComment
      ys.head?.elim above fun right => above.separate rule list added right false := by
  have hnext : (xs ++ added :: ys)[xs.length + 1]? = ys.head? := by
    rw [getElem?_append_right (Nat.le_add_right _ 1), Nat.add_sub_cancel_left,
      getElem?_cons_succ, head?_eq_getElem?]
  rw [padAround, hitems, idxOf?_append_cons hxs]
  dsimp only
  rw [take_left, hnext]
  cases xs.getLast? <;> cases ys.head? <;> rfl

def StartsBefore (doc : Document) (b c : Branch) : Prop :=
  ∀ r ∈ doc.range? b, ∀ s ∈ doc.range? c, r.start ≤ s.start

instance (doc : Document) (b c : Branch) : Decidable (doc.StartsBefore b c) :=
  inferInstanceAs (Decidable (∀ _ ∈ _, _))

theorem pairwise_elementsAndComments (doc : Document) (rule : ListRule) (list : Branch) :
    (doc.elementsAndComments rule list).Pairwise doc.StartsBefore := by
  let placed (bs : List Branch) : List (Span × Branch) :=
    bs.filterMap fun b => (doc.range? (.branch b)).map (·, b)
  have hplaced : ∀ bs, ∀ item ∈ placed bs, doc.range? item.2 = some item.1 := by
    intro bs item hitem
    obtain ⟨b, -, hb⟩ := mem_filterMap.1 hitem
    obtain ⟨r, hr, rfl⟩ := map_eq_some_iff.1 hb
    exact hr
  have hsorted : ∀ items : List (Span × Branch),
      (∀ item ∈ items, doc.range? item.2 = some item.1) →
        ((items.mergeSort fun a b => a.1.start ≤ b.1.start).map Prod.snd).Pairwise
          doc.StartsBefore := by
    intro items hitems
    refine pairwise_map.2 (Pairwise.imp_of_mem (fun ha hb hle r hr s hs => ?_)
      (pairwise_mergeSort (fun a b c hab hbc => ?_) (fun a b => ?_) items))
    · rw [mem_def, hitems _ (mem_mergeSort.1 ha), some_inj] at hr
      rw [mem_def, hitems _ (mem_mergeSort.1 hb), some_inj] at hs
      simpa [hr, hs] using hle
    · simp only [decide_eq_true_eq] at hab hbc ⊢
      omega
    · simp only [Bool.or_eq_true, decide_eq_true_eq]
      omega
  refine hsorted _ fun item hitem => ?_
  rcases mem_append.1 hitem with hitem | hitem
  · exact hplaced _ item hitem
  · exact hplaced _ item (mem_of_mem_filter hitem)

/-- No blank lines come in around an element that stands far enough from all others. -/
theorem padAround_of_apart (h : doc.Linked) (hc : doc.ListsComments)
    (haccepts : rule.accepts .comment = false)
    (hapart : ∀ e ∈ doc.listElements rule list, e ≠ added →
      (doc.StartsBefore e added → doc.separate rule list e added false = doc) ∧
        (doc.StartsBefore added e → doc.separate rule list added e false = doc)) :
    doc.padAround rule list added false = doc := by
  obtain ⟨hnodup, hitems⟩ := elementsAndComments_spec h hc haccepts list
  have hsorted := pairwise_elementsAndComments doc rule list
  have hsep : ∀ e ∈ doc.elementsAndComments rule list, e ≠ added →
      (doc.StartsBefore e added → doc.separate rule list e added false = doc) ∧
        (doc.StartsBefore added e → doc.separate rule list added e false = doc) := by
    intro e he hne
    rcases hitems e he with he | hnot
    · exact hapart e he hne
    · simp [separate, hnot]
  by_cases hmem : added ∈ doc.elementsAndComments rule list
  · obtain ⟨xs, ys, heq⟩ := append_of_mem hmem
    rw [heq] at hsep
    rw [heq, nodup_middle, nodup_cons, mem_append, not_or] at hnodup
    rw [heq, pairwise_append, pairwise_cons] at hsorted
    obtain ⟨⟨hxs, hys⟩, -⟩ := hnodup
    obtain ⟨-, ⟨hbehind, -⟩, hbefore⟩ := hsorted
    have habove : xs.getLast?.elim doc (fun left => doc.separate rule list left added false) =
        doc := by
      cases hl : xs.getLast? with
      | none => rfl
      | some left =>
        have hleft := mem_of_getLast? hl
        exact (hsep left (by simp [hleft]) fun he => hxs (he ▸ hleft)).1
          (hbefore left hleft added mem_cons_self)
    rw [padAround_of_split heq hxs, habove]
    cases hr : ys.head? with
    | none => rfl
    | some right =>
      have hright := mem_of_head? hr
      exact (hsep right (by simp [hright]) fun he => hys (he ▸ hright)).2 (hbehind right hright)
  · rw [padAround]
    dsimp only
    rw [idxOf?_eq_none_iff.2 hmem]

theorem listsComments_insertLines (doc : Document) (rule : ListRule) (list : Branch) (line : Nat)
    (fragment : Document) (isComment : Bool) :
    (doc.insertLines rule list line fragment isComment).2.ListsComments :=
  listsComments_updateComments _

/-- A run of blank lines of a list ends or starts where an element does. -/
def BlankBeside (doc : Document) (list element : Branch) : Prop :=
  ∃ lines ∈ doc.lines? element, ∃ run ∈ doc.blankRuns list,
    run.stop = lines.start ∨ run.start = lines.stop

instance (doc : Document) (list element : Branch) : Decidable (doc.BlankBeside list element) :=
  inferInstanceAs (Decidable (∃ _ ∈ _, _))

theorem withoutBlank_of_not_beside (h : ¬ doc.BlankBeside list added) (rule : ListRule) :
    doc.withoutBlank rule list added = doc := by
  have hcuts : ∀ most, doc.cutBlankBelow list added most = doc ∧
      doc.cutBlankAbove list added most = doc := by
    intro most
    rw [cutBlankBelow, cutBlankAbove]
    cases hlines : doc.lines? added with
    | none => exact ⟨rfl, rfl⟩
    | some lines =>
      have hstop : (doc.blankRuns list).find? (·.stop == lines.start) = none :=
        find?_eq_none.2 fun run hrun hstop =>
          h ⟨lines, hlines, run, hrun, Or.inl (eq_of_beq hstop)⟩
      have hstart : (doc.blankRuns list).find? (·.start == lines.stop) = none :=
        find?_eq_none.2 fun run hrun hstart =>
          h ⟨lines, hlines, run, hrun, Or.inr (eq_of_beq hstart)⟩
      simp [hstop, hstart]
  simp [withoutBlank, hcuts]

end Document

namespace Edit

open Document

variable {doc fragment : Document} {rule : ListRule} {list : Branch} {line : Nat}

theorem unfolded_of_open (hopen : doc.isSqueezed list = false) :
    doc.unfolded list = doc ∧ doc.entryLine rule list line = line := by
  rw [unfolded, entryLine, hopen]
  exact ⟨rfl, rfl⟩

section

variable (h : doc.IsTree) (ho : doc.Ordered) (hopen : doc.isSqueezed list = false)
  (hline : line ∈ doc.linesFor rule list) (hcomment : fragment.rootKind ≠ .comment)
include h ho hopen hline hcomment

theorem run_placeAtLine_of_open :
    let lines := doc.insertLines rule list line (rule.wrap fragment) false
    (placeAtLine rule list line fragment).run doc = .ok lines.1 lines.2 := by
  obtain ⟨hunfolded, hentry⟩ : _ ∧ doc.entryLine rule list line = line := unfolded_of_open hopen
  rcases run_placeAtLine (unfolds_of_ordered h ho rule list) line fragment with
    ⟨-, hrun⟩ | ⟨-, hnot, -⟩
  · rwa [hunfolded, hentry, decide_eq_false hcomment] at hrun
  · exact absurd hline hnot

/-- Where no placeholder stands and the others are far enough, a new element only takes its lines. -/
theorem run_addAtLine_of_apart (hrule : doc.listRule? list = some rule)
    (hlist : doc.Has list) (hfree : doc.placeholder? rule list = none)
    (hinline : doc.isInline rule list = false) (hf : fragment.IsTree)
    (hkind : rule.accepts fragment.rootKind = true)
    (hapart : let lines := doc.insertLines rule list line (rule.wrap fragment) false
      rule.isPadded = true → rule.accepts .comment = false ∧
        ∀ e ∈ lines.2.listElements rule list, e ≠ lines.1 →
          (lines.2.StartsBefore e lines.1 → lines.2.separate rule list e lines.1 false = lines.2) ∧
            (lines.2.StartsBefore lines.1 e →
              lines.2.separate rule list lines.1 e false = lines.2)) :
    (addAtLine list line fragment).run doc = (placeAtLine rule list line fragment).run doc := by
  obtain ⟨mid, hdrop, hrun⟩ := run_addAtLine_lines hrule (Or.inr hkind) h ho hf hinline line
    (Or.inr hline)
  obtain ⟨hunfolded, hentry⟩ : _ ∧ doc.entryLine rule list line = line := unfolded_of_open hopen
  rw [hunfolded, hentry, hfree, decide_eq_false hcomment] at hdrop
  rw [hunfolded, hentry, decide_eq_false hcomment] at hrun
  have hplace := run_placeAtLine_of_open h ho hopen hline hcomment
  have henlists := enlists_insertLines hlist (ListRule.isTree_wrap hf) (accepts_wrap rule hcomment)
    h.linked line
  have hlists := listsComments_insertLines doc rule list line (rule.wrap fragment) false
  generalize doc.insertLines rule list line (rule.wrap fragment) false = placed
    at hdrop hrun hapart hplace henlists hlists
  obtain rfl : placed.2 = mid := (EStateM.Result.ok.inj hdrop).2
  rw [hrun, hplace]
  split
  · next hpadded =>
    rw [padAround_of_apart henlists.evolves.linked hlists (hapart hpadded).1 (hapart hpadded).2]
  · rfl

end

/-- Where no blank lines are demanded, an element put on lines of its own and taken out again leaves
the text as it was exactly if its list is indented by white space. -/
theorem text_addAtLine_removeElement (h : doc.IsTree) (ho : doc.Ordered)
    (hbreak : doc.endsWithBreak = true) (hlist : doc.Has (.branch list))
    (hrule : doc.listRule? list = some rule)
    (hdelimiter : rule.delimiter = "") (hplaceholder : rule.placeholder = none)
    (hoptional : doc.optionalAround? list = none) (hinline : doc.isInline rule list = false)
    (hopen : doc.isSqueezed list = false) {lines : List Nat}
    (hlines : doc.availableLines list = .ok lines) (hline : line ∈ lines)
    (hstart : line = 0 → doc.indent (.branch list) = "") (hf : fragment.IsTree)
    (hfo : fragment.Ordered) (hkind : rule.accepts fragment.rootKind = true)
    (hcomment : fragment.rootKind ≠ .comment) (hcompact : fragment.Compact)
    (hquiet : let placed := doc.insertLines rule list line (rule.wrap fragment) false
      rule.isPadded = true → rule.accepts .comment = false ∧
        ∀ d ∈ [placed.2, placed.2.detachElement rule list placed.1],
          let topLevel := d.isTopLevel (.branch list)
          rule.demand topLevel ((rule.wrap fragment).kindsOf (rule.wrap fragment).root) = 0 ∧
            ∀ e ∈ doc.listElements rule list, rule.demand topLevel (doc.kindsOf e) = 0) :
    ∃ added mid taken after, (addAtLine list line fragment).run doc = .ok added mid ∧
      (removeElement list added).run mid = .ok taken after ∧
      (after.text = doc.text ↔ Layout.isGap (doc.indent (.branch list)) = true) := by
  rw [availableLines, hrule] at hlines
  cases hlines
  have hplace := run_placeAtLine_of_open h ho hopen hline hcomment
  have hadd := run_addAtLine_of_apart h ho hopen hline hcomment hrule hlist
    (by simp [placeholder?, hplaceholder]) hinline hf hkind
  have hwrap : (rule.wrap fragment).Aligned := Aligned.wrap ⟨hf, hfo⟩ rule
  have henlists := enlists_insertLines hlist hwrap.tree (accepts_wrap rule hcomment) h.linked line
  obtain ⟨p, us, block, nl, htakes, hkinds, hzero⟩ := exists_takesLines h hlist hbreak hdelimiter
    hwrap (hcompact.wrap hf rule) line
  dsimp only at hquiet hadd hplace
  generalize doc.insertLines rule list line (rule.wrap fragment) false = placed
    at hplace hadd henlists htakes hkinds hquiet
  obtain ⟨added, mid⟩ := placed
  dsimp only at hplace hadd henlists htakes hkinds hquiet
  -- an element asks for what it asked for before, on the level that the list has
  have hdemand : ∀ d : Document, mid.Rewired d.toForest list →
      d ∈ [mid, mid.detachElement rule list added] → rule.isPadded = true →
      ∀ e ∈ mid.listElements rule list, d.blankLinesFor rule list e = 0 := by
    intro d hd hmem hpadded e he
    have hchild := (mem_listElements.1 he).1
    have hne : e ≠ list := by
      rintro rfl
      exact htakes.tree.linked.not_around_of_child hchild .self
    obtain ⟨hnew, hold⟩ := (hquiet hpadded).2 d hmem
    rw [blankLinesFor_eq, kindsOf_of_rewired htakes.tree.linked hd
      (htakes.tree.linked.has_child hchild) hne]
    rcases henlists.mem_listElements.1 he with rfl | he
    · rw [hkinds]
      exact hnew
    · rw [kindsOf_of_rewired h.linked htakes.rewired
        (h.linked.has_child (mem_listElements.1 he).1) hne]
      exact hold e he
  have hadd := hadd fun hp => by
    have hnone := hdemand mid (Forest.Rewired.refl _ list) (by simp) hp
    have hadded := hnone added (henlists.mem_listElements.2 (Or.inl rfl))
    exact ⟨(hquiet hp).1, fun e he _ =>
      ⟨fun _ => separate_of_quiet fun _ _ => ⟨hnone e he, hadded⟩,
        fun _ => separate_of_quiet fun _ _ => ⟨hadded, hnone e he⟩⟩⟩
  have hrules := htakes.rules_eq h hlist
  obtain ⟨taken, hremove⟩ := run_removeElement_of_quiet htakes.tree
    (hrules.1.trans hrule) (hrules.2.trans hoptional)
    htakes.child (Or.inl hplaceholder) fun hp =>
      ⟨hdemand mid (Forest.Rewired.refl _ list) (by simp) hp added
          (henlists.mem_listElements.2 (Or.inl rfl)),
        fun e he _ => hdemand _ (rewired_detachElement ..) (by simp) hp e he⟩
  refine ⟨added, mid, taken, _, hadd.trans hplace, hremove, ?_⟩
  rw [text, htakes.layout_detach h hdelimiter fun hnil => hstart (hzero hnil)]
  split
  · next hgap => exact iff_of_true rfl hgap
  · next hgap =>
    refine iff_of_false (fun htext => ?_) hgap
    have hsize := congrArg String.utf8ByteSize htext
    rw [text, Layout.utf8ByteSize_join, Layout.utf8ByteSize_join,
      Layout.size_of_perm List.perm_middle, Layout.size, List.take_append_drop] at hsize
    have hnil : doc.indent (.branch list) = "" := String.utf8ByteSize_eq_zero_iff.1 (by omega)
    exact hgap (by rw [hnil]; rfl)

/-- Behind a block the text comes back. Inside the block a comment stands before the first statement,
on its line: it is written before the new statement too, and stays there. -/
theorem text_addAtLine_removeElement_block :
    let start : Builder :=
      { grammar := .javaScript, source := "\x7b\n  /* c */ a;\n\x7d\n" }
    let calls : List Builder.Call :=
      [.openNode .program, .openNode .statementList, .openNode .statement, .openNode .enclosedBody,
        .token "\x7b", .comment "/* c */", .openNode .statementList, .openNode .statement, .token "a",
        .token ";", .closeNode, .closeNode, .token "\x7d", .closeNode, .closeNode, .closeNode,
        .closeNode]
    let fragment := Document.ofSource .javaScript .call "x"
    ∃ doc rule, (start.run calls).finish = .ok doc ∧ doc.IsTree ∧ doc.Ordered ∧
      doc.endsWithBreak = true ∧ rule.delimiter = "" ∧ rule.placeholder = none ∧
      rule.isPadded = true ∧ rule.accepts .comment = false ∧ fragment.IsTree ∧ fragment.Ordered ∧
      rule.accepts fragment.rootKind = true ∧ fragment.rootKind ≠ .comment ∧ fragment.Compact ∧
      (∀ place ∈ [(⟨1⟩, [0, 3, 4], 3), (⟨6⟩, [1, 2], 1)], doc.Has (.branch place.1) ∧
        doc.listRule? place.1 = some rule ∧ doc.optionalAround? place.1 = none ∧
        doc.isInline rule place.1 = false ∧ doc.isSqueezed place.1 = false ∧
        doc.availableLines place.1 = .ok place.2.1 ∧ place.2.2 ∈ place.2.1 ∧ place.2.2 ≠ 0 ∧
        let placed := doc.insertLines rule place.1 place.2.2 (rule.wrap fragment) false
        ∀ d ∈ [placed.2, placed.2.detachElement rule place.1 placed.1],
          let topLevel := d.isTopLevel (.branch place.1)
          rule.demand topLevel ((rule.wrap fragment).kindsOf (rule.wrap fragment).root) = 0 ∧
            ∀ e ∈ doc.listElements rule place.1, rule.demand topLevel (doc.kindsOf e) = 0) ∧
      (∃ added mid taken after, (addAtLine ⟨1⟩ 3 fragment).run doc = .ok added mid ∧
        (removeElement ⟨1⟩ added).run mid = .ok taken after ∧ after.text = doc.text) ∧
      ∃ added mid taken after, (addAtLine ⟨6⟩ 1 fragment).run doc = .ok added mid ∧
        (removeElement ⟨6⟩ added).run mid = .ok taken after ∧ after.text ≠ doc.text := by
  intro start calls fragment
  let doc := (start.run calls).built
  let rule : ListRule := .onLines .statement
    [.function, .classDefinition, .importStatement, .ifStatement, .tryStatement, .returnStatement,
      .expression, .assignment, .call] [⟨.function, 1, .always⟩, ⟨.classDefinition, 1, .always⟩]
  have hfinish : (start.run calls).finish = .ok doc := by decide +kernel
  obtain ⟨htree, hordered⟩ := Builder.isTree_of_run hfinish
  have hbreak : doc.endsWithBreak = true := by decide +kernel
  have hf : fragment.Aligned := aligned_ofSource ..
  have hkind : rule.accepts fragment.rootKind = true ∧ fragment.rootKind ≠ .comment ∧
      fragment.Compact := by decide +kernel
  refine ⟨doc, rule, hfinish, htree, hordered, hbreak, rfl, rfl, rfl, rfl, hf.tree, hf.ordered,
    hkind.1, hkind.2.1, hkind.2.2, ?_⟩
  refine (and_iff_left_of_imp fun hplaces => ?_).2 (by decide +kernel)
  have hrun : ∀ place ∈ [(⟨1⟩, [0, 3, 4], 3), (⟨6⟩, [1, 2], 1)], ∃ added mid taken after,
      (addAtLine place.1 place.2.2 fragment).run doc = .ok added mid ∧
        (removeElement place.1 added).run mid = .ok taken after ∧
        (after.text = doc.text ↔ Layout.isGap (doc.indent (.branch place.1)) = true) := by
    intro place hplace
    obtain ⟨hlist, hrule, hoptional, hinline, hopen, hlines, hline, hpos, hquiet⟩ :=
      hplaces place hplace
    exact text_addAtLine_removeElement htree hordered hbreak hlist hrule rfl rfl hoptional hinline
      hopen hlines hline (fun hzero => absurd hzero hpos) hf.tree hf.ordered hkind.1 hkind.2.1
      hkind.2.2 fun _ => ⟨rfl, hquiet⟩
  constructor
  · obtain ⟨added, mid, taken, after, hadd, hremove, htext⟩ := hrun (⟨1⟩, [0, 3, 4], 3) (by simp)
    exact ⟨added, mid, taken, after, hadd, hremove, htext.2 (by decide +kernel)⟩
  · obtain ⟨added, mid, taken, after, hadd, hremove, htext⟩ := hrun (⟨6⟩, [1, 2], 1) (by simp)
    exact ⟨added, mid, taken, after, hadd, hremove, fun h => absurd (htext.1 h) (by decide +kernel)⟩

end Edit

end Lossless
