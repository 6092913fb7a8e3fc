import Lossless.Proofs.Departing

/-! What stays of a text. White space is cut out of it and new tokens come in, but its ink stays in
its order, apart from what an element takes with it. -/

namespace Lossless

open List Layout Text

/-! ### Blank lines -/

theorem exists_of_mem_mergeAdjacent {spans : List Span} {run : Span}
    (h : run ∈ mergeAdjacent spans) :
    (∃ s ∈ spans, s.start = run.start) ∧ (∃ s ∈ spans, s.stop = run.stop) ∧
      ∀ i, run.start ≤ i → i < run.stop → ∃ s ∈ spans, s.start ≤ i ∧ i < s.stop := by
  induction spans generalizing run with
  | nil => cases h
  | cons s rest ih =>
    have hfirst : ∀ i, s.start ≤ i → i < s.stop → ∃ s' ∈ s :: rest, s'.start ≤ i ∧ i < s'.stop :=
      fun i hle hlt => ⟨s, mem_cons_self, hle, hlt⟩
    rw [mergeAdjacent] at h
    split at h
    · cases mem_singleton.1 h
      exact ⟨⟨s, mem_cons_self, rfl⟩, ⟨s, mem_cons_self, rfl⟩, hfirst⟩
    · next t ts hmerged =>
      have hrest : ∀ m ∈ t :: ts, (∃ s' ∈ s :: rest, s'.start = m.start) ∧
          (∃ s' ∈ s :: rest, s'.stop = m.stop) ∧
          ∀ i, m.start ≤ i → i < m.stop → ∃ s' ∈ s :: rest, s'.start ≤ i ∧ i < s'.stop := by
        intro m hm
        obtain ⟨⟨a, ha, hstart⟩, ⟨b, hb, hstop⟩, hin⟩ := ih (hmerged ▸ hm)
        refine ⟨⟨a, mem_cons_of_mem _ ha, hstart⟩, ⟨b, mem_cons_of_mem _ hb, hstop⟩,
          fun i hle hlt => ?_⟩
        obtain ⟨c, hc, hbounds⟩ := hin i hle hlt
        exact ⟨c, mem_cons_of_mem _ hc, hbounds⟩
      split at h
      · next hjoin =>
        rcases mem_cons.1 h with rfl | h
        · obtain ⟨-, hstop, hin⟩ := hrest t mem_cons_self
          refine ⟨⟨s, mem_cons_self, rfl⟩, hstop, fun i hle hlt => ?_⟩
          by_cases hi : i < s.stop
          · exact hfirst i hle hi
          · exact hin i (by omega) hlt
        · exact hrest run (mem_cons_of_mem _ h)
      · rcases mem_cons.1 h with rfl | h
        · exact ⟨⟨run, mem_cons_self, rfl⟩, ⟨run, mem_cons_self, rfl⟩, hfirst⟩
        · exact hrest run h

namespace Layout

variable {ts : Layout} {t : String} {a b i n p start width : Nat}

/-- Every position before this one lies on a line above. -/
def Opens (ts : Layout) (a : Nat) : Prop :=
  ∀ q, q < a → ts.lineOf q < ts.lineOf a

theorem opens_of_break (h : ts[i]? = some t) (hbreak : isBreak t = true) : ts.Opens (i + 1) := by
  intro q hq
  rw [lineOf_succ h, if_pos hbreak]
  exact Nat.lt_succ_of_le (ts.lineOf_mono (Nat.le_of_lt_succ hq))

theorem Opens.le_afterBreaks (h : ts.Opens a) (hle : ts.lineOf a ≤ n) : a ≤ afterBreaks n ts := by
  cases a with
  | zero => exact Nat.zero_le _
  | succ q =>
    have hlt := h q (Nat.lt_succ_self q)
    have hq : q < ts.length := by
      by_contra hge
      rw [lineOf, lineOf, take_of_length_le (by omega),
        take_of_length_le (by omega)] at hlt
      exact Nat.lt_irrefl _ hlt
    exact lt_afterBreaks hq (hlt.trans_le hle)

theorem opens_of_mem_endedLines {rest : List String} {line : Span}
    (hstart : ts.Opens start) (hat : ∀ k t, rest[k]? = some t → ts[start + width + k]? = some t)
    (h : line ∈ endedLines start width rest) : ts.Opens line.start ∧ line.stop ≤ ts.length := by
  induction rest generalizing start width with
  | nil => cases h
  | cons t rest ih =>
    have hget : ts[start + width]? = some t := hat 0 t rfl
    rw [endedLines] at h
    split at h
    · next hbreak =>
      rcases mem_cons.1 h with rfl | h
      · exact ⟨hstart, (List.getElem?_eq_some_iff.1 hget).1⟩
      · refine ih (opens_of_break hget hbreak) (fun k u hk => ?_) h
        rw [← hat (k + 1) u hk]
        congr 1
        omega
    · refine ih hstart (fun k u hk => ?_) h
      rw [← hat (k + 1) u hk]
      congr 1
      omega

theorem opens_of_nextBreak? (h : ts.nextBreak? p = some i) : ts.Opens (i + 1) := by
  obtain ⟨t, ht, hbreak⟩ := exists_break_of_nextBreak? h
  exact opens_of_break ht hbreak

theorem opens_of_mem_lineRanges {span line : Span} (h : line ∈ ts.lineRanges span) :
    ts.Opens line.start ∧ line.stop ≤ ts.length := by
  rw [lineRanges] at h
  have hopens : ts.Opens (ts.nextLineStart span.start) ∨
      ts.length ≤ ts.nextLineStart span.start := by
    cases span.start with
    | zero => exact Or.inl fun q hq => absurd hq (Nat.not_lt_zero q)
    | succ p =>
      rw [nextLineStart]
      split
      · exact Or.inr (Nat.le_max_right ..)
      · next hi => exact Or.inl (opens_of_nextBreak? hi)
  generalize ts.nextLineStart span.start = start at h hopens
  rcases hopens with hopens | hend
  · refine opens_of_mem_endedLines hopens (fun k u hk => ?_) h
    have hlt := (List.getElem?_eq_some_iff.1 hk).1
    rw [length_take] at hlt
    rwa [getElem?_take_of_lt (by omega), getElem?_drop] at hk
  · rw [drop_of_length_le hend, take_nil] at h
    cases h

theorem Opens.linesTokens_bounds (h : ts.Opens a) {lines : Span}
    (hstart : ts.lineOf a ≤ lines.start) (hstop : lines.stop ≤ max (ts.lineOf a) (ts.lineOf b))
    (hle : (ts.linesTokens lines).start ≤ i) (hlt : i < (ts.linesTokens lines).stop) :
    a ≤ i ∧ i < b := by
  have hopen := h.le_afterBreaks hstart
  rw [linesTokens] at hle hlt
  split at hlt
  · next hempty =>
    rw [if_pos hempty] at hle
    exact absurd hlt (Nat.not_lt.2 hle)
  · next hempty =>
    rw [if_neg hempty] at hle
    refine ⟨hopen.trans hle, ?_⟩
    have hne : lines.start < lines.stop := by
      simpa [Span.isEmpty] using hempty
    have hend : ts.lineEnd (afterBreaks (lines.stop - 1) ts) < b := by
      have := lineOf_afterBreaks_le (lines.stop - 1) ts
      exact lineEnd_lt (by omega)
    have hlt := hlt.trans_le (Nat.min_le_left ..)
    simp only [lineTokens] at hlt
    omega

section

variable (ht : ts[i]? = some t) (span : Span)
include ht

theorem isBlank_of_front (hle : span.start ≤ i) (hlt : i < span.start +
      (((ts.drop span.start).take (span.stop - span.start)).takeWhile isBlank).length) :
    isBlank t = true := by
  have hlen := (takeWhile_sublist isBlank
    (l := (ts.drop span.start).take (span.stop - span.start))).length_le
  rw [length_take] at hlen
  have hget : ((ts.drop span.start).take (span.stop - span.start))[i - span.start]? = some t := by
    rwa [getElem?_take_of_lt (by omega), getElem?_drop, Nat.add_sub_cancel' hle]
  exact holds_of_takeWhile hget (by omega)

theorem isBlank_of_back (hspan : span.start ≤ span.stop) (hle : span.stop - (((ts.drop
      span.start).take (span.stop - span.start)).reverse.takeWhile isBlank).length ≤ i)
    (hlt : i < span.stop) : isBlank t = true := by
  have hlen := (takeWhile_sublist isBlank
    (l := ((ts.drop span.start).take (span.stop - span.start)).reverse)).length_le
  rw [length_reverse, length_take] at hlen
  have hget : (ts.drop span.start)[i - span.start]? = some t := by
    rwa [getElem?_drop, Nat.add_sub_cancel' (by omega)]
  exact holds_of_takeWhile_reverse (q := span.stop - span.start) hget (by omega) (by omega)

end

end Layout

namespace Document

variable {doc mid after : Document} {rule : ListRule} {list element : Branch} {l x y : Leaf}
  {gone gone' tokens : List Leaf} {span lines run : Span}

theorem isBlank_of_mem_blankRuns (hrun : run ∈ doc.blankRuns list)
    (hstart : run.start ≤ lines.start) (hstop : lines.stop ≤ run.stop) :
    ∀ l ∈ doc.leavesIn (doc.layout.linesTokens lines), isBlank (doc.textOf l) = true := by
  intro l hl
  obtain ⟨i, hi, hle, hlt⟩ := exists_of_mem_leavesIn hl
  have htext := layout_getElem? hi
  obtain ⟨merged, hmerged, rfl⟩ := mem_map.1 hrun
  obtain ⟨⟨first, hfirst, hopen⟩, ⟨last, hlast, hend⟩, hin⟩ := exists_of_mem_mergeAdjacent hmerged
  have hopens := (opens_of_mem_lineRanges (mem_of_mem_filter hfirst)).1
  have hlength := (opens_of_mem_lineRanges (mem_of_mem_filter hlast)).2
  have hne : doc.layout ≠ [] := ne_nil_of_mem (mem_of_getElem? htext)
  rw [linesOf_of_ne_nil hne (hend ▸ hlength)] at hstart hstop
  obtain ⟨hle, hlt⟩ := (hopen ▸ hopens).linesTokens_bounds hstart hstop hle hlt
  obtain ⟨line, hline, hlo, hhi⟩ := hin i hle hlt
  have hblank := all_eq_true.1 (mem_filter.1 hline).2
  refine hblank _ (mem_of_getElem? (i := i - line.start) ?_)
  rwa [getElem?_take_of_lt (by omega), getElem?_drop, Nat.add_sub_cancel' hlo]

/-! ### Texts that keep their ink -/

/-- What both texts hold stands alike in both, and the second holds the ink of the first, apart from
what has gone. -/
structure Retains (doc after : Document) (gone : List Leaf) : Prop where
  evolves : Grows doc after
  start : doc.IsTree
  tree : after.IsTree
  old : ∀ l ∈ after.order, doc.Has l → l ∈ doc.order
  order : after.order.filter doc.order.contains = doc.order.filter after.order.contains
  kept : ∀ l ∈ doc.ink, l ∉ gone → l ∈ after.order

theorem mem_ink : l ∈ doc.ink ↔ l ∈ doc.order ∧ isBlank (doc.textOf l) = false := by
  simp [ink]

namespace Retains

theorem of_sublist (hev : Grows doc after) (h : doc.IsTree) (ha : after.IsTree)
    (hs : after.order <+ doc.order)
    (hgone : ∀ l ∈ doc.order, l ∉ after.order → isBlank (doc.textOf l) = true ∨ l ∈ gone) :
    Retains doc after gone := by
  refine ⟨hev, h, ha, fun l hl _ => hs.subset hl, ?_, fun l hl hnot => ?_⟩
  · rw [filter_contains_of_sublist h.order_nodup hs]
    exact filter_eq_self.2 fun l hl => contains_iff_mem.2 (hs.subset hl)
  · obtain ⟨ho, hink⟩ := mem_ink.1 hl
    by_contra hout
    rcases hgone l ho hout with hblank | hmem
    · rw [hblank] at hink
      cases hink
    · exact hnot hmem

theorem of_superlist (hev : Grows doc after) (h : doc.IsTree)
    (ha : after.IsTree) (hs : doc.order <+ after.order)
    (hold : ∀ l ∈ after.order, doc.Has (.leaf l) → l ∈ doc.order) : Retains doc after [] := by
  refine ⟨hev, h, ha, hold, ?_, fun l hl _ => hs.subset (mem_ink.1 hl).1⟩
  rw [filter_contains_of_sublist ha.order_nodup hs]
  exact (filter_eq_self.2 fun l hl => contains_iff_mem.2 (hs.subset hl)).symm

theorem mono (h : Retains doc after gone) (hsub : ∀ l ∈ doc.order, l ∈ gone → l ∈ gone') :
    Retains doc after gone' :=
  ⟨h.evolves, h.start, h.tree, h.old, h.order, fun l hl hnot =>
    h.kept l hl fun hm => hnot (hsub l (mem_ink.1 hl).1 hm)⟩

theorem trans (h : Retains doc mid gone) (h' : Retains mid after gone') :
    Retains doc after (gone ++ gone') := by
  have hmid : ∀ l ∈ doc.order, l ∈ after.order → l ∈ mid.order := fun l ho ha =>
    h'.old l ha (h.evolves.has _ (h.start.order_has l ho))
  refine ⟨h.evolves.trans h'.evolves, h.start, h'.tree, fun l hl hhas => ?_, ?_,
    fun l hl hnot => ?_⟩
  · exact h.old l (h'.old l hl (h.evolves.has _ hhas)) hhas
  · have hleft : after.order.filter doc.order.contains =
        (after.order.filter mid.order.contains).filter doc.order.contains := by
      rw [filter_filter]
      refine filter_congr fun l hl => ?_
      by_cases ho : l ∈ doc.order
      · simp [ho, hmid l ho hl]
      · simp [ho]
    have hright : doc.order.filter after.order.contains =
        (doc.order.filter mid.order.contains).filter after.order.contains := by
      rw [filter_filter]
      refine filter_congr fun l hl => ?_
      by_cases ha : l ∈ after.order
      · simp [ha, hmid l hl ha]
      · simp [ha]
    rw [hleft, h'.order, hright, ← h.order, filter_filter, filter_filter]
    exact filter_congr fun l _ => Bool.and_comm ..
  · obtain ⟨hgone, hgone'⟩ := not_or.1 (mt mem_append.2 hnot)
    obtain ⟨ho, hink⟩ := mem_ink.1 hl
    refine h'.kept l (mem_ink.2 ⟨h.kept l hl hgone, ?_⟩) hgone'
    rw [h.evolves.textOf l (h.start.order_has l ho)]
    exact hink

/-- The ink that has not gone is there in its order. -/
theorem ink_sublist (h : Retains doc after gone) :
    doc.ink.filter (!gone.contains ·) <+ after.order := by
  have hkept : (doc.ink.filter (!gone.contains ·)).filter after.order.contains =
      doc.ink.filter (!gone.contains ·) := by
    refine filter_eq_self.2 fun l hl => contains_iff_mem.2 ?_
    obtain ⟨hl, hnot⟩ := mem_filter.1 hl
    exact h.kept l hl (by simpa using hnot)
  have hsub : doc.ink.filter (!gone.contains ·) <+ doc.order :=
    filter_sublist.trans filter_sublist
  rw [← hkept]
  exact (hsub.filter _).trans (h.order ▸ filter_sublist)

theorem before (h : Retains doc after gone) (hx : x ∈ doc.order) (hy : y ∈ doc.order)
    (hxy : Before after.order x y) : Before doc.order x y := by
  have hbefore := Sublist.filter doc.order.contains hxy
  rw [filter_eq_self.2 (by simp [hx, hy]), h.order] at hbefore
  exact hbefore.trans filter_sublist

theorem precedes (h : Retains doc after gone) (hx : doc.Has x) (hy : doc.Has y)
    (hxy : doc.Precedes x y) : after.Precedes x y := by
  intro hxa hya
  have hbefore := Sublist.filter after.order.contains (hxy (h.old x hxa hx) (h.old y hya hy))
  rw [filter_eq_self.2 (by simp [hxa, hya]), ← h.order] at hbefore
  exact hbefore.trans filter_sublist

theorem coveredLeaves_subset {node : Node} (h : Retains doc mid gone) (hd : doc.Aligned)
    (hm : mid.Aligned) (hshown : mid.visibleLeaves node ⊆ doc.visibleLeaves node)
    (ho : l ∈ doc.order) (hl : l ∈ mid.coveredLeaves node) : l ∈ doc.coveredLeaves node := by
  obtain ⟨x, hx, y, hy, hxl, hly⟩ := (mem_coveredLeaves hm.tree.order_nodup (hm.visible _)).1 hl
  have hx := hshown hx
  have hy := hshown hy
  refine (mem_coveredLeaves hd.tree.order_nodup (hd.visible _)).2 ⟨x, hx, y, hy,
    hxl.imp_right fun hxl => ?_, hly.imp_right fun hly => ?_⟩
  · exact h.before (mem_visibleLeaves.1 hx).2 ho hxl
  · exact h.before ho (mem_visibleLeaves.1 hy).2 hly

end Retains

/-! ### Steps -/

theorem Fresh.retains (hf : Fresh doc mid list tokens) (h : doc.IsTree)
    (hev : Grows doc mid) (p : Nat) :
    Retains doc (mid.insertAt p tokens) [] := by
  have hout : ∀ l ∈ tokens, l ∉ mid.order := fun l hl ho =>
    hf.new l hl (h.order_has l (hf.order_eq ▸ ho))
  refine .of_superlist (hev.insertAt p tokens) h (hf.tree.insertAt hf.nodup hf.has hout p)
    (hf.order_eq ▸ sublist_insertAt ..) fun l hl hhas => ?_
  exact hf.order_eq ▸ (mem_insertAt.1 hl).resolve_left fun hm => hf.new l hm hhas

section

variable (h : doc.IsTree)
include h

theorem IsTree.retains : Retains doc doc [] :=
  .of_superlist (.refl h.linked) h h (.refl _) fun _ hl _ => hl

/-- A cut leaves all ink outside of it. -/
theorem IsTree.retains_cut
    (hgone : ∀ l ∈ doc.leavesIn span, isBlank (doc.textOf l) = true ∨ l ∈ gone) :
    Retains doc (doc.cut span) gone :=
  .of_sublist ((Evolves.refl h.linked).cut span) h (h.cut span) (cut_sublist doc span)
    fun l ho hout => hgone l ((not_mem_cut h.order_nodup ho).1 hout)

theorem IsTree.retains_stripAround (list : Branch) : Retains doc (doc.stripAround list) [] := by
  let trivia := doc.trivia list
  let texts := (doc.layout.drop trivia.start).take (trivia.stop - trivia.start)
  have hfront : Retains doc
      (doc.cut ⟨trivia.start, trivia.start + (texts.takeWhile isBlank).length⟩) [] := by
    refine h.retains_cut fun l hl => Or.inl ?_
    obtain ⟨i, hi, hle, hlt⟩ := exists_of_mem_leavesIn hl
    exact isBlank_of_front (layout_getElem? hi) trivia hle hlt
  refine hfront.trans (hfront.tree.retains_cut fun l hl => Or.inl ?_)
  obtain ⟨i, hi, hle, hlt⟩ := exists_of_mem_leavesIn hl
  exact isBlank_of_back (layout_getElem? hi) _ (trivia_start_le ..) hle hlt

theorem IsTree.retains_insertBreaks (p n : Nat) : Retains doc (doc.insertBreaks p n) [] := by
  induction n generalizing doc with
  | zero => exact h.retains
  | succ n ih =>
    have hbreak := ((Fresh.nil h doc.root).newToken lineBreak).retains h
      ((Evolves.refl h.linked).newToken _) p
    exact hbreak.trans (ih hbreak.tree)

theorem IsTree.retains_unfolded (list : Branch) : Retains doc (doc.unfolded list) [] := by
  rw [unfolded]
  split
  · rw [unfoldBody_eq]
    have hopen : Retains doc (doc.openBody list) [] := by
      have hstrip := h.retains_stripAround list
      rw [openBody]
      dsimp only
      split
      · exact hstrip
      · exact hstrip.trans ((Fresh.newIndentedBreak hstrip.tree list _).retains hstrip.tree
          ((Evolves.refl hstrip.tree.linked).newIndentedBreak _) _)
    exact hopen.trans ((Fresh.newIndentedBreak hopen.tree list _).retains hopen.tree
      ((Evolves.refl hopen.tree.linked).newIndentedBreak _) _)
  · exact h.retains

end

theorem keeps_withoutPadding {P : Document → Prop} (hdoc : P doc)
    (hcut : ∀ (d : Document) lines, P d →
      (∀ l ∈ d.leavesIn (d.layout.linesTokens lines), isBlank (d.textOf l) = true) →
      P (d.cutLines lines)) (rule : ListRule) (list element : Branch) :
    P (doc.withoutPadding rule list element) := by
  have habove : ∀ d most, P d → P (d.cutBlankAbove list element most) := by
    intro d most hd
    rw [cutBlankAbove]
    split
    · exact hd
    · split
      · exact hd
      · next hrun =>
        exact hcut d _ hd (isBlank_of_mem_blankRuns (mem_of_find?_eq_some hrun)
          (Nat.le_max_left ..) le_rfl)
  have hbelow : ∀ d most, P d → P (d.cutBlankBelow list element most) := by
    intro d most hd
    rw [cutBlankBelow]
    split
    · exact hd
    · split
      · exact hd
      · next hrun =>
        exact hcut d _ hd (isBlank_of_mem_blankRuns (mem_of_find?_eq_some hrun) le_rfl
          (Nat.min_le_left ..))
  rw [withoutPadding]
  split
  · rw [withoutBlank]
    split <;> split
    · exact habove _ _ (hbelow _ _ hdoc)
    · exact habove _ _ hdoc
    · exact hbelow _ _ hdoc
    · exact hdoc
  · exact hdoc

theorem IsTree.retains_withoutPadding (h : doc.IsTree) (rule : ListRule) (list element : Branch) :
    Retains doc (doc.withoutPadding rule list element) [] :=
  keeps_withoutPadding (P := fun d => Retains doc d []) h.retains (fun _ _ hd hblank =>
    hd.trans (hd.tree.retains_cut fun l hl => Or.inl (hblank l hl))) rule list element

/-- The tokens that an element takes with it: those that it covers, and its delimiter. -/
def departs (doc : Document) (rule : ListRule) (list element : Branch) : List Leaf :=
  doc.coveredLeaves element ++ (doc.delimiterOf? rule list element).toList

theorem Aligned.retains_detachElement (h : doc.Aligned) (rule : ListRule) (list element : Branch) :
    Retains doc (doc.detachElement rule list element) (doc.departs rule list element) := by
  have hthin := (Thinned.refl h.tree).detachElement rule list element
  refine .of_sublist (evolves_detachElement h.tree.linked rule list element) h.tree hthin.tree
    hthin.order fun l ho hout => ?_
  have hdrop := (Thinned.refl h.tree).dropMark list (doc.delimiterOf? rule list element)
  have horder : (doc.dropMark list (doc.delimiterOf? rule list element)).order = _ :=
    order_dropMark ..
  have htexts : ∀ l, (doc.dropMark list (doc.delimiterOf? rule list element)).textOf l =
      doc.textOf l := textOf_dropMark _ doc
  rw [detachElement_eq] at hout
  dsimp only at hout
  generalize doc.dropMark list (doc.delimiterOf? rule list element) = dropped at *
  by_cases hl : l ∈ dropped.order
  · have hn := hdrop.tree.order_nodup
    obtain ⟨i, hi⟩ := exists_position hl
    cases hr : dropped.range? element with
    | none =>
      rw [hr] at hout
      exact absurd hl hout
    | some r =>
      rw [hr] at hout
      have hin := (mem_leavesIn hn hi).1 ((not_mem_cut hn hl).1 hout)
      rcases widenOneSide_blank (layout_getElem? (getElem?_of_idxOf? hi)) r hin.1 hin.2 with
        hcovered | hblank
      · refine Or.inr (mem_append_left _ (hdrop.coveredLeaves_subset h _ ?_))
        rw [coveredLeaves, hr]
        exact (mem_leavesIn hn hi).2 hcovered
      · exact Or.inl (htexts l ▸ hblank)
  · rw [horder] at hl
    exact Or.inr (mem_append_right _ (by simpa [ho] using hl))

end Document

end Lossless
