import Lossless.Proofs.Parting
import Lossless.Proofs.Refilled
import Lossless.Proofs.Undone
import Lossless.Proofs.Vacated

/-! Elements that take up whole lines, and what is left when one of them goes: the other lines, as
they were, unless the list moves to another level and its blank lines are counted anew. -/

namespace Lossless

open List

namespace Layout

variable {ts gaps : Layout} {span : Span}

def rows (ts : Layout) : List Layout :=
  ts.splitOn lineBreak

theorem rows_append_break (ts us : Layout) : rows (ts ++ lineBreak :: us) = rows ts ++ rows us :=
  splitOn_append_cons_self ..

theorem length_rows (ts : Layout) : ts.rows.length = ts.breaks + 1 := by
  induction ts with
  | nil => rfl
  | cons t ts ih =>
    rw [rows, splitOn_cons_eq_if_modifyHead, breaks, countP_cons]
    split
    · next hbreak => rw [isBreak, if_pos hbreak, length_cons, ← rows, ih, breaks]
    · next hbreak => rw [isBreak, if_neg hbreak, length_modifyHead, ← rows, ih, breaks]

/-- A range that takes up whole lines. Only white space stands between it and the break before it, or
it starts the text, and the next token ends its last line. -/
structure WholeLines (ts : Layout) (span : Span) : Prop where
  opens : (∃ pre gaps, ts.take span.start = pre ++ lineBreak :: gaps ∧
      ∀ gap ∈ gaps, isGap gap = true) ∨
    span.start = 0 ∧ span.stop < ts.length
  ends : ∀ t ∈ ts[span.stop]?, t = lineBreak

theorem breaks_of_gaps (h : ∀ gap ∈ gaps, isGap gap = true) : breaks gaps = 0 :=
  countP_eq_zero.2 fun gap hgap hbreak => by
    have hgap := h gap hgap
    rw [isGap, hbreak] at hgap
    cases hgap

/-- Whole lines that go leave the lines before and behind them. -/
theorem WholeLines.rows_closeUp (h : ts.WholeLines span) :
    rows (closeUp (ts.take span.start) (ts.drop span.stop)) =
      ts.rows.take (ts.lineOf span.start) ++ ts.rows.drop (ts.lineOf span.stop + 1) := by
  obtain ⟨hopens, hends⟩ := h
  rw [← head?_drop] at hends
  -- what follows is a break, or the range ends the text
  have hdrop : ts.rows.drop (ts.lineOf span.stop + 1) =
      if ts.drop span.stop = [] then [] else rows (ts.drop span.stop).tail := by
    have hsplit : ts.rows = rows (ts.take span.stop ++ ts.drop span.stop) := by
      rw [take_append_drop]
    rw [lineOf, ← length_rows, hsplit]
    cases hrest : ts.drop span.stop with
    | nil => rw [append_nil, drop_length, if_pos rfl]
    | cons t rest =>
      obtain rfl := hends t (by rw [hrest]; rfl)
      rw [rows_append_break, drop_left, if_neg (cons_ne_nil _ _), tail_cons]
  rw [hdrop]
  rcases hopens with ⟨pre, gaps, hfront, hgaps⟩ | ⟨hstart, hlt⟩
  · have hbreaks : ts.lineOf span.start = (rows pre).length := by
      rw [lineOf, hfront, length_rows, breaks, countP_append,
        countP_cons_of_pos (by decide), ← breaks, ← breaks, breaks_of_gaps hgaps]
    have htake : ts.rows.take (ts.lineOf span.start) = rows pre := by
      have hsplit : ts = pre ++ lineBreak :: (gaps ++ ts.drop span.start) := by
        rw [← cons_append, ← append_assoc, ← hfront, take_append_drop]
      rw [hbreaks, hsplit, rows_append_break, take_left]
    rw [htake, hfront, closeUp, spaceBefore_of_open (by decide) hgaps,
      if_neg (cons_ne_nil _ _), length_append, Nat.add_sub_cancel, take_left]
    cases hrest : ts.drop span.stop with
    | nil => simp
    | cons t rest =>
      obtain rfl := hends t (by rw [hrest]; rfl)
      rw [rows_append_break, if_neg (cons_ne_nil _ _), tail_cons]
  · cases hrest : ts.drop span.stop with
    | nil => exact absurd (drop_eq_nil_iff.1 hrest) (Nat.not_le.2 hlt)
    | cons t rest =>
      obtain rfl := hends t (by rw [hrest]; rfl)
      rw [hstart]
      rfl

end Layout

def ListRule.demand (rule : ListRule) (topLevel : Bool) (kinds : List Kind) : Nat :=
  let demands := (rule.padding.getD []).filter fun demand =>
    demand.scope.applies topLevel && kinds.contains demand.kind
  (demands.map BlankLines.lines).foldl max 0

namespace Document

variable {doc mid : Document} {rule : ListRule} {list element left right b : Branch}
  {range lines : Span}

/-- The kinds that matter for blank lines: that of a node and that of its first child. -/
def kindsOf (doc : Document) (node : Branch) : List Kind :=
  doc.kindOf node :: ((doc.children node).head?.bind Node.branch?).toList.map doc.kindOf

theorem blankLinesFor_eq (doc : Document) (rule : ListRule) (list node : Branch) :
    doc.blankLinesFor rule list node =
      rule.demand (doc.isTopLevel list) (doc.kindsOf node) :=
  rfl

theorem kindsOf_of_rewired (h : doc.Linked) (hr : doc.Rewired mid.toForest list)
    (hb : doc.Has b) (hne : b ≠ list) : mid.kindsOf b = doc.kindsOf b := by
  have hkids : mid.children b = doc.children b := hr.children b hb hne
  have hkind : mid.kindOf b = doc.kindOf b := hr.kindOf b hb
  rw [kindsOf, kindsOf, hkids, hkind]
  refine congrArg _ (map_congr_left fun c hc => hr.kindOf c ?_)
  obtain ⟨n, hn, hbranch⟩ := Option.bind_eq_some_iff.1 (Option.mem_toList.1 hc)
  cases n with
  | leaf l => cases hbranch
  | branch d =>
    cases hbranch
    exact h.has_child (mem_of_head? hn)

/-! ### Where nothing is demanded -/

theorem separate_of_quiet (hquiet : rule.accepts (doc.kindOf left) = true →
      rule.accepts (doc.kindOf right) = true →
        doc.blankLinesFor rule list left = 0 ∧ doc.blankLinesFor rule list right = 0) :
    doc.separate rule list left right false = doc := by
  rw [separate]
  split
  · rfl
  · next haccepts =>
    simp only [Bool.not_false, Bool.true_and, Bool.not_eq_true', Bool.not_eq_false,
      Bool.and_eq_true] at haccepts
    obtain ⟨hleft, hright⟩ := hquiet haccepts.1 haccepts.2
    rw [hleft, hright]
    dsimp only
    split
    · rw [Nat.max_self, Nat.zero_sub]
      rfl
    · rfl

theorem rejoin_of_quiet
    (hquiet : ∀ e ∈ doc.listElements rule list, doc.blankLinesFor rule list e = 0) (index : Nat) :
    doc.rejoin rule list index = doc := by
  rw [rejoin]
  split
  · next left right hleft hright =>
    refine separate_of_quiet fun _ _ => ⟨hquiet left ?_, hquiet right (mem_of_getElem? hright)⟩
    split at hleft
    · cases hleft
    · exact mem_of_getElem? hleft
  · rfl

theorem cutLines_of_isEmpty (h : lines.isEmpty = true) :
    doc.cutLines lines = doc := by
  rw [cutLines, Layout.linesTokens]
  simp [h, cut]

theorem withoutBlank_of_quiet (hquiet : doc.blankLinesFor rule list element = 0) :
    doc.withoutBlank rule list element = doc := by
  have hbelow : doc.cutBlankBelow list element 0 = doc := by
    rw [cutBlankBelow]
    split
    · rfl
    · split
      · rfl
      · exact cutLines_of_isEmpty (by simp [Span.isEmpty])
  have habove : doc.cutBlankAbove list element 0 = doc := by
    rw [cutBlankAbove]
    split
    · rfl
    · split
      · rfl
      · exact cutLines_of_isEmpty (by simp [Span.isEmpty])
  rw [withoutBlank, hquiet, hbelow, ite_self, habove, ite_self]

theorem Aligned.rows_detachElement (h : doc.Aligned)
    (helement : .branch element ∈ doc.children list) (hdelimiter : rule.delimiter = "")
    (hrange : doc.range? element = some range) (hwhole : doc.layout.WholeLines range) :
    (doc.detachElement rule list element).layout.rows =
      doc.layout.rows.take (doc.layout.lineOf range.start) ++
        doc.layout.rows.drop (doc.layout.lineOf range.stop + 1) := by
  obtain ⟨hlt, hle⟩ := h.range_within hrange
  have hmark : doc.delimiterOf? rule list element = none := by simp [delimiterOf?, hdelimiter]
  have hcovered : doc.coveredLeaves element = doc.leavesIn range := by
    rw [coveredLeaves, hrange]
  have hne : doc.coveredLeaves element ≠ [] := by
    rw [hcovered, leavesIn, ← length_pos_iff, List.length_take, length_drop]
    omega
  obtain ⟨hfirst, hlast⟩ := coveredLeaves_ends hne
  have horder := doc.order_eq_leavesIn (Nat.le_of_lt hlt)
  rw [← hcovered] at horder
  rw [layout_detachElement h.tree helement (by simpa [hmark] using horder) hne hfirst.symm hlast.symm,
    map_take, map_drop]
  exact hwhole.rows_closeUp

end Document

namespace Edit

open Document

variable {doc : Document} {rule : ListRule} {list element : Branch} {range : Span}

section

variable (h : doc.IsTree) (hrule : doc.listRule? list = some rule)
  (hopt : doc.optionalAround? list = none) (he : .branch element ∈ doc.children list)
  (hkeeps : rule.placeholder = none ∨ ∃ other ∈ doc.listElements rule list, other ≠ element)
include h hrule hopt he hkeeps

/-- An element that has no blank lines to take with it goes, and a padded list separates its
neighbours. -/
theorem run_removeElement_of_bare (hbare : doc.withoutPadding rule list element = doc) :
    ∃ taken, (removeElement list element).run doc = .ok taken
      (if rule.isPadded then (doc.detachElement rule list element).rejoin rule list
        ((doc.listElements rule list).idxOf element) else doc.detachElement rule list element) := by
  have hdelists := delists_detachElement h rule list element
  have hrefill : (refill rule list).run
      ((doc.withoutPadding rule list element).detachElement rule list element) =
        .ok () (doc.detachElement rule list element) := by
    rw [hbare] at hdelists ⊢
    rcases hkeeps with hnone | ⟨other, hother, hne⟩
    · exact run_refill_of_none hnone ..
    · exact run_refill_of_mem (hdelists.mem_listElements.2 ⟨hne, hother⟩)
  obtain ⟨taken, hrun⟩ := run_takeFrom_eq hopt hrefill
  exact ⟨taken, (run_removeElement_eq hrule (h.linked.down he)).trans hrun⟩

theorem run_removeElement_of_quiet
    (hquiet : rule.isPadded = true → doc.blankLinesFor rule list element = 0 ∧
      ∀ e ∈ doc.listElements rule list, e ≠ element →
        (doc.detachElement rule list element).blankLinesFor rule list e = 0) :
    ∃ taken, (removeElement list element).run doc =
      .ok taken (doc.detachElement rule list element) := by
  have hbare : doc.withoutPadding rule list element = doc := by
    rw [withoutPadding]
    split
    · next hpadded => exact withoutBlank_of_quiet (hquiet hpadded).1
    · rfl
  obtain ⟨taken, hrun⟩ := run_removeElement_of_bare h hrule hopt he hkeeps hbare
  refine ⟨taken, hrun.trans ?_⟩
  have hdelists := delists_detachElement h rule list element
  rw [hbare] at hdelists
  split
  · next hpadded =>
    rw [rejoin_of_quiet fun e he => ?_]
    obtain ⟨hne, hold⟩ := hdelists.mem_listElements.1 he
    exact (hquiet hpadded).2 e hold hne
  · rfl

end

/-- An element that takes up whole lines goes with these lines, and the other lines stay as they
are, as long as no blank lines are kept between elements and the list stays on its level. -/
theorem rows_removeElement (h : doc.IsTree) (ho : doc.Ordered)
    (hrule : doc.listRule? list = some rule) (hdelimiter : rule.delimiter = "")
    (hopt : doc.optionalAround? list = none) (he : element ∈ doc.listElements rule list)
    (hkeeps : rule.placeholder = none ∨ ∃ other ∈ doc.listElements rule list, other ≠ element)
    (hquiet : ∀ e ∈ doc.listElements rule list, doc.blankLinesFor rule list e = 0)
    (hlevel : rule.isPadded = true → (doc.detachElement rule list element).isTopLevel
      (.branch list) = doc.isTopLevel (.branch list))
    (hrange : doc.range? (.branch element) = some range) (hwhole : doc.layout.WholeLines range) :
    ∃ taken after, (removeElement list element).run doc = .ok taken after ∧
      after.layout.rows = doc.layout.rows.take (doc.layout.lineOf range.start) ++
        doc.layout.rows.drop (doc.layout.lineOf range.stop + 1) := by
  have hkid := (mem_listElements.1 he).1
  obtain ⟨taken, hrun⟩ := run_removeElement_of_quiet h hrule hopt hkid hkeeps fun hpadded =>
    ⟨hquiet element he, fun e hmem _ => by
      have hchild := (mem_listElements.1 hmem).1
      have hne : e ≠ list := by
        rintro rfl
        exact h.linked.not_around_of_child hchild .self
      rw [blankLinesFor_eq, hlevel hpadded, kindsOf_of_rewired h.linked
        (rewired_detachElement doc rule list element) (h.linked.has_child hchild) hne]
      exact hquiet e hmem⟩
  exact ⟨taken, _, hrun, Aligned.rows_detachElement ⟨h, ho⟩ hkid hdelimiter hrange hwhole⟩

/-- An indented statement goes from between two others with its line. -/
theorem rows_removeElement_statement :
    let start : Builder := { grammar := .javaScript, source := "a\n  b\nc\n" }
    let calls : List Builder.Call := [.openNode .program, .openNode .statementList,
      .openNode .statement, .token "a", .closeNode, .openNode .statement, .token "b", .closeNode,
      .openNode .statement, .token "c", .closeNode, .closeNode, .closeNode]
    ∃ doc rule, (start.run calls).finish = .ok doc ∧ doc.IsTree ∧ doc.Ordered ∧
      doc.listRule? ⟨1⟩ = some rule ∧ rule.delimiter = "" ∧ doc.optionalAround? ⟨1⟩ = none ∧
      ⟨3⟩ ∈ doc.listElements rule ⟨1⟩ ∧ rule.placeholder = none ∧ rule.isPadded = true ∧
      (∀ e ∈ doc.listElements rule ⟨1⟩, doc.blankLinesFor rule ⟨1⟩ e = 0) ∧
      (doc.detachElement rule ⟨1⟩ ⟨3⟩).isTopLevel (.branch ⟨1⟩) = doc.isTopLevel (.branch ⟨1⟩) ∧
      doc.range? (.branch ⟨3⟩) = some ⟨3, 4⟩ ∧ doc.layout.WholeLines ⟨3, 4⟩ ∧
      ∃ taken after, (removeElement ⟨1⟩ ⟨3⟩).run doc = .ok taken after ∧
        after.layout.rows = [["a"], ["c"], []] := by
  intro start calls
  let doc := (start.run calls).built
  let rule := (doc.listRule? ⟨1⟩).get (by decide +kernel)
  have hfinish : (start.run calls).finish = .ok doc := by decide +kernel
  obtain ⟨htree, hordered⟩ := Builder.isTree_of_run hfinish
  have hrule : doc.listRule? ⟨1⟩ = some rule := by decide +kernel
  have hplain : rule.delimiter = "" ∧ rule.placeholder = none ∧ rule.isPadded = true := by
    decide +kernel
  have hopt : doc.optionalAround? ⟨1⟩ = none := by decide +kernel
  have helement : ⟨3⟩ ∈ doc.listElements rule ⟨1⟩ := by decide +kernel
  have hquiet : ∀ e ∈ doc.listElements rule ⟨1⟩, doc.blankLinesFor rule ⟨1⟩ e = 0 := by
    decide +kernel
  have hlevel : (doc.detachElement rule ⟨1⟩ ⟨3⟩).isTopLevel (.branch ⟨1⟩) =
      doc.isTopLevel (.branch ⟨1⟩) := by decide +kernel
  have hrange : doc.range? (.branch ⟨3⟩) = some ⟨3, 4⟩ := by decide +kernel
  have hwhole : doc.layout.WholeLines ⟨3, 4⟩ :=
    ⟨Or.inl ⟨["a"], ["  "], by decide +kernel, by decide⟩, by decide +kernel⟩
  obtain ⟨taken, after, hrun, hrows⟩ := rows_removeElement htree hordered hrule hplain.1 hopt
    helement (Or.inl hplain.2.1) hquiet (fun _ => hlevel) hrange hwhole
  exact ⟨doc, rule, hfinish, htree, hordered, hrule, hplain.1, hopt, helement, hplain.2.1,
    hplain.2.2, hquiet, hlevel, hrange, hwhole, taken, after, hrun, hrows.trans (by decide +kernel)⟩

end Edit

end Lossless
