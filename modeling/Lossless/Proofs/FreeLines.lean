import Lossless.Proofs.Arriving

/-! Lines that a list offers and comments that run over them. An element on lines of its own goes
behind a break between the bounds of its list and outside of the other children. A comment is no
child, so such a break may be one inside it. -/

namespace Lossless

open List Layout

namespace Layout

variable {ts : Layout} {i n q : Nat}

theorem lineOf_le_iff_of_break (h : ts[i]? = some lineBreak) :
    ts.lineOf q ≤ ts.lineOf i ↔ q ≤ i := by
  refine ⟨fun hle => ?_, ts.lineOf_mono⟩
  by_contra hlt
  have hnext : ts.lineOf (i + 1) = ts.lineOf i + 1 := lineOf_succ h
  have hmono := ts.lineOf_mono (show i + 1 ≤ q by omega)
  omega

theorem afterBreaks_of_break (h : ts[i]? = some lineBreak) :
    afterBreaks (ts.lineOf i + 1) ts = i + 1 := by
  have hnext : ts.lineOf (i + 1) = ts.lineOf i + 1 := lineOf_succ h
  have hlt : i < ts.length := (List.getElem?_eq_some_iff.1 h).1
  exact Nat.le_antisymm (afterBreaks_le hnext.ge) (lt_afterBreaks hlt (Nat.lt_succ_self _))

theorem lineOf_afterBreaks (hlt : afterBreaks n ts < ts.length) :
    ts.lineOf (afterBreaks n ts) = n := by
  refine Nat.le_antisymm (lineOf_afterBreaks_le n ts) (Nat.le_of_not_lt fun hless => ?_)
  exact Nat.lt_irrefl _ (lt_afterBreaks hlt hless)

theorem exists_break_of_afterBreaks (hpos : 0 < afterBreaks n ts)
    (hlt : afterBreaks n ts < ts.length) :
    ∃ i, ts[i]? = some lineBreak ∧ n = ts.lineOf i + 1 ∧ afterBreaks n ts = i + 1 := by
  obtain ⟨i, hi⟩ := Nat.exists_eq_add_one_of_ne_zero hpos.ne'
  have hline : ts.lineOf (i + 1) = n := by
    rw [← hi]
    exact lineOf_afterBreaks hlt
  have hbefore : ts.lineOf i < n := by
    by_contra hle
    have := afterBreaks_le (Nat.le_of_not_lt hle)
    omega
  have hget : ts[i]? = some ts[i] := getElem?_eq_getElem (by omega)
  have hsucc := lineOf_succ hget
  have hbreak : isBreak ts[i] := by
    by_contra hnot
    rw [if_neg hnot] at hsucc
    omega
  rw [if_pos hbreak] at hsucc
  exact ⟨i, hget.trans (congrArg some (beq_iff_eq.1 hbreak)), by omega, hi⟩

end Layout

namespace Document

variable {doc : Document} {rule : ListRule} {list c : Branch} {line i p : Nat} {r : Span}

/-- A break behind which a list takes an element: in its bounds and inside no child. -/
structure FreeBreak (doc : Document) (rule : ListRule) (list : Branch) (i : Nat) : Prop where
  isBreak : doc.layout[i]? = some Layout.lineBreak
  above : if rule.above.applies (doc.isTopLevel list) then
      (doc.trivia list).start ≤ i
    else doc.layout.lineOf (doc.listStart list) ≤ doc.layout.lineOf i + 1
  below : i < (doc.trivia list).stop
  apart : ∀ n ∈ doc.children list, ∀ s, doc.range? n = some s → i < s.start ∨ s.stop ≤ i

/-- The position at which the lines of an element come into the text. -/
def entryPosition (doc : Document) (rule : ListRule) (list : Branch) (line : Nat) : Nat :=
  ((doc.unfolded list).layout.lineTokens (doc.entryLine rule list line)).start

section

variable (hbreak : doc.layout[i]? = some lineBreak)
include hbreak

theorem mem_boundedLines_iff (hopen : doc.isSqueezed list = false) :
    doc.layout.lineOf i + 1 ∈ (doc.boundedLines rule list).toList ↔
      (if rule.above.applies (doc.isTopLevel list) then
          (doc.trivia list).start ≤ i
        else doc.layout.lineOf (doc.listStart list) ≤ doc.layout.lineOf i + 1) ∧
      i < (doc.trivia list).stop := by
  have hlt : i < doc.layout.length := (List.getElem?_eq_some_iff.1 hbreak).1
  have hlength : doc.layout.length = doc.order.length := by simp [layout]
  have hlines : ∀ start, doc.layout.linesOf ⟨start, (doc.trivia list).stop⟩ =
      ⟨doc.layout.lineOf start, doc.layout.lineOf (doc.trivia list).stop + 1⟩ := fun _ =>
    linesOf_of_ne_nil (ne_nil_of_length_pos (by omega))
      (hlength ▸ doc.trivia_stop_le_length list)
  have hstart : doc.layout.lineOf (doc.trivia list).start ≤ doc.layout.lineOf i ↔
      (doc.trivia list).start ≤ i := lineOf_le_iff_of_break hbreak
  have hstop : doc.layout.lineOf (doc.trivia list).stop ≤ doc.layout.lineOf i ↔
      (doc.trivia list).stop ≤ i := lineOf_le_iff_of_break hbreak
  rw [Span.mem_toList, boundedLines, hopen, if_neg Bool.false_ne_true]
  dsimp only
  split
  · have htrivia := hlines (doc.trivia list).start
    rw [htrivia]
    dsimp only
    by_cases htop : (doc.trivia list).start = 0 <;>
      by_cases hend : (doc.trivia list).stop = doc.order.length <;>
      simp only [htop, hend, if_true, if_false] at hstart hstop ⊢ <;> omega
  · show (doc.layout.linesOf ⟨doc.listStart list, _⟩).start ≤ _ ∧
      _ < (doc.layout.linesOf ⟨doc.listStart list, _⟩).stop ↔ _
    rw [hlines]
    dsimp only
    omega

/-- The line behind a break is offered if the break is free. -/
theorem mem_linesFor_iff (hopen : doc.isSqueezed list = false)
    (hinline : doc.isInline rule list = false) :
    doc.layout.lineOf i + 1 ∈ doc.linesFor rule list ↔ doc.FreeBreak rule list i := by
  have hone : ∀ s : Span, i < s.start ∨ s.stop ≤ i ↔
      ¬ (doc.layout.lineOf s.start < doc.layout.lineOf i + 1 ∧
        doc.layout.lineOf i + 1 < doc.layout.lineOf s.stop + 1) := by
    intro s
    have hstart := lineOf_le_iff_of_break (q := s.start) hbreak
    have hstop := lineOf_le_iff_of_break (q := s.stop) hbreak
    omega
  rw [linesFor, hinline, if_neg Bool.false_ne_true, mem_filter,
    mem_boundedLines_iff hbreak hopen]
  simp only [Bool.not_eq_true', any_eq_false, Bool.and_eq_true, decide_eq_true_eq]
  constructor
  · rintro ⟨⟨habove, hbelow⟩, hfree⟩
    refine ⟨hbreak, habove, hbelow, fun n hn s hs => (hone s).2 ?_⟩
    exact hfree _ (mem_filterMap.2 ⟨n, hn, lines?_of_range? hs⟩)
  · intro hfree
    refine ⟨⟨hfree.above, hfree.below⟩, fun lines hlines => ?_⟩
    obtain ⟨n, hn, hlines⟩ := mem_filterMap.1 hlines
    obtain ⟨s, hs, -⟩ := Option.map_eq_some_iff.1 hlines
    rw [lines?_of_range? hs] at hlines
    cases hlines
    exact (hone s).1 (hfree.apart n hn s hs)

end

theorem exists_line_inside_iff (hopen : doc.isSqueezed list = false)
    (hinline : doc.isInline rule list = false) (hr : doc.range? c = some r) :
    (∃ line ∈ doc.linesFor rule list, r.start < (doc.layout.lineTokens line).start ∧
        (doc.layout.lineTokens line).start < r.stop) ↔
      ∃ i, doc.FreeBreak rule list i ∧ r.start ≤ i ∧ i + 1 < r.stop := by
  constructor
  · rintro ⟨line, hline, hstart, hstop⟩
    have hlength : r.stop ≤ doc.layout.length := range?_stop_le hr
    obtain ⟨i, hbreak, rfl, hi⟩ :=
      exists_break_of_afterBreaks (Nat.zero_lt_of_lt hstart) (hstop.trans_le hlength)
    have hi : (doc.layout.lineTokens (doc.layout.lineOf i + 1)).start = i + 1 := hi
    exact ⟨i, (mem_linesFor_iff hbreak hopen hinline).1 hline, by omega, by omega⟩
  · rintro ⟨i, hfree, hstart, hstop⟩
    have hi : (doc.layout.lineTokens (doc.layout.lineOf i + 1)).start = i + 1 :=
      afterBreaks_of_break hfree.isBreak
    exact ⟨_, (mem_linesFor_iff hfree.isBreak hopen hinline).2 hfree, by omega, by omega⟩

theorem order_addTokensAtLine (laid : Document)
    (hlt : (doc.layout.lineTokens line).start < doc.order.length) :
    (doc.addTokensAtLine line laid).2.order =
      doc.order.take (doc.layout.lineTokens line).start ++
        (laid.endLine.order.map doc.rehomeLeaf ++
          doc.order.drop (doc.layout.lineTokens line).start) := by
  have hlength : doc.layout.length = doc.order.length := by simp [layout]
  have hlt : afterBreaks line doc.layout < doc.layout.length := hlength ▸ hlt
  have hline := lineOf_afterBreaks hlt
  have hcount := lineOf_lt_lineCount hlt
  rw [hline] at hcount
  rw [addTokensAtLine, if_pos hcount]
  exact append_assoc ..

/-! ### Bodies on one line -/

/-- A node that reaches behind the break before a closing bracket reaches over the bracket: what
else stands there belongs to no node. -/
theorem Closing.stop_lt_of_lt {tokens : List Leaf} (hc : Closing doc list tokens)
    (h : doc.Linked) (hle : (doc.trivia list).stop ≤ doc.order.length)
    (hp : (doc.trivia list).stop ≤ p)
    (hr : (doc.closeWith list tokens).range? c = some r) (hlt : p < r.stop) :
    (doc.trivia list).stop + tokens.length < r.stop := by
  obtain ⟨-, x, j, -, hx, -, hj, hstop⟩ := exists_of_range? hr
  by_contra hnot
  have hget : (doc.closeWith list tokens).order[j]? = some x := getElem?_of_idxOf? hj
  have hmem : x ∈ tokens := by
    rw [closeWith, Document.insertAt, append_assoc, getElem?_append_right,
      getElem?_append_left] at hget
    · exact mem_of_getElem? hget
    · simp only [length_take]
      omega
    · simp only [length_take]
      omega
  have hleaf := (mem_visibleLeaves.1 (mem_of_getLast? hx)).1
  exact Loose.not_mem_leaves h (hc.free x hmem) c hleaf

theorem Aligned.stop_lt_of_isSqueezed (h : doc.Aligned) (hlist : doc.Has list)
    (hinline : doc.isInline rule list = false) (hs : doc.isSqueezed list) (line : Nat)
    (hr : (doc.unfolded list).range? c = some r)
    (hlt : doc.entryPosition rule list line < r.stop) :
    ((doc.unfolded list).trivia list).stop < r.stop := by
  have hinline' := h.isInline_unfolded hinline
  obtain ⟨y, hy, ho⟩ := exists_right_of_isSqueezed h.tree.linked hs
  obtain ⟨mid, tokens, hclosing, hmid, hy, ho, he⟩ :=
    (bracketed_of_ordered h.tree h.ordered hlist).exists_closing hy ho
  rw [entryPosition, entryLine, hs, if_pos rfl, Document.unfolded, hs, if_pos rfl, he] at hlt
  rw [Document.unfolded, hs, if_pos rfl, he] at hr hinline' ⊢
  have hmem := hclosing.mem_linesFor hmid hy ho hinline'
  obtain ⟨last, hlast⟩ : ∃ last,
      ((mid.closeWith list tokens).linesFor rule list).getLast? = some last :=
    ⟨_, getLast?_eq_some_getLast (ne_nil_of_mem hmem)⟩
  rw [hlast, Option.getD_some] at hlt
  have hstop := hclosing.stop_lt hmid hy ho
  have hline := (hclosing.lineOf_lt hmid hy ho).trans_le (le_getLast?_linesFor hinline' hmem hlast)
  have hbehind : (mid.trivia list).stop <
      ((mid.closeWith list tokens).layout.lineTokens last).start :=
    lt_afterBreaks (by simp only [layout, length_map]; omega) hline
  rw [hclosing.trivia_eq hmid hy ho]
  exact hclosing.stop_lt_of_lt hmid.tree.linked (mid.trivia_stop_le_length _) hbehind.le hr hlt

end Document

namespace Edit

variable {doc : Document} {rule : ListRule} {list : Branch} {lines : List Nat}

open Document

/-- A line that a list offers starts inside a comment exactly where the comment holds a free break
of the list. A body on one line is unfolded first, and then only a comment that reaches over its
closing bracket would be cut. -/
theorem entryPosition_inside_comment (h : doc.IsTree) (ho : doc.Ordered)
    (hlist : doc.Has (.branch list)) (hrule : doc.listRule? list = some rule)
    (hinline : doc.isInline rule list = false) (hlines : doc.availableLines list = .ok lines) :
    (∀ line ∈ lines, ∀ laid : Document,
      doc.entryPosition rule list line < (doc.unfolded list).order.length →
      ((doc.unfolded list).addTokensAtLine (doc.entryLine rule list line) laid).2.order =
        (doc.unfolded list).order.take (doc.entryPosition rule list line) ++
          (laid.endLine.order.map (doc.unfolded list).rehomeLeaf ++
            (doc.unfolded list).order.drop (doc.entryPosition rule list line))) ∧
    (doc.isSqueezed list = false → ∀ c ∈ doc.comments, ∀ r, doc.range? (.branch c) = some r →
      ((∃ line ∈ lines, r.start < doc.entryPosition rule list line ∧
          doc.entryPosition rule list line < r.stop) ↔
        ∃ i, doc.FreeBreak rule list i ∧ r.start ≤ i ∧ i + 1 < r.stop)) ∧
    (doc.isSqueezed list = true → ∀ line ∈ lines, ∀ c ∈ doc.comments, ∀ r,
      (doc.unfolded list).range? (.branch c) = some r →
      doc.entryPosition rule list line < r.stop →
        ((doc.unfolded list).trivia (.branch list)).stop < r.stop) := by
  have ha : doc.Aligned := ⟨h, ho⟩
  obtain rfl : doc.linesFor rule list = lines := by
    simpa [availableLines, hrule] using hlines
  refine ⟨fun line _ laid hlt => order_addTokensAtLine laid hlt, fun hopen c _ r hr => ?_,
    fun hs line _ c _ r hr hlt => ha.stop_lt_of_isSqueezed hlist hinline hs line hr hlt⟩
  have hentry : ∀ line, doc.entryPosition rule list line = (doc.layout.lineTokens line).start := by
    intro line
    rw [entryPosition, entryLine, unfolded, hopen, if_neg Bool.false_ne_true,
      if_neg Bool.false_ne_true]
  simp only [hentry]
  exact exists_line_inside_iff hopen hinline hr

/-- A block that holds a comment of two lines offers the line on which the comment ends: what is
added there comes in between its two words. -/
theorem entryPosition_inside_comment_block :
    let start : Builder := { grammar := .javaScript, source := "\x7b\n/* a\n b */\n\x7d\n" }
    let calls : List Builder.Call := [.openNode .enclosedBody, .token "\x7b",
      .openNode .statementList, .closeNode, .comment "/* a\n b */", .token "\x7d", .closeNode]
    ∃ doc rule, (start.run calls).finish = .ok doc ∧ doc.IsTree ∧ doc.Ordered ∧
      doc.Has (.branch ⟨1⟩) ∧ doc.listRule? ⟨1⟩ = some rule ∧ doc.isInline rule ⟨1⟩ = false ∧
      doc.isSqueezed ⟨1⟩ = false ∧ doc.availableLines ⟨1⟩ = .ok [1, 2, 3] ∧
      doc.comments = [⟨2⟩] ∧ doc.range? (.branch ⟨2⟩) = some ⟨2, 10⟩ ∧
      doc.FreeBreak rule ⟨1⟩ 5 ∧
      ∃ line ∈ [1, 2, 3], 2 < doc.entryPosition rule ⟨1⟩ line ∧
        doc.entryPosition rule ⟨1⟩ line < 10 := by
  intro start calls
  let doc := (start.run calls).built
  have hfinish : (start.run calls).finish = .ok doc := by decide +kernel
  obtain ⟨htree, hordered⟩ := Builder.isTree_of_run hfinish
  have hlist : doc.Has (.branch ⟨1⟩) := by decide +kernel
  obtain ⟨rule, hrule⟩ : ∃ rule, doc.listRule? ⟨1⟩ = some rule :=
    Option.isSome_iff_exists.1 (by decide +kernel)
  have hall : (doc.listRule? ⟨1⟩).all (fun rule => !doc.isInline rule ⟨1⟩ &&
      rule.above.applies (doc.isTopLevel (.branch ⟨1⟩))) = true := by decide +kernel
  rw [hrule, Option.all_some, Bool.and_eq_true, Bool.not_eq_true'] at hall
  obtain ⟨hinline, habove⟩ := hall
  have hopen : doc.isSqueezed ⟨1⟩ = false := by decide +kernel
  have hlines : doc.availableLines ⟨1⟩ = .ok [1, 2, 3] := by decide +kernel
  have hr : doc.range? (.branch ⟨2⟩) = some ⟨2, 10⟩ := by decide +kernel
  have hnone : doc.children ⟨1⟩ = [] := by decide +kernel
  have hcomments : doc.comments = [⟨2⟩] := by decide +kernel
  have hfree : doc.FreeBreak rule ⟨1⟩ 5 :=
    { isBreak := by decide +kernel
      above := by
        rw [if_pos habove]
        decide +kernel
      below := by decide +kernel
      apart := fun n hn => absurd (hnone ▸ hn) List.not_mem_nil }
  have hinside := (entryPosition_inside_comment htree hordered hlist hrule hinline hlines).2.1 hopen
    ⟨2⟩ (by simp [hcomments]) _ hr
  exact ⟨doc, rule, hfinish, htree, hordered, hlist, hrule, hinline, hopen, hlines, hcomments, hr,
    hfree, hinside.2 ⟨5, hfree, by decide, by decide⟩⟩

end Edit

end Lossless
