import Lossless.Proofs.Comments

/-! Lines that a list offers. A request for an offered line goes through; one for another line is
refused with the lines that are offered, except that a list squeezed between its brackets takes
every request for its one line. -/

namespace Lossless

open Bool EStateM

namespace Edit

variable {doc fragment : Document} {rule : ListRule} {list : Branch} {line : Nat}

theorem run_checkKind
    (h : fragment.rootKind = .comment ∨ rule.accepts fragment.rootKind = true) :
    (checkKind rule list fragment).run doc = .ok () doc := by
  simp [checkKind, h]

section

variable (hrule : doc.listRule? list = some rule)
  (hkind : fragment.rootKind = .comment ∨ rule.accepts fragment.rootKind = true)
include hrule hkind

theorem run_addAtLine_eq (line : Nat) : (addAtLine list line fragment).run doc =
    (if doc.isInline rule list then do
      let added ← placeClause rule list line fragment
      dropPlaceholder rule list (doc.placeholder? rule list)
      return added
    else do
      let added ← placeAtLine rule list line fragment
      dropPlaceholder rule list (doc.placeholder? rule list)
      if rule.isPadded then
        modify fun doc => doc.padAround rule list added (fragment.rootKind = .comment)
      return added : Edit Branch).run doc := by
  unfold addAtLine
  rw [run_bind, run_listRule hrule]
  show (checkKind rule list fragment >>= _).run doc = _
  rw [run_bind, run_checkKind hkind]
  rfl

variable (h : doc.IsTree) (ho : doc.Ordered)
include h ho

/-- A list that is not squeezed between its brackets refuses every line that it does not offer. -/
theorem run_addAtLine_refused
    (hopen : doc.isSqueezed list = false ∨ doc.isInline rule list = true)
    (hline : line ∉ doc.linesFor rule list) : (addAtLine list line fragment).run doc =
      .error (.lineUnavailable line (doc.linesFor rule list)) doc := by
  rw [run_addAtLine_eq hrule hkind]
  split
  · rcases run_placeClause doc rule list line fragment with ⟨hmem, -⟩ | ⟨-, hplace⟩
    · exact absurd hmem hline
    · rw [run_bind, hplace]
  · next hinline =>
    have hsqueezed := hopen.resolve_right hinline
    rcases run_placeAtLine (unfolds_of_ordered h ho rule list) line fragment with
      ⟨hmem, -⟩ | ⟨-, -, hplace⟩
    · rw [Document.entryLine, Document.unfolded, hsqueezed] at hmem
      exact absurd hmem hline
    · rw [run_bind, hplace]

variable (hf : fragment.IsTree)
include hf

theorem run_addAtLine_clause (hinline : doc.isInline rule list = true)
    (hline : line ∈ doc.linesFor rule list) : ∃ index after,
      let clause := (fragment.increaseIndent fragment.root (doc.indent list)).trimStart
      let beside := doc.insertBeside rule list index (rule.wrap clause)
      (dropPlaceholder rule list (doc.placeholder? rule list)).run beside.2 = .ok () after ∧
        (addAtLine list line fragment).run doc = .ok beside.1 after := by
  rcases run_placeClause doc rule list line fragment with ⟨-, index, hplace⟩ | ⟨hnot, -⟩
  · have hindent := hf.increaseIndent fragment.root (doc.indent list)
    obtain ⟨after, hdrop⟩ :=
      exists_run_dropPlaceholder_beside h ho hindent.tree.trimStart.tree rule list index
    refine ⟨index, after, hdrop, ?_⟩
    rw [run_addAtLine_eq hrule hkind, hinline, if_pos rfl, run_bind, hplace]
    dsimp only
    rw [run_bind, hdrop]
    rfl
  · exact absurd hline hnot

/-- An element comes in on lines of its own, the placeholder goes, and a padded list gets the blank
lines that its elements ask for. -/
theorem run_addAtLine_lines (hinline : doc.isInline rule list = false) (line : Nat)
    (hline : doc.isSqueezed list = true ∨ line ∈ doc.linesFor rule list) : ∃ mid,
      let lines := (doc.unfolded list).insertLines rule list (doc.entryLine rule list line)
        (rule.wrap fragment) (fragment.rootKind = .comment)
      (dropPlaceholder rule list (doc.placeholder? rule list)).run lines.2 = .ok () mid ∧
        (addAtLine list line fragment).run doc = .ok lines.1
          (if rule.isPadded then
            mid.padAround rule list lines.1 (fragment.rootKind = .comment) else mid) := by
  rcases run_placeAtLine (unfolds_of_ordered h ho rule list) line fragment with
    ⟨-, hplace⟩ | ⟨hsqueezed, hnot, -⟩
  · obtain ⟨mid, hdrop⟩ :=
      exists_run_dropPlaceholder_lines h ho hf rule list (doc.entryLine rule list line)
    refine ⟨mid, hdrop, ?_⟩
    rw [run_addAtLine_eq hrule hkind, hinline, if_neg Bool.false_ne_true, run_bind, hplace]
    dsimp only
    rw [run_bind, hdrop]
    cases rule.isPadded <;> rfl
  · rcases hline with hs | hline
    · rw [hs] at hsqueezed
      cases hsqueezed
    · exact absurd hline hnot

/-- A request goes through if its line is offered or its list is squeezed between brackets. -/
theorem exists_run_addAtLine (hline : line ∈ doc.linesFor rule list ∨
      doc.isSqueezed list = true ∧ doc.isInline rule list = false) :
    ∃ added after, (addAtLine list line fragment).run doc = .ok added after := by
  cases hinline : doc.isInline rule list with
  | true =>
    have hline := hline.resolve_right fun hs => false_ne_true (hs.2.symm.trans hinline)
    obtain ⟨_, after, -, hrun⟩ := run_addAtLine_clause hrule hkind h ho hf hinline hline
    exact ⟨_, after, hrun⟩
  | false =>
    have hline := hline.symm.imp_left And.left
    obtain ⟨mid, -, hrun⟩ := run_addAtLine_lines hrule hkind h ho hf hinline line hline
    exact ⟨_, _, hrun⟩

end

end Edit

theorem Document.lineOf_of_isSqueezed {doc : Document} {list : Branch}
    (hs : doc.isSqueezed list = true) : doc.layout.lineOf (doc.trivia list).stop =
      doc.layout.lineOf (doc.trivia list).start := by
  have hlayout : doc.layout.length = doc.order.length := by simp [layout]
  have hle := doc.trivia_start_le list
  simp only [isSqueezed, and_eq_true, decide_eq_true_eq, beq_iff_eq] at hs
  obtain ⟨⟨hlines, hstart⟩, hstop⟩ := hs
  rw [Layout.linesOf_eq (by omega) (by omega)] at hlines
  exact (Nat.succ.inj hlines).symm

theorem Document.Aligned.linesFor_of_isSqueezed {doc : Document} {rule : ListRule} {list : Branch}
    (h : doc.Aligned) (hs : doc.isSqueezed list = true) (hinline : doc.isInline rule list = false) :
    doc.linesFor rule list = [doc.layout.lineOf (doc.trivia list).start + 1] := by
  have hsame := lineOf_of_isSqueezed hs
  rw [linesFor, hinline, if_neg Bool.false_ne_true, boundedLines, hs, if_pos rfl]
  generalize hline : doc.layout.lineOf (doc.trivia list).start = line at hsame
  have hone : (⟨line + 1, line + 2⟩ : Span).toList = [line + 1] := by
    simp [Span.toList]
  -- no child of the list reaches to a line behind that of the brackets
  refine (List.filter_eq_self.2 fun next hnext => ?_).trans hone
  rw [hone, List.mem_singleton] at hnext
  rw [not_eq_true', List.any_eq_false]
  intro lines hlines
  obtain ⟨n, hn, hlines⟩ := List.mem_filterMap.1 hlines
  obtain ⟨r, hr, -⟩ := Option.map_eq_some_iff.1 hlines
  rw [lines?_of_range? hr] at hlines
  cases hlines
  obtain ⟨s, hs, -, hle⟩ := h.nested n list r (h.tree.linked.down hn) hr
  have := doc.layout.lineOf_mono (hle.trans (h.range_bounds hs).2)
  simp only [and_eq_true, decide_eq_true_eq]
  omega

namespace Edit

variable {doc fragment : Document} {list : Branch} {line : Nat} {lines : List Nat}

/-- A line that a list does not offer is refused with the lines that it does offer, and nothing
changes. Only a list squeezed between its brackets does not look at the line: it offers one, and
every request is taken for that one. -/
theorem run_of_not_offered {rule : ListRule} (h : doc.IsTree) (ho : doc.Ordered)
    (hf : fragment.IsTree) (hrule : doc.listRule? list = some rule)
    (hlines : doc.availableLines list = .ok lines)
    (hkind : doc.canAdd list fragment.rootKind = true ∨ fragment.rootKind = .comment)
    (hline : line ∉ lines) :
    (doc.isSqueezed list = false ∨ doc.isInline rule list = true →
      (addAtLine list line fragment).run doc = .error (.lineUnavailable line lines) doc) ∧
    (doc.isSqueezed list = true ∧ doc.isInline rule list = false →
      ∃ offered added after, lines = [offered] ∧
        (addAtLine list line fragment).run doc = .ok added after ∧
        (addAtLine list offered fragment).run doc = .ok added after) := by
  have haccepts := (Grammar.accepts_of_listRule? hrule fragment.rootKind).2
  have hkind : fragment.rootKind = .comment ∨ rule.accepts fragment.rootKind = true :=
    hkind.symm.imp_right haccepts.symm.trans
  rw [Document.availableLines, hrule] at hlines
  cases hlines
  refine ⟨fun hopen => run_addAtLine_refused hrule hkind h ho hopen hline, fun ⟨hs, hinline⟩ => ?_⟩
  have hunfolds := unfolds_of_ordered h ho rule list hs
  have hentry : ∀ line', doc.entryLine rule list line' = doc.entryLine rule list line := by
    intro line'
    rw [Document.entryLine, Document.entryLine, hs, List.getLast?_eq_some_getLast hunfolds]
    rfl
  obtain ⟨mid, hdrop, hrun⟩ := run_addAtLine_lines hrule hkind h ho hf hinline line (Or.inl hs)
  obtain ⟨mid', hdrop', hrun'⟩ := run_addAtLine_lines hrule hkind h ho hf hinline
    (doc.layout.lineOf (doc.trivia (.branch list)).start + 1) (Or.inl hs)
  rw [hentry] at hdrop' hrun'
  rw [hdrop] at hdrop'
  cases hdrop'
  exact ⟨_, _, _, Document.Aligned.linesFor_of_isSqueezed ⟨h, ho⟩ hs hinline, hrun, hrun'⟩

/-- A pair of braces offers the line between them, and takes a call at line 99 all the same. -/
theorem run_of_not_offered_braces :
    let start : Builder := { grammar := .javaScript, source := "\x7b\x7d" }
    let calls : List Builder.Call := [.openNode .enclosedBody, .token "\x7b",
      .openNode .statementList, .closeNode, .token "\x7d", .closeNode]
    let fragment := Document.ofSource .javaScript .call "f()"
    ∃ doc, (start.run calls).finish = .ok doc ∧ doc.IsTree ∧ doc.Ordered ∧ fragment.IsTree ∧
      doc.availableLines ⟨1⟩ = .ok [1] ∧ doc.canAdd ⟨1⟩ .call = true ∧
      ∃ added after, (addAtLine ⟨1⟩ 99 fragment).run doc = .ok added after ∧
        (addAtLine ⟨1⟩ 1 fragment).run doc = .ok added after := by
  intro start calls fragment
  let doc := (start.run calls).built
  have hfinish : (start.run calls).finish = .ok doc := by decide +kernel
  obtain ⟨htree, hordered⟩ := Builder.isTree_of_run hfinish
  have hf : fragment.IsTree := Document.isTree_ofSource ..
  obtain ⟨rule, hrule⟩ : ∃ rule, doc.listRule? ⟨1⟩ = some rule :=
    Option.isSome_iff_exists.1 (by decide +kernel)
  have hlines : doc.availableLines ⟨1⟩ = .ok [1] := by decide +kernel
  have hkind : doc.canAdd ⟨1⟩ .call = true := by decide +kernel
  have hinline : doc.isInline rule ⟨1⟩ = false := by
    have hall : (doc.listRule? ⟨1⟩).all (!doc.isInline · ⟨1⟩) = true := by decide +kernel
    rw [hrule] at hall
    simpa using hall
  have hline : 99 ∉ [1] := by decide
  obtain ⟨offered, added, after, ⟨⟩, hrun, hrun'⟩ :=
    (run_of_not_offered htree hordered hf hrule hlines (Or.inl hkind) hline).2
      ⟨by decide +kernel, hinline⟩
  exact ⟨doc, hfinish, htree, hordered, hf, hlines, hkind, added, after, hrun, hrun'⟩

end Edit

end Lossless
