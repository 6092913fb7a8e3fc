import Lossless.Proofs.Spacing

/-! Lines of tokens. The ranges of the lines lie side by side, and what the searches for the ends of
a line find are the bounds of its range. -/

namespace Lossless

open List Option

theorem tiles_range' {bound : Nat → Nat} (h : ∀ k, bound k ≤ bound (k + 1)) (k n : Nat) :
    Tiles (bound k) ((List.range' k n).map fun i => ⟨bound i, bound (i + 1)⟩) (bound (k + n)) := by
  induction n generalizing k with
  | zero => rfl
  | succ n ih =>
    have hrest := ih (k + 1)
    rw [Nat.add_right_comm] at hrest
    exact ⟨rfl, h k, hrest⟩

namespace Layout

variable {ts : Layout} {i p q : Nat}

theorem lineEnd_cons (t : String) (ts : Layout) (p : Nat) :
    lineEnd (t :: ts) (1 + p) = 1 + ts.lineEnd p := by
  rw [lineEnd, lineEnd, nextBreak?, nextBreak?, Nat.add_comm 1 p, drop_succ_cons]
  cases (ts.drop p).findIdx? isBreak with
  | none => exact Nat.add_comm ..
  | some k => simp only [map_some, getD_some]; omega

theorem lineEnd_succ {t : String} (ht : ts[p]? = some t) (hbreak : isBreak t = false) :
    ts.lineEnd (p + 1) = ts.lineEnd p := by
  obtain ⟨hp, rfl⟩ := List.getElem?_eq_some_iff.1 ht
  rw [lineEnd, lineEnd, nextBreak?, nextBreak?, drop_eq_getElem_cons hp, findIdx?_cons,
    if_neg (by simp [hbreak])]
  cases (ts.drop (p + 1)).findIdx? isBreak with
  | none => rfl
  | some k => exact Nat.add_right_comm p 1 k

/-- A line starts behind the break that ends the line above, or at the end. -/
theorem afterBreaks_succ (k : Nat) (ts : Layout) :
    afterBreaks (k + 1) ts = min (ts.lineEnd (afterBreaks k ts) + 1) ts.length := by
  induction ts generalizing k with
  | nil => simp [afterBreaks]
  | cons t ts ih =>
    cases k with
    | zero =>
      cases hbreak : isBreak t with
      | true => simp [afterBreaks, lineEnd, nextBreak?, findIdx?_cons, hbreak]
      | false =>
        have hend : lineEnd (t :: ts) 0 = 1 + lineEnd ts 0 :=
          (lineEnd_succ (t := t) rfl hbreak).symm.trans (lineEnd_cons t ts 0)
        rw [afterBreaks, afterBreaks, hend, if_neg (by simp [hbreak]), ih, afterBreaks,
          length_cons]
        omega
    | succ k =>
      rw [afterBreaks, afterBreaks, lineEnd_cons, length_cons]
      split
      · rw [ih]
        omega
      · rw [ih]
        omega

theorem linesTokens_line (ts : Layout) (k : Nat) :
    ts.linesTokens ⟨k, k + 1⟩ = ⟨afterBreaks k ts, afterBreaks (k + 1) ts⟩ := by
  rw [afterBreaks_succ, linesTokens, if_neg (by simp [Span.isEmpty])]
  rfl

theorem afterBreaks_lineCount (ts : Layout) : afterBreaks ts.lineCount ts = ts.length := by
  refine Nat.le_antisymm (afterBreaks_le_length ..) ?_
  cases hlen : ts.length with
  | zero => exact Nat.zero_le _
  | succ n =>
    have hlast : n < ts.length := hlen ▸ Nat.lt_succ_self n
    exact lt_afterBreaks hlast (lineOf_lt_lineCount hlast)

theorem lineStart_eq_afterBreaks (hi : i ≤ ts.length) :
    ts.lineStart i = afterBreaks (ts.lineOf i) ts := by
  have hline := lineOf_lineStart hi
  have hopens := opens_lineStart hi
  refine Nat.le_antisymm ?_ (afterBreaks_le hline.ge)
  have hlen := (ts.lineStart_le i).trans hi
  generalize ts.lineStart i = start at hline hopens hlen
  cases start with
  | zero => exact Nat.zero_le _
  | succ s =>
    have ht := getElem?_eq_getElem hlen
    rw [take_add_one, ht, toList_some, getLast?_concat, all_some] at hopens
    rw [lineOf_succ ht, if_pos hopens] at hline
    exact lt_afterBreaks hlen (by omega)

theorem lineEnd_eq_of_lineOf_eq (hle : p ≤ q) (hq : q ≤ ts.length)
    (h : ts.lineOf p = ts.lineOf q) : ts.lineEnd p = ts.lineEnd q := by
  induction q, hle using Nat.le_induction with
  | base => rfl
  | succ q hle ih =>
    have ht := getElem?_eq_getElem hq
    have hline := lineOf_succ ht
    have hmono := ts.lineOf_mono hle
    cases hbreak : isBreak ts[q] with
    | true =>
      rw [if_pos hbreak] at hline
      omega
    | false =>
      rw [if_neg (by simp [hbreak])] at hline
      rw [lineEnd_succ ht hbreak]
      exact ih (Nat.le_of_succ_le hq) (h.trans hline)

/-- The lines of a layout lie side by side. A position is in the range of its line, whose bounds are
found from the position too, and a range of positions touches the lines from that of its start to
that of its end. -/
theorem lines_tile (ts : Layout) :
    Tiles 0 ((List.range ts.lineCount).map fun k => ts.linesTokens ⟨k, k + 1⟩) ts.length ∧
    (∀ i < ts.length, let line := ts.lineOf i
      (ts.linesTokens ⟨line, line + 1⟩).start ≤ i ∧ i < (ts.linesTokens ⟨line, line + 1⟩).stop ∧
        ts.lineStart i = (ts.lineTokens line).start ∧ ts.lineEnd i = (ts.lineTokens line).stop) ∧
    (ts ≠ [] → ∀ a b, a ≤ b → b ≤ ts.length →
      ts.linesOf ⟨a, b⟩ = ⟨ts.lineOf a, ts.lineOf b + 1⟩) := by
  refine ⟨?_, fun i hi => ?_, fun hne a b _ hb => linesOf_of_ne_nil hne hb⟩
  · have hbound : ∀ k, afterBreaks k ts ≤ afterBreaks (k + 1) ts := by
      intro k
      rw [afterBreaks_succ]
      have hlen := afterBreaks_le_length k ts
      have := le_lineEnd hlen
      omega
    have htiles := tiles_range' hbound 0 ts.lineCount
    rw [Nat.zero_add, afterBreaks_lineCount, afterBreaks] at htiles
    simpa only [linesTokens_line, range_eq_range'] using htiles
  · have hle : afterBreaks (ts.lineOf i) ts ≤ i := afterBreaks_le (Nat.le_refl _)
    have hstart := lineStart_eq_afterBreaks hi.le
    have hline : ts.lineOf (afterBreaks (ts.lineOf i) ts) = ts.lineOf i :=
      hstart ▸ lineOf_lineStart hi.le
    dsimp only
    rw [linesTokens_line]
    exact ⟨hle, lt_afterBreaks hi (Nat.lt_succ_self _), hstart,
      (lineEnd_eq_of_lineOf_eq hle hi.le hline).symm⟩

/-- Four tokens on the last of three lines. -/
theorem lines_tile_three :
    let ts : Layout := ["a", "\n", "  ", "\n", "b", " ", "c", "\n"]
    Tiles 0 [⟨0, 2⟩, ⟨2, 4⟩, ⟨4, 8⟩] 8 ∧ ts.lineOf 6 = 2 ∧ ts.lineStart 6 = 4 ∧
      ts.lineEnd 6 = 7 ∧ ts.linesOf ⟨1, 8⟩ = ⟨0, 4⟩ := by
  intro ts
  obtain ⟨htiles, hlines, hspan⟩ := ts.lines_tile
  obtain ⟨-, -, hstart, hend⟩ := hlines 6 (by decide)
  exact ⟨htiles, by decide, hstart, hend, hspan (by decide) 1 8 (by decide) (by decide)⟩

end Layout

end Lossless
