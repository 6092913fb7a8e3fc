import Lossless.Layout
import Mathlib.Tactic.Common

/-! Layouts cut into parts: the text of a part, the bounds of lines, and how far a range grows over
the white space beside it. -/

namespace Lossless.Layout

open List Option

variable {ts pre mid post : Layout} {t gap : String} {p i : Nat}

@[simp] theorem join_append (ts us : Layout) : join (ts ++ us) = join ts ++ join us := by
  induction ts with
  | nil => simp [join]
  | cons t ts ih => rw [cons_append, join, ih, join, String.append_assoc]

/-! ### Lines -/

theorem lineStart_le (ts : Layout) (p : Nat) : ts.lineStart p ≤ p := by
  unfold lineStart
  split
  · exact Nat.zero_le p
  · next i h =>
    obtain ⟨k, hk, rfl⟩ := map_eq_some_iff.1 h
    obtain ⟨hlt, -⟩ := findIdx?_eq_some_iff_getElem.1 hk
    rw [length_reverse] at hlt
    have := length_take_le p ts
    omega

theorem exists_break_of_nextBreak? (h : ts.nextBreak? p = some i) :
    ∃ t, ts[i]? = some t ∧ isBreak t := by
  obtain ⟨k, hk, rfl⟩ := map_eq_some_iff.1 h
  obtain ⟨hlt, hbreak, -⟩ := findIdx?_eq_some_iff_getElem.1 hk
  rw [← getElem?_drop]
  exact ⟨_, getElem?_eq_getElem hlt, hbreak⟩

theorem le_lineEnd (h : p ≤ ts.length) : p ≤ ts.lineEnd p := by
  unfold lineEnd
  cases hb : ts.nextBreak? p with
  | none => exact h
  | some i =>
    obtain ⟨k, -, rfl⟩ := map_eq_some_iff.1 hb
    exact Nat.le_add_right ..

/-! ### White space beside a range -/

section

variable {holds : String → Bool} {i q : Nat} (ht : ts[i]? = some t)
include ht

theorem holds_of_takeWhile (hi : i < (ts.takeWhile holds).length) : holds t := by
  have hmem : t ∈ ts.takeWhile holds := by
    rw [← takeWhile_append_dropWhile (p := holds) (l := ts),
      getElem?_append_left hi] at ht
    exact mem_of_getElem? ht
  exact all_eq_true.1 all_takeWhile t hmem

theorem holds_of_takeWhile_reverse (hlt : i < q)
    (hi : q - ((ts.take q).reverse.takeWhile holds).length ≤ i) : holds t := by
  have hlen : i < (ts.take q).length := by
    have := (List.getElem?_eq_some_iff.1 ht).1
    rw [List.length_take]
    omega
  have hback : (ts.take q).reverse[(ts.take q).length - 1 - i]? = some t := by
    rw [getElem?_reverse (by omega), ← ht, getElem?_take_of_lt (by omega)]
    congr 1
    omega
  refine holds_of_takeWhile hback ?_
  have := length_take_le q ts
  omega

theorem holds_of_takeWhile_drop (hle : q ≤ i)
    (hi : i < q + ((ts.drop q).takeWhile holds).length) : holds t := by
  have hdrop : (ts.drop q)[i - q]? = some t := by
    rw [getElem?_drop, Nat.add_sub_cancel' hle, ht]
  exact holds_of_takeWhile hdrop (by omega)

/-- What a range grows by is white space. -/
theorem widenOneSide_blank (span : Span) (hstart : (ts.widenOneSide span).start ≤ i)
    (hstop : i < (ts.widenOneSide span).stop) :
    span.start ≤ i ∧ i < span.stop ∨ Text.isBlank t := by
  rw [widenOneSide] at hstart hstop
  dsimp only at hstart hstop
  split at hstart
  · rw [if_pos ‹_›] at hstop
    by_cases hi : span.start ≤ i
    · exact .inl ⟨hi, hstop⟩
    · right
      refine holds_of_takeWhile_reverse ht (Nat.lt_of_not_le hi) ?_
      exact Nat.le_trans (Nat.le_max_left ..) hstart
  · rw [if_neg ‹_›] at hstop
    by_cases hi : i < span.stop
    · exact .inl ⟨hstart, hi⟩
    · right
      refine holds_of_takeWhile_drop ht (Nat.le_of_not_lt hi) ?_
      exact Nat.lt_of_lt_of_le hstop (Nat.min_le_left ..)

end

theorem isBlank_of_isGap (h : isGap t) : Text.isBlank t :=
  (Bool.and_eq_true_iff.1 h).2

theorem widenOneSide_covers {span : Span} (h : span.stop ≤ ts.length) :
    (ts.widenOneSide span).start ≤ span.start ∧ span.stop ≤ (ts.widenOneSide span).stop := by
  have hend := le_lineEnd h
  have hstart := ts.lineStart_le span.start
  rw [widenOneSide]
  dsimp only
  split
  · dsimp only
    omega
  · dsimp only
    omega

end Lossless.Layout
