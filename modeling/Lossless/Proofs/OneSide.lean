import Mathlib.Data.List.Induction
import Lossless.Proofs.Layouts

/-! What goes with a range that is taken out of a text: the white space on one side of it, as far
as the nearest break. What is left is put together from the two parts beside the range. -/

namespace Lossless.Layout

open List Text

variable {ts before after mid gaps : Layout} {t : String}

/-- The white space that opens a layout, as far as its first break and with it. -/
def spaceAfter : Layout → Layout
  | [] => []
  | t :: ts =>
    if isBreak t then [t] else if Text.isBlank t then t :: spaceAfter ts else []

/-- The white space that ends a layout, back to its last break and with it. -/
def spaceBefore (ts : Layout) : Layout :=
  (spaceAfter ts.reverse).reverse

/-- What is left of a text when a range between two parts of it goes: the white space before the
range goes with it, or else the white space behind it. -/
def closeUp (before after : Layout) : Layout :=
  if before.spaceBefore = [] then before ++ after.drop after.spaceAfter.length
  else before.take (before.length - before.spaceBefore.length) ++ after

theorem isBlank_of_isBreak (h : isBreak t = true) : isBlank t = true := by
  rw [eq_of_beq h]
  decide

theorem isBreak_of_ink (h : isBlank t = false) : isBreak t = false := by
  cases hbreak : isBreak t with
  | false => rfl
  | true => rw [isBlank_of_isBreak hbreak] at h; cases h

theorem spaceAfter_of_inked (h : ∀ t ∈ ts.head?, isBlank t = false) : spaceAfter ts = [] := by
  cases ts with
  | nil => rfl
  | cons t ts =>
    have hink := h t rfl
    rw [spaceAfter, if_neg (by simp [isBreak_of_ink hink]), if_neg (by simp [hink])]

theorem spaceBefore_of_inked (h : ∀ t ∈ ts.getLast?, isBlank t = false) :
    spaceBefore ts = [] := by
  rw [spaceBefore, spaceAfter_of_inked (by rwa [head?_reverse])]
  rfl

theorem prefix_spaceAfter (ts : Layout) : spaceAfter ts <+: ts := by
  induction ts with
  | nil => exact prefix_refl _
  | cons t ts ih =>
    rw [spaceAfter]
    split
    · exact ⟨ts, rfl⟩
    · split
      · exact (prefix_cons_inj t).2 ih
      · exact List.nil_prefix

theorem spaceBefore_suffix (ts : Layout) : spaceBefore ts <:+ ts := by
  have h := prefix_spaceAfter ts.reverse
  rwa [← reverse_suffix, reverse_reverse] at h

theorem length_spaceAfter (ts : Layout) : (spaceAfter ts).length =
    min (ts.takeWhile isBlank).length ((ts.findIdx? isBreak).getD ts.length + 1) := by
  induction ts with
  | nil => rfl
  | cons t ts ih =>
    rw [spaceAfter, takeWhile_cons, findIdx?_cons]
    cases hbreak : isBreak t with
    | true => simp [isBlank_of_isBreak hbreak]
    | false =>
      cases hblank : isBlank t with
      | false => simp
      | true =>
        cases hi : ts.findIdx? isBreak with
        | none => simp [ih, hi]
        | some i => simp [ih, hi]

/-- The range that goes between two parts of a text. -/
theorem widenOneSide_block (before mid after : Layout) :
    widenOneSide (before ++ (mid ++ after)) ⟨before.length, before.length + mid.length⟩ =
      if before.spaceBefore = [] then
        ⟨before.length, before.length + mid.length + after.spaceAfter.length⟩
      else ⟨before.length - before.spaceBefore.length, before.length + mid.length⟩ := by
  have hbefore : before.spaceBefore.length = min (before.reverse.takeWhile isBlank).length
      ((before.reverse.findIdx? isBreak).getD before.length + 1) := by
    rw [spaceBefore, length_reverse, length_spaceAfter, length_reverse]
  have hstart : lineStart (before ++ (mid ++ after)) before.length - 1 =
      before.length - ((before.reverse.findIdx? isBreak).getD before.length + 1) := by
    rw [lineStart, previousBreak?, take_left]
    cases hi : before.reverse.findIdx? isBreak with
    | none => simp
    | some i =>
      simp only [Option.map_some, Option.getD_some]
      omega
  have hdrop : (before ++ (mid ++ after)).drop (before.length + mid.length) = after := by simp
  have hend : lineEnd (before ++ (mid ++ after)) (before.length + mid.length) =
      before.length + mid.length + (after.findIdx? isBreak).getD after.length := by
    rw [lineEnd, nextBreak?, hdrop]
    cases hi : after.findIdx? isBreak with
    | none => simp [Nat.add_assoc]
    | some i => rfl
  have hrun := (before.reverse.takeWhile_sublist isBlank).length_le
  rw [length_reverse] at hrun
  simp only [widenOneSide, take_left, hstart, hdrop, hend, ← length_eq_zero_iff,
    length_spaceAfter, hbefore]
  split
  · rw [if_neg (by omega)]
    congr 1
    omega
  · rw [if_pos (by omega)]
    congr 1
    omega

theorem take_widenOneSide_block {α : Type} (text : α → String) (xs block ys : List α) :
    let span := widenOneSide ((xs ++ (block ++ ys)).map text) ⟨xs.length, xs.length + block.length⟩
    (xs ++ (block ++ ys)).take span.start ++ (xs ++ (block ++ ys)).drop span.stop =
      if spaceBefore (xs.map text) = [] then xs ++ ys.drop (spaceAfter (ys.map text)).length
      else xs.take (xs.length - (spaceBefore (xs.map text)).length) ++ ys := by
  intro span
  have hspan := widenOneSide_block (xs.map text) (block.map text) (ys.map text)
  rw [← map_append, ← map_append, length_map, length_map] at hspan
  have hblock : xs ++ (block ++ ys) = (xs ++ block) ++ ys := (append_assoc ..).symm
  rw [show span = _ from hspan]
  split
  · dsimp only
    rw [take_left, hblock, ← length_append, drop_length_add_append]
  · dsimp only
    rw [take_append_of_le_length (Nat.sub_le ..), hblock, ← length_append, drop_left]

theorem spaceBefore_concat (ts : Layout) (t : String) : spaceBefore (ts ++ [t]) =
    if isBreak t then [t] else if isBlank t then spaceBefore ts ++ [t] else [] := by
  rw [spaceBefore, reverse_append, reverse_singleton, singleton_append, spaceAfter]
  split
  · rfl
  · split
    · rw [reverse_cons, spaceBefore]
    · rfl

theorem spaceBefore_of_open (hbreak : isBreak t = true)
    (hgaps : ∀ g ∈ gaps, isGap g = true) : spaceBefore (ts ++ t :: gaps) = t :: gaps := by
  induction gaps using List.reverseRecOn with
  | nil => rw [spaceBefore_concat, if_pos hbreak]
  | append_singleton gaps g ih =>
    obtain ⟨hnot, hblank⟩ := Bool.and_eq_true_iff.1 (hgaps g (by simp))
    rw [Bool.not_eq_true'] at hnot
    rw [← cons_append, ← append_assoc, spaceBefore_concat, if_neg (by simp [hnot]),
      if_pos hblank, ih fun h hh => hgaps h (by simp [hh])]

/-! ### A space beside a place -/

theorem join_take_spaceBefore (ts : Layout) :
    join ts = join (ts.take (ts.length - ts.spaceBefore.length)) ++ join ts.spaceBefore := by
  rw [← join_append]
  congr 1
  conv_lhs => rw [← take_append_drop (ts.length - ts.spaceBefore.length) ts]
  rw [← suffix_iff_eq_drop.1 (spaceBefore_suffix ts)]

theorem join_drop_spaceAfter (ts : Layout) :
    join ts = join ts.spaceAfter ++ join (ts.drop ts.spaceAfter.length) := by
  rw [← join_append]
  congr 1
  conv_lhs => rw [← take_append_drop ts.spaceAfter.length ts]
  rw [← prefix_iff_eq_take.1 (prefix_spaceAfter ts)]

theorem spaceAfter_space (ts : Layout) : spaceAfter (" " :: ts) = " " :: spaceAfter ts := by
  rw [spaceAfter, if_neg (by decide), if_pos (by decide)]

theorem spaceBefore_space (ts : Layout) : spaceBefore (ts ++ [" "]) = spaceBefore ts ++ [" "] := by
  rw [spaceBefore_concat, if_neg (by decide), if_pos (by decide)]

theorem join_closeUp_space_left (before after : Layout) :
    join (closeUp (before ++ [" "]) after) = join (before ++ after) ↔
      join before.spaceBefore = "" := by
  have hlength : (before ++ [" "]).length - (before.spaceBefore ++ [" "]).length =
      before.length - before.spaceBefore.length := by simp
  rw [closeUp, spaceBefore_space, if_neg (by simp), hlength,
    take_append_of_le_length (Nat.sub_le ..), join_append, join_append,
    join_take_spaceBefore before, String.append_left_inj, eq_comm, String.append_eq_left_iff]

/-- Before a space, the range takes white space before it if there is any, and else the space with
the white space that follows. -/
theorem join_closeUp_space_right (before after : Layout) :
    join (closeUp before (" " :: after)) = join (before ++ after) ↔
      if before.spaceBefore = [] then join after.spaceAfter = ""
      else join before.spaceBefore = " " := by
  rw [closeUp]
  split
  · rw [spaceAfter_space, length_cons, drop_succ_cons, join_append, join_append,
      String.append_right_inj]
    conv_lhs => rhs; rw [join_drop_spaceAfter after]
    rw [eq_comm, String.append_eq_right_iff]
  · rw [join_append, join_append, join_take_spaceBefore before, String.append_assoc,
      String.append_right_inj, join, String.append_left_inj, eq_comm]

/-! ### How far a range grows -/

/-- White space that goes as far as it can with one break: to ink, to the end, or just past the
break. -/
structure Reaches (space rest : Layout) : Prop where
  blank : ∀ t ∈ space, Text.isBlank t = true
  breaks : space.breaks ≤ 1
  stops : rest.head?.all (!Text.isBlank ·) = true ∨ space.getLast?.any isBreak = true

theorem reaches_spaceAfter (ts : Layout) :
    Reaches ts.spaceAfter (ts.drop ts.spaceAfter.length) := by
  induction ts with
  | nil => exact ⟨by simp [spaceAfter], by simp [spaceAfter, breaks], Or.inl rfl⟩
  | cons t ts ih =>
    rw [spaceAfter]
    split
    · next hbreak =>
      exact ⟨by simpa using isBlank_of_isBreak hbreak, countP_le_length, Or.inr (by simpa)⟩
    · next hbreak =>
      split
      · next hblank =>
        refine ⟨forall_mem_cons.2 ⟨hblank, ih.blank⟩, ?_, ih.stops.imp_right fun hlast => ?_⟩
        · rw [Layout.breaks, countP_cons_of_neg hbreak]
          exact ih.breaks
        · cases hspace : spaceAfter ts with
          | nil => simp [hspace] at hlast
          | cons u us => rwa [getLast?_cons_cons, ← hspace]
      · next hblank => exact ⟨by simp, Nat.zero_le 1, Or.inl (by simpa using hblank)⟩

theorem reaches_spaceBefore (ts : Layout) : Reaches ts.spaceBefore.reverse
    (ts.take (ts.length - ts.spaceBefore.length)).reverse := by
  have h := reaches_spaceAfter ts.reverse
  rwa [drop_reverse, ← @length_reverse _ (spaceAfter _), ← spaceBefore,
    ← reverse_reverse (spaceAfter _), ← spaceBefore] at h

/-- A range grows over white space with at most one break, on the left if some stands there and else
on the right, and there as far as it can. -/
theorem widenOneSide_maximal (ts : Layout) (span : Span) (hle : span.start ≤ span.stop)
    (hstop : span.stop ≤ ts.length) :
    let wide := ts.widenOneSide span
    let left := (ts.take span.start).drop wide.start
    let right := (ts.take wide.stop).drop span.stop
    (wide.start ≤ span.start ∧ span.stop ≤ wide.stop ∧ wide.stop ≤ ts.length) ∧
    (left = [] ∨ right = []) ∧
    (∀ t ∈ left ++ right, Text.isBlank t = true) ∧ breaks (left ++ right) ≤ 1 ∧
    if left = [] then
      (ts.take span.start).getLast?.all (!Text.isBlank ·) = true ∧
        ((ts.drop wide.stop).head?.all (!Text.isBlank ·) = true ∨
          right.getLast?.any isBreak = true)
    else
      (ts.take wide.start).getLast?.all (!Text.isBlank ·) = true ∨
        left.head?.any isBreak = true := by
  obtain ⟨before, mid, after, rfl, rfl⟩ : ∃ before mid after : Layout,
      ts = before ++ (mid ++ after) ∧ span = ⟨before.length, before.length + mid.length⟩ := by
    obtain ⟨start, stop⟩ := span
    obtain ⟨n, rfl⟩ : ∃ n, stop = start + n := Nat.exists_eq_add_of_le hle
    refine ⟨ts.take start, (ts.drop start).take n, ts.drop (start + n), ?_, ?_⟩
    · rw [← drop_drop, take_append_drop, take_append_drop]
    · dsimp only at hstop
      rw [length_take_of_le (by omega), length_take_of_le (by simp; omega)]
  intro wide left right
  have hwide : wide = _ := widenOneSide_block before mid after
  have hlength : (before ++ (mid ++ after)).length =
      before.length + (mid.length + after.length) := by simp
  have htake : (before ++ (mid ++ after)).take before.length = before := take_left
  split at hwide
  · next hnone =>
    have hspace := prefix_spaceAfter after
    have hbefore := reaches_spaceBefore before
    have hafter := reaches_spaceAfter after
    have hleft : left = [] := by simp [left, hwide]
    have hright : right = after.spaceAfter := by
      rw [prefix_iff_eq_take.1 hspace]
      simp [right, hwide, drop_take]
    have hlen := hspace.length_le
    rw [hnone] at hbefore
    rw [if_pos hleft, hleft, hright, htake, hwide]
    refine ⟨⟨Nat.le_refl _, Nat.le_add_right .., by dsimp only; omega⟩, Or.inl rfl, hafter.blank,
      hafter.breaks, ?_, ?_⟩
    · simpa using hbefore.stops
    · simpa [Nat.add_assoc] using hafter.stops
  · next hsome =>
    have hspace := spaceBefore_suffix before
    have hbefore := reaches_spaceBefore before
    have hleft : left = before.spaceBefore := by
      simp only [left, hwide, htake]
      exact (suffix_iff_eq_drop.1 hspace).symm
    have hright : right = [] := by simp [right, hwide]
    rw [hleft, if_neg hsome, hright, append_nil, hwide]
    refine ⟨⟨Nat.sub_le .., Nat.le_refl _, by dsimp only; omega⟩, Or.inr rfl, ?_, ?_, ?_⟩
    · simpa using hbefore.blank
    · simpa [breaks] using hbefore.breaks
    · simpa [take_append_of_le_length] using hbefore.stops

/-- Of two statements the second goes with the break before it, and the first with the one behind
it. -/
theorem widenOneSide_maximal_statements :
    let ts : Layout := ["import", " ", "a", "\n", "import", " ", "b", "\n"]
    ts.widenOneSide ⟨4, 7⟩ = ⟨3, 7⟩ ∧ ts.widenOneSide ⟨0, 3⟩ = ⟨0, 4⟩ ∧
      breaks ((ts.take 4).drop 3 ++ (ts.take 7).drop 7) ≤ 1 ∧
      breaks ((ts.take 0).drop 0 ++ (ts.take 4).drop 3) ≤ 1 := by
  intro ts
  have hsecond : ts.widenOneSide ⟨4, 7⟩ = ⟨3, 7⟩ := by decide +kernel
  have hfirst : ts.widenOneSide ⟨0, 3⟩ = ⟨0, 4⟩ := by decide +kernel
  obtain ⟨-, -, -, hleft, -⟩ := ts.widenOneSide_maximal ⟨4, 7⟩ (by decide) (by decide)
  obtain ⟨-, -, -, hright, -⟩ := ts.widenOneSide_maximal ⟨0, 3⟩ (by decide) (by decide)
  rw [hsecond] at hleft
  rw [hfirst] at hright
  exact ⟨hsecond, hfirst, hleft, hright⟩

end Lossless.Layout
