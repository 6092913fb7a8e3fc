import Lossless.Proofs.LineBreaks

/-! Places of a source by line and column. The place of a byte offset is the last one between two
characters that is not past it, and its line and column lead back to it. -/

namespace Lossless

open List

namespace Text

theorem floorBoundary_le (cs : List Char) (n : Nat) : floorBoundary cs n ≤ n := by
  induction cs generalizing n with
  | nil => exact Nat.zero_le n
  | cons c cs ih =>
    rw [floorBoundary]
    split
    · have := ih (n - c.utf8Size)
      omega
    · exact Nat.zero_le n

theorem le_floorBoundary {pre : List Char} {n : Nat} (h : bytes pre ≤ n) (post : List Char) :
    bytes pre ≤ floorBoundary (pre ++ post) n := by
  induction pre generalizing n with
  | nil => exact Nat.zero_le _
  | cons c cs ih =>
    rw [bytes_cons] at h
    have hrest := ih (n := n - c.utf8Size) (by omega)
    rw [cons_append, floorBoundary, if_pos (by omega), bytes_cons]
    omega

theorem head?_dropWhile_ne (c : Char) (cs : List Char) :
    (cs.dropWhile (· != c)).head?.all (· == c) := by
  have h := head?_dropWhile_not (· != c) cs
  cases hd : (cs.dropWhile (· != c)).head? with
  | none => rfl
  | some d =>
    rw [hd] at h
    simpa using h

theorem not_mem_takeWhile_ne (c : Char) (cs : List Char) : c ∉ cs.takeWhile (· != c) := by
  intro hmem
  simpa using all_eq_true.1 (all_takeWhile (l := cs)) c hmem

/-- Every place of a text is on a line. -/
theorem exists_isLine (before after : List Char) :
    ∃ span, IsLine (before ++ after) (before.count '\n') span ∧ bytes before ≤ span.stop := by
  obtain ⟨above, mid, rfl, hopens, hmid⟩ : ∃ above mid, before = above ++ mid ∧
      opens above ∧ '\n' ∉ mid := by
    refine ⟨(before.reverse.dropWhile (· != '\n')).reverse,
      (before.reverse.takeWhile (· != '\n')).reverse, ?_, ?_, ?_⟩
    · rw [← reverse_append, takeWhile_append_dropWhile, reverse_reverse]
    · rw [opens, getLast?_reverse]
      exact head?_dropWhile_ne ..
    · rw [mem_reverse]
      exact not_mem_takeWhile_ne _ _
  have hafter := takeWhile_append_dropWhile (p := (· != '\n')) (l := after)
  refine ⟨_, ⟨above, mid ++ after.takeWhile (· != '\n'), after.dropWhile (· != '\n'), ?_, rfl, ?_,
    hopens, ?_, head?_dropWhile_ne ..⟩, ?_⟩
  · rw [append_assoc, append_assoc, hafter]
  · rw [count_append, count_eq_zero.2 hmid, Nat.add_zero]
  · rw [mem_append, not_or]
    exact ⟨hmid, not_mem_takeWhile_ne _ _⟩
  · rw [bytes_append, bytes_append]
    dsimp only
    omega

end Text

namespace Fault

/-- An offset leads to the last place between two characters that is not past it, with the line
breaks before that place and its distance from the start of its line. -/
theorem locate_place (source : String) (offset : Nat) :
    let fault : Fault := locate source offset
    (∃ before after, source = before ++ after ∧ fault.offset = before.utf8ByteSize ∧
      fault.offset ≤ offset ∧ fault.line = before.toList.count '\n') ∧
    (∀ before after, source = before ++ after → before.utf8ByteSize ≤ offset →
      before.utf8ByteSize ≤ fault.offset) ∧
    (∃ span, Text.IsLine source.toList fault.line span ∧
      span.start + fault.column = fault.offset ∧ fault.offset ≤ span.stop) ∧
    locate source fault.offset = fault := by
  intro fault
  obtain ⟨before, after, hsplit, hfloor⟩ := Text.floorBoundary_split source.toList offset
  have hplace : ∀ n, Text.floorBoundary source.toList n = Text.bytes before →
      locate source n = ⟨before.count '\n', Text.bytes (before.reverse.takeWhile (· != '\n')),
        Text.bytes before⟩ := by
    intro n hn
    simp only [locate, hn]
    rw [hsplit, Text.takeBytes_append]
  have hfault : fault = _ := hplace offset hfloor
  have hle : Text.bytes before ≤ offset := hfloor ▸ Text.floorBoundary_le ..
  rw [hfault]
  refine ⟨⟨String.ofList before, String.ofList after, ?_, ?_, hle, ?_⟩, ?_, ?_, hplace _ ?_⟩
  · rw [← String.ofList_append, ← hsplit, String.ofList_toList]
  · rw [Text.utf8ByteSize_ofList]
  · rw [String.toList_ofList]
  · rintro pre post rfl hpre
    rw [← Text.bytes_toList] at hpre ⊢
    rw [← hfloor, String.toList_append]
    exact Text.le_floorBoundary hpre _
  · obtain ⟨span, hline, hstop⟩ := Text.exists_isLine before after
    have hcolumn := hline.column
    rw [← hsplit] at hline
    exact ⟨span, hline, by dsimp only; omega, hstop⟩
  · refine Nat.le_antisymm (Text.floorBoundary_le ..) ?_
    rw [hsplit]
    exact Text.le_floorBoundary (Nat.le_refl _) after

/-- The second byte of a character of the second line. -/
theorem locate_place_inside :
    locate "x\né = 1\n" 3 = ⟨1, 0, 2⟩ ∧ locate "x\né = 1\n" 2 = ⟨1, 0, 2⟩ ∧
      ∃ span, Text.IsLine "x\né = 1\n".toList 1 span ∧ span.start + 0 = 2 := by
  have hfault : locate "x\né = 1\n" 3 = ⟨1, 0, 2⟩ := by decide +kernel
  obtain ⟨-, -, ⟨span, hline, hstart, -⟩, hagain⟩ := locate_place "x\né = 1\n" 3
  rw [hfault] at hline hstart hagain
  exact ⟨hfault, hagain, span, hline, hstart⟩

end Fault

end Lossless
