import Lossless.Text.Lines
import Mathlib.Tactic.Common

/-! Byte offsets of a text as splits of its characters. A boundary is the size of a prefix, a span
that cuts no character is the stretch between two prefixes, and the pieces of a stretch join to it
again. -/

namespace Lossless.Text

open List

@[simp] theorem bytes_nil : bytes [] = 0 := rfl

@[simp] theorem bytes_cons (c : Char) (cs : List Char) : bytes (c :: cs) = c.utf8Size + bytes cs :=
  rfl

@[simp] theorem bytes_append (cs ds : List Char) : bytes (cs ++ ds) = bytes cs + bytes ds := by
  induction cs with
  | nil => simp
  | cons c cs ih => simp [ih, Nat.add_assoc]

@[simp] theorem utf8ByteSize_ofList (cs : List Char) :
    (String.ofList cs).utf8ByteSize = bytes cs := by
  induction cs with
  | nil => rfl
  | cons c cs ih => rw [String.ofList_cons, String.utf8ByteSize_append, ih]; simp

theorem bytes_toList (s : String) : bytes s.toList = s.utf8ByteSize := by
  rw [← utf8ByteSize_ofList, String.ofList_toList]

theorem exists_bytes_cons (c : Char) (cs : List Char) : ∃ n, bytes (c :: cs) = n + 1 := by
  have hc := c.utf8Size_pos
  exact ⟨bytes (c :: cs) - 1, by simp; omega⟩

theorem takeBytes_append (pre post : List Char) : takeBytes (bytes pre) (pre ++ post) = pre := by
  induction pre with
  | nil => cases post <;> rfl
  | cons c cs ih =>
    obtain ⟨n, hn⟩ := exists_bytes_cons c cs
    rw [hn, cons_append, takeBytes, ← hn, bytes_cons, Nat.add_sub_cancel_left, ih]

theorem dropBytes_append (pre post : List Char) : dropBytes (bytes pre) (pre ++ post) = post := by
  induction pre with
  | nil => cases post <;> rfl
  | cons c cs ih =>
    obtain ⟨n, hn⟩ := exists_bytes_cons c cs
    rw [hn, cons_append, dropBytes, ← hn, bytes_cons, Nat.add_sub_cancel_left, ih]

theorem slice_append (pre mid post : List Char) :
    slice (pre ++ (mid ++ post)) ⟨bytes pre, bytes pre + bytes mid⟩ = mid := by
  rw [slice, dropBytes_append, Nat.add_sub_cancel_left, takeBytes_append]

/-- Of two prefixes of a text the one with fewer bytes is a prefix of the other. -/
theorem append_of_bytes_le {pre pre' post post' : List Char} (h : pre ++ post = pre' ++ post')
    (hle : bytes pre ≤ bytes pre') : ∃ mid, pre' = pre ++ mid ∧ post = mid ++ post' := by
  rcases append_eq_append_iff.1 h with ⟨mid, h₁, h₂⟩ | ⟨mid, h₁, h₂⟩
  · exact ⟨mid, h₁, h₂⟩
  · have hmid : bytes mid = 0 := by rw [h₁, bytes_append] at hle; omega
    cases mid with
    | nil => exact ⟨[], by simpa using h₁.symm, by simpa using h₂.symm⟩
    | cons c cs => have := c.utf8Size_pos; simp at hmid; omega

theorem prefix_eq_of_bytes_eq {pre pre' post post' : List Char} (h : pre ++ post = pre' ++ post')
    (he : bytes pre = bytes pre') : pre = pre' := by
  obtain ⟨mid, rfl, -⟩ := append_of_bytes_le h (Nat.le_of_eq he)
  cases mid with
  | nil => simp
  | cons c cs => have := c.utf8Size_pos; simp at he; omega

theorem isBoundary_append (pre post : List Char) : isBoundary (pre ++ post) (bytes pre) := by
  induction pre with
  | nil => cases post <;> rfl
  | cons c cs ih =>
    obtain ⟨n, hn⟩ := exists_bytes_cons c cs
    rw [hn, cons_append, isBoundary, ← hn, bytes_cons, Nat.add_sub_cancel_left, ih]
    simp

theorem isBoundary_iff {cs : List Char} {n : Nat} :
    isBoundary cs n = true ↔ ∃ pre post, cs = pre ++ post ∧ bytes pre = n := by
  constructor
  · intro h
    induction cs generalizing n with
    | nil =>
      cases n with
      | zero => exact ⟨[], [], rfl, rfl⟩
      | succ n => simp [isBoundary] at h
    | cons c cs ih =>
      cases n with
      | zero => exact ⟨[], c :: cs, rfl, rfl⟩
      | succ n =>
        simp only [isBoundary, Bool.and_eq_true, decide_eq_true_eq] at h
        obtain ⟨pre, post, rfl, hn⟩ := ih h.2
        exact ⟨c :: pre, post, rfl, by rw [bytes_cons]; omega⟩
  · rintro ⟨pre, post, rfl, rfl⟩
    exact isBoundary_append pre post

theorem isCharSpan_iff {cs : List Char} {span : Span} :
    isCharSpan cs span = true ↔ ∃ pre mid post, cs = pre ++ (mid ++ post) ∧
      span = ⟨bytes pre, bytes pre + bytes mid⟩ := by
  obtain ⟨start, stop⟩ := span
  simp only [isCharSpan, Bool.and_eq_true, decide_eq_true_eq, isBoundary_iff]
  constructor
  · rintro ⟨⟨⟨hle, -⟩, pre, post, hcs, rfl⟩, pre', post', hcs', rfl⟩
    obtain ⟨mid, rfl, rfl⟩ := append_of_bytes_le (hcs.symm.trans hcs') hle
    exact ⟨pre, mid, post', hcs, by simp⟩
  · rintro ⟨pre, mid, post, rfl, h⟩
    cases h
    refine ⟨⟨⟨by omega, by simp⟩, pre, mid ++ post, rfl, rfl⟩, pre ++ mid, post, by simp, by simp⟩

/-! ### Lines -/

def unlines : List (List Char) → List Char
  | [] => []
  | l :: ls => l ++ ls.flatMap ('\n' :: ·)

theorem exists_lines (cs : List Char) : ∃ l ls, lines cs = l :: ls := by
  cases cs with
  | nil => exact ⟨[], [], rfl⟩
  | cons c cs =>
    rw [lines]
    split
    · exact ⟨_, _, rfl⟩
    · split <;> exact ⟨_, _, rfl⟩

theorem unlines_lines (cs : List Char) : unlines (lines cs) = cs := by
  induction cs with
  | nil => rfl
  | cons c cs ih =>
    obtain ⟨l, ls, hl⟩ := exists_lines cs
    rw [hl] at ih
    rw [lines, hl]
    split
    · next h => simp [unlines, h, ← ih]
    · simp [unlines, ← ih]

theorem flatten_filter_isEmpty (pieces : List (List Char)) :
    (pieces.filter (!·.isEmpty)).flatten = pieces.flatten := by
  induction pieces with
  | nil => rfl
  | cons p ps ih => cases p <;> simp [ih]

theorem flatten_linePieces (lineStart : Bool) (line : List Char) :
    (linePieces lineStart line).flatten = line := by
  rw [linePieces, flatten_filter_isEmpty]
  cases lineStart <;> simp

theorem flatten_gapPieces (lineStart : Bool) (gap : List Char) :
    (gapPieces lineStart gap).flatten = gap := by
  have tail : ∀ ls : List (List Char),
      (ls.flatMap fun l => ['\n'] :: linePieces true l).flatten = ls.flatMap ('\n' :: ·) := by
    intro ls
    induction ls with
    | nil => rfl
    | cons l ls ih => simp [ih, flatten_linePieces]
  conv_rhs => rw [← unlines_lines gap]
  obtain ⟨l, ls, hl⟩ := exists_lines gap
  simp only [gapPieces, hl, flatten_append, flatten_linePieces, tail, unlines]

/-! ### Spans in order -/

/-- Spans of a text that cut no character and follow each other between two offsets. -/
def InOrder (cs : List Char) : Nat → List Span → Nat → Prop
  | start, [], stop => start ≤ stop
  | start, span :: spans, stop =>
    start ≤ span.start ∧ isCharSpan cs span = true ∧ InOrder cs span.stop spans stop

theorem InOrder.le {cs : List Char} {start stop : Nat} {spans : List Span}
    (h : InOrder cs start spans stop) : start ≤ stop := by
  induction spans generalizing start with
  | nil => exact h
  | cons span spans ih =>
    obtain ⟨h₁, h₂, h₃⟩ := h
    have := ih h₃
    simp only [isCharSpan, Bool.and_eq_true, decide_eq_true_eq] at h₂
    omega

theorem InOrder.mono_left {cs : List Char} {start start' stop : Nat} {spans : List Span}
    (hs : start' ≤ start) (h : InOrder cs start spans stop) : InOrder cs start' spans stop := by
  cases spans with
  | nil => exact Nat.le_trans hs h
  | cons span spans => exact ⟨Nat.le_trans hs h.1, h.2⟩

theorem line_eq (l : List Char) : ∃ post, l = l.takeWhile isBlankChar ++ (trim l ++ post) := by
  refine ⟨((trimStart l).reverse.takeWhile isBlankChar).reverse, ?_⟩
  have h : trim l ++ ((trimStart l).reverse.takeWhile isBlankChar).reverse = trimStart l := by
    rw [trim, trimEnd, ← reverse_append, takeWhile_append_dropWhile,
      reverse_reverse]
  rw [h, trimStart, takeWhile_append_dropWhile]

theorem ink_of_line (pre l post : List Char) :
    let start := bytes pre + bytes (l.takeWhile isBlankChar)
    let span : Span := ⟨start, start + bytes (trim l)⟩
    isCharSpan (pre ++ (l ++ post)) span ∧ slice (pre ++ (l ++ post)) span = trim l ∧
      span.stop ≤ bytes pre + bytes l := by
  intro start span
  obtain ⟨rest, hl⟩ := line_eq l
  have hsplit : pre ++ (l ++ post) =
      pre ++ l.takeWhile isBlankChar ++ (trim l ++ (rest ++ post)) := by
    conv_lhs => rw [hl]
    simp
  have hbytes : bytes l = bytes (l.takeWhile isBlankChar) + (bytes (trim l) + bytes rest) := by
    conv_lhs => rw [hl]
    simp
  rw [hsplit, show span = ⟨_, _⟩ from rfl, show start = _ from (bytes_append ..).symm]
  refine ⟨isCharSpan_iff.2 ⟨_, _, _, rfl, rfl⟩, slice_append .., ?_⟩
  simp only [bytes_append]
  omega

/-- The inked spans of lines follow each other, and each shows a line without the white space around
it. -/
theorem inkedSpans_spec (ls : List (List Char)) : ∀ (pre l post : List Char),
    InOrder (pre ++ (unlines (l :: ls) ++ post)) (bytes pre) (inkedSpans (bytes pre) (l :: ls))
      (bytes pre + bytes (unlines (l :: ls))) ∧
    ∀ s ∈ inkedSpans (bytes pre) (l :: ls),
      ∃ line ∈ l :: ls, slice (pre ++ (unlines (l :: ls) ++ post)) s = trim line := by
  induction ls with
  | nil =>
    intro pre l post
    obtain ⟨hspan, hslice, hstop⟩ := ink_of_line pre l post
    simp only [inkedSpans, unlines, flatMap_nil, append_nil]
    split
    · exact ⟨Nat.le_add_right .., by simp⟩
    · exact ⟨⟨Nat.le_add_right .., hspan, hstop⟩, by simpa using hslice⟩
  | cons m ls ih =>
    intro pre l post
    obtain ⟨htail, hslices⟩ := ih (pre ++ (l ++ ['\n'])) m post
    have hcs : pre ++ (l ++ ['\n']) ++ (unlines (m :: ls) ++ post) =
        pre ++ (unlines (l :: m :: ls) ++ post) := by simp [unlines]
    have hstop : bytes (pre ++ (l ++ ['\n'])) + bytes (unlines (m :: ls)) =
        bytes pre + bytes (unlines (l :: m :: ls)) := by
      simp only [unlines, bytes_append, flatMap_cons, bytes_cons, bytes_nil]
      omega
    have hstart : bytes (pre ++ (l ++ ['\n'])) = bytes pre + bytes l + 1 := by
      simp [Nat.add_assoc]; rfl
    rw [hcs, hstart] at htail hslices
    rw [← hstart, hstop, hstart] at htail
    obtain ⟨hspan, hslice, hend⟩ := ink_of_line pre l ((m :: ls).flatMap ('\n' :: ·) ++ post)
    rw [← append_assoc l] at hspan hslice
    have hrest : ∀ s ∈ inkedSpans (bytes pre + bytes l + 1) (m :: ls), ∃ line ∈ l :: m :: ls,
        slice (pre ++ (unlines (l :: m :: ls) ++ post)) s = trim line := fun s hs =>
      (hslices s hs).imp fun _ h => ⟨mem_cons_of_mem l h.1, h.2⟩
    rw [inkedSpans]
    split
    · exact ⟨htail.mono_left (by omega), hrest⟩
    · exact ⟨⟨Nat.le_add_right .., hspan, htail.mono_left (by omega)⟩,
        forall_mem_cons.2 ⟨⟨l, mem_cons_self, hslice⟩, hrest⟩⟩

/-- The inked spans of a stretch of text follow each other inside it. -/
theorem inOrder_inkedIn {cs : List Char} {span : Span} (h : isCharSpan cs span) :
    InOrder cs span.start (inkedIn cs span) span.stop := by
  obtain ⟨pre, mid, post, rfl, rfl⟩ := isCharSpan_iff.1 h
  rw [inkedIn, slice_append]
  obtain ⟨l, ls, hl⟩ := exists_lines mid
  have key := (inkedSpans_spec ls pre l post).1
  rw [← hl, unlines_lines] at key
  exact key

end Lossless.Text
