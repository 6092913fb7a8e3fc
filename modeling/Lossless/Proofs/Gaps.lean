import Lossless.Proofs.Reachable

/-! The stretches of a source that no node claims. Their pieces follow each other without a gap, a
piece is a line break or holds none, and where a line starts its indentation stands apart. -/

namespace Lossless.Text

open List

def opens (before : List Char) : Bool :=
  before.getLast?.all (· == '\n')

def isGapChar (c : Char) : Bool :=
  isBlankChar c && c != '\n'

/-- A piece that starts a line, with the text behind it: a break, the whole indentation of the line
in that text, or ink. -/
def StartsWell (piece behind : List Char) : Prop :=
  piece = ['\n'] ∨ piece = (piece ++ behind).takeWhile isGapChar ∨
    piece.head?.any (!isBlankChar ·) = true

/-- Pieces in a row behind a text. -/
def Laid : List Char → List (List Char) → Prop
  | _, [] => True
  | before, p :: ps => (p ≠ [] ∧ (p = ['\n'] ∨ '\n' ∉ p) ∧
      (opens before = true → StartsWell p ps.flatten)) ∧ Laid (before ++ p) ps

theorem opens_concat (before : List Char) (c : Char) : opens (before ++ [c]) = (c == '\n') := by
  simp [opens]

theorem startsLine_eq (cs : List Char) (n : Nat) : startsLine cs n = opens (takeBytes n cs) := by
  rw [startsLine, opens]
  cases (takeBytes n cs).getLast? <;> rfl

/-! ### The pieces of a line -/

theorem not_mem_lines (cs : List Char) : ∀ l ∈ lines cs, '\n' ∉ l := by
  induction cs with
  | nil => simp [lines]
  | cons c cs ih =>
    obtain ⟨l, ls, hl⟩ := exists_lines cs
    rw [hl] at ih
    rw [lines, hl]
    split
    · simpa using ih
    · next hc => simpa [Ne.symm hc] using ih

/-- The indentation of a line is the white space up to its ink or its end. -/
theorem takeWhile_isGapChar {line rest : List Char} (hline : '\n' ∉ line)
    (hrest : rest.head?.all (· == '\n')) :
    (line ++ rest).takeWhile isGapChar = line.takeWhile isBlankChar := by
  induction line with
  | nil =>
    cases rest with
    | nil => rfl
    | cons c rest =>
      obtain rfl : c = '\n' := by simpa using hrest
      rfl
  | cons c line ih =>
    rw [mem_cons, not_or] at hline
    obtain ⟨hc, hline⟩ := hline
    have hgap : isGapChar c = isBlankChar c := by simp [isGapChar, Ne.symm hc]
    rw [cons_append, takeWhile_cons, takeWhile_cons, hgap, ih hline]

theorem head?_dropWhile_isBlankChar {line : List Char}
    (h : line.dropWhile isBlankChar ≠ []) :
    (line.dropWhile isBlankChar).head?.any (!isBlankChar ·) := by
  have hink := head_dropWhile_not isBlankChar h
  rw [head?_eq_some_head h, Option.any_some, hink]
  rfl

theorem laid_linePieces {before line : List Char} {rest : List (List Char)} (hline : '\n' ∉ line)
    (hrest : rest.flatten.head?.all (· == '\n')) (h : Laid (before ++ line) rest) :
    Laid before (linePieces (opens before) line ++ rest) := by
  cases ho : opens before with
  | false =>
    cases line with
    | nil => simpa [linePieces] using h
    | cons c cs =>
      refine ⟨⟨cons_ne_nil c cs, .inr hline, fun hopen => ?_⟩, h⟩
      cases ho.symm.trans hopen
  | true =>
    have hsplit := takeWhile_append_dropWhile (p := isBlankChar) (l := line)
    have hindent := takeWhile_isGapChar hline hrest
    have hnot : ∀ p, p <:+: line → '\n' ∉ p := fun p hp hmem => hline (hp.subset hmem)
    -- behind the indentation there is ink or nothing
    have hink : Laid (before ++ line.takeWhile isBlankChar)
        ([line.dropWhile isBlankChar].filter (!·.isEmpty) ++ rest) := by
      cases hd : line.dropWhile isBlankChar with
      | nil =>
        rw [hd, append_nil] at hsplit
        rw [hsplit]
        exact h
      | cons c cs =>
        have hne : line.dropWhile isBlankChar ≠ [] := by simp [hd]
        have hhead := head?_dropWhile_isBlankChar hne
        rw [hd] at hhead
        refine ⟨⟨cons_ne_nil c cs, .inr ?_, fun _ => .inr (.inr hhead)⟩, ?_⟩
        · exact hd ▸ hnot _ (dropWhile_suffix _).isInfix
        · rwa [append_assoc, ← hd, hsplit]
    cases hw : line.takeWhile isBlankChar with
    | nil =>
      rw [hw, append_nil] at hink
      simpa [linePieces, hw] using hink
    | cons c cs =>
      have hpieces : linePieces true line ++ rest = (c :: cs) ::
          ([line.dropWhile isBlankChar].filter (!·.isEmpty) ++ rest) := by
        rw [linePieces, if_pos rfl, hw, filter_cons_of_pos rfl, cons_append]
      rw [hpieces]
      refine ⟨⟨cons_ne_nil c cs, .inr ?_, fun _ => .inr (.inl ?_)⟩, hw ▸ hink⟩
      · exact hw ▸ hnot _ (List.takeWhile_prefix _).isInfix
      · rw [flatten_append, flatten_filter_isEmpty, flatten_singleton, ← hw,
          ← append_assoc, hsplit, hindent]

/-! ### The pieces of a stretch -/

theorem laid_lines (before : List Char) (ls : List (List Char)) (h : ∀ l ∈ ls, '\n' ∉ l) :
    Laid before (ls.flatMap fun l => ['\n'] :: linePieces true l) ∧
      (ls.flatMap fun l => ['\n'] :: linePieces true l).flatten.head?.all (· == '\n') := by
  induction ls generalizing before with
  | nil => exact ⟨trivial, rfl⟩
  | cons l ls ih =>
    obtain ⟨hl, hls⟩ := forall_mem_cons.1 h
    have hopens : opens (before ++ ['\n']) := opens_concat ..
    obtain ⟨hlaid, hhead⟩ := ih (before ++ ['\n'] ++ l) hls
    refine ⟨⟨⟨cons_ne_nil _ _, .inl rfl, fun _ => .inl rfl⟩, ?_⟩, rfl⟩
    have := laid_linePieces hl hhead hlaid
    rwa [hopens] at this

theorem laid_gapPieces (before gap : List Char) : Laid before (gapPieces (opens before) gap) := by
  obtain ⟨l, ls, hl⟩ := exists_lines gap
  have hlines := not_mem_lines gap
  rw [hl] at hlines
  obtain ⟨hfirst, hothers⟩ := forall_mem_cons.1 hlines
  obtain ⟨hlaid, hhead⟩ := laid_lines (before ++ l) ls hothers
  rw [gapPieces, hl]
  exact laid_linePieces hfirst hhead hlaid

theorem Laid.single_or_free {before : List Char} {ps : List (List Char)} (h : Laid before ps) :
    ∀ p ∈ ps, p = ['\n'] ∨ '\n' ∉ p := by
  induction ps generalizing before with
  | nil => exact forall_mem_nil _
  | cons p ps ih => exact forall_mem_cons.2 ⟨h.1.2.1, ih h.2⟩

/-! ### Spans -/

def spansFrom (start : Nat) : List (List Char) → List Span
  | [] => []
  | p :: ps => ⟨start, start + bytes p⟩ :: spansFrom (start + bytes p) ps

def gapSpans (source : List Char) (span : Span) : List Span :=
  spansFrom span.start (piecesBetween source span)

theorem bytes_pos {cs : List Char} (h : cs ≠ []) : 0 < bytes cs := by
  obtain ⟨c, cs, rfl⟩ := exists_cons_of_ne_nil h
  exact Nat.lt_of_lt_of_le c.utf8Size_pos (Nat.le_add_right ..)

theorem Laid.spans {pre : List Char} {ps : List (List Char)} (h : Laid pre ps)
    (post : List Char) :
    let source := pre ++ (ps.flatten ++ post)
    let stop := bytes pre + bytes ps.flatten
    (spansFrom (bytes pre) ps).map (slice source) = ps ∧
      Tiles (bytes pre) (spansFrom (bytes pre) ps) stop ∧
      ∀ r ∈ spansFrom (bytes pre) ps, r.start < r.stop ∧
        (slice source r = ['\n'] ∨ '\n' ∉ slice source r) ∧
        (startsLine source r.start = true →
          ∃ behind, slice source ⟨r.start, stop⟩ = slice source r ++ behind ∧
            StartsWell (slice source r) behind) := by
  induction ps generalizing pre with
  | nil => exact ⟨rfl, rfl, forall_mem_nil _⟩
  | cons p ps ih =>
    obtain ⟨⟨hne, hbreak, hstart⟩, hrest⟩ := h
    obtain ⟨hmap, htiles, hall⟩ := ih hrest
    have hsource : pre ++ ((p :: ps).flatten ++ post) = pre ++ p ++ (ps.flatten ++ post) := by
      simp
    have hstop : bytes pre + bytes (p :: ps).flatten = bytes (pre ++ p) + bytes ps.flatten := by
      simp [Nat.add_assoc]
    have hnext : bytes pre + bytes p = bytes (pre ++ p) := (bytes_append pre p).symm
    have hslice : slice (pre ++ p ++ (ps.flatten ++ post)) ⟨bytes pre, bytes (pre ++ p)⟩ = p := by
      rw [← hnext, append_assoc, slice_append]
    have hbehind : slice (pre ++ p ++ (ps.flatten ++ post))
        ⟨bytes pre, bytes (pre ++ p) + bytes ps.flatten⟩ = p ++ ps.flatten := by
      rw [← hnext, Nat.add_assoc, ← bytes_append, append_assoc, ← append_assoc p,
        slice_append]
    dsimp only
    rw [hsource, hstop, spansFrom, hnext, map_cons, forall_mem_cons, hslice, hmap]
    refine ⟨rfl, ⟨rfl, ?_, htiles⟩, ⟨?_, hbreak, fun hopen => ⟨ps.flatten, hbehind, ?_⟩⟩, hall⟩
    · rw [← hnext]
      exact Nat.le_add_right ..
    · rw [← hnext]
      exact Nat.lt_add_of_pos_right (bytes_pos hne)
    · rw [append_assoc, startsLine_eq, takeBytes_append] at hopen
      exact hstart hopen

end Lossless.Text
