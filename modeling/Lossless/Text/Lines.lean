import Lossless.Text.Blank
import Lossless.Text.Bytes

/-! Lines of a text, the inked part of each line, and the pieces into which a stretch of text
outside all nodes falls. -/

namespace Lossless.Text

/-- The text cut at its line breaks; there is always a first line. -/
def lines : List Char → List (List Char)
  | [] => [[]]
  | c :: cs =>
    if c = '\n' then [] :: lines cs
    else
      match lines cs with
      | [] => [[c]]
      | l :: ls => (c :: l) :: ls

/-- For every line with ink, its byte span without the white space around it. The first line
starts at byte `start`. -/
def inkedSpans (start : Nat) : List (List Char) → List Span
  | [] => []
  | l :: ls =>
    let ink := trim l
    let first := start + bytes (l.takeWhile isBlankChar)
    let rest := inkedSpans (start + bytes l + 1) ls
    if ink.isEmpty then rest else ⟨first, first + bytes ink⟩ :: rest

/-- The inked spans of the lines in a byte span of a source. -/
def inkedIn (source : List Char) (span : Span) : List Span :=
  inkedSpans span.start (lines (slice source span))

/-- A stretch without line breaks: at the start of a line its indentation stands apart. -/
def linePieces (lineStart : Bool) (line : List Char) : List (List Char) :=
  (if lineStart then [line.takeWhile isBlankChar, line.dropWhile isBlankChar] else [line]).filter
    (!·.isEmpty)

/-- A stretch of text as token texts: every line break alone, and the pieces of each line. -/
def gapPieces (lineStart : Bool) (gap : List Char) : List (List Char) :=
  match lines gap with
  | [] => []
  | l :: ls => linePieces lineStart l ++ ls.flatMap fun l => ['\n'] :: linePieces true l

/-- Byte `n` opens a line of the source. -/
def startsLine (source : List Char) (n : Nat) : Bool :=
  match (takeBytes n source).getLast? with
  | none => true
  | some c => c == '\n'

/-- The pieces of the source between two byte offsets. -/
def piecesBetween (source : List Char) (span : Span) : List (List Char) :=
  gapPieces (startsLine source span.start) (slice source span)

end Lossless.Text
