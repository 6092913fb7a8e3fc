import Lossless.Text.Blank
import Lossless.Text.Bytes

/-! The layout of a document: the texts of its tokens in order. A token `"\n"` is a break, and a
line is the run of tokens up to and including a break. Positions count tokens. -/

namespace Lossless

abbrev Layout := List String

namespace Layout

def lineBreak : String := "\n"

def isBreak (text : String) : Bool :=
  text == lineBreak

/-- White space inside a line. -/
def isGap (text : String) : Bool :=
  !isBreak text && Text.isBlank text

def join : Layout → String
  | [] => ""
  | t :: ts => t ++ join ts

def size : Layout → Nat
  | [] => 0
  | t :: ts => t.utf8ByteSize + size ts

def textOf (ts : Layout) (span : Span) : String :=
  join ((ts.drop span.start).take (span.stop - span.start))

def breaks (ts : Layout) : Nat :=
  ts.countP isBreak

/-- Line of the token at a position: the number of breaks before it. -/
def lineOf (ts : Layout) (position : Nat) : Nat :=
  breaks (ts.take position)

/-- Number of lines; a layout without tokens has one. -/
def lineCount (ts : Layout) : Nat :=
  breaks ts.dropLast + 1

/-- The lines that a range of positions touches. A break at its end also touches the line that
the break opens. -/
def linesOf (ts : Layout) (span : Span) : Span :=
  if ts.isEmpty then ⟨0, 0⟩
  else
    let stop :=
      match (ts.take span.stop).getLast? with
      | none => 1
      | some t => ts.lineOf (span.stop - 1) + (if isBreak t then 2 else 1)
    ⟨ts.lineOf span.start, stop⟩

/-- Position of the first break at or after a position. -/
def nextBreak? (ts : Layout) (position : Nat) : Option Nat :=
  ((ts.drop position).findIdx? isBreak).map (position + ·)

/-- Position of the last break before a position. -/
def previousBreak? (ts : Layout) (position : Nat) : Option Nat :=
  let before := ts.take position
  (before.reverse.findIdx? isBreak).map (before.length - 1 - ·)

/-- First position of the line that holds a position. -/
def lineStart (ts : Layout) (position : Nat) : Nat :=
  match ts.previousBreak? position with
  | none => 0
  | some i => i + 1

/-- Position of the break that ends the line of a position, or the end of the layout. -/
def lineEnd (ts : Layout) (position : Nat) : Nat :=
  (ts.nextBreak? position).getD ts.length

/-- Position after the first `n` breaks, or the end when there are fewer. -/
def afterBreaks : Nat → Layout → Nat
  | 0, _ => 0
  | _ + 1, [] => 0
  | n + 1, t :: ts => 1 + afterBreaks (if isBreak t then n else n + 1) ts

/-- Positions of a line without its break. -/
def lineTokens (ts : Layout) (line : Nat) : Span :=
  let start := afterBreaks line ts
  ⟨start, ts.lineEnd start⟩

/-- Positions of whole lines with their breaks. -/
def linesTokens (ts : Layout) (lines : Span) : Span :=
  let start := (ts.lineTokens lines.start).start
  if lines.isEmpty then ⟨start, start⟩
  else ⟨start, min ((ts.lineTokens (lines.stop - 1)).stop + 1) ts.length⟩

def offsetAt (ts : Layout) (position : Nat) : Nat :=
  size (ts.take position)

def lineText (ts : Layout) (line : Nat) : Span :=
  let tokens := ts.lineTokens line
  ⟨ts.offsetAt tokens.start, ts.offsetAt tokens.stop⟩

def isBlankLine (ts : Layout) (line : Nat) : Bool :=
  let tokens := ts.lineTokens line
  ((ts.drop tokens.start).take (tokens.stop - tokens.start)).all Text.isBlank

/-- The position moved left over white space of its line. -/
def expandLeft (ts : Layout) (position : Nat) : Nat :=
  position - ((ts.take position).reverse.takeWhile isGap).length

/-- The position moved right over white space of its line. -/
def expandRight (ts : Layout) (position : Nat) : Nat :=
  position + ((ts.drop position).takeWhile isGap).length

/-- The first position at or after the given one that opens a line, or the end. -/
def nextLineStart (ts : Layout) (position : Nat) : Nat :=
  match position with
  | 0 => 0
  | p + 1 =>
    match ts.nextBreak? p with
    | none => max (p + 1) ts.length
    | some i => i + 1

/-- Lines that end in the given tokens, the first of which opens a line. The open line has
started at `start` and is `width` tokens long. -/
def endedLines (start width : Nat) : Layout → List Span
  | [] => []
  | t :: ts =>
    if isBreak t then ⟨start, start + width + 1⟩ :: endedLines (start + width + 1) 0 ts
    else endedLines start (width + 1) ts

/-- Whole lines with their breaks that start and end in a range of positions. -/
def lineRanges (ts : Layout) (span : Span) : List Span :=
  let start := ts.nextLineStart span.start
  endedLines start 0 ((ts.drop start).take (span.stop - start))

/-- A range to be removed, grown over the white space on one side. The left side goes first and
may take the break before the line; when nothing stands there, the right side is taken up to the
break that ends the line. -/
def widenOneSide (ts : Layout) (span : Span) : Span :=
  let left := span.start - ((ts.take span.start).reverse.takeWhile Text.isBlank).length
  let start := max left (ts.lineStart span.start - 1)
  if start ≠ span.start then ⟨start, span.stop⟩
  else
    let right := span.stop + ((ts.drop span.stop).takeWhile Text.isBlank).length
    ⟨span.start, min right (ts.lineEnd span.stop + 1)⟩

end Layout

end Lossless
