import Lossless.Document.Basic
import Lossless.Text.Columns

/-! A report on the place where a parser gave up: the line of the source and a label under the
character. -/

namespace Lossless.Report

def endsLine (c : Char) : Bool :=
  c == '\n' || c == '\r' || c == '\x0b' || c == '\x0c' ||
    c == '\u0085' || c == '\u2028' || c == '\u2029'

def splitLines : List Char → List (List Char)
  | [] => []
  | '\r' :: '\n' :: rest => ['\r', '\n'] :: splitLines rest
  | c :: rest =>
    if endsLine c then [c] :: splitLines rest
    else match splitLines rest with
      | [] => [[c]]
      | line :: lines => (c :: line) :: lines

structure Place where
  /-- Number of lines before this one. -/
  line : Nat
  text : List Char
  /-- Characters of the line before the place. -/
  column : Nat

/-- The last line that starts at a byte offset or before it. -/
def locate (offset : Nat) : List (List Char) → Place
  | [] => ⟨0, [], 0⟩
  | [line] => ⟨0, line, (Text.takeBytes offset line).length⟩
  | line :: next :: lines =>
    if offset < Text.bytes line then ⟨0, line, (Text.takeBytes offset line).length⟩
    else
      let place := locate (offset - Text.bytes line) (next :: lines)
      { place with line := place.line + 1 }

def tabWidth : Nat := 4

/-- Columns of a character that has `before` characters in front of it. -/
def width (c : Char) (before : Nat) : Nat :=
  if c == '\t' then (before / tabWidth + 1) * tabWidth - before
  else if Text.isBlankChar c then 1
  else Text.columns c

/-- A line as it is shown: blanks become spaces. -/
def shown (line : List Char) : List Char :=
  line.zipIdx.flatMap fun (c, i) =>
    if Text.isBlankChar c then List.replicate (width c i) ' ' else [c]

/-- A row under a line. Each character of the line gets a mark, continued over its columns. -/
def row (text : List Char) (length : Nat) (mark : Nat → Char × Char) : List Char :=
  (List.range length).flatMap fun i =>
    let columns := match text[i]? with
      | some c => width c i
      | none => 1
    ((mark i).1 :: List.replicate (columns - 1) (mark i).2).take columns

/-- The mark on the character itself; past the end of the source there is none to underline. -/
def pointer (column : Nat) (pastEnd : Bool) (i : Nat) : Char × Char :=
  if i = column then if pastEnd then ('│', ' ') else ('┬', '─')
  else (' ', ' ')

def arrow (column : Nat) (i : Nat) : Char × Char :=
  if i < column then (' ', ' ')
  else if i = column then ('╰', '─')
  else ('─', '─')

def render (path source : String) (fault : Fault) : String :=
  let cs := source.toList
  let offset := Text.floorBoundary cs fault.offset
  let pastEnd := (Text.dropBytes offset cs).isEmpty
  let place := locate offset (splitLines cs)
  let line := Text.trimEnd place.text
  let length := place.column + (if pastEnd then 0 else 1) + 2
  let number := toString (place.line + 1)
  let margin := String.ofList (List.replicate (number.length + 2) ' ')
  let message := "the parser gave up here (line " ++ toString (fault.line + 1) ++ ", column " ++
    toString (fault.column + 1) ++ ")"
  "Error: syntax error\n" ++
    margin ++ "╭─[ " ++ path ++ ":" ++ number ++ ":" ++ toString (place.column + 1) ++ " ]\n" ++
    margin ++ "│\n" ++
    " " ++ number ++ " │ " ++ String.ofList (shown line) ++ "\n" ++
    margin ++ "│ " ++ String.ofList (row line length (pointer place.column pastEnd)) ++ "\n" ++
    margin ++ "│ " ++ String.ofList (row line length (arrow place.column)) ++ " " ++ message ++ "\n" ++
    String.ofList (List.replicate (number.length + 2) '─') ++ "╯\n"

end Lossless.Report
