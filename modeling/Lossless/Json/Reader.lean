import Lossless.Json.Basic
import Lossless.Text.Digits

/-! Reading JSON texts. -/

namespace Lossless.Json

def isSpace (c : Char) : Bool :=
  c == ' ' || c == '\t' || c == '\n' || c == '\r'

def skipSpace (cs : List Char) : List Char :=
  cs.dropWhile isSpace

/-! ### Texts -/

/-- A character of a text, or half of a surrogate pair. -/
inductive Piece where
  | char (c : Char)
  | high (n : Nat)
  | low (n : Nat)

/-- What four hexadecimal digits name. -/
def pieceOfHex? (a b c d : Char) : Option Piece := do
  let n ← Text.natOf? 16 [a, b, c, d]
  if 0xD800 ≤ n && n ≤ 0xDBFF then return .high (n - 0xD800)
  else if 0xDC00 ≤ n && n ≤ 0xDFFF then return .low (n - 0xDC00)
  else return .char (Char.ofNat n)

def escaped? : Char → Option Char
  | '"' => some '"'
  | '\\' => some '\\'
  | '/' => some '/'
  | 'b' => some '\x08'
  | 'f' => some '\x0c'
  | 'n' => some '\n'
  | 'r' => some '\r'
  | 't' => some '\t'
  | _ => none

/-- The pieces up to the closing quote, and what follows it. -/
def readPieces : List Char → Option (List Piece × List Char)
  | [] => none
  | '"' :: rest => some ([], rest)
  | '\\' :: 'u' :: a :: b :: c :: d :: rest => do
    let piece ← pieceOfHex? a b c d
    let (pieces, rest) ← readPieces rest
    return (piece :: pieces, rest)
  | '\\' :: c :: rest => do
    let c ← escaped? c
    let (pieces, rest) ← readPieces rest
    return (.char c :: pieces, rest)
  | c :: rest =>
    if c.toNat < 0x20 || c == '\\' then none
    else do
      let (pieces, rest) ← readPieces rest
      return (.char c :: pieces, rest)

/-- The characters of pieces, if the halves of surrogate pairs stand together. -/
def joinPieces? : List Piece → Option (List Char)
  | [] => some []
  | .char c :: rest => (joinPieces? rest).map (c :: ·)
  | .high h :: .low l :: rest =>
    (joinPieces? rest).map (Char.ofNat (0x10000 + h * 0x400 + l) :: ·)
  | _ => none

def readText (cs : List Char) : Option (Option String × List Char) :=
  (readPieces cs).map fun (pieces, rest) => ((joinPieces? pieces).map String.ofList, rest)

/-! ### Numbers -/

def readDigits (cs : List Char) : Option (List Char × List Char) :=
  match cs.span Char.isDigit with
  | ([], _) => none
  | found => some found

/-- The whole part of a number: no zero stands before other digits. -/
def readWhole : List Char → Option (List Char × List Char)
  | '0' :: rest => some (['0'], rest)
  | cs => readDigits cs

/-- Skip a fraction, if there is one; the flag tells whether there was. -/
def skipFraction : List Char → Option (Bool × List Char)
  | '.' :: rest => (readDigits rest).map fun (_, rest) => (true, rest)
  | cs => some (false, cs)

/-- Skip an exponent, if there is one; the flag tells whether there was. -/
def skipExponent : List Char → Option (Bool × List Char)
  | c :: rest =>
    if c == 'e' || c == 'E' then
      let rest := match rest with
        | '+' :: rest | '-' :: rest => rest
        | rest => rest
      (readDigits rest).map fun (_, rest) => (true, rest)
    else some (false, c :: rest)
  | [] => some (false, [])

def readNumber (cs : List Char) : Option (Json × List Char) := do
  let (negative, cs) := match cs with
    | '-' :: rest => (true, rest)
    | cs => (false, cs)
  let (whole, cs) ← readWhole cs
  let (fraction, cs) ← skipFraction cs
  let (exponent, cs) ← skipExponent cs
  let natural := if negative || fraction || exponent then none else Text.natOf? 10 whole
  return (.number natural, cs)

/-! ### Values -/

mutual

/-- A value with at most `n` steps of reading inside it. -/
def readValue : Nat → List Char → Option (Json × List Char)
  | 0, _ => none
  | n + 1, cs =>
    match skipSpace cs with
    | '[' :: rest =>
      match skipSpace rest with
      | ']' :: rest => some (.array [], rest)
      | rest => (readItems n rest).map fun (items, rest) => (.array items, rest)
    | '\x7b' :: rest =>
      match skipSpace rest with
      | '\x7d' :: rest => some (.object [], rest)
      | rest => (readFields n rest).map fun (fields, rest) => (.object fields, rest)
    | '"' :: rest => (readText rest).map fun (value, rest) => (.text value, rest)
    | 'n' :: 'u' :: 'l' :: 'l' :: rest => some (.null, rest)
    | 't' :: 'r' :: 'u' :: 'e' :: rest => some (.bool true, rest)
    | 'f' :: 'a' :: 'l' :: 's' :: 'e' :: rest => some (.bool false, rest)
    | rest => readNumber rest

def readItems : Nat → List Char → Option (List Json × List Char)
  | 0, _ => none
  | n + 1, cs => do
    let (item, rest) ← readValue n cs
    match skipSpace rest with
    | ',' :: rest =>
      let (items, rest) ← readItems n rest
      return (item :: items, rest)
    | ']' :: rest => return ([item], rest)
    | _ => none

def readFields : Nat → List Char → Option (List (Option String × Json) × List Char)
  | 0, _ => none
  | n + 1, cs =>
    match skipSpace cs with
    | '"' :: rest => do
      let (key, rest) ← readText rest
      match skipSpace rest with
      | ':' :: rest =>
        let (value, rest) ← readValue n rest
        match skipSpace rest with
        | ',' :: rest =>
          let (fields, rest) ← readFields n rest
          return ((key, value) :: fields, rest)
        | '\x7d' :: rest => return ([(key, value)], rest)
        | _ => none
      | _ => none
    | _ => none

end

/-- The value of a text with nothing else in it. Every step reads a character or opens a value, so
twice as many steps as characters are enough. -/
def parse? (text : String) : Option Json := do
  let cs := text.toList
  let (value, rest) ← readValue (2 * cs.length + 1) cs
  if (skipSpace rest).isEmpty then return value else none

end Lossless.Json
