import Lossless.Toml.Scalar
import Lossless.Toml.Table

/-! Reading TOML texts. A text is read into the value of its outermost table. -/

namespace Lossless.Toml

/-! ### Blanks and comments -/

def isSpace (c : Char) : Bool :=
  c == ' ' || c == '\t'

def skipSpace (cs : List Char) : List Char :=
  cs.dropWhile isSpace

/-- Characters that stand in no text and no comment. -/
def isControl (c : Char) : Bool :=
  (c.toNat < 0x20 && c != '\t') || c.toNat == 0x7F

/-- Skip blanks, line breaks and comments; the flag tells whether a comment is going on. -/
def skipGap : Bool → List Char → Option (List Char)
  | _, [] => some []
  | _, '\n' :: rest => skipGap false rest
  | _, '\r' :: '\n' :: rest => skipGap false rest
  | true, c :: rest => if isControl c then none else skipGap true rest
  | false, ' ' :: rest => skipGap false rest
  | false, '\t' :: rest => skipGap false rest
  | false, '#' :: rest => skipGap true rest
  | false, rest => some rest

/-- Nothing but a comment stands before the end of the line. -/
def endsLine (cs : List Char) : Bool :=
  match skipSpace cs with
  | [] | '\n' :: _ | '\r' :: '\n' :: _ | '#' :: _ => true
  | _ => false

/-! ### Texts -/

def charOf? (n : Nat) : Option Char :=
  if n.isValidChar then some (Char.ofNat n) else none

def escaped? : Char → Option Char
  | '"' => some '"'
  | '\\' => some '\\'
  | 'b' => some '\x08'
  | 'e' => some '\x1b'
  | 'f' => some '\x0c'
  | 'n' => some '\n'
  | 'r' => some '\r'
  | 't' => some '\t'
  | _ => none

def hex? (ds : List Char) : Option Char :=
  (Text.natOf? 16 ds).bind charOf?

/-- The character of an escape after its backslash, and what follows it. -/
def readEscape : List Char → Option (Char × List Char)
  | 'x' :: a :: b :: rest => (hex? [a, b]).map (·, rest)
  | 'u' :: a :: b :: c :: d :: rest => (hex? [a, b, c, d]).map (·, rest)
  | 'U' :: a :: b :: c :: d :: e :: f :: g :: h :: rest =>
    (hex? [a, b, c, d, e, f, g, h]).map (·, rest)
  | c :: rest => (escaped? c).map (·, rest)
  | [] => none

/-- Skip a line break and the blanks before and after it, behind a backslash. -/
def joinLines? (cs : List Char) : Option (List Char) :=
  match skipSpace cs with
  | '\n' :: rest => some (skip rest)
  | '\r' :: '\n' :: rest => some (skip rest)
  | _ => none
where
  skip : List Char → List Char
    | ' ' :: rest => skip rest
    | '\t' :: rest => skip rest
    | '\n' :: rest => skip rest
    | '\r' :: '\n' :: rest => skip rest
    | rest => rest

/-- A text on one line after its opening quote, with at most `n` characters. -/
def readBasic : Nat → List Char → Option (List Char × List Char)
  | 0, _ => none
  | _ + 1, [] => none
  | _ + 1, '"' :: rest => some ([], rest)
  | n + 1, '\\' :: rest => do
    let (c, rest) ← readEscape rest
    (readBasic n rest).map fun (cs, rest) => (c :: cs, rest)
  | n + 1, c :: rest =>
    if isControl c then none else (readBasic n rest).map fun (cs, rest) => (c :: cs, rest)

def readLiteral : List Char → Option (List Char × List Char)
  | [] => none
  | c :: rest =>
    if c == '\x27' then some ([], rest)
    else if isControl c then none
    else (readLiteral rest).map fun (cs, rest) => (c :: cs, rest)

/-- The end of a text in triple quotes: up to two quotes before them belong to the text. -/
def closing? (quote : Char) (cs : List Char) : Option (List Char × List Char) :=
  let run := (cs.takeWhile (· == quote)).length
  if run < 3 then none
  else
    let inside := min (run - 3) 2
    some (List.replicate inside quote, cs.drop (inside + 3))

/-- A text in triple quotes, with at most `n` characters. -/
def readLong (quote : Char) (escapes : Bool) : Nat → List Char → Option (List Char × List Char)
  | 0, _ => none
  | n + 1, cs =>
    match closing? quote cs with
    | some found => some found
    | none =>
      match cs with
      | [] => none
      | '\r' :: '\n' :: rest =>
        (readLong quote escapes n rest).map fun (cs, rest) => ('\r' :: '\n' :: cs, rest)
      | c :: rest =>
        if c == '\\' && escapes then
          match joinLines? rest with
          | some rest => readLong quote escapes n rest
          | none => do
            let (c, rest) ← readEscape rest
            (readLong quote escapes n rest).map fun (cs, rest) => (c :: cs, rest)
        else if isControl c && c != '\n' then none
        else (readLong quote escapes n rest).map fun (cs, rest) => (c :: cs, rest)

/-- A line break right after the opening quotes is no part of the text. -/
def dropBreak : List Char → List Char
  | '\n' :: rest | '\r' :: '\n' :: rest => rest
  | cs => cs

def readLine (cs : List Char) : Option (List Char × List Char) :=
  match cs with
  | '"' :: rest => readBasic cs.length rest
  | '\x27' :: rest => readLiteral rest
  | _ => none

def readText (cs : List Char) : Option (List Char × List Char) :=
  match cs with
  | '"' :: '"' :: '"' :: rest => readLong '"' true cs.length (dropBreak rest)
  | '\x27' :: '\x27' :: '\x27' :: rest => readLong '\x27' false cs.length (dropBreak rest)
  | cs => readLine cs

/-! ### Keys -/

def isBare (c : Char) : Bool :=
  c.isAlphanum || c == '_' || c == '-'

/-- A key without dots outside quotes. -/
def readWord (cs : List Char) : Option (String × List Char) :=
  match cs.span isBare with
  | ([], _) => (readLine cs).map fun (word, rest) => (String.ofList word, rest)
  | (word, rest) => some (String.ofList word, rest)

/-- A key has at most this many words. -/
def maxWords : Nat := 80

/-- A key of at most `n` words with dots between them, and what follows the blanks after it. -/
def readWords : Nat → List Char → Option (List String × List Char)
  | 0, _ => none
  | n + 1, cs => do
    let (word, rest) ← readWord (skipSpace cs)
    match skipSpace rest with
    | '.' :: rest => (readWords n rest).map fun (words, rest) => (word :: words, rest)
    | rest => return ([word], rest)

def readKey : List Char → Option (List String × List Char) :=
  readWords maxWords

/-! ### Values -/

/-- Brackets and braces may be nested this deep. -/
def maxDepth : Nat := 80

mutual

/-- A value with at most `depth` brackets around any part of it and at most `n` steps of reading
inside it. -/
def readValue : Nat → Nat → List Char → Option (Json × List Char)
  | _, 0, _ => none
  | depth, n + 1, cs =>
    match cs, depth with
    | '[' :: _, 0 | '\x7b' :: _, 0 => none
    | '[' :: rest, depth + 1 =>
      (readItems depth n rest).map fun (items, rest) => (.array items, rest)
    | '\x7b' :: rest, depth + 1 =>
      (readFields depth n [] rest).map fun (fields, rest) => (.object (fieldsToJson fields), rest)
    | '"' :: _, _ | '\x27' :: _, _ =>
      (readText cs).map fun (word, rest) => (.text (some (String.ofList word)), rest)
    | cs, _ => readScalar cs

def readItems : Nat → Nat → List Char → Option (List Json × List Char)
  | _, 0, _ => none
  | depth, n + 1, cs => do
    match ← skipGap false cs with
    | ']' :: rest => return ([], rest)
    | rest =>
      let (item, rest) ← readValue depth n rest
      match ← skipGap false rest with
      | ',' :: rest => (readItems depth n rest).map fun (items, rest) => (item :: items, rest)
      | ']' :: rest => return ([item], rest)
      | _ => none

/-- Fields of a table in braces up to its closing brace, after those that are read already. Lines
may break and comments may stand around keys, equals signs and values, but not inside a key. -/
def readFields : Nat → Nat → Fields → List Char → Option (Fields × List Char)
  | _, 0, _, _ => none
  | depth, n + 1, fields, cs => do
    match ← skipGap false cs with
    | '\x7d' :: rest => return (fields, rest)
    | rest =>
      let (key, rest) ← readKey rest
      match ← skipGap false rest with
      | '=' :: rest =>
        let (value, rest) ← readValue depth n (← skipGap false rest)
        let fields ← assignIn value key fields
        match ← skipGap false rest with
        | ',' :: rest => readFields depth n fields rest
        | '\x7d' :: rest => return (fields, rest)
        | _ => none
      | _ => none

end

/-! ### Statements -/

/-- The outermost table and the header that the next fields stand under. -/
structure Progress where
  fields : Fields := []
  header : List String := []

/-- A header with its brackets, or a field, and what follows it on the line. -/
def readStatement (state : Progress) (cs : List Char) : Option (Progress × List Char) :=
  match cs with
  | '[' :: '[' :: rest => do
    match ← readKey rest with
    | (header, ']' :: ']' :: rest) => return ({ fields := ← openNext header state.fields, header }, rest)
    | _ => none
  | '[' :: rest => do
    match ← readKey rest with
    | (header, ']' :: rest) => return ({ fields := ← openTable header state.fields, header }, rest)
    | _ => none
  | cs => do
    match ← readKey cs with
    | (key, '=' :: rest) =>
      let (value, rest) ← readValue maxDepth (2 * cs.length + 1) (skipSpace rest)
      return ({ state with fields := ← assign value key state.header state.fields }, rest)
    | _ => none

/-- At most `n` statements, each on lines of its own. -/
def readStatements : Nat → Progress → List Char → Option Fields
  | 0, _, _ => none
  | n + 1, state, cs => do
    match ← skipGap false cs with
    | [] => return state.fields
    | cs =>
      let (state, rest) ← readStatement state cs
      if endsLine rest then readStatements n state rest else none

def dropMark : List Char → List Char
  | '\ufeff' :: rest => rest
  | cs => cs

/-- The value of a text. A statement reads at least one character. -/
def parse? (text : String) : Option Json :=
  let cs := dropMark text.toList
  (readStatements (cs.length + 1) {} cs).map fun fields => .object (fieldsToJson fields)

end Lossless.Toml
