import Lossless.Json.Basic
import Lossless.Text.Decimal
import Lossless.Text.Digits

/-! Numbers, truth values and dates of TOML texts. -/

namespace Lossless.Toml

/-- Digits without the single underscores that may stand between two of them. -/
def digits? (isDigit : Char → Bool) : List Char → Option (List Char)
  | [] => none
  | [c] => if isDigit c then some [c] else none
  | c :: '_' :: rest => if isDigit c then (digits? isDigit rest).map (c :: ·) else none
  | c :: rest => if isDigit c then (digits? isDigit rest).map (c :: ·) else none

def ofBase? (base : Nat) (cs : List Char) : Option Nat :=
  (digits? (Text.isDigitOf base) cs).bind (Text.natOf? base)

def whole? (cs : List Char) : Option Nat :=
  match digits? Char.isDigit cs with
  | none => none
  | some ('0' :: _ :: _) => none
  | some ds => Text.natOf? 10 ds

def integer? : List Char → Option Int
  | '0' :: 'x' :: rest => (ofBase? 16 rest).map Int.ofNat
  | '0' :: 'o' :: rest => (ofBase? 8 rest).map Int.ofNat
  | '0' :: 'b' :: rest => (ofBase? 2 rest).map Int.ofNat
  | '+' :: rest => (whole? rest).map Int.ofNat
  | '-' :: rest => (whole? rest).map fun n => -Int.ofNat n
  | cs => (whole? cs).map Int.ofNat

/-- Whether an integer fits 128 bits, with a sign among them or without. -/
def fits (z : Int) : Bool :=
  -Int.pow 2 127 ≤ z && z < Int.pow 2 128

/-! ### Floats -/

def dropSign : List Char → List Char
  | '+' :: rest | '-' :: rest => rest
  | cs => cs

/-- What follows the dot of a fraction; a fraction may be left out. -/
def fraction? : List Char → Option (List Char)
  | [] => some []
  | _ :: ds => digits? Char.isDigit ds

/-- What follows the letter of an exponent; an exponent may be left out. -/
def exponent? : List Char → Option Int
  | [] => some 0
  | _ :: '-' :: ds => (ofBase? 10 ds).map fun n => -Int.ofNat n
  | _ :: '+' :: ds => (ofBase? 10 ds).map Int.ofNat
  | _ :: ds => (ofBase? 10 ds).map Int.ofNat

/-- A number without sign that has a fraction, an exponent or both. -/
def decimal? (cs : List Char) : Option Text.Decimal := do
  let (number, power) := cs.span fun c => c != 'e' && c != 'E'
  let (front, back) := number.span (· != '.')
  if back.isEmpty && power.isEmpty then none
  else
    let whole ← whole? front
    let ds ← fraction? back
    let exponent ← exponent? power
    return { mantissa := whole * Nat.pow 10 ds.length + (← Text.natOf? 10 ds)
             exponent := exponent - ds.length }

/-- A number beyond the largest double is no float: infinity has a name of its own. -/
def isFloat (cs : List Char) : Bool :=
  let cs := dropSign cs
  cs == ['i', 'n', 'f'] || cs == ['n', 'a', 'n'] || (decimal? cs).any Text.Decimal.isFinite

/-! ### Dates and times -/

/-- A number of exactly `count` digits, and what follows it. -/
def fixed? (count : Nat) (cs : List Char) : Option (Nat × List Char) :=
  let ds := cs.take count
  if ds.length = count && ds.all Char.isDigit then
    (Text.natOf? 10 ds).map fun n => (n, cs.drop count)
  else none

def isLeap (year : Nat) : Bool :=
  year % 4 == 0 && (year % 100 != 0 || year % 400 == 0)

def daysIn (year month : Nat) : Nat :=
  if month = 2 then if isLeap year then 29 else 28
  else if month = 4 || month = 6 || month = 9 || month = 11 then 30
  else 31

def afterDate? (cs : List Char) : Option (List Char) := do
  let (year, cs) ← fixed? 4 cs
  match cs with
  | '-' :: cs =>
    let (month, cs) ← fixed? 2 cs
    match cs with
    | '-' :: cs =>
      let (day, cs) ← fixed? 2 cs
      if 1 ≤ month && month ≤ 12 && 1 ≤ day && day ≤ daysIn year month then some cs else none
    | _ => none
  | _ => none

def afterClock? (cs : List Char) : Option (List Char) := do
  let (hours, cs) ← fixed? 2 cs
  match cs with
  | ':' :: cs =>
    let (minutes, cs) ← fixed? 2 cs
    if hours ≤ 23 && minutes ≤ 59 then some cs else none
  | _ => none

/-- What follows a time of day; seconds and their fraction may be left out. -/
def afterTime? (cs : List Char) : Option (List Char) := do
  match ← afterClock? cs with
  | ':' :: cs =>
    let (seconds, cs) ← fixed? 2 cs
    if seconds ≤ 60 then
      match cs with
      | '.' :: cs => if (cs.takeWhile Char.isDigit).isEmpty then none else some (cs.dropWhile Char.isDigit)
      | cs => some cs
    else none
  | cs => some cs

/-- Nothing, or the distance from universal time. -/
def isOffset : List Char → Bool
  | [] | ['Z'] | ['z'] => true
  | '+' :: cs | '-' :: cs => afterClock? cs == some []
  | _ => false

def isDate (cs : List Char) : Bool :=
  afterDate? cs == some []

def isMoment (cs : List Char) : Bool :=
  afterTime? cs == some [] ||
    match afterDate? cs with
    | some [] => true
    | some (c :: cs) => (c == 'T' || c == 't' || c == ' ') && (afterTime? cs).any isOffset
    | none => false

/-- A date or time is a record with one field of its own. -/
def moment (cs : List Char) : Json :=
  .object [(some "$moment", .text (some (String.ofList cs)))]

/-! ### All of them -/

def scalar? (cs : List Char) : Option Json :=
  if cs = ['t', 'r', 'u', 'e'] then some (.bool true)
  else if cs = ['f', 'a', 'l', 's', 'e'] then some (.bool false)
  else match integer? cs with
    | some z => if fits z then some (.number z.toNat?) else none
    | none =>
      if isFloat cs then some (.number none)
      else if isMoment cs then some (moment cs)
      else none

def isScalarChar (c : Char) : Bool :=
  c.isAlphanum || c == '_' || c == '+' || c == '-' || c == '.' || c == ':'

/-- A scalar and what follows it. A blank may stand between date and time. -/
def readScalar (cs : List Char) : Option (Json × List Char) :=
  let (word, rest) := cs.span isScalarChar
  match rest with
  | ' ' :: d :: more =>
    if isDate word && d.isDigit then
      let (time, rest) := (d :: more).span isScalarChar
      (scalar? (word ++ ' ' :: time)).map (·, rest)
    else (scalar? word).map (·, rest)
  | rest => (scalar? word).map (·, rest)

end Lossless.Toml
