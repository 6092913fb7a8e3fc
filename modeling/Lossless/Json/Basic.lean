/-! JSON texts as values. Numbers are kept only as far as they are natural numbers, and texts only
as far as their escapes name characters, because nothing else is ever asked of them. -/

namespace Lossless

inductive Json where
  | null
  | bool (value : Bool)
  /-- The number, if it is written as a natural number. -/
  | number (natural : Option Nat)
  /-- The text, unless an escape names half of a surrogate pair. -/
  | text (value : Option String)
  | array (items : List Json)
  /-- Fields in the order of the text, repeated ones included. -/
  | object (fields : List (Option String × Json))

namespace Json

def asText? : Json → Option String
  | text value => value
  | _ => none

def asBool? : Json → Option Bool
  | bool value => some value
  | _ => none

/-- A natural number that fits 64 bits. -/
def asWord? : Json → Option Nat
  | number (some n) => if n < UInt64.size then some n else none
  | _ => none

/-- The values of a record of named fields: at most one for each name. A record may also be
written as the list of its fields, the last ones left out; `surplus` tells whether a list may go
on after the last field. -/
def record? (names : List String) (surplus : Bool) : Json → Option (List (Option Json))
  | array items =>
    if surplus || items.length ≤ names.length then
      some ((items.take names.length).map some ++ List.replicate (names.length - items.length) none)
    else none
  | object fields =>
    if fields.all (·.1.isSome) then
      names.mapM fun name =>
        match fields.filter (·.1 == some name) with
        | [] => some none
        | [(_, value)] => some (some value)
        | _ => none
    else none
  | _ => none

end Json

end Lossless
