import Lossless.Json.Basic

/-! Writing JSON values on lines of their own, two blanks deeper for each level. -/

namespace Lossless.Json

def escapedChar (c : Char) : List Char :=
  match c with
  | '"' => ['\\', '"']
  | '\\' => ['\\', '\\']
  | '\x08' => ['\\', 'b']
  | '\x0c' => ['\\', 'f']
  | '\n' => ['\\', 'n']
  | '\r' => ['\\', 'r']
  | '\t' => ['\\', 't']
  | c =>
    if c.toNat < 0x10 then ['\\', 'u', '0', '0', '0'] ++ Nat.toDigits 16 c.toNat
    else if c.toNat < 0x20 then ['\\', 'u', '0', '0'] ++ Nat.toDigits 16 c.toNat
    else [c]

def quoted (s : String) : String :=
  String.ofList (['"'] ++ s.toList.flatMap escapedChar ++ ['"'])

def lineStart (depth : Nat) : String :=
  "\n" ++ String.ofList (List.replicate (2 * depth) ' ')

mutual

def pretty (depth : Nat) : Json → String
  | null => "null"
  | bool true => "true"
  | bool false => "false"
  | number n => match n with
    | some n => toString n
    | none => "null"
  | text value => quoted (value.getD "")
  | array [] => "[]"
  | array (item :: items) =>
    "[" ++ lineStart (depth + 1) ++ item.pretty (depth + 1) ++ prettyItems (depth + 1) items ++
      lineStart depth ++ "]"
  | object [] => "\x7b\x7d"
  | object ((key, value) :: fields) =>
    "\x7b" ++ lineStart (depth + 1) ++ quoted (key.getD "") ++ ": " ++ value.pretty (depth + 1) ++
      prettyFields (depth + 1) fields ++ lineStart depth ++ "\x7d"

def prettyItems (depth : Nat) : List Json → String
  | [] => ""
  | item :: items => "," ++ lineStart depth ++ item.pretty depth ++ prettyItems depth items

def prettyFields (depth : Nat) : List (Option String × Json) → String
  | [] => ""
  | (key, value) :: fields =>
    "," ++ lineStart depth ++ quoted (key.getD "") ++ ": " ++ value.pretty depth ++
      prettyFields depth fields

end

end Lossless.Json
