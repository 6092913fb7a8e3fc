import Lossless.Json.Basic

/-! Tables that the statements of a TOML text fill. A table remembers how it came about, because
that decides which later statements may add to it. -/

namespace Lossless.Toml

inductive Origin where
  /-- On the way to the table of a header. -/
  | implied
  /-- By a header of its own. -/
  | headed
  /-- On the way to a key with dots. -/
  | dotted
deriving DecidableEq, Repr

inductive Item where
  | value (json : Json)
  | table (origin : Origin) (fields : List (String × Item))
  /-- One table for each header in double brackets, the last one first. -/
  | tables (last : List (String × Item)) (earlier : List (List (String × Item)))

abbrev Fields := List (String × Item)

/-- Change the field of a key, or add it at the end; the change may be refused. -/
def alter (key : String) (change : Option Item → Option Item) : Fields → Option Fields
  | [] => (change none).map fun item => [(key, item)]
  | (k, item) :: rest =>
    if k = key then (change (some item)).map fun item => (k, item) :: rest
    else (alter key change rest).map ((k, item) :: ·)

/-- Change what stands inside a table or in the last of several tables. -/
def Item.inside (change : Fields → Option Fields) : Item → Option Item
  | value _ => none
  | table origin fields => (change fields).map (table origin)
  | tables last earlier => (change last).map (tables · earlier)

/-- Change the field at the end of a path of tables; missing tables are implied. -/
def alterAt (change : Option Item → Option Item) : List String → Fields → Option Fields
  | [], _ => none
  | [key], fields => alter key change fields
  | key :: path, fields =>
    alter key (fun
      | none => (alterAt change path []).map (.table .implied)
      | some item => item.inside (alterAt change path)) fields

/-- A header opens a new table, or one that was only implied. -/
def openTable : List String → Fields → Option Fields :=
  alterAt fun
    | none => some (.table .headed [])
    | some (.table .implied fields) => some (.table .headed fields)
    | some _ => none

/-- A header in double brackets opens the next of several tables. -/
def openNext : List String → Fields → Option Fields :=
  alterAt fun
    | none => some (.tables [] [])
    | some (.tables last earlier) => some (.tables [] (last :: earlier))
    | some _ => none

/-- Give a key a value. Tables on the way are dotted ones or are passed through if they have no
header; the table that holds the value is a dotted one. -/
def assignIn (json : Json) : List String → Fields → Option Fields
  | [], _ => none
  | [key], fields =>
    alter key (fun
      | none => some (.value json)
      | some _ => none) fields
  | [table, key], fields =>
    alter table (fun
      | none => some (.table .dotted [(key, .value json)])
      | some (.table .dotted fields) => (assignIn json [key] fields).map (.table .dotted)
      | some _ => none) fields
  | table :: path, fields =>
    alter table (fun
      | none => (assignIn json path []).map (.table .dotted)
      | some (.table .headed _) => none
      | some item => item.inside (assignIn json path)) fields

/-- Give a key a value in the table of the header above it. -/
def assign (json : Json) (key : List String) : List String → Fields → Option Fields
  | [], fields => assignIn json key fields
  | table :: path, fields =>
    alter table (fun
      | none => none
      | some item => item.inside (assign json key path)) fields

/-! ### Values of tables -/

mutual

def Item.toJson : Item → Json
  | .value json => json
  | .table _ fields => .object (fieldsToJson fields)
  | .tables last earlier => .array (tablesToJson [.object (fieldsToJson last)] earlier)

def fieldsToJson : List (String × Item) → List (Option String × Json)
  | [] => []
  | (key, item) :: rest => (some key, item.toJson) :: fieldsToJson rest

/-- Tables in the order of their headers, in front of those that come later. -/
def tablesToJson (later : List Json) : List (List (String × Item)) → List Json
  | [] => later
  | fields :: rest => tablesToJson (.object (fieldsToJson fields) :: later) rest

end

end Lossless.Toml
