import Lossless.Json.Reader
import Lossless.Settings.Basic
import Lossless.Toml.Reader

/-! Settings from texts. Every field may be left out and unknown fields are passed over, but a
field that is there has to have its type. -/

namespace Lossless.Settings

/-- What a field says, or its default. -/
def fieldOr {α : Type} (default : α) (read : Json → Option α) : Option Json → Option α
  | none => some default
  | some json => read json

def limitsOf? (surplus : Bool) (json : Json) : Option Cache.Limits := do
  let limits : Cache.Limits := {}
  match ← json.record? ["maxEntries", "ttlSeconds"] surplus with
  | [capacity, lifetime] =>
    return { capacity := ← fieldOr limits.capacity Json.asWord? capacity
             lifetime := ← fieldOr limits.lifetime Json.asWord? lifetime }
  | _ => none

def stripOf? (surplus : Bool) (json : Json) : Option Bool := do
  match ← json.record? ["stripUnattributedTokens"] surplus with
  | [strip] => fieldOr false Json.asBool? strip
  | _ => none

/-- Widths by exact language name; the last one of a language counts. -/
def widthsOf? : Json → Option (List (Language × Nat))
  | .object fields => do
    let widths ← fields.mapM fun (key, value) => do
      return (← Language.ofName? (← key), ← value.asWord?)
    return Language.all.filterMap fun language =>
      (widths.filter (·.1 == language)).getLast?
  | _ => none

def tabsOf? : Json → Option (Option Bool)
  | .null => some none
  | json => json.asBool?.map some

def indentationOf? (surplus : Bool) (json : Json) :
    Option (List (Language × Nat) × Option Bool) := do
  match ← json.record? ["defaultWidth", "useTabs"] surplus with
  | [widths, tabs] => return (← fieldOr [] widthsOf? widths, ← fieldOr none tabsOf? tabs)
  | _ => none

/-- Settings from a value; `surplus` tells whether lists may be longer than the records that they
stand for. -/
def ofValue? (surplus : Bool) (json : Json) : Option Settings := do
  match ← json.record? ["cache", "construction", "indentation"] surplus with
  | [cache, construction, indentation] =>
    let (widths, useTabs) ← fieldOr ([], none) (indentationOf? surplus) indentation
    return { cache := ← fieldOr {} (limitsOf? surplus) cache
             stripHidden := ← fieldOr false (stripOf? surplus) construction
             widths, useTabs }
  | _ => none

def ofToml (text : String) : Except SettingsFault Settings :=
  match (Toml.parse? text).bind (ofValue? true) with
  | some settings => settings.validate
  | none => .error .malformed

def ofJson (text : String) : Except SettingsFault Settings :=
  match (Json.parse? text).bind (ofValue? false) with
  | some settings => settings.validate
  | none => .error .malformed

end Lossless.Settings
