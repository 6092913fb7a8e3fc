import Lossless.Error
import Lossless.Json.Reader
import Lossless.Text.Bytes

/-! Parse trees of outside parsers: type names, byte spans and children. -/

namespace Lossless

structure ParseTree where
  typeName : String
  field : Option String
  start : Nat
  stop : Nat
  children : List ParseTree

namespace ParseTree

def span (t : ParseTree) : Span :=
  ⟨t.start, t.stop⟩

/-! ### Reading -/

def fieldNames : List String := ["type", "field", "start", "stop", "children"]

/-- A tree whose children, if any are written, are read by `nested`. -/
def ofRecord (json : Json) (nested : List Json → Option (List ParseTree)) : Option ParseTree := do
  match ← json.record? fieldNames false with
  | [some typeName, field, some start, some stop, children] =>
    let field ← match field with
      | none | some .null => some none
      | some value => value.asText?.map some
    let children ← match children with
      | none => some []
      | some (.array items) => nested items
      | some _ => none
    return { typeName := ← typeName.asText?, field, start := ← start.asWord?,
             stop := ← stop.asWord?, children }
  | _ => none

/-- A tree within `n` levels of brackets; a tree with children takes two. -/
def ofJson? : Nat → Json → Option ParseTree
  | 0, _ => none
  | 1, json => ofRecord json fun _ => none
  | n + 2, json => ofRecord json fun items => items.mapM (ofJson? n)

/-- Brackets may be nested this deep. -/
def maxDepth : Nat := 127

def parse (text : String) : Except Error ParseTree :=
  match (Json.parse? text).bind (ofJson? maxDepth) with
  | some t => .ok t
  | none => .error (.conversion .malformed)

/-! ### Spans -/

mutual

/-- The first node, parents first, whose span is no character span of the source. -/
def badNode? (source : List Char) : ParseTree → Option ParseTree
  | ⟨typeName, field, start, stop, children⟩ =>
    if Text.isCharSpan source ⟨start, stop⟩ then badNodeIn? source children
    else some ⟨typeName, field, start, stop, children⟩

def badNodeIn? (source : List Char) : List ParseTree → Option ParseTree
  | [] => none
  | t :: ts => (badNode? source t).or (badNodeIn? source ts)

end

end ParseTree

end Lossless
