import Lossless.Edit.Basic

/-! Space beside a node that appears in its parent or goes away: one space in most containers,
none in tight ones, and a delimiter with a space between the slots of a tuple. -/

namespace Lossless

def enclosures : List (String × String) :=
  [("(", ")"), ("[", "]"), ("\x7b", "\x7d"), ("<", ">"), ("'", "'"), ("\"", "\"")]

namespace Document

/-- The neighbours of a node are a pair of brackets or quotes. -/
def isEnclosed (doc : Document) (node : Node) : Bool :=
  match doc.leftLeaf? node, doc.rightLeaf? node with
  | some left, some right => enclosures.contains (doc.textOf left, doc.textOf right)
  | _, _ => false

/-- Put a delimiter between a slot and its neighbour inside the tuple, if it has one. The answer
is the position for the content of the slot. -/
def makeSlotRoom (doc : Document) (tuple : Branch) (slot : Node) (delimiter : String) :
    Nat × Document :=
  let inTuple (l : Leaf) : Bool := doc.contains tuple (.leaf l)
  let left := ((doc.leftLeaf? slot).filter inTuple).bind doc.position?
  let right := ((doc.rightLeaf? slot).filter inTuple).bind doc.position?
  let index := ((doc.children tuple).idxOf? slot).getD 0
  let separate (position index : Nat) : Document :=
    let (separator, doc) := doc.newToken delimiter
    let (space, doc) := doc.newToken " "
    (doc.insertAt position [separator, space]).insertChild tuple index (.leaf separator)
  let doc :=
    match left, right with
    | some left, _ => separate (left + 1) index
    | none, some right => separate right (index + 1)
    | none, none => doc
  ((doc.trivia slot).stop, doc)

/-- Make room for a container that is about to appear in its parent. The answer is the position
for its content. -/
def makeRoom (doc : Document) (b : Branch) : Nat × Document :=
  let trivia := doc.trivia (.branch b)
  match doc.parent (.branch b) with
  | none => (trivia.start, doc)
  | some parent =>
    match doc.shapeOf parent with
    | .tuple delimiter => doc.makeSlotRoom parent (.branch b) delimiter
    | .plain .tight => (trivia.stop, doc)
    | _ =>
      match doc.range? (.branch parent) with
      | none => (trivia.stop, doc)
      | some range =>
        if doc.isEnclosed (.branch b) then (trivia.stop, doc)
        else
          let (space, doc) := doc.newToken " "
          if range.start < trivia.start then
            (trivia.start + 1, doc.insertAt trivia.start [space])
          else (trivia.stop, doc.insertAt trivia.stop [space])

/-- The delimiter beside a slot, the one on its left first. -/
def slotDelimiter? (doc : Document) (tuple : Branch) (slot : Node) (delimiter : String) :
    Option Leaf :=
  let isDelimiter (l : Leaf) : Bool := doc.contains tuple (.leaf l) && doc.textOf l == delimiter
  ((doc.leftLeaf? slot).filter isDelimiter).or ((doc.rightLeaf? slot).filter isDelimiter)

/-- Take the delimiter beside a slot away with the white space around it. -/
def closeSlotRoom (doc : Document) (tuple : Branch) (slot : Node) (delimiter : String) :
    Document :=
  match doc.slotDelimiter? tuple slot delimiter with
  | none => doc
  | some separator =>
    let doc := doc.cut (doc.trivia (.leaf separator))
    match doc.parent (.leaf separator) with
    | none => doc
    | some parent => doc.removeChild parent (.leaf separator)

/-- Take away the space beside a container that is about to go: the white space on its left, or
else white space of its line on its right. -/
def closePlainRoom (doc : Document) (parent b : Branch) : Document :=
  match doc.range? (.branch parent), doc.range? (.branch b) with
  | some outer, some inner =>
    let text (position : Nat) : String := doc.layout.getD position ""
    if outer.start < inner.start && Text.isBlank (text (inner.start - 1)) then
      doc.cut ⟨inner.start - 1, inner.start⟩
    else if inner.stop < outer.stop && Layout.isGap (text inner.stop) then
      doc.cut ⟨inner.stop, inner.stop + 1⟩
    else doc
  | _, _ => doc

/-- Undo the room of a container that is about to go away from its parent. -/
def closeRoom (doc : Document) (b : Branch) : Document :=
  match doc.parent (.branch b) with
  | none => doc
  | some parent =>
    match doc.shapeOf parent with
    | .tuple delimiter => doc.closeSlotRoom parent (.branch b) delimiter
    | .plain .tight => doc
    | _ => if doc.isEnclosed (.branch b) then doc else doc.closePlainRoom parent b

end Document

end Lossless
