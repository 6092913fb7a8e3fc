import Lossless.Error
import Lossless.Indent

/-! Edits: steps on a document that answer or are refused. A refused step leaves the document in
the state that it had reached. -/

namespace Lossless

abbrev Edit := EStateM Error Document

namespace Document

def listRule? (doc : Document) (b : Branch) : Option ListRule :=
  doc.grammar.listRule? (doc.kindOf b)

def optionalRule? (doc : Document) (b : Branch) : Option OptionalRule :=
  doc.grammar.optionalRule? (doc.kindOf b)

/-- A list or an optional takes nodes of a kind. -/
def canAdd (doc : Document) (b : Branch) (kind : Kind) : Bool :=
  doc.grammar.accepts (doc.kindOf b) kind

def listElements (doc : Document) (rule : ListRule) (list : Branch) : List Branch :=
  (doc.branches list).filter fun b => rule.accepts (doc.kindOf b)

def optionalElement? (doc : Document) (rule : OptionalRule) (optional : Branch) : Option Branch :=
  (doc.branches optional).find? (doc.kindOf · == rule.element)

/-- The elements of a list, the element of an optional, or the slots of a tuple. -/
def elements (doc : Document) (b : Branch) : List Branch :=
  match doc.shapeOf b with
  | .list rule => doc.listElements rule b
  | .optional rule => (doc.optionalElement? rule b).toList
  | .tuple _ => doc.branches b
  | _ => []

/-- The optional of which a list is the element. -/
def optionalAround? (doc : Document) (list : Branch) : Option (Branch × OptionalRule) := do
  let parent ← doc.parent (.branch list)
  let rule ← doc.optionalRule? parent
  if rule.element = doc.kindOf list then some (parent, rule) else none

end Document

namespace Edit

def listRule (list : Branch) : Edit ListRule := do
  let doc ← get
  match doc.listRule? list with
  | some rule => return rule
  | none => throw (.notAList (doc.kindOf list))

def optionalRule (optional : Branch) : Edit OptionalRule := do
  let doc ← get
  match doc.optionalRule? optional with
  | some rule => return rule
  | none => throw (.notAnOptional (doc.kindOf optional))

end Edit

end Lossless
