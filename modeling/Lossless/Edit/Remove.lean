import Lossless.Edit.List

/-! Removing and replacing any node. A node that would leave its container without visible
content takes the container with it. -/

namespace Lossless

inductive Removal where
  | comment (b : Branch)
  | optional (b : Branch) (rule : OptionalRule)
  | element (list element : Branch)
  | child (parent : Branch) (node : Node)
  /-- The node is in no tree. -/
  | nothing
  | refused (error : Error)
deriving DecidableEq, Repr

namespace Document

/-- How a node goes for reasons of its own, whatever holds it. -/
def ownRemoval? (doc : Document) : Node → Option Removal
  | .leaf _ => none
  | .branch b =>
    if b = doc.root then some (.refused .rootRemoval)
    else if doc.kindOf b = .comment && (doc.parent (.branch b)).isNone then some (.comment b)
    else (doc.optionalRule? b).map (.optional b ·)

/-- A container keeps visible content without one of its children. -/
def keepsContent (doc : Document) (parent : Branch) (node : Node) : Bool :=
  (doc.children parent).any fun other => other != node && doc.isVisible other

/-- How a node goes from its parent; `none` when the parent goes with it. -/
def removalFrom? (doc : Document) (parent : Branch) (node : Node) : Option Removal :=
  let plain :=
    if doc.keepsContent parent node || parent = doc.root then some (.child parent node) else none
  match doc.shapeOf parent with
  | .list rule =>
    if rule.accepts (doc.kind node) then
      match node with
      | .branch element => some (.element parent element)
      | .leaf _ => some (.refused (.notAnElement (doc.kindOf parent)))
    else plain
  | .optional rule => some (.optional parent rule)
  | .comment => none
  | _ => plain

/-- How a node goes whose containers are given, nearest first. -/
def removalAlong (doc : Document) (node : Node) : List Branch → Removal
  | [] => (doc.ownRemoval? node).getD .nothing
  | parent :: outer =>
    ((doc.ownRemoval? node).or (doc.removalFrom? parent node)).getD
      (doc.removalAlong (.branch parent) outer)

def removal (doc : Document) (node : Node) : Removal :=
  doc.removalAlong node (doc.ancestors node)

def detachChild (doc : Document) (parent : Branch) (node : Node) : Document :=
  ((doc.discard (doc.coveredLeaves node)).removeChild parent node).updateComments

def substitute (doc : Document) (node : Branch) (fragment : Document) : Branch × Document :=
  let start := ((doc.range? (.branch node)).getD (doc.trivia (.branch node))).start
  let doc := doc.discard (doc.coveredLeaves (.branch node))
  let (graft, doc) := doc.graftVisible fragment
  (graft.root, doc.insertAt start graft.leaves)

end Document

namespace Edit

def remove (node : Node) : Edit Unit := do
  match (← get).removal node with
  | .comment b => modify fun doc => doc.removeComment b
  | .optional b rule => modify fun doc => doc.clearOptional rule b
  | .element list element => discard <| removeElement list element
  | .child parent node => modify fun doc => doc.detachChild parent node
  | .nothing => return
  | .refused error => throw error

/-- Put a fragment in the place of a container. Lists and optionals go on holding only kinds that
they accept. Answers the new node. -/
def replace (node : Branch) (fragment : Document) : Edit Branch := do
  let doc ← get
  if node = doc.root then throw .rootRemoval
  match doc.parent (.branch node) with
  | none => throw .detachedNode
  | some parent =>
    let kind := fragment.rootKind
    match doc.grammar.elementKind? (doc.kindOf parent) with
    | some element =>
      if !doc.canAdd parent kind then throw (.kindMismatch (doc.kindOf parent) kind)
      else
        swap parent (if kind = element then fragment else fragment.wrapRoot element)
    | none => swap parent fragment
where
  swap (parent : Branch) (fragment : Document) : Edit Branch := do
    let added ← modifyGet fun doc => doc.substitute node fragment
    if (← get).children parent |>.contains (.branch node) then
      modify fun doc => (doc.replaceChild parent (.branch node) (.branch added)).updateComments
      return added
    else throw .missingChild

end Edit

end Lossless
