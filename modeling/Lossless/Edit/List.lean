import Lossless.Builder
import Lossless.Edit.Lines
import Lossless.Edit.Optional
import Lossless.Edit.Padding

/-! Lists: adding elements on lines of their own or beside their neighbours, removing and
clearing. A list that would be left empty gets its placeholder. -/

namespace Lossless

/-- A fragment as an element of a list. Comments stay as they are. -/
def ListRule.wrap (rule : ListRule) (fragment : Document) : Document :=
  if fragment.rootKind = .comment || fragment.rootKind = rule.element then fragment
  else fragment.wrapRoot rule.element

namespace Document

/-- The element that stands in for the content of a list. -/
def placeholder? (doc : Document) (rule : ListRule) (list : Branch) : Option Branch := do
  let placeholder ← rule.placeholder
  if placeholder.scope.applies (doc.isTopLevel (.branch list)) then
    match doc.listElements rule list with
    | [element] =>
      if doc.visibleText (.branch element) = placeholder.text then some element else none
    | _ => none
  else none

/-- Take white space out of the text on both sides of a list. -/
def stripAround (doc : Document) (list : Branch) : Document :=
  let trivia := doc.trivia (.branch list)
  let texts := (doc.layout.drop trivia.start).take (trivia.stop - trivia.start)
  let doc := doc.cut ⟨trivia.start, trivia.start + (texts.takeWhile Text.isBlank).length⟩
  let trivia := doc.trivia (.branch list)
  let texts := (doc.layout.drop trivia.start).take (trivia.stop - trivia.start)
  doc.cut ⟨trivia.stop - (texts.reverse.takeWhile Text.isBlank).length, trivia.stop⟩

/-- Move a body that shares a line with its brackets to a line of its own, and the closing bracket
to the line after it. -/
def unfoldBody (doc : Document) (list : Branch) : Document :=
  let doc := doc.stripAround list
  let trivia := doc.trivia (.branch list)
  let doc :=
    if trivia.isEmpty then doc
    else
      let (opening, doc) := doc.newIndentedBreak (doc.indent (.branch list))
      doc.insertAt trivia.start opening
  let (closing, doc) := doc.newIndentedBreak (doc.parentIndent (.branch list))
  doc.insertAt (doc.trivia (.branch list)).stop closing

/-- Put a delimiter between a new element and the next one, or before it when it is the last. -/
def addDelimiter (doc : Document) (rule : ListRule) (list element : Branch) : Document :=
  let elements := doc.listElements rule list
  let anchor := do
    let index ← elements.idxOf? element
    if elements.length < 2 then none
    else if index + 1 = elements.length then elements[index - 1]? else some element
  match anchor.bind fun b => doc.range? (.branch b) with
  | none => doc
  | some range =>
    match doc.newLiteral rule.delimiter with
    | (none, doc) => doc
    | (some delimiter, doc) =>
      (doc.insertAt range.stop [delimiter]).placeChild list (.leaf delimiter)

/-- Put a fragment on lines of its own at a line of a list. -/
def insertLines (doc : Document) (rule : ListRule) (list : Branch) (line : Nat)
    (fragment : Document) (isComment : Bool) : Branch × Document :=
  let fragment := fragment.increaseIndent fragment.root (doc.indent (.branch list))
  let (added, doc) := doc.addTokensAtLine line fragment
  let doc :=
    if isComment then doc
    else (doc.placeChild list (.branch added)).addDelimiter rule list added
  (added, doc.updateComments)

/-- Put a fragment beside the elements of a list, as the element at an index. -/
def insertBeside (doc : Document) (rule : ListRule) (list : Branch) (index : Nat)
    (fragment : Document) : Branch × Document :=
  let elements := doc.listElements rule list
  let (graft, doc) := doc.graftVisible fragment
  let (delimiter, doc) := doc.newLiteral rule.delimiter
  let marks := delimiter.toList.map Node.leaf
  let root := Node.branch graft.root
  let previous := if index = 0 then none else elements[index - 1]?
  let following := if elements.isEmpty then none else doc.range? (.branch list)
  let (tokens, children, doc) : (Nat × List Leaf) × (Nat × List Node) × Document :=
    match previous, following with
    | some previous, _ =>
      let (space, doc) := doc.newToken " "
      let node := Node.branch previous
      let position := ((doc.range? node).getD (doc.trivia node)).stop
      let child := (((doc.children list).idxOf? node).map (· + 1)).getD 0
      ((position, delimiter.toList ++ space :: graft.leaves), (child, marks ++ [root]), doc)
    | none, some range =>
      let (space, doc) := doc.newToken " "
      ((range.start, graft.leaves ++ delimiter.toList ++ [space]), (0, root :: marks), doc)
    | none, none =>
      let (position, doc) := doc.makeRoom list
      ((position, graft.leaves), (0, [root]), doc)
  let doc := doc.insertAt tokens.1 tokens.2
  let doc := children.2.reverse.foldl (·.insertChild list children.1 ·) doc
  (graft.root, doc.updateComments)

/-- The delimiter that goes with an element: the child before it, or for the first child the one
after it. -/
def delimiterOf? (doc : Document) (rule : ListRule) (list element : Branch) : Option Leaf := do
  if rule.delimiter.isEmpty then none
  else
    let children := doc.children list
    let index ← children.idxOf? (.branch element)
    let neighbour ← if index = 0 then children[1]? else children[index - 1]?
    neighbour.leaf?

/-- Take an element out of a list with its delimiter and the white space on one side. -/
def detachElement (doc : Document) (rule : ListRule) (list element : Branch) : Document :=
  let doc :=
    match doc.delimiterOf? rule list element with
    | none => doc
    | some delimiter => (doc.discard [delimiter]).removeChild list (.leaf delimiter)
  let doc :=
    match doc.range? (.branch element) with
    | none => doc
    | some range => doc.cut (doc.layout.widenOneSide range)
  doc.updateComments.removeChild list (.branch element)

/-- The first element of a list, if clearing keeps it. -/
def retainedFirst? (doc : Document) (rule : ListRule) (list : Branch) : Option Branch :=
  (doc.listElements rule list).head?.filter fun first =>
    rule.retained.contains (doc.visibleText (.branch first))

/-- Take all children of a list out of the text with the white space and comments inside its
bounds. Between two bounds the closing one goes to a line of its own. -/
def emptyList (doc : Document) (rule : ListRule) (list : Branch) : Document :=
  let topLevel := doc.isTopLevel (.branch list)
  let above := rule.above.applies topLevel
  let below := rule.below.applies topLevel
  let closingIndent := doc.parentIndent (.branch list)
  let trivia := doc.trivia (.branch list)
  let range := doc.range? (.branch list)
  let span : Span :=
    if !rule.multiline then trivia
    else if !below then ⟨trivia.start, (range.map Span.stop).getD trivia.start⟩
    else if !above then ⟨(range.map Span.start).getD trivia.stop, trivia.stop⟩
    else trivia
  let doc := (doc.clearChildren list).cut span
  let doc :=
    if rule.multiline && above && below then
      let (closing, doc) := doc.newIndentedBreak closingIndent
      doc.insertAt span.start closing
    else doc
  doc.updateComments

/-- Tokens of a fragment from the first inked one on. -/
def trimStart (doc : Document) : Document :=
  { doc with order := doc.order.dropWhile fun l => Text.isBlank (doc.textOf l) }

end Document

namespace Edit

/-- Add a fragment on lines of its own. A squeezed body is unfolded first, and the element goes to
the last line that it then offers. -/
def placeAtLine (rule : ListRule) (list : Branch) (line : Nat) (fragment : Document) :
    Edit Branch := do
  let squeezed := (← get).isSqueezed list
  if squeezed then modify fun doc => doc.unfoldBody list
  let available := (← get).linesFor rule list
  let line := if squeezed then available.getLast?.getD line else line
  if available.contains line then
    modifyGet fun doc =>
      doc.insertLines rule list line (rule.wrap fragment) (fragment.rootKind = .comment)
  else throw (.lineUnavailable line available)

def placeClause (rule : ListRule) (list : Branch) (line : Nat) (fragment : Document) :
    Edit Branch := do
  let doc ← get
  let available := doc.linesFor rule list
  if available.contains line then
    let elements := doc.listElements rule list
    let index := elements.findIdx fun e => (doc.lines? (.branch e)).any (·.start == line)
    let fragment := fragment.increaseIndent fragment.root (doc.indent (.branch list))
    modifyGet fun doc => doc.insertBeside rule list index (rule.wrap fragment.trimStart)
  else throw (.lineUnavailable line available)

def refill (rule : ListRule) (list : Branch) : Edit Unit := do
  let doc ← get
  match rule.placeholder, (doc.linesFor rule list).head? with
  | some placeholder, some line =>
    if (doc.listElements rule list).isEmpty &&
        placeholder.scope.applies (doc.isTopLevel (.branch list)) then
      let fragment := Document.ofSource doc.grammar rule.element placeholder.text
      if doc.isInline rule list then discard <| placeClause rule list line fragment
      else
        let added ← placeAtLine rule list line fragment
        if rule.isPadded then
          modify fun doc => doc.padAround rule list added (rule.element = .comment)
    else return
  | _, _ => return

/-- Remove an element. Answers the element as a fragment. The last element of a list inside an
optional takes the optional with it. -/
def takeElement (rule : ListRule) (list element : Branch) : Edit Document := do
  let doc ← get
  let fragment := doc.extract element (doc.coveredLeaves (.branch element))
  let isLast := (doc.listElements rule list).length = 1
  match if isLast then doc.optionalAround? list else none with
  | some (optional, optionalRule) => modify fun doc => doc.clearOptional optionalRule optional
  | none =>
    modify fun doc => doc.detachElement rule list element
    refill rule list
  return fragment

def takePadded (rule : ListRule) (list element : Branch) : Edit Document := do
  let doc ← get
  let most := doc.blankLinesFor rule list element
  let elements := doc.listElements rule list
  let index := elements.idxOf element
  if index + 1 < elements.length then modify fun doc => doc.cutBlankBelow list element most
  if index ≠ 0 then modify fun doc => doc.cutBlankAbove list element most
  let fragment ← takeElement rule list element
  modify fun doc =>
    let elements := doc.listElements rule list
    match if index = 0 then none else elements[index - 1]?, elements[index]? with
    | some left, some right => doc.separate rule list left right false
    | _, _ => doc
  return fragment

def takeFrom (rule : ListRule) (list element : Branch) : Edit Document :=
  if rule.isPadded then takePadded rule list element else takeElement rule list element

def removeElement (list element : Branch) : Edit Document := do
  let rule ← listRule list
  let doc ← get
  if doc.parent (.branch element) = some list then takeFrom rule list element
  else if (doc.listElements rule list).isEmpty then throw (.emptyContainer (doc.kindOf list))
  else throw (.notAnElement (doc.kindOf list))

/-- A list takes comments besides the kinds of its rule. -/
def checkKind (rule : ListRule) (list : Branch) (fragment : Document) : Edit Unit := do
  if fragment.rootKind = .comment || rule.accepts fragment.rootKind then return
  else throw (.kindMismatch ((← get).kindOf list) fragment.rootKind)

/-- Remove the placeholder that a new element replaces. -/
def dropPlaceholder (rule : ListRule) (list : Branch) : Option Branch → Edit Unit
  | none => return
  | some placeholder => discard <| takeFrom rule list placeholder

/-- Add a fragment at a line of a list. A comment is put among the elements without becoming
one. -/
def addAtLine (list : Branch) (line : Nat) (fragment : Document) : Edit Branch := do
  let rule ← listRule list
  checkKind rule list fragment
  let doc ← get
  let placeholder := doc.placeholder? rule list
  if doc.isInline rule list then
    let added ← placeClause rule list line fragment
    dropPlaceholder rule list placeholder
    return added
  else
    let added ← placeAtLine rule list line fragment
    dropPlaceholder rule list placeholder
    if rule.isPadded then
      modify fun doc => doc.padAround rule list added (fragment.rootKind = .comment)
    return added

/-- Add a fragment as the element at an index, beside its neighbours. -/
def add (list : Branch) (index : Nat) (fragment : Document) : Edit Branch := do
  let rule ← listRule list
  checkKind rule list fragment
  let doc ← get
  let length := (doc.listElements rule list).length
  if length < index then throw (.indexOutOfBounds (doc.kindOf list) index length)
  else
    let placeholder := doc.placeholder? rule list
    let added ← modifyGet fun doc => doc.insertBeside rule list index (rule.wrap fragment)
    dropPlaceholder rule list placeholder
    return added

/-- Remove every element. A list whose first element is retained keeps that one; an optional goes
absent with its list. -/
def clearList (list : Branch) : Edit Unit := do
  let rule ← listRule list
  let doc ← get
  match doc.retainedFirst? rule list with
  | some retained =>
    (doc.listElements rule list).reverse.forM fun element =>
      if element = retained then pure ()
      else discard <| removeElement list element
  | none =>
    modify fun doc =>
      let doc := doc.emptyList rule list
      match doc.optionalAround? list with
      | none => doc
      | some (optional, optionalRule) => doc.clearOptional optionalRule optional
    refill rule list

end Edit

end Lossless
