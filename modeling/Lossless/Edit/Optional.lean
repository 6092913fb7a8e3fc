import Lossless.Document.Graft
import Lossless.Edit.Spacing

/-! Optionals: containers that are absent, or present with one element between an opening and a
closing text. -/

namespace Lossless

namespace Document

/-- The positions that the content of a clause leaves: its part of the lines, and when it had
lines of its own also the break that ended them. -/
def clauseSpan (doc : Document) (range : Span) : Span :=
  let start := doc.layout.expandLeft range.start
  let stop := doc.layout.expandRight range.stop
  let ownLine := (doc.layout.take start).getLast?.any Layout.isBreak
  ⟨start, if ownLine && stop < doc.order.length then stop + 1 else stop⟩

/-- Take the content of a visible optional out of the text. -/
def cutOptional (doc : Document) (rule : OptionalRule) (optional : Branch) (range : Span) :
    Document :=
  match rule.placement with
  | .multiline | .trailingInline => doc.cut (doc.clauseSpan range)
  | .adjacent => doc.cut range
  | .spaced =>
    let doc := doc.closeRoom optional
    match doc.range? (.branch optional) with
    | none => doc
    | some range => doc.cut range

def clearOptional (doc : Document) (rule : OptionalRule) (optional : Branch) : Document :=
  match doc.range? (.branch optional) with
  | none => doc.clearChildren optional
  | some range =>
    ((doc.cutOptional rule optional range).clearChildren optional).updateComments

/-- The position behind an optional's place where a clause goes: the first break in its trivia. -/
def clauseBreak? (doc : Document) (trivia : Span) : Option Nat :=
  (doc.layout.nextBreak? trivia.start).filter (· < trivia.stop)

/-- Where the content of an absent optional goes, and the tokens that have to stand before it. -/
def optionalPlace (doc : Document) (rule : OptionalRule) (optional : Branch) :
    (Nat × List Leaf) × Document :=
  let trivia := doc.trivia (.branch optional)
  match rule.placement with
  | .spaced =>
    let (position, doc) := doc.makeRoom optional
    ((position, []), doc)
  | .adjacent => ((trivia.start, []), doc)
  | .multiline =>
    match doc.clauseBreak? trivia with
    | some position => ((position + 1, []), doc)
    | none =>
      let (newline, doc) := doc.newToken Layout.lineBreak
      ((trivia.stop, [newline]), doc)
  | .trailingInline => (((doc.clauseBreak? trivia).getD trivia.stop, []), doc)

/-- Take in a fragment as the element of an optional. The tokens of the graft are those that go
into the text. -/
def optionalContent (doc : Document) (rule : OptionalRule) (optional : Branch)
    (fragment : Document) : Graft × Document :=
  let indented := fragment.increaseIndent fragment.root (doc.indent (.branch optional))
  match rule.placement with
  | .multiline => doc.graft indented.endLine
  | .trailingInline =>
    let (graft, doc) := doc.graftVisible indented
    let (space, doc) := doc.newToken " "
    ({ graft with leaves := space :: graft.leaves }, doc)
  | .spaced | .adjacent => doc.graftVisible fragment

def fillOptional (doc : Document) (rule : OptionalRule) (optional : Branch)
    (fragment : Document) : Branch × Document :=
  let ((position, before), doc) := doc.optionalPlace rule optional
  let (graft, doc) := doc.optionalContent rule optional fragment
  let (opening, doc) := doc.newLiteral rule.opening
  let (closing, doc) := doc.newLiteral rule.closing
  let doc := doc.insertAt position (before ++ opening.toList ++ graft.leaves ++ closing.toList)
  let children := opening.toList.map Node.leaf ++ [.branch graft.root] ++
    closing.toList.map Node.leaf
  let doc := children.foldl (·.pushChild optional ·) doc
  (graft.root, doc.updateComments)

/-- Make an optional present with a fragment as its element, whatever it held before. -/
def setOptional (doc : Document) (rule : OptionalRule) (optional : Branch)
    (fragment : Document) : Branch × Document :=
  let doc := doc.clearOptional rule optional
  let fragment :=
    if fragment.rootKind = rule.element then fragment else fragment.wrapRoot rule.element
  doc.fillOptional rule optional fragment

end Document

namespace Edit

/-- Make an optional present with a fragment as its element. Answers the element. -/
def set (optional : Branch) (fragment : Document) : Edit Branch := do
  let rule ← optionalRule optional
  if rule.accepts fragment.rootKind then
    modifyGet fun doc => doc.setOptional rule optional fragment
  else throw (.kindMismatch ((← get).kindOf optional) fragment.rootKind)

def clearOptional (optional : Branch) : Edit Unit := do
  let rule ← optionalRule optional
  modify fun doc => doc.clearOptional rule optional

end Edit

end Lossless
