import Lossless.Builder
import Lossless.ParseTree

/-! Documents from parse trees. Types that the grammar knows become containers, other types with
children give way to their children, and leaves become tokens. Comment types become comments, and
the first error node marks where the parser gave up. -/

namespace Lossless

structure Converter where
  grammar : Grammar
  /-- Drop the inked text that no node claims. -/
  stripHidden : Bool := false

namespace Converter

def errorType : String := "ERROR"

/-- A leaf without a name of its own: its type is its text. -/
def isAnonymous (b : Builder) (t : ParseTree) : Bool :=
  t.children.isEmpty && Text.slice b.chars t.span == t.typeName.toList

/-- A node inside the wrapper that its parent asks for. -/
def wrapped (b : Builder) (wrapper : Option Kind) (content : Builder → Builder) : Builder :=
  match wrapper with
  | none => content b
  | some kind => b.node kind content

mutual

/-- Name the nodes, tokens and comments of a parse tree under a container of kind `parent`. -/
def visit (b : Builder) (parent : Kind) : ParseTree → Builder
  | ⟨typeName, field, start, stop, children⟩ =>
    let span : Span := ⟨start, stop⟩
    if typeName = errorType then b.faultAt start
    else if b.grammar.isCommentType typeName then b.commentAt span
    else if isAnonymous b ⟨typeName, field, start, stop, children⟩ then
      (Text.inkedIn b.chars span).foldl (·.tokenAt ·) b
    else
      match b.grammar.kindFor? typeName, children with
      | some kind, [] =>
        wrapped b (b.grammar.wrapper? parent kind) fun b => b.textNodeAt kind span
      | some kind, children =>
        wrapped b (b.grammar.wrapper? parent kind) fun b =>
          b.node kind fun b => visitAll b kind children
      | none, [] => (Text.inkedIn b.chars span).foldl (·.tokenAt ·) b
      | none, children => visitAll b parent children

def visitAll (b : Builder) (parent : Kind) : List ParseTree → Builder
  | [] => b
  | t :: ts => visitAll (visit b parent t) parent ts

end

def convert (converter : Converter) (source : String) (tree : ParseTree) :
    Except Error Document := do
  match tree.badNode? source.toList with
  | some bad =>
    throw (.conversion (.badSpan bad.typeName bad.span source.utf8ByteSize))
  | none =>
    let kind := (converter.grammar.kindFor? tree.typeName).getD .program
    let b : Builder := { grammar := converter.grammar, source }
    let doc ← (b.node kind fun b => visitAll b kind tree.children).finish
    return if converter.stripHidden then doc.removeHidden else doc

end Converter

end Lossless
