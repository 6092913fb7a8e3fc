import Lossless.Forest
import Lossless.Grammar.Basic
import Lossless.Layout

/-! A document: an order of tokens that spells its text, and a tree over some of them. Comments
stand beside the tree. -/

namespace Lossless

/-- A place in a source where its parser gave up: line, byte column and byte offset. -/
structure Fault where
  line : Nat
  column : Nat
  offset : Nat
deriving DecidableEq, Repr

/-- The place of a byte offset. An offset inside a character means that character, and one past
the end means the end. -/
def Fault.locate (source : String) (offset : Nat) : Fault :=
  let cs := source.toList
  let offset := Text.floorBoundary cs offset
  let before := Text.takeBytes offset cs
  { line := before.count '\n'
    column := Text.bytes (before.reverse.takeWhile (· != '\n'))
    offset }

structure Document extends Forest where
  grammar : Grammar
  /-- The tokens of the text. -/
  order : List Leaf
  root : Branch
  comments : List Branch
  fault : Option Fault := none
deriving DecidableEq, Repr

namespace Document

def layout (doc : Document) : Layout :=
  doc.order.map doc.textOf

def text (doc : Document) : String :=
  doc.layout.join

/-- Position of a token in the order; a token that has left the text has none. -/
def position? (doc : Document) (l : Leaf) : Option Nat :=
  doc.order.idxOf? l

def shapeOf (doc : Document) (b : Branch) : Shape :=
  doc.grammar.shape (doc.kindOf b)

def rootKind (doc : Document) : Kind :=
  doc.kindOf doc.root

/-! ### Tokens -/

def newToken (doc : Document) (text : String) : Leaf × Document :=
  let (l, forest) := doc.toForest.addToken { text }
  (l, { doc with toForest := forest })

/-- A token for a text, unless the text is empty. -/
def newLiteral (doc : Document) (text : String) : Option Leaf × Document :=
  if text.isEmpty then (none, doc)
  else
    let (l, doc) := doc.newToken text
    (some l, doc)

/-- A break, and a token for the indentation after it unless that is empty. -/
def newIndentedBreak (doc : Document) (indent : String) : List Leaf × Document :=
  let (newline, doc) := doc.newToken Layout.lineBreak
  let (blank, doc) := doc.newLiteral indent
  (newline :: blank.toList, doc)

/-- Put tokens into the order, the first at the given position. -/
def insertAt (doc : Document) (position : Nat) (leaves : List Leaf) : Document :=
  { doc with order := doc.order.take position ++ leaves ++ doc.order.drop position }

/-- Take a range of positions out of the order. A range that runs backwards is empty. -/
def cut (doc : Document) (span : Span) : Document :=
  { doc with order := doc.order.take span.start ++ doc.order.drop (max span.start span.stop) }

def discard (doc : Document) (leaves : List Leaf) : Document :=
  { doc with order := doc.order.filter (!leaves.contains ·) }

def leavesIn (doc : Document) (span : Span) : List Leaf :=
  (doc.order.drop span.start).take (span.stop - span.start)

def endsWithBreak (doc : Document) : Bool :=
  doc.layout.getLast?.any Layout.isBreak

/-- End the last line. A document without tokens stays empty. -/
def endLine (doc : Document) : Document :=
  if doc.order.isEmpty || doc.endsWithBreak then doc
  else
    let (newline, doc) := doc.newToken Layout.lineBreak
    doc.insertAt doc.order.length [newline]

/-! ### Links -/

def setParent (doc : Document) (node : Node) (parent : Option Branch) : Document :=
  { doc with toForest := doc.toForest.setParent node parent }

def insertChild (doc : Document) (b : Branch) (index : Nat) (node : Node) : Document :=
  { doc with toForest := doc.toForest.insertChild b index node }

def pushChild (doc : Document) (b : Branch) (node : Node) : Document :=
  { doc with toForest := doc.toForest.pushChild b node }

def removeChild (doc : Document) (b : Branch) (node : Node) : Document :=
  { doc with toForest := doc.toForest.removeChild b node }

def replaceChild (doc : Document) (b : Branch) (old new : Node) : Document :=
  { doc with toForest := doc.toForest.replaceChild b old new }

def clearChildren (doc : Document) (b : Branch) : Document :=
  { doc with toForest := doc.toForest.clearChildren b }

def wrapRoot (doc : Document) (kind : Kind) : Document :=
  let (wrapper, forest) := doc.toForest.addContainer { kind }
  { doc with toForest := forest.pushChild wrapper (.branch doc.root), root := wrapper }

end Document

end Lossless
