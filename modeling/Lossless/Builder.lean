import Lossless.Document.Comments
import Lossless.Error
import Lossless.Text.Lines

/-! Building a document over a source text. Nodes, tokens and comments are named from left to
right; the text between them is kept as tokens that no node claims. -/

namespace Lossless

/-- Opening and closing marks of comments that can span lines. -/
def enclosedComments : List (String × String) := [("/*", "*/"), ("<!--", "-->")]

/-- Opening marks of comments that end with their line. -/
def lineComments : List String := ["#", "//"]

/-- Bytes of the opening and the closing mark of a comment. -/
def commentMarks (text : List Char) : Nat × Nat :=
  let enclosed := enclosedComments.find? fun (opening, closing) =>
    opening.toList.isPrefixOf text && closing.toList.isSuffixOf text &&
      opening.length + closing.length ≤ text.length
  match enclosed with
  | some (opening, closing) => (opening.utf8ByteSize, closing.utf8ByteSize)
  | none =>
    match lineComments.find? (·.toList.isPrefixOf text) with
    | some opening => (opening.utf8ByteSize, 0)
    | none => (0, 0)

structure Builder extends Forest where
  grammar : Grammar
  source : String
  /-- Nodes that are open, the innermost first. -/
  opened : List Branch := []
  root : Option Branch := none
  /-- Tokens of the text up to byte `covered`. -/
  order : List Leaf := []
  covered : Nat := 0
  /-- The next span starts here or later. -/
  cursor : Nat := 0
  /-- The first thing that went wrong. -/
  trouble : Option BuildFault := none
  fault : Option Fault := none

namespace Builder

def chars (b : Builder) : List Char :=
  b.source.toList

def fail (b : Builder) (trouble : BuildFault) : Builder :=
  { b with trouble := b.trouble.or (some trouble) }

/-- Add the tokens of the source up to a byte offset that no node claims. -/
def fill (b : Builder) (stop : Nat) : Builder :=
  (Text.piecesBetween b.chars ⟨b.covered, stop⟩).foldl (fun b piece =>
    let (l, forest) := b.toForest.addToken { text := String.ofList piece }
    { b with toForest := forest, order := b.order ++ [l] }) { b with covered := stop }

def place (b : Builder) (owner : Branch) (span : Span) : Builder :=
  let b := b.fill span.start
  let text := String.ofList (Text.slice b.chars span)
  let (l, forest) := b.toForest.addToken { text }
  { b with
    toForest := forest.pushChild owner (.leaf l)
    order := b.order ++ [l]
    covered := span.stop }

/-- The span cuts no character and lies behind everything named so far. -/
def fits (b : Builder) (span : Span) : Bool :=
  Text.isCharSpan b.chars span && b.cursor ≤ span.start

def badSpan (b : Builder) (span : Span) : Builder :=
  b.fail (.badSpan span b.cursor b.source.utf8ByteSize)

/-- Open a node inside the innermost open one. The first node of all is the root. -/
def openNode (b : Builder) (kind : Kind) : Builder :=
  let (node, forest) := b.toForest.addContainer { kind }
  let b := { b with toForest := forest }
  let b :=
    match b.opened, b.root with
    | parent :: _, _ => { b with toForest := b.toForest.pushChild parent (.branch node) }
    | [], none => { b with root := some node }
    | [], some _ => b.fail (.secondRoot kind)
  { b with opened := node :: b.opened }

def closeNode (b : Builder) : Builder :=
  match b.opened with
  | [] => b.fail .nothingOpen
  | _ :: opened => { b with opened }

/-- A node with what `content` names inside it. -/
def node (b : Builder) (kind : Kind) (content : Builder → Builder) : Builder :=
  (content (b.openNode kind)).closeNode

def tokenAt (b : Builder) (span : Span) : Builder :=
  match b.opened with
  | [] => b.fail (.outsideNodes span)
  | owner :: _ =>
    if b.fits span then { b.place owner span with cursor := span.stop } else b.badSpan span

/-- A comment at a byte span: its marks, and a container for the ink between them. -/
def commentAt (b : Builder) (span : Span) : Builder :=
  if b.fits span then
    let (opening, closing) := commentMarks (Text.slice b.chars span)
    let body : Span := ⟨span.start + opening, span.stop - closing⟩
    let (comment, forest) := b.toForest.addContainer { kind := .comment }
    let b := { b with toForest := forest }
    let b := if opening = 0 then b else b.place comment ⟨span.start, body.start⟩
    let (inside, forest) := b.toForest.addContainer { kind := .commentText }
    let b := { b with toForest := forest.pushChild comment (.branch inside) }
    let b := (Text.inkedIn b.chars body).foldl (·.place inside ·) b
    let b := if closing = 0 then b else b.place comment ⟨body.stop, span.stop⟩
    { b with cursor := span.stop }
  else b.badSpan span

/-- A node at a byte span with one token for the ink of each line. -/
def textNodeAt (b : Builder) (kind : Kind) (span : Span) : Builder :=
  if b.fits span then
    b.node kind fun b => (Text.inkedIn b.chars span).foldl (·.tokenAt ·) b
  else b.badSpan span

def locate? (b : Builder) (text : String) : Option Span :=
  (Text.find? text.toList (Text.dropBytes b.cursor b.chars)).map fun offset =>
    ⟨b.cursor + offset, b.cursor + offset + text.utf8ByteSize⟩

def token (b : Builder) (text : String) : Builder :=
  match b.locate? text with
  | some span => b.tokenAt span
  | none => b.fail (.tokenNotFound text b.cursor)

def comment (b : Builder) (text : String) : Builder :=
  match b.locate? text with
  | some span => b.commentAt span
  | none => b.fail (.commentNotFound text b.cursor)

/-- Note where the parser gave up; only the first place counts. -/
def faultAt (b : Builder) (offset : Nat) : Builder :=
  { b with fault := b.fault.or (some (Fault.locate b.source offset)) }

/-- The document, once every node is closed and nothing went wrong. -/
def finish (b : Builder) : Except Error Document :=
  match b.trouble, b.opened, b.root with
  | some trouble, _, _ => .error (.build trouble)
  | none, _ :: _, _ => .error (.build (.leftOpen b.opened.length))
  | none, [], none => .error (.build .noRoot)
  | none, [], some root =>
    let b := b.fill b.source.utf8ByteSize
    let doc : Document :=
      { toForest := b.toForest, grammar := b.grammar, order := b.order, root, comments := [],
        fault := b.fault }
    .ok doc.updateComments

end Builder

/-- A fragment with a single container, which claims every inked token. -/
def Document.ofSource (grammar : Grammar) (kind : Kind) (source : String) : Document :=
  let root : Branch := ⟨0⟩
  let tokens : List Token := (Text.gapPieces true source.toList).map fun piece =>
    { text := String.ofList piece, owner := if piece.all Text.isBlankChar then none else some root }
  let order := (List.range tokens.length).map Leaf.mk
  let inked := (order.zip tokens).filter fun (_, t) => t.owner.isSome
  { tokens := tokens.toArray
    containers := #[{ kind, children := inked.map fun (l, _) => .leaf l }]
    grammar
    order
    root
    comments := if kind = .comment then [root] else [] }

end Lossless
