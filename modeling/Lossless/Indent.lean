import Lossless.Document.Extract
import Lossless.Text.Lines

/-! Indentation: the unit that a source uses, the indentation of blocks, and moving lines in and
out by a unit. -/

namespace Lossless

namespace Indent

/-- A line that says nothing about indentation: a comment, or no ink at all. -/
def isSilent (line : List Char) : Bool :=
  let content := line.dropWhile (· == ' ')
  "#".toList.isPrefixOf content || "//".toList.isPrefixOf content || content.all Text.isBlankChar

def width (line : List Char) : Nat :=
  (line.takeWhile (· == ' ')).length

/-- Widths of the indented lines that count. -/
def widths (lines : List (List Char)) : List Nat :=
  ((lines.filter (!isSilent ·)).map width).filter (0 < ·)

def startsWithTab (line : List Char) : Bool :=
  line.head? == some '\t'

/-- The unit of a source. A line that starts with a tab decides for tabs. Otherwise the least
width does, if more than a tenth of the indented lines have it. -/
def unitOf (source fallback : String) : String :=
  let lines := Text.lines source.toList
  if lines.any startsWithTab then "\t"
  else
    let widths := widths lines
    match widths.min? with
    | none => fallback
    | some least =>
      if widths.length < 10 * widths.count least then String.ofList (List.replicate least ' ')
      else fallback

end Indent

namespace Document

def indentUnit (doc : Document) : String :=
  Indent.unitOf doc.text doc.grammar.indentStep

def blocksAround (doc : Document) (node : Node) : List Branch :=
  (doc.ancestors node).filter fun b => doc.grammar.isBlock (doc.kindOf b)

/-- The indentation that the content of a block shows: the text before it on its line, when the
line starts inside the block. A block's content is its second child, or its only one. -/
def shownIndent? (doc : Document) (block : Branch) : Option String := do
  let children := doc.children block
  let content ← if 1 < children.length then children[1]? else children.head?
  let range ← doc.range? content
  let start := doc.layout.lineStart range.start
  if (doc.trivia content).start ≤ start then some (doc.layout.textOf ⟨start, range.start⟩)
  else none

/-- The indentation of the content of the first of nested blocks. A block that shows none is one
unit deeper than the block around it. -/
def indentAlong (doc : Document) : List Branch → String
  | [] => ""
  | block :: outer =>
    (doc.shownIndent? block).getD (doc.indentAlong outer ++ doc.indentUnit)

/-- Indentation of the content of a block. -/
def blockIndent (doc : Document) (block : Branch) : String :=
  doc.indentAlong (block :: doc.blocksAround (.branch block))

def indent (doc : Document) (node : Node) : String :=
  doc.indentAlong (doc.blocksAround node)

/-- Indentation of the block around the nearest one. -/
def parentIndent (doc : Document) (node : Node) : String :=
  doc.indentAlong (doc.blocksAround node).tail

def isTopLevel (doc : Document) (node : Node) : Bool :=
  (doc.indent node).isEmpty

/-- Tokens moved in by a unit. White space that opens a line grows, ink that opens a line gets
white space before it, and an empty line stays. -/
def indentTokens (unit : String) : Bool → List Leaf → Forest → List Leaf × Forest
  | _, [], forest => ([], forest)
  | opensLine, l :: ls, forest =>
    let text := forest.textOf l
    if opensLine && !Layout.isBreak text then
      if Text.isBlank text then
        let (ls, forest) :=
          indentTokens unit (Layout.isBreak (text ++ unit)) ls (forest.setText l (text ++ unit))
        (l :: ls, forest)
      else
        let (blank, forest) := forest.addToken { text := unit }
        let (ls, forest) := indentTokens unit false ls forest
        (blank :: l :: ls, forest)
    else
      let (ls, forest) := indentTokens unit (Layout.isBreak text) ls forest
      (l :: ls, forest)

/-- Tokens moved out by a unit. White space that opens a line loses the unit, or goes away when
it is the unit. -/
def dedentTokens (unit : String) : Bool → List Leaf → Forest → List Leaf × Forest
  | _, [], forest => ([], forest)
  | opensLine, l :: ls, forest =>
    let text := forest.textOf l
    if opensLine && Layout.isGap text && unit.toList.isPrefixOf text.toList then
      let rest := String.ofList (text.toList.drop unit.length)
      if rest.isEmpty then dedentTokens unit true ls forest
      else
        let (ls, forest) := dedentTokens unit (Layout.isBreak rest) ls (forest.setText l rest)
        (l :: ls, forest)
    else
      let (ls, forest) := dedentTokens unit (Layout.isBreak text) ls forest
      (l :: ls, forest)

/-- Change the tokens of a container and of the white space and comments around it. The change is
told whether the first of them opens a line. -/
def mapAround (doc : Document) (b : Branch)
    (change : Bool → List Leaf → Forest → List Leaf × Forest) : Document :=
  let span := doc.trivia (.branch b)
  let opensLine := (doc.layout.take span.start).getLast?.all Layout.isBreak
  let (leaves, forest) := change opensLine (doc.leavesIn span) doc.toForest
  { doc with
    toForest := forest
    order := doc.order.take span.start ++ leaves ++ doc.order.drop span.stop }

/-- Move the lines of a container in by a unit. -/
def increaseIndent (doc : Document) (b : Branch) (unit : String) : Document :=
  if unit.isEmpty then doc else doc.mapAround b (indentTokens unit)

/-- Move the lines of a container out by a unit. -/
def decreaseIndent (doc : Document) (b : Branch) (unit : String) : Document :=
  if unit.isEmpty then doc else doc.mapAround b (dedentTokens unit)

/-- A container as a document of its own. The root goes with the whole text; any other container
goes with the text that it covers, ends with a line break and loses its indentation. -/
def cloneSubtree (doc : Document) (b : Branch) : Document :=
  let copy :=
    if b = doc.root then doc.extract b doc.order
    else
      let copy := (doc.extract b (doc.coveredLeaves (.branch b))).endLine
      copy.decreaseIndent copy.root (doc.indent (.branch b))
  { copy with fault := doc.fault }

end Document

end Lossless
