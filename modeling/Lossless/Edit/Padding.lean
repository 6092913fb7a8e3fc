import Lossless.Edit.Basic

/-! Blank lines between the elements of a padded list. Comments between elements count as
neighbours of them. -/

namespace Lossless

/-- Join spans that follow each other without a gap. -/
def mergeAdjacent : List Span → List Span
  | [] => []
  | s :: rest =>
    match mergeAdjacent rest with
    | [] => [s]
    | t :: ts => if s.stop = t.start then ⟨s.start, t.stop⟩ :: ts else s :: t :: ts

namespace Document

/-- Blank lines that a node of a list asks for, by its kind or by the kind of its first child. -/
def blankLinesFor (doc : Document) (rule : ListRule) (list node : Branch) : Nat :=
  let topLevel := doc.isTopLevel (.branch list)
  let kinds := doc.kindOf node :: ((doc.children node).head?.bind Node.branch?).toList.map doc.kindOf
  let demands := (rule.padding.getD []).filter fun demand =>
    demand.scope.applies topLevel && kinds.contains demand.kind
  (demands.map BlankLines.lines).foldl max 0

/-- The visible elements of a list and the comments between them, in the order of the text. -/
def elementsAndComments (doc : Document) (rule : ListRule) (list : Branch) : List Branch :=
  let trivia := doc.trivia (.branch list)
  let placed (bs : List Branch) : List (Span × Branch) :=
    bs.filterMap fun b => (doc.range? (.branch b)).map (·, b)
  let elements := placed (doc.listElements rule list)
  let comments := (placed doc.comments).filter fun (range, _) =>
    trivia.covers range && !elements.any fun (element, _) => element.covers range
  ((elements ++ comments).mergeSort fun (a, _) (b, _) => a.start ≤ b.start).map Prod.snd

/-- Runs of blank lines inside a list. -/
def blankRuns (doc : Document) (list : Branch) : List Span :=
  let isBlankRun (span : Span) : Bool :=
    ((doc.layout.drop span.start).take (span.stop - span.start)).all Text.isBlank
  let blank := (doc.layout.lineRanges (doc.trivia (.branch list))).filter isBlankRun
  (mergeAdjacent blank).map fun run =>
    let lines := doc.layout.linesOf run
    ⟨lines.start, max lines.start (lines.stop - 1)⟩

def cutLines (doc : Document) (lines : Span) : Document :=
  doc.cut (doc.layout.linesTokens lines)

/-- Cut up to `most` blank lines directly above an element. -/
def cutBlankAbove (doc : Document) (list element : Branch) (most : Nat) : Document :=
  match doc.lines? (.branch element) with
  | none => doc
  | some lines =>
    match (doc.blankRuns list).find? (·.stop == lines.start) with
    | none => doc
    | some run => doc.cutLines ⟨max run.start (run.stop - most), run.stop⟩

/-- Cut up to `most` blank lines directly below an element. -/
def cutBlankBelow (doc : Document) (list element : Branch) (most : Nat) : Document :=
  match doc.lines? (.branch element) with
  | none => doc
  | some lines =>
    match (doc.blankRuns list).find? (·.start == lines.stop) with
    | none => doc
    | some run => doc.cutLines ⟨run.start, min run.stop (run.start + most)⟩

def insertBreaks (doc : Document) (position count : Nat) : Document :=
  match count with
  | 0 => doc
  | n + 1 =>
    let (newline, doc) := doc.newToken Layout.lineBreak
    (doc.insertAt position [newline]).insertBreaks position n

/-- Put as many blank lines between two neighbours as either asks for. A comment beside an element
asks for none unless it was just added. -/
def separate (doc : Document) (rule : ListRule) (list left right : Branch) (added : Bool) :
    Document :=
  if !added && !(rule.accepts (doc.kindOf left) && rule.accepts (doc.kindOf right)) then doc
  else
    let least := max (doc.blankLinesFor rule list left) (doc.blankLinesFor rule list right)
    match doc.lines? (.branch left), doc.lines? (.branch right), doc.range? (.branch right) with
    | some above, some below, some range =>
      doc.insertBreaks (doc.layout.lineStart range.start) (least - (below.start - above.stop))
    | _, _, _ => doc

/-- Separate a new element or comment of a list from its neighbours. -/
def padAround (doc : Document) (rule : ListRule) (list added : Branch) (isComment : Bool) :
    Document :=
  let items := doc.elementsAndComments rule list
  match items.idxOf? added with
  | none => doc
  | some index =>
    let doc :=
      match (items.take index).getLast? with
      | none => doc
      | some left => doc.separate rule list left added isComment
    match items[index + 1]? with
    | none => doc
    | some right => doc.separate rule list added right false

end Document

end Lossless
