import Lossless.Edit.Basic

/-! The lines at which a list takes a new element. -/

namespace Lossless.Document

/-- The list lies between two tokens of one line, as in a body on the line of its braces. -/
def isSqueezed (doc : Document) (list : Branch) : Bool :=
  let trivia := doc.trivia (.branch list)
  let lines := doc.layout.linesOf trivia
  lines.start + 1 == lines.stop && 0 < trivia.start && trivia.stop < doc.order.length

/-- The clauses of a list start on lines of their own. The first clause shows it; a list without
one goes by its rule. -/
def clausesOnLines (doc : Document) (rule : ListRule) (list : Branch) : Bool :=
  match (doc.listElements rule list).head?.bind fun e => doc.range? (.branch e) with
  | none => rule.multiline
  | some first =>
    doc.layout.lineOf (doc.trivia (.branch list)).start != doc.layout.lineOf first.start

/-- New elements continue the line of what stands before them. -/
def isInline (doc : Document) (rule : ListRule) (list : Branch) : Bool :=
  rule.trailing && !doc.clausesOnLines rule list

/-- Lines of clauses that continue lines: where each one starts, and the line behind the last. -/
def clauseLines (doc : Document) (rule : ListRule) (list : Branch) : List Nat :=
  let ranges := (doc.listElements rule list).filterMap fun e => doc.lines? (.branch e)
  match ranges.getLast? with
  | none => [doc.layout.lineOf (doc.trivia (.branch list)).start]
  | some last => ranges.map Span.start ++ [last.stop]

/-- The lines between the bounds of a list. A list that is open above starts at its first
element; otherwise the line of the token before the list is left out. -/
def boundedLines (doc : Document) (rule : ListRule) (list : Branch) : Span :=
  let trivia := doc.trivia (.branch list)
  if doc.isSqueezed list then
    let line := doc.layout.lineOf trivia.start
    ⟨line + 1, line + 2⟩
  else if rule.above.applies (doc.isTopLevel (.branch list)) then
    let lines := doc.layout.linesOf trivia
    ⟨if trivia.start = 0 then lines.start else lines.start + 1,
      if trivia.stop = doc.order.length then lines.stop + 1 else lines.stop⟩
  else
    let start := ((doc.range? (.branch list)).map Span.start).getD trivia.stop
    doc.layout.linesOf ⟨start, trivia.stop⟩

/-- Lines at which a list takes a new element: no line inside a child. -/
def linesFor (doc : Document) (rule : ListRule) (list : Branch) : List Nat :=
  if doc.isInline rule list then doc.clauseLines rule list
  else
    let occupied := (doc.children list).filterMap doc.lines?
    (doc.boundedLines rule list).toList.filter fun line =>
      !occupied.any fun lines => lines.start < line && line < lines.stop

def availableLines (doc : Document) (list : Branch) : Except Error (List Nat) :=
  match doc.listRule? list with
  | some rule => .ok (doc.linesFor rule list)
  | none => .error (.notAList (doc.kindOf list))

end Lossless.Document
