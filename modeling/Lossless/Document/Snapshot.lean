import Lossless.Document.Nodes
import Lossless.Text.Quoted

/-! Snapshots of nodes for reading: kind, bytes, text of tokens, and what is inside. -/

namespace Lossless

inductive Snapshot where
  | token (kind : Kind) (span : Span) (text : String)
  | container (kind : Kind) (span : Span) (children : List Snapshot)

namespace Document

/-- A node and the nodes under it to depth `n`. -/
def snapshotWithin (doc : Document) : Nat → Node → Snapshot
  | _, .leaf l => .token (doc.kind (.leaf l)) (doc.byteRange (.leaf l)) (doc.textOf l)
  | 0, .branch b => .container (doc.kindOf b) (doc.byteRange (.branch b)) []
  | n + 1, .branch b =>
    .container (doc.kindOf b) (doc.byteRange (.branch b))
      ((doc.children b).map (doc.snapshotWithin n))

def snapshot (doc : Document) (node : Node) : Snapshot :=
  doc.snapshotWithin doc.containers.size node

def snapshots (doc : Document) : List Snapshot :=
  (doc.root :: doc.comments).map fun b => doc.snapshot (.branch b)

end Document

namespace Snapshot

def indentation (depth : Nat) : String :=
  String.ofList (List.replicate (2 * depth) ' ')

mutual

def render (depth : Nat) : Snapshot → String
  | token _ span text => indentation depth ++ Text.quoted text ++ " " ++ span.render
  | container kind span [] =>
    indentation depth ++ "<" ++ kind.name ++ " " ++ span.render ++ "></" ++ kind.name ++ ">"
  | container kind span children =>
    indentation depth ++ "<" ++ kind.name ++ " " ++ span.render ++ ">\n" ++
      renderAll (depth + 1) children ++ indentation depth ++ "</" ++ kind.name ++ ">"

def renderAll (depth : Nat) : List Snapshot → String
  | [] => ""
  | s :: rest => s.render depth ++ "\n" ++ renderAll depth rest

end

end Snapshot

namespace Document

def dumpNode (doc : Document) (node : Node) : String :=
  (doc.snapshot node).render 0

def dump (doc : Document) : String :=
  "\n".intercalate (doc.snapshots.map (Snapshot.render 0))

end Document

end Lossless
