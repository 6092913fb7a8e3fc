import Lossless.Document.Comments

/-! A part of a document as a document of its own. -/

namespace Lossless.Document

/-- The key of a token among copies made in the order of the given tokens. -/
def copyOf? (copied : List Leaf) (l : Leaf) : Option Leaf :=
  (copied.idxOf? l).map Leaf.mk

/-- Copy a container and the nodes under it to depth `n`, parents first. Tokens without a copy are
left out. -/
def copyWithin (doc : Document) (copied : List Leaf) :
    Nat → Option Branch → Branch → Forest → Branch × Forest
  | 0, parent, b, forest => forest.addContainer { kind := doc.kindOf b, parent }
  | n + 1, parent, b, forest =>
    let (copy, forest) := forest.addContainer { kind := doc.kindOf b, parent }
    let (children, forest) := (doc.children b).foldl (fun (children, forest) child =>
      match child with
      | .leaf l =>
        match copyOf? copied l with
        | none => (children, forest)
        | some l => (children ++ [.leaf l], forest.setParent (.leaf l) (some copy))
      | .branch c =>
        let (c, forest) := doc.copyWithin copied n (some copy) c forest
        (children ++ [.branch c], forest)) (([] : List Node), forest)
    (copy, forest.setChildren copy children)

def copyBranch (doc : Document) (copied : List Leaf) (b : Branch) (forest : Forest) :
    Branch × Forest :=
  doc.copyWithin copied doc.containers.size none b forest

/-- Every token under the container has a copy. -/
def isCopied (doc : Document) (copied : List Leaf) (b : Branch) : Bool :=
  (doc.descendants b).all fun c => ((doc.children c).filterMap Node.leaf?).all copied.contains

/-- The given tokens and a container over them. Comments go along when all their tokens do. -/
def extract (doc : Document) (b : Branch) (leaves : List Leaf) : Document :=
  let forest : Forest := { tokens := (leaves.map fun l => { text := doc.textOf l }).toArray }
  let (root, forest) := doc.copyBranch leaves b forest
  let (comments, forest) := doc.comments.foldl (fun (comments, forest) comment =>
    if comment = b then (comments ++ [root], forest)
    else if doc.isCopied leaves comment && doc.isVisible (.branch comment) then
      let (copy, forest) := doc.copyBranch leaves comment forest
      (comments ++ [copy], forest)
    else (comments, forest)) (([] : List Branch), forest)
  { toForest := forest
    grammar := doc.grammar
    order := (List.range leaves.length).map Leaf.mk
    root
    comments }

end Lossless.Document
