import Lossless.Document.Basic

/-! Where nodes are: the part of the text that a node covers, its neighbours, and the white space
and comments around it. A node is visible when one of its tokens is in the text. -/

namespace Lossless.Document

def visibleLeaves (doc : Document) (node : Node) : List Leaf :=
  (doc.leaves node).filter doc.order.contains

def firstLeaf? (doc : Document) (node : Node) : Option Leaf :=
  (doc.visibleLeaves node).head?

def lastLeaf? (doc : Document) (node : Node) : Option Leaf :=
  (doc.visibleLeaves node).getLast?

def isVisible (doc : Document) (node : Node) : Bool :=
  (doc.firstLeaf? node).isSome

/-- Positions from the first to the last visible token of a node. -/
def range? (doc : Document) (node : Node) : Option Span := do
  let first ← doc.position? (← doc.firstLeaf? node)
  let last ← doc.position? (← doc.lastLeaf? node)
  return ⟨first, last + 1⟩

/-- The nearest visible token before a node whose containers are given, nearest first. -/
def leftAlong (doc : Document) (node : Node) : List Branch → Option Leaf
  | [] => none
  | b :: outer => do
    let siblings := doc.children b
    let index ← siblings.idxOf? node
    ((siblings.take index).reverse.findSome? doc.lastLeaf?).or (doc.leftAlong (.branch b) outer)

/-- The nearest visible token after a node whose containers are given, nearest first. -/
def rightAlong (doc : Document) (node : Node) : List Branch → Option Leaf
  | [] => none
  | b :: outer => do
    let siblings := doc.children b
    let index ← siblings.idxOf? node
    ((siblings.drop (index + 1)).findSome? doc.firstLeaf?).or (doc.rightAlong (.branch b) outer)

/-- The nearest visible token of the tree before a node. -/
def leftLeaf? (doc : Document) (node : Node) : Option Leaf :=
  doc.leftAlong node (doc.ancestors node)

/-- The nearest visible token of the tree after a node. -/
def rightLeaf? (doc : Document) (node : Node) : Option Leaf :=
  doc.rightAlong node (doc.ancestors node)

/-- Positions between the neighbours of a node: the node with the white space and the comments
around it. -/
def trivia (doc : Document) (node : Node) : Span :=
  let start :=
    match (doc.leftLeaf? node).bind doc.position? with
    | none => 0
    | some i => i + 1
  let stop := ((doc.rightLeaf? node).bind doc.position?).getD doc.order.length
  ⟨start, max stop start⟩

/-- Bytes of a node; an invisible node lies empty behind its left neighbour. -/
def byteRange (doc : Document) (node : Node) : Span :=
  match doc.range? node with
  | some range => ⟨doc.layout.offsetAt range.start, doc.layout.offsetAt range.stop⟩
  | none =>
    match (doc.leftLeaf? node).bind doc.position? with
    | none => ⟨0, 0⟩
    | some i => ⟨doc.layout.offsetAt (i + 1), doc.layout.offsetAt (i + 1)⟩

/-- Lines of the visible tokens of a node. -/
def lines? (doc : Document) (node : Node) : Option Span :=
  (doc.range? node).map doc.layout.linesOf

/-- Text from the first to the last visible token of a node. -/
def visibleText (doc : Document) (node : Node) : String :=
  match doc.range? node with
  | none => ""
  | some range => doc.layout.textOf range

/-- Text of a node with the white space and the comments around it. -/
def triviaText (doc : Document) (node : Node) : String :=
  doc.layout.textOf (doc.trivia node)

/-- Tokens of the text from the first to the last visible token of a node. -/
def coveredLeaves (doc : Document) (node : Node) : List Leaf :=
  match doc.range? node with
  | none => []
  | some range => doc.leavesIn range

/-- The text of the root, without what stands before and after it. -/
def code (doc : Document) : String :=
  doc.visibleText (.branch doc.root)

/-! ### Search -/

def childrenOfKind (doc : Document) (b : Branch) (kind : Kind) : List Branch :=
  (doc.branches b).filter (doc.kindOf · == kind)

def childOfKind? (doc : Document) (b : Branch) (kind : Kind) : Option Branch :=
  (doc.branches b).find? (doc.kindOf · == kind)

def findIn? (doc : Document) (b : Branch) (kind : Kind) : Option Branch :=
  (doc.descendants b).find? (doc.kindOf · == kind)

def find? (doc : Document) (kind : Kind) : Option Branch :=
  doc.findIn? doc.root kind

def findAll (doc : Document) (kind : Kind) : List Branch :=
  (doc.descendants doc.root).filter (doc.kindOf · == kind)

/-! ### Children by place -/

/-- Make a node a child, before the first child that starts at its position or later. -/
def placeChild (doc : Document) (b : Branch) (node : Node) : Document :=
  let children := doc.children b
  let index :=
    match doc.range? node with
    | none => children.length
    | some range => children.findIdx fun child => (doc.range? child).any (range.start ≤ ·.start)
  doc.insertChild b index node

end Lossless.Document
