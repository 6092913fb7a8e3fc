import Lossless.Document.Nodes

/-! One document inside another: a fragment's tables are appended to those of a document, and its
tokens go into the order. -/

namespace Lossless

/-- A fragment's root and tokens under their keys in the document that took it in. -/
structure Graft where
  root : Branch
  leaves : List Leaf
deriving DecidableEq, Repr

namespace Document

/-- The keys that a fragment's nodes get in a document. -/
def rehomeLeaf (doc : Document) (l : Leaf) : Leaf :=
  ⟨l.index + doc.tokens.size⟩

def rehomeBranch (doc : Document) (b : Branch) : Branch :=
  ⟨b.index + doc.containers.size⟩

def rehome (doc : Document) : Node → Node
  | .leaf l => .leaf (doc.rehomeLeaf l)
  | .branch b => .branch (doc.rehomeBranch b)

/-- Take in the nodes of a fragment. The order is left alone. -/
def graft (doc fragment : Document) : Graft × Document :=
  let tokens := fragment.tokens.map fun t => { t with owner := t.owner.map doc.rehomeBranch }
  let containers := fragment.containers.map fun c =>
    { c with parent := c.parent.map doc.rehomeBranch, children := c.children.map doc.rehome }
  ({ root := doc.rehomeBranch fragment.root
     leaves := fragment.order.map doc.rehomeLeaf },
   { doc with tokens := doc.tokens ++ tokens, containers := doc.containers ++ containers })

/-- Take in a fragment of which only the tokens covered by its root are used. -/
def graftVisible (doc fragment : Document) : Graft × Document :=
  let (graft, grown) := doc.graft fragment
  let covered := (fragment.coveredLeaves (.branch fragment.root)).map doc.rehomeLeaf
  ({ graft with leaves := covered }, grown)

def addTokens (doc : Document) (position : Nat) (fragment : Document) : Branch × Document :=
  let (graft, grown) := doc.graft fragment
  (graft.root, grown.insertAt position graft.leaves)

/-- Put a fragment on lines of its own before a line; lines past the end append. -/
def addTokensAtLine (doc : Document) (line : Nat) (fragment : Document) : Branch × Document :=
  let fragment := fragment.endLine
  if line < doc.layout.lineCount then
    doc.addTokens (doc.layout.lineTokens line).start fragment
  else
    let doc := doc.endLine
    doc.addTokens doc.order.length fragment

end Document

end Lossless
