import Lossless.Document.Nodes

/-! Comments of a document, and text that no node claims. -/

namespace Lossless.Document

def commentOf? (doc : Document) (l : Leaf) : Option Branch :=
  (doc.chain (doc.token l).owner).find? (doc.kindOf · == .comment)

/-- The comments with a token in the text, in the order of the text. -/
def placedComments (doc : Document) : List Branch :=
  (doc.order.filterMap doc.commentOf?).eraseDups

def updateComments (doc : Document) : Document :=
  { doc with comments := doc.placedComments }

/-- Take a comment out of the text with the white space on one side of it. -/
def removeComment (doc : Document) (comment : Branch) : Document :=
  let doc := { doc with comments := doc.comments.filter (· != comment) }
  match doc.range? (.branch comment) with
  | none => doc
  | some range => doc.cut (doc.layout.widenOneSide range)

/-- Inked tokens that no node claims. -/
def hiddenLeaves (doc : Document) : List Leaf :=
  doc.order.filter fun l => (doc.token l).owner.isNone && !Text.isBlank (doc.textOf l)

def removeHidden (doc : Document) : Document :=
  doc.discard doc.hiddenLeaves

end Lossless.Document
