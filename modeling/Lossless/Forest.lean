import Lossless.Kind

/-! Tables of tokens and containers, linked by keys. A node stays in its table when it leaves the
tree, so that its key keeps naming it. -/

namespace Lossless

structure Leaf where
  index : Nat
deriving DecidableEq, Repr

structure Branch where
  index : Nat
deriving DecidableEq, Repr

inductive Node where
  | leaf (leaf : Leaf)
  | branch (branch : Branch)
deriving DecidableEq, Repr

instance : Coe Leaf Node := ⟨.leaf⟩
instance : Coe Branch Node := ⟨.branch⟩

namespace Node

def leaf? : Node → Option Leaf
  | leaf l => some l
  | branch _ => none

def branch? : Node → Option Branch
  | leaf _ => none
  | branch b => some b

end Node

structure Token where
  text : String
  /-- The container that claims the token; hidden tokens have none. -/
  owner : Option Branch := none
deriving DecidableEq, Repr

structure Container where
  kind : Kind
  parent : Option Branch := none
  children : List Node := []
deriving DecidableEq, Repr

structure Forest where
  tokens : Array Token := #[]
  containers : Array Container := #[]
deriving DecidableEq, Repr

namespace Forest

def token (f : Forest) (l : Leaf) : Token :=
  f.tokens.getD l.index ⟨"", none⟩

def container (f : Forest) (b : Branch) : Container :=
  f.containers.getD b.index ⟨.program, none, []⟩

def textOf (f : Forest) (l : Leaf) : String :=
  (f.token l).text

def children (f : Forest) (b : Branch) : List Node :=
  (f.container b).children

def kindOf (f : Forest) (b : Branch) : Kind :=
  (f.container b).kind

def kind (f : Forest) : Node → Kind
  | .leaf l => if f.textOf l == "\n" then .newline else .token
  | .branch b => f.kindOf b

def parent (f : Forest) : Node → Option Branch
  | .leaf l => (f.token l).owner
  | .branch b => (f.container b).parent

def branches (f : Forest) (b : Branch) : List Branch :=
  (f.children b).filterMap Node.branch?

/-! ### Links -/

/-- Up to `n` containers on the way from a container to the top. -/
def climb (f : Forest) : Nat → Option Branch → List Branch
  | 0, _ => []
  | _ + 1, none => []
  | n + 1, some b => b :: f.climb n (f.container b).parent

/-- A container and those around it, the nearest first. No path is longer than the table. -/
def chain (f : Forest) (b : Option Branch) : List Branch :=
  f.climb f.containers.size b

def ancestors (f : Forest) (node : Node) : List Branch :=
  f.chain (f.parent node)

/-- The container is the node, or stands around it. -/
def contains (f : Forest) (b : Branch) (node : Node) : Bool :=
  node == .branch b || (f.ancestors node).contains b

/-- The tokens under a node to depth `n`, in the order of the children. -/
def leavesWithin (f : Forest) : Nat → Node → List Leaf
  | _, .leaf l => [l]
  | 0, .branch _ => []
  | n + 1, .branch b => (f.children b).flatMap (f.leavesWithin n)

def leaves (f : Forest) (node : Node) : List Leaf :=
  f.leavesWithin f.containers.size node

/-- The first `n` containers of a depth-first walk that still has to visit the given ones. -/
def walk (f : Forest) : Nat → List Branch → List Branch
  | 0, _ => []
  | _ + 1, [] => []
  | n + 1, b :: pending => b :: f.walk n (f.branches b ++ pending)

/-- A container and all containers under it, parents first. -/
def descendants (f : Forest) (b : Branch) : List Branch :=
  f.walk f.containers.size [b]

/-! ### Changes -/

def addToken (f : Forest) (token : Token) : Leaf × Forest :=
  (⟨f.tokens.size⟩, { f with tokens := f.tokens.push token })

def addContainer (f : Forest) (container : Container) : Branch × Forest :=
  (⟨f.containers.size⟩, { f with containers := f.containers.push container })

def modifyToken (f : Forest) (l : Leaf) (change : Token → Token) : Forest :=
  { f with tokens := f.tokens.modify l.index change }

def modifyContainer (f : Forest) (b : Branch) (change : Container → Container) : Forest :=
  { f with containers := f.containers.modify b.index change }

def setText (f : Forest) (l : Leaf) (text : String) : Forest :=
  f.modifyToken l ({ · with text })

def setParent (f : Forest) (node : Node) (parent : Option Branch) : Forest :=
  match node with
  | .leaf l => f.modifyToken l ({ · with owner := parent })
  | .branch b => f.modifyContainer b ({ · with parent })

def setChildren (f : Forest) (b : Branch) (children : List Node) : Forest :=
  f.modifyContainer b ({ · with children })

def insertChild (f : Forest) (b : Branch) (index : Nat) (node : Node) : Forest :=
  let children := f.children b
  (f.setChildren b (children.take index ++ node :: children.drop index)).setParent node (some b)

def pushChild (f : Forest) (b : Branch) (node : Node) : Forest :=
  (f.setChildren b (f.children b ++ [node])).setParent node (some b)

/-- Detach a child; a node that is none is left alone. -/
def removeChild (f : Forest) (b : Branch) (node : Node) : Forest :=
  let children := f.children b
  if children.contains node then (f.setChildren b (children.erase node)).setParent node none
  else f

def replaceChild (f : Forest) (b : Branch) (old new : Node) : Forest :=
  let children := (f.children b).replace old new
  ((f.setChildren b children).setParent old none).setParent new (some b)

def clearChildren (f : Forest) (b : Branch) : Forest :=
  (f.children b).foldl (·.setParent · none) (f.setChildren b [])

end Forest

end Lossless
