import Lossless.Kind

/-! Grammars: which kinds of container are lists, optionals, tuples or blocks, by which rules they
are edited, and how the type names of an outside parser map to kinds. -/

namespace Lossless

inductive Language where
  | python
  | javaScript
deriving DecidableEq, Repr

namespace Language

def all : List Language := [.python, .javaScript]

def name : Language → String
  | .python => "python"
  | .javaScript => "javascript"

def ofName? (name : String) : Option Language :=
  all.find? (·.name == name)

def asciiLower (text : String) : String :=
  String.ofList (text.toList.map Char.toLower)

/-- The language that a user means, whatever the case of its ASCII letters. -/
def parse? (text : String) : Option Language :=
  match asciiLower text with
  | "python" | "py" => some .python
  | "javascript" | "js" => some .javaScript
  | _ => none

end Language

/-- Where a rule holds, by the indentation of the container: top level is no indentation. -/
inductive Scope where
  | always
  | never
  | topLevel
  | nested
deriving DecidableEq, Repr

def Scope.applies : Scope → Bool → Bool
  | .always, _ => true
  | .never, _ => false
  | .topLevel, top => top
  | .nested, top => !top

/-- The element that an empty list is given. -/
structure Placeholder where
  text : String
  scope : Scope
deriving DecidableEq, Repr

/-- Least number of blank lines beside elements of a kind. -/
structure BlankLines where
  kind : Kind
  lines : Nat
  scope : Scope
deriving DecidableEq, Repr

structure ListRule where
  element : Kind
  /-- Kinds that are wrapped in the element kind when they are added. -/
  inner : List Kind := []
  delimiter : String := ""
  multiline : Bool := false
  above : Scope := .always
  below : Scope := .always
  placeholder : Option Placeholder := none
  /-- Blank lines between elements; `none` leaves the lines between them alone. -/
  padding : Option (List BlankLines) := none
  /-- Clauses that hang off a block, such as `else if` and `catch`. -/
  trailing : Bool := false
  /-- Texts of a first element that clearing keeps. -/
  retained : List String := []
deriving DecidableEq, Repr

namespace ListRule

/-- Elements on one line with a delimiter between them. -/
def delimited (element : Kind) (delimiter : String) : ListRule :=
  { element, delimiter }

/-- Elements on lines of their own, with blank lines between them by the given rules. -/
def onLines (element : Kind) (inner : List Kind) (padding : List BlankLines) : ListRule :=
  { element, inner, multiline := true, padding := some padding }

/-- Clauses that hang off the block before them. -/
def clauses (element : Kind) (multiline : Bool) : ListRule :=
  { element, multiline, below := .never, trailing := true }

def accepts (rule : ListRule) (kind : Kind) : Bool :=
  kind == rule.element || rule.inner.contains kind

def isPadded (rule : ListRule) : Bool :=
  rule.padding.isSome

end ListRule

/-- Where the content of an optional goes. -/
inductive Placement where
  /-- Where the parent makes room for it. -/
  | spaced
  /-- Directly after the token before it. -/
  | adjacent
  /-- On lines of its own. -/
  | multiline
  /-- On the line of the token before it, after a space. -/
  | trailingInline
deriving DecidableEq, Repr

structure OptionalRule where
  element : Kind
  inner : List Kind := []
  opening : String := ""
  closing : String := ""
  placement : Placement := .spaced
deriving DecidableEq, Repr

namespace OptionalRule

def accepts (rule : OptionalRule) (kind : Kind) : Bool :=
  kind == rule.element || rule.inner.contains kind

def isMultiline (rule : OptionalRule) : Bool :=
  rule.placement == .multiline || rule.placement == .trailingInline

end OptionalRule

/-- What a plain container puts beside a child that appears in it. -/
inductive Spacing where
  | space
  | tight
deriving DecidableEq, Repr

inductive Shape where
  | plain (spacing : Spacing)
  | list (rule : ListRule)
  | optional (rule : OptionalRule)
  /-- Fixed slots with a delimiter between those that are present. -/
  | tuple (delimiter : String)
  /-- A body whose content sets the indentation of what is added to it. -/
  | block
  | comment
deriving DecidableEq, Repr

structure Grammar where
  language : Language
  indentWidth : Nat
  useTabs : Bool := false
  /-- The first entry of a kind counts. -/
  shapes : List (Kind × Shape) := []
  /-- The first entry of a type name counts. -/
  aliases : List (String × Kind) := []
  commentTypes : List String := ["comment"]
deriving DecidableEq, Repr

namespace Grammar

/-- Give a kind a shape, whatever it had before. -/
def withShape (g : Grammar) (kind : Kind) (shape : Shape) : Grammar :=
  { g with shapes := (kind, shape) :: g.shapes }

def withAlias (g : Grammar) (typeName : String) (kind : Kind) : Grammar :=
  { g with aliases := (typeName, kind) :: g.aliases }

def withCommentType (g : Grammar) (typeName : String) : Grammar :=
  if g.commentTypes.contains typeName then g
  else { g with commentTypes := g.commentTypes ++ [typeName] }

/-- Comments have the comment shape in every grammar. -/
def shape (g : Grammar) (kind : Kind) : Shape :=
  if kind = .comment then .comment else (g.shapes.lookup kind).getD (.plain .space)

def listRule? (g : Grammar) (kind : Kind) : Option ListRule :=
  match g.shape kind with
  | .list rule => some rule
  | _ => none

def optionalRule? (g : Grammar) (kind : Kind) : Option OptionalRule :=
  match g.shape kind with
  | .optional rule => some rule
  | _ => none

def isTuple (g : Grammar) (kind : Kind) : Bool :=
  match g.shape kind with
  | .tuple _ => true
  | _ => false

def isBlock (g : Grammar) (kind : Kind) : Bool :=
  g.shape kind == .block

/-- Containers of `kind` take a node of the other kind as an element, as it is or wrapped. -/
def accepts (g : Grammar) (kind element : Kind) : Bool :=
  match g.shape kind with
  | .list rule => rule.accepts element
  | .optional rule => rule.accepts element
  | _ => false

/-- The kind of the elements of a list or an optional. -/
def elementKind? (g : Grammar) (kind : Kind) : Option Kind :=
  match g.shape kind with
  | .list rule => some rule.element
  | .optional rule => some rule.element
  | _ => none

/-- The element kind in which a node of `kind` is wrapped inside `parent`: there is one when the
parent holds the kind as an inner kind only. -/
def wrapper? (g : Grammar) (parent kind : Kind) : Option Kind :=
  let wrap (element : Kind) (inner : List Kind) :=
    if kind != element && inner.contains kind then some element else none
  match g.shape parent with
  | .list rule => wrap rule.element rule.inner
  | .optional rule => wrap rule.element rule.inner
  | _ => none

/-- The container kind of a parser's type name: an alias, or else the kind of that name. -/
def kindFor? (g : Grammar) (typeName : String) : Option Kind :=
  ((g.aliases.lookup typeName).or (Kind.ofName? typeName)).filter (!·.isToken)

def isCommentType (g : Grammar) (typeName : String) : Bool :=
  g.commentTypes.contains typeName

/-- One step of indentation when the text shows none. -/
def indentStep (g : Grammar) : String :=
  if g.useTabs then "\t" else String.ofList (List.replicate g.indentWidth ' ')

end Grammar

end Lossless
