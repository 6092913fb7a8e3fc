import Lossless.Span

/-! Texts measured in UTF-8 bytes: lengths, boundaries between characters, cuts and searches by
byte offset. -/

namespace Lossless.Text

def bytes : List Char → Nat
  | [] => 0
  | c :: cs => c.utf8Size + bytes cs

def dropBytes : Nat → List Char → List Char
  | 0, cs => cs
  | _ + 1, [] => []
  | n + 1, c :: cs => dropBytes (n + 1 - c.utf8Size) cs

def takeBytes : Nat → List Char → List Char
  | 0, _ => []
  | _ + 1, [] => []
  | n + 1, c :: cs => c :: takeBytes (n + 1 - c.utf8Size) cs

/-- Byte `n` is an end of the text or lies between two of its characters. -/
def isBoundary : List Char → Nat → Bool
  | _, 0 => true
  | [], _ + 1 => false
  | c :: cs, n + 1 => c.utf8Size ≤ n + 1 && isBoundary cs (n + 1 - c.utf8Size)

/-- The last boundary that is not past byte `n`. -/
def floorBoundary : List Char → Nat → Nat
  | [], _ => 0
  | c :: cs, n =>
    if c.utf8Size ≤ n then c.utf8Size + floorBoundary cs (n - c.utf8Size) else 0

def slice (cs : List Char) (span : Span) : List Char :=
  takeBytes (span.stop - span.start) (dropBytes span.start cs)

/-- The span runs forward and cuts no character. -/
def isCharSpan (cs : List Char) (span : Span) : Bool :=
  span.start ≤ span.stop && span.stop ≤ bytes cs &&
    isBoundary cs span.start && isBoundary cs span.stop

def find? (pattern : List Char) : List Char → Option Nat
  | [] => if pattern.isEmpty then some 0 else none
  | c :: cs =>
    if pattern.isPrefixOf (c :: cs) then some 0
    else (find? pattern cs).map (c.utf8Size + ·)

end Lossless.Text
