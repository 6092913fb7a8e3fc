/-! White space: the characters of the Unicode property White_Space. A line ends at `'\n'` alone;
every other member of the class is ordinary space inside a line. -/

namespace Lossless.Text

def isBlankChar (c : Char) : Bool :=
  let n := c.toNat
  (9 ≤ n && n ≤ 13) || n == 0x20 || n == 0x85 || n == 0xA0 || n == 0x1680 ||
    (0x2000 ≤ n && n ≤ 0x200A) || n == 0x2028 || n == 0x2029 || n == 0x202F ||
    n == 0x205F || n == 0x3000

/-- A text without ink: empty, or white space only. -/
def isBlank (s : String) : Bool :=
  s.toList.all isBlankChar

def trimStart (cs : List Char) : List Char :=
  cs.dropWhile isBlankChar

def trimEnd (cs : List Char) : List Char :=
  (cs.reverse.dropWhile isBlankChar).reverse

def trim (cs : List Char) : List Char :=
  trimEnd (trimStart cs)

end Lossless.Text
