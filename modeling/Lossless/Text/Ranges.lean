/-! Sets of characters written as ranges of their numbers. -/

namespace Lossless.Text

/-- Whether one of the ranges, each given by its first and last number, holds a character. -/
def isInRanges (ranges : List (Nat × Nat)) (c : Char) : Bool :=
  ranges.any fun (first, last) => first ≤ c.toNat && c.toNat ≤ last

end Lossless.Text
