/-! Fractions, and the doubles next to them. A double is kept as the exact fraction that it is. -/

namespace Lossless

structure Fraction where
  num : Nat
  den : Nat
deriving DecidableEq, Repr

namespace Fraction

def ofNat (n : Nat) : Fraction :=
  ⟨n, 1⟩

def mul (p q : Fraction) : Fraction :=
  ⟨p.num * q.num, p.den * q.den⟩

def div (p q : Fraction) : Fraction :=
  ⟨p.num * q.den, p.den * q.num⟩

/-- The nearest whole number; a half goes to the even neighbour. -/
def round (q : Fraction) : Nat :=
  let rest := 2 * (q.num % q.den)
  if q.den < rest || (rest == q.den && q.num / q.den % 2 == 1) then q.num / q.den + 1
  else q.num / q.den

/-- Binary digits of a double. -/
def precision : Nat := 53

/-- The power of two by which a fraction is multiplied to give its whole part the digits of a
double. -/
def scale (q : Fraction) : Fraction :=
  let up := Nat.pow 2 (precision + q.den.log2 - q.num.log2)
  let down := Nat.pow 2 (q.num.log2 - (precision + q.den.log2))
  if q.num * up < q.den * down * Nat.pow 2 precision then ⟨up, down⟩ else ⟨up, 2 * down⟩

/-- The nearest double. Infinity and the doubles with fewer digits next to zero are left out:
numbers of 64 bits, their quotients and percentages do not come near them. -/
def toDouble (q : Fraction) : Fraction :=
  (ofNat (q.mul q.scale).round).div q.scale

end Fraction

end Lossless
