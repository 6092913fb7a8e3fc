/-! Decimal numbers by their digits and a power of ten, and which of them a double can hold. -/

namespace Lossless.Text

/-- The number `mantissa * 10 ^ exponent`. -/
structure Decimal where
  mantissa : Nat
  exponent : Int
deriving DecidableEq, Repr

namespace Decimal

/-- Half a step above the largest finite double. From here on the nearest double is infinity,
because a half goes to the even neighbour. -/
def ceiling : Nat := Nat.pow 2 1024 - Nat.pow 2 970

/-- Whether the nearest double is finite. Powers of ten that settle this alone, by passing the
ceiling or by outweighing the digits, are not computed. -/
def isFinite (d : Decimal) : Bool :=
  match d.exponent with
  | .ofNat e => d.mantissa == 0 || (e < 309 && d.mantissa * Nat.pow 10 e < ceiling)
  | .negSucc e => d.mantissa.log2 ≤ e || d.mantissa < ceiling * Nat.pow 10 (e + 1)

theorem ceiling_pos : 0 < ceiling := by decide +kernel

theorem ten_pow_pow_le {a b e : Nat} (h : a * b ≤ e) :
    Nat.pow (Nat.pow 10 a) b ≤ Nat.pow 10 e :=
  Nat.le_trans (Nat.le_of_eq (Nat.pow_mul 10 a b).symm) (Nat.pow_le_pow_right (by decide) h)

theorem ceiling_le_ten_pow {e : Nat} (h : 309 ≤ e) : ceiling ≤ Nat.pow 10 e :=
  Nat.le_trans (show ceiling ≤ Nat.pow (Nat.pow 10 103) 3 by decide +kernel) (ten_pow_pow_le h)

theorem isFinite_ofNat (m e : Nat) :
    isFinite ⟨m, .ofNat e⟩ = decide (m * Nat.pow 10 e < ceiling) := by
  rcases Nat.eq_zero_or_pos m with rfl | hm
  · simp [isFinite, ceiling_pos]
  · by_cases he : e < 309
    · simp [isFinite, he, Nat.ne_of_gt hm]
    · have : ceiling ≤ m * Nat.pow 10 e :=
        Nat.le_trans (ceiling_le_ten_pow (Nat.le_of_not_lt he)) (Nat.le_mul_of_pos_left _ hm)
      simp [-Nat.pow_eq, isFinite, he, Nat.ne_of_gt hm, Nat.not_lt.2 this]

theorem isFinite_negSucc (m e : Nat) :
    isFinite ⟨m, .negSucc e⟩ = decide (m < ceiling * Nat.pow 10 (e + 1)) := by
  by_cases he : m.log2 ≤ e
  · have h₁ : m < Nat.pow 2 (e + 1) :=
      Nat.lt_of_lt_of_le Nat.lt_log2_self (Nat.pow_le_pow_right (by decide) (by omega))
    have h₂ : Nat.pow 2 (e + 1) ≤ Nat.pow 10 (e + 1) := Nat.pow_le_pow_left (by decide) _
    have h₃ : Nat.pow 10 (e + 1) ≤ ceiling * Nat.pow 10 (e + 1) := Nat.le_mul_of_pos_left _ ceiling_pos
    simp [-Nat.pow_eq, isFinite, he, Nat.lt_of_lt_of_le h₁ (Nat.le_trans h₂ h₃)]
  · simp [isFinite, he]

end Decimal

end Lossless.Text
