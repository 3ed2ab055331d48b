import Mathlib.Data.BitVec

/-! Two's complement words of any width, with total division and masked shifts. -/

namespace Word

variable {w : Nat}

/-- Signed division, where a zero divisor gives zero. -/
def div (x y : BitVec w) : BitVec w := if y = 0#w then 0#w else x.sdiv y

/-- Signed remainder, where a zero divisor gives zero. -/
def mod (x y : BitVec w) : BitVec w := if y = 0#w then 0#w else x.srem y

/-- Left shift, with the count taken modulo the width as shift instructions do. -/
def shl (x y : BitVec w) : BitVec w := x <<< (y.toNat % w)

/-- Arithmetic right shift, with the count taken modulo the width. -/
def shr (x y : BitVec w) : BitVec w := x.sshiftRight (y.toNat % w)

/-- At a positive width one differs from zero. -/
theorem one_ne_zero (positive : 0 < w) : ¬ 1#w = 0#w := by
  intro equal
  have values := congrArg BitVec.toNat equal
  have large : 1 < 2 ^ w := Nat.one_lt_two_pow (by omega)
  simp [BitVec.toNat_ofNat, Nat.mod_eq_of_lt large] at values

/-- Dividing by one changes nothing. -/
theorem div_one (x : BitVec w) : div x 1#w = x := by
  rcases Nat.eq_zero_or_pos w with rfl | positive
  · -- There is only one word without bits.
    exact Subsingleton.elim _ _
  · simp [div, one_ne_zero positive, BitVec.sdiv_one]

/-- The remainder of a division by one is zero. -/
theorem mod_one (x : BitVec w) : mod x 1#w = 0#w := by
  simp [mod]

/-- A word divided by itself is one unless it is a zero that differs from one. -/
theorem div_self_eq_one_iff (x : BitVec w) :
    div x x = 1#w ↔ ¬ (0 < w ∧ x = 0#w) := by
  rcases Nat.eq_zero_or_pos w with rfl | positive
  · -- Without bits the quotient and one are the same word.
    exact iff_of_true (Subsingleton.elim _ _) fun bad => Nat.lt_irrefl 0 bad.1
  · constructor
    · rintro quotient ⟨-, rfl⟩
      -- Zero divided by itself is zero.
      have zero : 0#w = 1#w := by simpa [div] using quotient
      exact one_ne_zero positive zero.symm
    · intro nonzero
      have nonzero : ¬ x = 0#w := fun zero => nonzero ⟨positive, zero⟩
      simp [div, nonzero, BitVec.sdiv_self]

/-- Shifting by zero bits changes nothing. -/
theorem shl_zero (x : BitVec w) : shl x 0#w = x := by
  simp [shl]

/-- Shifting by zero bits changes nothing, to the right either. -/
theorem shr_zero (x : BitVec w) : shr x 0#w = x := by
  simp [shr]

/-- A sum of equal words is a product with two. -/
theorem add_self (x : BitVec w) : x + x = x * 2#w := by
  rw [BitVec.mul_two]

/-- A product with minus one is the negation. -/
theorem mul_neg_one (x : BitVec w) : x * BitVec.ofInt w (-1) = -x := by
  rw [BitVec.ofInt_neg]
  simp

/-- Negation does not change the absolute value, the minimum included. -/
theorem abs_neg (x : BitVec w) : (-x).abs = x.abs := by
  -- Zero and the minimum are their own negations, and any other negation flips the sign.
  by_cases zero : x = 0#w
  · simp [zero]
  · by_cases minimum : x = BitVec.intMin w
    · simp [minimum, BitVec.neg_intMin]
    · have flipped : (-x).msb = !x.msb := BitVec.msb_neg_of_ne_intMin_of_ne_zero minimum zero
      rw [BitVec.abs_eq, BitVec.abs_eq, flipped]
      cases x.msb <;> simp

/-- Minus one may be the first factor as well. -/
theorem neg_one_mul (x : BitVec w) : BitVec.ofInt w (-1) * x = -x := by
  rw [BitVec.mul_comm, mul_neg_one]

/-- Adding a negation is subtracting. -/
theorem add_neg (x y : BitVec w) : x + -y = x - y := (BitVec.sub_eq_add_neg x y).symm

/-- The negation may come first as well. -/
theorem neg_add (x y : BitVec w) : -y + x = x - y := by
  rw [BitVec.add_comm, add_neg]

/-- A small number is the same word at every width, however it is widened. -/
theorem ofNat_widen {own value : Nat} (small : 2 * value < 2 ^ own) :
    (BitVec.ofNat own value).signExtend w = BitVec.ofNat w value ∧
      (BitVec.ofNat own value).setWidth w = BitVec.ofNat w value := by
  have number : (BitVec.ofNat own value).toNat = value := by
    rw [BitVec.toNat_ofNat, Nat.mod_eq_of_lt (by omega)]
  constructor
  · -- The sign bit is clear, so widening by the sign adds zeros.
    have sign : (BitVec.ofNat own value).toInt = value := by
      rw [BitVec.toInt_eq_toNat_of_lt (by rw [number]; exact small), number]
    rw [BitVec.signExtend, sign, BitVec.ofInt_natCast]
  · rw [← BitVec.ofNat_toNat, number]

/-! Words of one bit are truth values. -/

/-- On one bit, one is neutral for the conjunction. -/
theorem and_one (x : BitVec 1) : x &&& 1#1 = x := BitVec.and_allOnes

/-- On one bit, one is neutral on the left as well. -/
theorem one_and (x : BitVec 1) : 1#1 &&& x = x := BitVec.allOnes_and

/-- On one bit, a disjunction with one is one. -/
theorem or_one (x : BitVec 1) : x ||| 1#1 = 1#1 := BitVec.or_allOnes

/-- On one bit, one may stand on the left as well. -/
theorem one_or (x : BitVec 1) : 1#1 ||| x = 1#1 := BitVec.allOnes_or

/-- The complement of a bit is one if the bit is not. -/
theorem not_eq_one (x : BitVec 1) : ~~~x = 1#1 ↔ ¬ x = 1#1 := by
  revert x
  decide

/-- What is not less is greater or equal. -/
theorem not_slt (x y : BitVec w) : (!x.slt y) = y.sle x := by
  rw [BitVec.sle_eq_not_slt]

/-- What is not less or equal is greater. -/
theorem not_sle (x y : BitVec w) : (!x.sle y) = y.slt x := by
  rw [BitVec.sle_eq_not_slt, Bool.not_not]

end Word
