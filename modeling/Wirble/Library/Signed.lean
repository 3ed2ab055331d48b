import Mathlib.Algebra.Order.Ring.Abs
import Wirble.Library.Word

/-! Signed arithmetic of a fixed width, which has no result where the exact one does not fit. -/

namespace Signed

/-- The least number of a width. -/
def least (w : Nat) : Int := -2 ^ (w - 1)

/-- The largest number of a width. -/
def most (w : Nat) : Int := 2 ^ (w - 1) - 1

/-- The number is one of the width. -/
def Fits (w : Nat) (x : Int) : Prop := least w ≤ x ∧ x ≤ most w

instance (w : Nat) (x : Int) : Decidable (Fits w x) := inferInstanceAs (Decidable (_ ∧ _))

/-- The number, if it is one of the width. -/
def checked (w : Nat) (x : Int) : Option Int := if Fits w x then some x else none

def add (w : Nat) (a b : Int) : Option Int := checked w (a + b)

def sub (w : Nat) (a b : Int) : Option Int := checked w (a - b)

def mul (w : Nat) (a b : Int) : Option Int := checked w (a * b)

def neg (w : Nat) (a : Int) : Option Int := checked w (-a)

/-- Division cuts off the fraction. -/
def div (w : Nat) (a b : Int) : Option Int := if b = 0 then none else checked w (a.tdiv b)

/-- There is a remainder only if there is a quotient. -/
def mod (w : Nat) (a b : Int) : Option Int := (div w a b).map fun _ => a.tmod b

/-- Only numbers that are not negative are shifted to the left, and by less than the width. -/
def shl (w : Nat) (a b : Int) : Option Int :=
  if 0 ≤ b ∧ b < w ∧ 0 ≤ a then checked w (a * 2 ^ b.toNat) else none

/-- Shifts to the right round down. -/
def shr (w : Nat) (a b : Int) : Option Int :=
  if 0 ≤ b ∧ b < w then some (a / 2 ^ b.toNat) else none

/-! Guards that see beforehand, within the width, that a result fits. -/

def AddFits (w : Nat) (a b : Int) : Prop := if 0 ≤ b then a ≤ most w - b else least w - b ≤ a

def SubFits (w : Nat) (a b : Int) : Prop := if 0 ≤ b then least w + b ≤ a else a ≤ most w + b

/-- The absolute value of one factor is at most the bound divided by that of the other one. -/
def MulFits (w : Nat) (a b : Int) : Prop :=
  a = 0 ∨ |b| ≤ (if 0 < a ↔ 0 < b then most w else most w + 1) / |a|

def NegFits (w : Nat) (a : Int) : Prop := a ≠ least w

def DivFits (w : Nat) (a b : Int) : Prop := ¬ (a = least w ∧ b = -1)

def ShlFits (w : Nat) (a b : Int) : Prop :=
  0 ≤ b ∧ b < w ∧ 0 ≤ a ∧ a ≤ most w / 2 ^ b.toNat

def ShrFits (w : Nat) (b : Int) : Prop := 0 ≤ b ∧ b < w

section Guards

variable {w : Nat} {a b : Int}

/-- The least number of a width is one below the negated most. -/
theorem least_eq (w : Nat) : least w = -most w - 1 := by
  rw [least, most]
  omega

/-- The most is not negative. -/
theorem most_nonneg (w : Nat) : 0 ≤ most w := by
  have positive : (0 : Int) < 2 ^ (w - 1) := Int.pow_pos (by decide)
  rw [most]
  omega

/-- A number has a checked result exactly if it fits. -/
theorem checked_isSome {x : Int} : (checked w x).isSome = true ↔ Fits w x := by
  rw [checked]
  split
  · next fits => exact iff_of_true rfl fits
  · next wide => exact iff_of_false Bool.false_ne_true wide

/-- A checked result is the number. -/
theorem of_checked {x value : Int} (result : checked w x = some value) : value = x := by
  rw [checked] at result
  split at result
  · exact (Option.some.inj result).symm
  · cases result

/-- A sum is defined if it fits. -/
theorem add_isSome (left : Fits w a) : (add w a b).isSome = true ↔ AddFits w a b := by
  rw [add, checked_isSome, AddFits]
  unfold Fits at left ⊢
  split <;> omega

/-- A difference is defined if it fits. -/
theorem sub_isSome (left : Fits w a) : (sub w a b).isSome = true ↔ SubFits w a b := by
  rw [sub, checked_isSome, SubFits]
  unfold Fits at left ⊢
  split <;> omega

/-- A negation is defined if it fits. -/
theorem neg_isSome (fits : Fits w a) : (neg w a).isSome = true ↔ NegFits w a := by
  rw [neg, checked_isSome, NegFits]
  unfold Fits at fits ⊢
  rw [least_eq] at fits ⊢
  omega

/-- Products of numbers with the same sign are bounded by the largest number, and others by the
least one. -/
theorem mul_isSome : (mul w a b).isSome = true ↔ MulFits w a b := by
  -- A bound on the quotient is a bound on the absolute value of the product.
  rw [mul, checked_isSome, MulFits]
  unfold Fits
  rw [least_eq]
  have bound := most_nonneg w
  by_cases zero : a = 0
  · rw [zero, Int.zero_mul]
    simp only [true_or, iff_true]
    omega
  have positive : 0 < |a| := abs_pos.mpr zero
  rw [Int.le_ediv_iff_mul_le positive]
  simp only [zero, false_or]
  -- The bound on the quotient bounds the absolute value of the product.
  have size : |b| * |a| = |a * b| := by
    rw [abs_mul, Int.mul_comm]
  rw [size]
  by_cases same : 0 < a ↔ 0 < b
  · -- The product is not negative.
    have sign : 0 ≤ a * b := by
      rcases Int.lt_trichotomy 0 a with above | equal | below
      · exact Int.mul_nonneg (by omega) (Int.le_of_lt (same.mp above))
      · exact absurd equal.symm zero
      · exact Int.mul_nonneg_of_nonpos_of_nonpos (by omega) (by omega)
    rw [if_pos same, abs_of_nonneg sign]
    omega
  · -- The product is not positive.
    have sign : a * b ≤ 0 := by
      rcases Int.lt_trichotomy 0 a with above | equal | below
      · exact Int.mul_nonpos_of_nonneg_of_nonpos (by omega) (by omega)
      · exact absurd equal.symm zero
      · exact Int.mul_nonpos_of_nonpos_of_nonneg (by omega) (by omega)
    rw [if_neg same, abs_of_nonpos sign]
    omega

/-- A quotient is no larger than the dividend, so only a division that negates can overflow. -/
theorem div_isSome (left : Fits w a) (right : Fits w b) (divisor : b ≠ 0) :
    (div w a b).isSome = true ↔ DivFits w a b := by
  rw [div, if_neg divisor, checked_isSome, DivFits]
  unfold Fits at left right ⊢
  rw [least_eq] at left right ⊢
  have size : (a.tdiv b).natAbs = a.natAbs / b.natAbs := Int.natAbs_tdiv a b
  by_cases one : b = 1
  · rw [one, Int.tdiv_one]
    omega
  by_cases minus : b = -1
  · rw [minus, Int.tdiv_neg, Int.tdiv_one]
    omega
  -- Another divisor halves the dividend at least.
  have two : 2 ≤ b.natAbs := by omega
  have half : a.natAbs / b.natAbs ≤ a.natAbs / 2 := Nat.div_le_div_left two (by decide)
  omega

/-- A remainder is defined if the quotient fits. -/
theorem mod_isSome (left : Fits w a) (right : Fits w b) (divisor : b ≠ 0) :
    (mod w a b).isSome = true ↔ DivFits w a b := by
  rw [mod, Option.isSome_map]
  exact div_isSome left right divisor

/-- A left shift is defined if its count and its result fit. -/
theorem shl_isSome : (shl w a b).isSome = true ↔ ShlFits w a b := by
  rw [shl, ShlFits]
  have bound := most_nonneg w
  split
  · next inside =>
    -- The base is not negative, so the result can only be too large.
    have positive : (0 : Int) < 2 ^ b.toNat := Int.pow_pos (by decide)
    have sign : 0 ≤ a * 2 ^ b.toNat := Int.mul_nonneg inside.2.2 (Int.le_of_lt positive)
    rw [checked_isSome, Int.le_ediv_iff_mul_le positive]
    unfold Fits
    rw [least_eq]
    omega
  -- A count or a base out of range leaves no result.
  · next outside =>
    refine iff_of_false Bool.false_ne_true ?_
    intro fits
    exact outside ⟨fits.1, fits.2.1, fits.2.2.1⟩

/-- A right shift is defined if its count fits. -/
theorem shr_isSome : (shr w a b).isSome = true ↔ ShrFits w b := by
  rw [shr, ShrFits]
  split
  · next inside => exact iff_of_true rfl inside
  · next outside => exact iff_of_false Bool.false_ne_true outside

end Guards

/-! Results that are defined are those of words. -/

section Words

variable {w : Nat} (x y : BitVec w) {value : Int}

/-- A word fits its width. -/
theorem fits_toInt : Fits w x.toInt := by
  have low := BitVec.le_toInt x
  have high := BitVec.toInt_lt (x := x)
  rw [Fits, least, most]
  omega

/-- A checked result is read back from its word. -/
theorem toInt_of_checked {exact : Int} (positive : 0 < w) (result : checked w exact = some value) :
    (BitVec.ofInt w value).toInt = value := by
  have fits : Fits w exact := checked_isSome.mp (Option.isSome_of_eq_some result)
  rw [of_checked result]
  unfold Fits least most at fits
  -- Only a word without bits has no room for a sign.
  exact BitVec.toInt_ofInt_eq_self positive fits.1 (by omega)

/-- A defined sum is the sum of the words. -/
theorem add_word (result : add w x.toInt y.toInt = some value) : BitVec.ofInt w value = x + y := by
  rw [of_checked result, BitVec.ofInt_add, BitVec.ofInt_toInt, BitVec.ofInt_toInt]

/-- A defined negation is the negated word. -/
theorem neg_word (result : neg w x.toInt = some value) : BitVec.ofInt w value = -x := by
  rw [of_checked result, BitVec.ofInt_neg, BitVec.ofInt_toInt]

/-- A defined difference is the difference of the words. -/
theorem sub_word (result : sub w x.toInt y.toInt = some value) : BitVec.ofInt w value = x - y := by
  rw [of_checked result, Int.sub_eq_add_neg, BitVec.ofInt_add, BitVec.ofInt_neg,
    BitVec.ofInt_toInt, BitVec.ofInt_toInt, BitVec.sub_eq_add_neg]

/-- A defined product is the product of the words. -/
theorem mul_word (result : mul w x.toInt y.toInt = some value) : BitVec.ofInt w value = x * y := by
  rw [of_checked result, BitVec.ofInt_mul, BitVec.ofInt_toInt, BitVec.ofInt_toInt]

/-- A divisor that is not zero is not the word of zero. -/
theorem ne_zero_of_div (result : (div w x.toInt y.toInt).isSome = true) : y ≠ 0#w := by
  rintro rfl
  rw [div, if_pos BitVec.toInt_zero] at result
  cases result

/-- A defined quotient is the quotient of the words. -/
theorem div_word (result : div w x.toInt y.toInt = some value) :
    BitVec.ofInt w value = Word.div x y := by
  have divisor := ne_zero_of_div x y (Option.isSome_of_eq_some result)
  -- A quotient by zero is undefined, and so is the one that does not fit.
  rw [div] at result
  split at result
  · cases result
  · rw [of_checked result, Word.div, if_neg divisor]
    apply BitVec.eq_of_toInt_eq
    rw [BitVec.toInt_ofInt, BitVec.toInt_sdiv]

/-- A defined remainder is the remainder of the words. -/
theorem mod_word (result : mod w x.toInt y.toInt = some value) :
    BitVec.ofInt w value = Word.mod x y := by
  obtain ⟨quotient, divided, rfl⟩ := Option.map_eq_some_iff.mp result
  have divisor := ne_zero_of_div x y (Option.isSome_of_eq_some divided)
  rw [Word.mod, if_neg divisor, ← BitVec.toInt_srem, BitVec.ofInt_toInt]

/-- A count below the width is the same number whether it has a sign or not. -/
theorem count_word (positive : 0 ≤ y.toInt) (small : y.toInt < w) :
    y.toInt.toNat = y.toNat % w := by
  -- A number that is not negative has no sign bit.
  have same : (y.toNat : Int) = y.toInt := by
    rw [BitVec.toInt_eq_toNat_cond] at positive ⊢
    have bound := y.isLt
    split <;> omega
  rw [← same] at small ⊢
  rw [Int.toNat_natCast, Nat.mod_eq_of_lt (by omega)]

/-- A defined left shift is the shifted word. -/
theorem shl_word (result : shl w x.toInt y.toInt = some value) :
    BitVec.ofInt w value = Word.shl x y := by
  rw [shl] at result
  split at result
  · next inside =>
    -- Shifting a word multiplies its integer, modulo the width.
    rw [of_checked result, Word.shl, count_word y inside.1 inside.2.1]
    apply BitVec.eq_of_toInt_eq
    rw [BitVec.toInt_ofInt, BitVec.toInt_shiftLeft, BitVec.toInt_eq_toNat_bmod, Int.bmod_mul_bmod,
      Int.natCast_shiftLeft, Int.shiftLeft_eq]
  · cases result

/-- A defined right shift is the shifted word. -/
theorem shr_word (result : shr w x.toInt y.toInt = some value) :
    BitVec.ofInt w value = Word.shr x y := by
  rw [shr] at result
  split at result
  · next inside =>
    -- Shifting a word divides its integer, rounded down.
    have quotient : (x.sshiftRight (y.toNat % w)).toInt = x.toInt / 2 ^ (y.toNat % w) := by
      rw [BitVec.toInt_sshiftRight, Int.shiftRight_eq_div_pow]
      norm_cast
    rw [← Option.some.inj result, Word.shr, count_word y inside.1 inside.2, ← quotient,
      BitVec.ofInt_toInt]
  · cases result

end Words

end Signed
