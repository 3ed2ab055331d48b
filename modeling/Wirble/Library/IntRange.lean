import Wirble.Library.Signed

/-! Intervals of numbers, and where the signed operations are defined on all of them. -/

/-- All numbers between two bounds. -/
structure IntRange where
  lo : Int
  hi : Int
  deriving DecidableEq, Repr

namespace IntRange

/-- The number is in the interval. -/
def Has (range : IntRange) (x : Int) : Prop := range.lo ≤ x ∧ x ≤ range.hi

instance (range : IntRange) (x : Int) : Decidable (range.Has x) :=
  inferInstanceAs (Decidable (_ ∧ _))

/-- The interval of one number. -/
def point (x : Int) : IntRange := ⟨x, x⟩

/-- All numbers of a width. -/
def all (w : Nat) : IntRange := ⟨Signed.least w, Signed.most w⟩

/-- One interval lies in another. -/
def Inside (inner outer : IntRange) : Prop := outer.lo ≤ inner.lo ∧ inner.hi ≤ outer.hi

instance (inner outer : IntRange) : Decidable (inner.Inside outer) :=
  inferInstanceAs (Decidable (_ ∧ _))

/-! The exact results on two intervals lie between these bounds. -/

def add (a b : IntRange) : IntRange := ⟨a.lo + b.lo, a.hi + b.hi⟩

def sub (a b : IntRange) : IntRange := ⟨a.lo - b.hi, a.hi - b.lo⟩

def neg (a : IntRange) : IntRange := ⟨-a.hi, -a.lo⟩

/-- A product is extreme where both factors are. -/
def mul (a b : IntRange) : IntRange where
  lo := min (min (a.lo * b.lo) (a.lo * b.hi)) (min (a.hi * b.lo) (a.hi * b.hi))
  hi := max (max (a.lo * b.lo) (a.lo * b.hi)) (max (a.hi * b.lo) (a.hi * b.hi))

/-- The numbers that are no further from zero than some of the interval. -/
def magnitude (a : IntRange) : IntRange := ⟨-max |a.lo| |a.hi|, max |a.lo| |a.hi|⟩

/-- What numbers that are not negative become when they are shifted to the left. -/
def shl (a b : IntRange) : IntRange := ⟨0, a.hi * 2 ^ b.hi.toNat⟩

/-- Shifting to the right goes towards zero, or towards minus one. -/
def shr (a : IntRange) : IntRange := ⟨min a.lo 0, max a.hi 0⟩

/-- No division of one number by the other overflows. -/
def DivFits (w : Nat) (a b : IntRange) : Prop :=
  ¬ (a.lo ≤ Signed.least w ∧ b.lo ≤ -1 ∧ -1 ≤ b.hi)

/-- All counts are below the width, and no number is negative or becomes too large. -/
def ShlFits (w : Nat) (a b : IntRange) : Prop :=
  0 ≤ b.lo ∧ b.hi < w ∧ 0 ≤ a.lo ∧ a.hi ≤ Signed.most w / 2 ^ b.hi.toNat

def ShrFits (w : Nat) (b : IntRange) : Prop := 0 ≤ b.lo ∧ b.hi < w

instance (w : Nat) (a b : IntRange) : Decidable (DivFits w a b) :=
  inferInstanceAs (Decidable (¬ _))

instance (w : Nat) (a b : IntRange) : Decidable (ShlFits w a b) :=
  inferInstanceAs (Decidable (_ ∧ _))

instance (w : Nat) (b : IntRange) : Decidable (ShrFits w b) :=
  inferInstanceAs (Decidable (_ ∧ _))

section Bounds

variable {a b : IntRange} {x y : Int}

/-- A point holds its number. -/
theorem has_point : (point x).Has x := ⟨Int.le_refl x, Int.le_refl x⟩

/-- A range inside another holds none but its numbers. -/
theorem Inside.has (inside : a.Inside b) (has : a.Has x) : b.Has x :=
  ⟨Int.le_trans inside.1 has.1, Int.le_trans has.2 inside.2⟩

/-- Sums are in the sum of the ranges. -/
theorem has_add (left : a.Has x) (right : b.Has y) : (a.add b).Has (x + y) :=
  ⟨Int.add_le_add left.1 right.1, Int.add_le_add left.2 right.2⟩

/-- Differences are in the difference of the ranges. -/
theorem has_sub (left : a.Has x) (right : b.Has y) : (a.sub b).Has (x - y) :=
  ⟨Int.sub_le_sub left.1 right.2, Int.sub_le_sub left.2 right.1⟩

/-- Negations are in the negated range. -/
theorem has_neg (left : a.Has x) : a.neg.Has (-x) := ⟨Int.neg_le_neg left.2, Int.neg_le_neg left.1⟩

/-- A product lies between those with the ends of an interval of the other factor. -/
theorem mul_between (x : Int) {low high : Int} (above : low ≤ y) (below : y ≤ high) :
    min (x * low) (x * high) ≤ x * y ∧ x * y ≤ max (x * low) (x * high) := by
  rcases Int.le_total 0 x with positive | negative
  · -- Multiplication keeps the order.
    exact ⟨Int.le_trans (Int.min_le_left _ _) (Int.mul_le_mul_of_nonneg_left above positive),
      Int.le_trans (Int.mul_le_mul_of_nonneg_left below positive) (Int.le_max_right _ _)⟩
  · -- Multiplication turns the order around.
    exact ⟨Int.le_trans (Int.min_le_right _ _) (Int.mul_le_mul_of_nonpos_left negative below),
      Int.le_trans (Int.mul_le_mul_of_nonpos_left negative above) (Int.le_max_left _ _)⟩

/-- Products are in the product of the ranges. -/
theorem has_mul (left : a.Has x) (right : b.Has y) : (a.mul b).Has (x * y) := by
  -- First the second factor goes to its ends, then the first one.
  have outer := mul_between x right.1 right.2
  have low := mul_between b.lo left.1 left.2
  have high := mul_between b.hi left.1 left.2
  rw [Int.mul_comm b.lo, Int.mul_comm b.lo, Int.mul_comm b.lo] at low
  rw [Int.mul_comm b.hi, Int.mul_comm b.hi, Int.mul_comm b.hi] at high
  show min _ _ ≤ _ ∧ _ ≤ max _ _
  omega

/-- A number is no further from zero than the ends of an interval around it. -/
theorem abs_le_ends (left : a.Has x) : |x| ≤ max |a.lo| |a.hi| := by
  have low := neg_abs_le a.lo
  have high := le_abs_self a.hi
  have bounds := left
  rw [Has] at bounds
  refine abs_le.mpr ⟨?_, ?_⟩ <;> omega

/-- What is no greater in magnitude than a number of the range is within the magnitude. -/
theorem has_magnitude_of_abs (left : a.Has x) {z : Int} (small : |z| ≤ |x|) : a.magnitude.Has z :=
  abs_le.mp (Int.le_trans small (abs_le_ends left))

/-- Zero is within every magnitude. -/
theorem has_magnitude_zero (a : IntRange) : a.magnitude.Has 0 := by
  have positive : 0 ≤ max |a.lo| |a.hi| := Int.le_trans (abs_nonneg a.lo) (Int.le_max_left _ _)
  exact ⟨Int.neg_nonpos_of_nonneg positive, positive⟩

/-- A quotient is no further from zero than the dividend. -/
theorem has_tdiv (left : a.Has x) : a.magnitude.Has (x.tdiv y) := by
  refine has_magnitude_of_abs left ?_
  rw [Int.abs_eq_natAbs, Int.abs_eq_natAbs, Int.natAbs_tdiv]
  exact Int.ofNat_le.mpr (Nat.div_le_self _ _)

/-- A remainder is no further from zero than the dividend. -/
theorem has_tmod (left : a.Has x) : a.magnitude.Has (x.tmod y) := by
  refine has_magnitude_of_abs left ?_
  rw [Int.abs_eq_natAbs, Int.abs_eq_natAbs, Int.natAbs_tmod]
  exact Int.ofNat_le.mpr (Nat.mod_le _ _)

/-- Left shifts of what is not negative are in the shifted range. -/
theorem has_shl (left : a.Has x) (right : b.Has y) (positive : 0 ≤ x) :
    (a.shl b).Has (x * 2 ^ y.toNat) := by
  have power : (2 : Int) ^ y.toNat ≤ 2 ^ b.hi.toNat := by
    have exponents := Int.toNat_le_toNat right.2
    exact_mod_cast Nat.pow_le_pow_right (by decide) exponents
  have one : (0 : Int) < 2 ^ y.toNat := Int.pow_pos (by decide)
  refine ⟨Int.mul_nonneg positive (Int.le_of_lt one), ?_⟩
  -- Both the number and the power are at most those at the upper ends.
  exact Int.mul_le_mul left.2 power (Int.le_of_lt one) (Int.le_trans positive left.2)

/-- Right shifts by any count are in the shifted range. -/
theorem has_shr (left : a.Has x) (count : Nat) : a.shr.Has (x / 2 ^ count) := by
  have power : (0 : Int) < 2 ^ count := Int.pow_pos (by decide)
  show min a.lo 0 ≤ _ ∧ _ ≤ max a.hi 0
  obtain ⟨low, high⟩ := left
  rcases Int.le_total 0 x with positive | negative
  · have small : x / 2 ^ count ≤ x := Int.ediv_le_self _ positive
    have sign : 0 ≤ x / 2 ^ count := Int.ediv_nonneg positive (Int.le_of_lt power)
    omega
  · -- A negative number stays at or below minus one.
    have sign : x / 2 ^ count ≤ 0 := Int.ediv_nonpos_of_nonpos_of_neg negative power
    have large : x ≤ x / 2 ^ count := by
      rw [Int.le_ediv_iff_mul_le power]
      have least := Int.mul_le_mul_of_nonpos_left negative (Int.add_one_le_of_lt power)
      omega
    omega

end Bounds

/-! The operations are defined on all numbers of intervals that meet the conditions. -/

section Guards

variable {w : Nat} {a b : IntRange} {x y : Int}

/-- Numbers of a range inside all of a width fit the width. -/
theorem Inside.fits (inside : a.Inside (all w)) (has : a.Has x) : Signed.Fits w x :=
  inside.has has

/-- A quotient is defined on numbers of ranges for which it is. -/
theorem DivFits.sound (fits : DivFits w a b) (left : a.Has x) (right : b.Has y) :
    Signed.DivFits w x y := by
  rintro ⟨rfl, rfl⟩
  exact fits ⟨left.1, right.1, right.2⟩

/-- A shift is defined by counts of a range for which it is. -/
theorem ShrFits.sound (fits : ShrFits w b) (right : b.Has y) : Signed.ShrFits w y :=
  ⟨Int.le_trans fits.1 right.1, Int.lt_of_le_of_lt right.2 fits.2⟩

/-- A larger count allows only smaller numbers. -/
theorem ShlFits.sound (fits : ShlFits w a b) (left : a.Has x) (right : b.Has y) :
    Signed.ShlFits w x y := by
  obtain ⟨first, last, positive, small⟩ := fits
  refine ⟨Int.le_trans first right.1, Int.lt_of_le_of_lt right.2 last,
    Int.le_trans positive left.1, Int.le_trans left.2 (Int.le_trans small ?_)⟩
  have power : (2 : Int) ^ y.toNat ≤ 2 ^ b.hi.toNat := by
    have exponents := Int.toNat_le_toNat right.2
    exact_mod_cast Nat.pow_le_pow_right (by decide) exponents
  have one : (0 : Int) < 2 ^ y.toNat := Int.pow_pos (by decide)
  -- Dividing by more leaves less.
  rw [Int.le_ediv_iff_mul_le one]
  have most := Int.ediv_mul_le (Signed.most w) (Int.ne_of_gt (Int.lt_of_lt_of_le one power))
  have quotient : 0 ≤ Signed.most w / 2 ^ b.hi.toNat :=
    Int.ediv_nonneg (Signed.most_nonneg w) (Int.le_of_lt (Int.lt_of_lt_of_le one power))
  exact Int.le_trans (Int.mul_le_mul_of_nonneg_left power quotient) most

/-! On single numbers nothing is lost. -/

/-- The product of points is a point. -/
theorem point_mul : (point x).mul (point y) = point (x * y) := by
  simp [mul, point]

/-- On points, a quotient is defined for the ranges just when it is for the numbers. -/
theorem divFits_point (left : Signed.Fits w x) :
    DivFits w (point x) (point y) ↔ Signed.DivFits w x y := by
  have low := left.1
  -- The dividend is not below the least number.
  simp only [DivFits, Signed.DivFits, point]
  omega

end Guards

end IntRange
