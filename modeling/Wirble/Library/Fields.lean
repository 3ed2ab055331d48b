import Mathlib.Data.BitVec

/-! Words that are put together from fields at fixed places. -/

namespace Fields

variable {n : Nat}

/-- A field at its place in a word. -/
def place {w : Nat} (start : Nat) (field : BitVec w) : BitVec n := field.setWidth n <<< start

/-- The bits of a word from one place up to another are zero. -/
def Clear (word : BitVec n) (low high : Nat) : Prop :=
  ∀ index, low ≤ index → index < high → word.getLsbD index = false

section

variable {word left right : BitVec n} {low high start w : Nat}

/-- A disjunction is clear where both sides are. -/
theorem Clear.or (first : Clear left low high) (second : Clear right low high) :
    Clear (left ||| right) low high := by
  -- A bit of the union comes from one of the two words.
  intro index above below
  rw [BitVec.getLsbD_or, first index above below, second index above below]
  rfl

/-- A field leaves the places below it clear. -/
theorem clear_place_below (field : BitVec w) (apart : high ≤ start) :
    Clear (place start field : BitVec n) low high := by
  intro index _ below
  rw [place, BitVec.getLsbD_shiftLeft]
  simp [show index < start by omega]

/-- A field leaves the places above it clear. -/
theorem clear_place_above (field : BitVec w) (apart : start + w ≤ low) :
    Clear (place start field : BitVec n) low high := by
  intro index above _
  rw [place, BitVec.getLsbD_shiftLeft, BitVec.getLsbD_setWidth,
    BitVec.getLsbD_of_ge field (index - start) (by omega)]
  simp

/-- A small number leaves the places above it clear. -/
theorem clear_ofNat {number : Nat} (small : number < 2 ^ low) :
    Clear (BitVec.ofNat n number) low high := by
  intro index above _
  have power : 2 ^ low ≤ 2 ^ index := Nat.pow_le_pow_right (by omega) above
  rw [BitVec.getLsbD_ofNat, Nat.testBit_lt_two_pow (by omega), Bool.and_false]

/-- Reading a field passes over what is clear there. -/
theorem extract_or_left (clear : Clear right start (start + w)) :
    (left ||| right).extractLsb' start w = left.extractLsb' start w := by
  refine BitVec.eq_of_getLsbD_eq fun index inside => ?_
  rw [BitVec.getLsbD_extractLsb', BitVec.getLsbD_extractLsb', BitVec.getLsbD_or,
    clear (start + index) (by omega) (by omega), Bool.or_false]

/-- A field is read back when what is joined to it is clear there. -/
theorem extract_or_right (clear : Clear left start (start + w)) :
    (left ||| right).extractLsb' start w = right.extractLsb' start w := by
  rw [BitVec.or_comm]
  exact extract_or_left clear

/-- A field reads back from its place. -/
theorem extract_place (field : BitVec w) (fits : start + w ≤ n) :
    (place start field : BitVec n).extractLsb' start w = field := by
  refine BitVec.eq_of_getLsbD_eq fun index inside => ?_
  rw [BitVec.getLsbD_extractLsb', place, BitVec.getLsbD_shiftLeft, BitVec.getLsbD_setWidth]
  simp [inside, show start + index < n by omega, show index < n by omega]

/-- Shifting and masking read a field. -/
theorem setWidth_shift_mask {mask : BitVec n} (masks : ∀ index < w, mask.getLsbD index = true) :
    ((word >>> start) &&& mask).setWidth w = word.extractLsb' start w := by
  refine BitVec.eq_of_getLsbD_eq fun index inside => ?_
  simp [inside, masks index inside]

end

end Fields
