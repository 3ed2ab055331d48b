import Mathlib.Data.List.Basic
import Mathlib.Data.BitVec

/-! Little-endian encodings of numbers, and lists that are put together from encoded parts. -/

/-- Eight bits. -/
abbrev Byte := BitVec 8

namespace Bytes

/-- The lowest bytes of a number, the lowest byte first. -/
def encode : Nat → Nat → List Byte
  | 0, _ => []
  | count + 1, value => BitVec.ofNat 8 value :: encode count (value / 256)

/-- The number whose bytes are given, the lowest byte first. -/
def decode : List Byte → Nat
  | [] => 0
  | byte :: rest => byte.toNat + 256 * decode rest

/-- Encoding takes the given count of bytes. -/
@[simp] theorem length_encode (count value : Nat) : (encode count value).length = count := by
  induction count generalizing value with
  | zero => rfl
  | succ count ih => simp [encode, ih]

/-- Reading an encoding gives the number without its higher bytes. -/
theorem decode_encode (count value : Nat) : decode (encode count value) = value % 256 ^ count := by
  induction count generalizing value with
  | zero => simp [encode, decode, Nat.mod_one]
  | succ count ih =>
    -- The quotient carries the bytes above the lowest one.
    have power : 256 ^ (count + 1) = 256 * 256 ^ count := Nat.pow_succ'
    rw [encode, decode, ih, BitVec.toNat_ofNat, power, Nat.mod_mul]

/-- Words of the encoded width are told apart by their bytes. -/
theorem encode_toNat_inj (count : Nat) {x y : BitVec (8 * count)} :
    encode count x.toNat = encode count y.toNat ↔ x = y := by
  constructor
  · intro same
    have values := congrArg decode same
    have width : 256 ^ count = 2 ^ (8 * count) := by rw [Nat.pow_mul]
    -- Decoding gives the numbers back, since they fit the count of bytes.
    rw [decode_encode, decode_encode, width, Nat.mod_eq_of_lt x.isLt,
      Nat.mod_eq_of_lt y.isLt] at values
    exact BitVec.eq_of_toNat_eq values
  · rintro rfl
    rfl

/-- Two concatenations whose parts have equal lengths are equal just when all parts are. -/
theorem flatMap_eq_iff {α : Type*} {f g : α → List Byte} {list : List α}
    (lengths : ∀ x ∈ list, (f x).length = (g x).length) :
    list.flatMap f = list.flatMap g ↔ ∀ x ∈ list, f x = g x := by
  induction list with
  | nil => simp
  | cons x rest ih =>
    have later := ih fun y member => lengths y (List.mem_cons_of_mem x member)
    simp only [List.flatMap_cons, List.forall_mem_cons]
    constructor
    · intro same
      -- Parts of equal lengths are split off both sides.
      obtain ⟨head, tail⟩ := List.append_inj same (lengths x List.mem_cons_self)
      exact ⟨head, later.mp tail⟩
    · rintro ⟨head, tail⟩
      rw [head, later.mpr tail]

end Bytes
