import Wirble.Library.Bytes

/-! Reading words from the front of a list of bytes, where a read past the end yields zero. -/

namespace Reader

/-- A number read from the front, or zero with nothing consumed when too few bytes are left. -/
def scalar (count : Nat) (bytes : List Byte) : Nat × List Byte :=
  if count ≤ bytes.length then (Bytes.decode (bytes.take count), bytes.drop count) else (0, bytes)

/-- A word of a fixed width that takes the given number of bytes. -/
def word (count : Nat) {width : Nat} (bytes : List Byte) : BitVec width × List Byte :=
  (BitVec.ofNat width (scalar count bytes).1, (scalar count bytes).2)

/-- The word that stands at an offset. -/
def wordAt (count : Nat) {width : Nat} (bytes : List Byte) (offset : Nat) : BitVec width :=
  BitVec.ofNat width (Bytes.decode ((bytes.drop offset).take count))

/-- What is left after numbers of the given sizes. -/
def skips (counts : List Nat) (bytes : List Byte) : List Byte :=
  counts.foldl (fun rest count => (scalar count rest).2) bytes

/-- Several words of one width. -/
def words (count : Nat) {width : Nat} : Nat → List Byte → List (BitVec width) × List Byte
  | 0, bytes => ([], bytes)
  | length + 1, bytes =>
    let first : BitVec width × List Byte := word count bytes
    let others : List (BitVec width) × List Byte := words count length first.2
    (first.1 :: others.1, others.2)

section

variable {count width : Nat}

/-- Reading takes the bytes in front. -/
theorem scalar_append {part : List Byte} (size : part.length = count) (rest : List Byte) :
    scalar count (part ++ rest) = (Bytes.decode part, rest) := by
  subst size
  rw [scalar, if_pos (by rw [List.length_append]; omega), List.take_left, List.drop_left]

/-- Too few bytes are not taken, and read as zero. -/
theorem scalar_short {bytes : List Byte} (short : bytes.length < count) :
    scalar count bytes = (0, bytes) :=
  if_neg (by omega)

/-- Too few bytes are not taken, and read as the word zero. -/
theorem word_short {bytes : List Byte} (short : bytes.length < count) :
    word count bytes = ((0 : BitVec width), bytes) := by
  rw [word, scalar_short short]
  rfl

/-- Enough bytes are taken, and read as the word they encode. -/
theorem word_long {bytes : List Byte} (long : count ≤ bytes.length) :
    word count bytes = ((wordAt count bytes 0 : BitVec width), bytes.drop count) := by
  rw [word, scalar, if_pos long]
  rfl

/-- Offsets add up. -/
theorem wordAt_drop (bytes : List Byte) (start offset : Nat) :
    (wordAt count (bytes.drop start) offset : BitVec width) =
      wordAt count bytes (start + offset) := by
  rw [wordAt, wordAt, List.drop_drop]

/-- A word that ends before a cut is not changed by the cut. -/
theorem wordAt_take {bytes : List Byte} {length offset : Nat} (inside : offset + count ≤ length) :
    (wordAt count (bytes.take length) offset : BitVec width) = wordAt count bytes offset := by
  rw [wordAt, wordAt, List.drop_take, List.take_take, Nat.min_eq_left (by omega)]

/-- The width read into does not change what is left. -/
theorem word_snd (count : Nat) {width : Nat} (bytes : List Byte) :
    (word count bytes : BitVec width × List Byte).2 = (scalar count bytes).2 := rfl

/-- What is left after reading a number. -/
theorem length_scalar (bytes : List Byte) :
    (scalar count bytes).2.length =
      if count ≤ bytes.length then bytes.length - count else bytes.length := by
  rw [scalar]
  split
  · exact List.length_drop
  · rfl

/-- With enough bytes the numbers are skipped at their full sizes. -/
theorem skips_long {counts : List Nat} {bytes : List Byte} (long : counts.sum ≤ bytes.length) :
    skips counts bytes = bytes.drop counts.sum := by
  induction counts generalizing bytes with
  | nil => rfl
  | cons count counts ih =>
    rw [List.sum_cons] at long ⊢
    -- The first number is there, so all its bytes are taken.
    have first : (scalar count bytes).2 = bytes.drop count := by
      rw [scalar, if_pos (by omega)]
    rw [skips, List.foldl_cons, first, ← skips, ih (by rw [List.length_drop]; omega),
      List.drop_drop]

/-- A word that was written is read back, whatever follows it. -/
theorem word_encode (fits : width ≤ 8 * count) (value : BitVec width) (rest : List Byte) :
    word count (Bytes.encode count value.toNat ++ rest) = (value, rest) := by
  -- The bytes hold at least the bits of the word, so that none is lost.
  have bound : value.toNat < 256 ^ count := by
    have power : 256 ^ count = 2 ^ (8 * count) := by rw [Nat.pow_mul]
    rw [power]
    exact value.isLt.trans_le (Nat.pow_le_pow_right (by omega) fits)
  rw [word, scalar_append (Bytes.length_encode _ _), Bytes.decode_encode, Nat.mod_eq_of_lt bound,
    BitVec.ofNat_toNat, BitVec.setWidth_eq]

/-- An array that was written is read back, whatever follows it. -/
theorem words_encode (fits : width ≤ 8 * count) (values : List (BitVec width))
    (rest : List Byte) :
    words count values.length (values.flatMap (Bytes.encode count ·.toNat) ++ rest) =
      (values, rest) := by
  induction values with
  | nil => rfl
  | cons value values ih =>
    rw [List.flatMap_cons, List.append_assoc, List.length_cons, words, word_encode fits, ih]

/-- As many words are read as were asked for. -/
@[simp] theorem length_words (length : Nat) (bytes : List Byte) :
    (words count length bytes : List (BitVec width) × List Byte).1.length = length := by
  induction length generalizing bytes with
  | zero => rfl
  | succ length ih => rw [words, List.length_cons, ih]

/-- Past the end all words are zero. -/
theorem words_short {bytes : List Byte} (short : bytes.length < count) (length : Nat) :
    words count length bytes = (List.replicate length (0 : BitVec width), bytes) := by
  induction length with
  | zero => rfl
  | succ length ih =>
    rw [words, word_short short]
    simp only [ih, List.replicate_succ]

/-- Several words are skipped one after the other. -/
theorem words_snd (length : Nat) (bytes : List Byte) :
    (words count length bytes : List (BitVec width) × List Byte).2 =
      skips (List.replicate length count) bytes := by
  induction length generalizing bytes with
  | zero => rfl
  | succ length ih =>
    rw [List.replicate_succ, skips, List.foldl_cons, ← skips]
    exact ih _

/-- Numbers of one size are skipped as long as there are complete ones. -/
theorem skips_replicate (positive : 0 < count) (length : Nat) (bytes : List Byte) :
    skips (List.replicate length count) bytes =
      bytes.drop (count * min length (bytes.length / count)) := by
  induction length generalizing bytes with
  | zero => simp [skips]
  | succ length ih =>
    rw [List.replicate_succ, skips, List.foldl_cons, ← skips, ih, scalar]
    split
    · next long =>
      -- One number less is left, and there is room for one less.
      have fewer : bytes.length / count = (bytes.length - count) / count + 1 :=
        Nat.div_eq_sub_div positive long
      rw [List.length_drop, List.drop_drop, fewer, Nat.add_min_add_right, Nat.mul_succ,
        Nat.add_comm]
    · next short =>
      have none_left : bytes.length / count = 0 := Nat.div_eq_of_lt (by omega)
      rw [none_left, Nat.min_zero, Nat.min_zero]

/-- Numbers that end before a word leave it where it stands, and no word is read past the end. -/
theorem word_skips_replicate (positive : 0 < count) (length : Nat) (bytes : List Byte) :
    (word count (skips (List.replicate length count) bytes) : BitVec width × List Byte).1 =
      (word count (bytes.drop (count * length))).1 := by
  rw [skips_replicate positive]
  -- The words end before the bytes do, or the bytes end within the words.
  rcases Nat.le_total length (bytes.length / count) with complete | ended
  · rw [Nat.min_eq_left complete]
  · rw [Nat.min_eq_right ended]
    have rest := Nat.mod_lt bytes.length positive
    have parts := Nat.div_add_mod bytes.length count
    -- What is left is shorter than a word, and stays so further on.
    have left : (bytes.drop (count * (bytes.length / count))).length < count := by
      rw [List.length_drop]
      omega
    have further : count * (bytes.length / count) ≤ count * length :=
      Nat.mul_le_mul_left count ended
    rw [word_short left, word_short (by rw [List.length_drop] at left ⊢; omega)]

/-- A property that zero has holds of all words read just when it holds of the complete ones. -/
theorem forall_words_iff {holds : BitVec width → Prop} (zero : holds 0)
    (length : Nat) (bytes : List Byte) :
    (∀ value ∈ (words count length bytes).1, holds value) ↔
      ∀ index < length, count * (index + 1) ≤ bytes.length →
        holds (wordAt count bytes (count * index)) := by
  -- The induction is on the number of words, each of which shortens the rest.
  induction length generalizing bytes with
  | zero => simp [words]
  | succ length ih =>
    by_cases long : count ≤ bytes.length
    · -- The first word is complete, and the others lie one word further on.
      rw [words, word_long long]
      simp only [List.forall_mem_cons, ih, List.length_drop, wordAt_drop]
      constructor
      · rintro ⟨first, later⟩ index inside complete
        cases index with
        | zero => simpa using first
        | succ index =>
          rw [Nat.mul_succ] at complete
          have shifted := later index (by omega) (by omega)
          rwa [Nat.add_comm, ← Nat.mul_succ] at shifted
      -- A complete word is the first, or one of the others shifted by one.
      · intro all
        refine ⟨by simpa using all 0 (by omega) (by simpa using long), ?_⟩
        intro index inside complete
        have shifted := all (index + 1) (by omega) (by rw [Nat.mul_succ]; omega)
        rwa [Nat.mul_succ, Nat.add_comm] at shifted
    · -- Not even the first word is complete.
      rw [words_short (by omega)]
      constructor
      · intro _ index _ complete
        rw [Nat.mul_succ] at complete
        omega
      · intro _ value member
        rwa [List.eq_of_mem_replicate member]

end

end Reader
