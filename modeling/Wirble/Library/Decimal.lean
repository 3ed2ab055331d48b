import Mathlib.Algebra.Group.Int.Defs
import Mathlib.Data.List.TakeWhile
import Wirble.Library.Listing
import Wirble.Library.Sexp

/-! Decimal numbers of 64 bits, as the C library reads and prints them. -/

namespace Decimal

/-- A sign, and whether it is a minus. -/
def splitSign : List Char → Bool × List Char
  | '-' :: rest => (true, rest)
  | '+' :: rest => (false, rest)
  | rest => (false, rest)

/-- `strtoll` in base ten: the number, and what is left of the text, which is all of it when there
is no number. -/
def strtoll (text : List Char) : Int × List Char :=
  let signed := splitSign (text.dropWhile Sexp.isSpace)
  let number := signed.2.takeWhile Char.isDigit
  if number = [] then (0, text)
  else
    let magnitude : Int := Nat.ofDigitChars 10 number 0
    -- Numbers out of range are clamped.
    (max (-2 ^ 63) (min (2 ^ 63 - 1) (if signed.1 then -magnitude else magnitude)),
      signed.2.dropWhile Char.isDigit)

/-- A text that is a number and nothing else. -/
def parseInt64 (text : List Char) : Option Int :=
  let (parsed, rest) := strtoll text
  if rest = text ∨ rest ≠ [] then none else some parsed

/-- The conversion `%lld`. -/
def decimalText (value : Int) : List Char :=
  if value < 0 then '-' :: Nat.toDigits 10 value.natAbs else Nat.toDigits 10 value.natAbs

/-! Numbers are read back. -/

/-- Digits behind an optional minus are read up to the end of the text. -/
theorem strtoll_digits {digits : List Char} (nonempty : digits ≠ [])
    (all : ∀ char ∈ digits, char.isDigit = true) (negative : Bool) :
    strtoll (if negative then '-' :: digits else digits) =
      (max (-2 ^ 63) (min (2 ^ 63 - 1)
        (if negative then -(Nat.ofDigitChars 10 digits 0 : Int)
          else (Nat.ofDigitChars 10 digits 0 : Int))), []) := by
  have taken : digits.takeWhile Char.isDigit = digits := List.takeWhile_eq_self_iff.mpr all
  have dropped : digits.dropWhile Char.isDigit = [] := List.dropWhile_eq_nil_iff.mpr all
  cases negative with
  | true =>
    have sign : Sexp.isSpace '-' = false := by decide
    simp [strtoll, splitSign, sign, taken, dropped, nonempty]
  | false =>
    obtain ⟨first, rest, rfl⟩ := List.exists_cons_of_ne_nil nonempty
    have digit := all first List.mem_cons_self
    -- A digit is neither white space nor a sign.
    have noSpace : Sexp.isSpace first = false := by
      by_contra space
      simp only [Sexp.isSpace, Bool.not_eq_false, Bool.or_eq_true, decide_eq_true_eq] at space
      rcases space with ((((rfl | rfl) | rfl) | rfl) | rfl) | rfl <;> cases digit
    have noSign : first ≠ '-' ∧ first ≠ '+' := by
      constructor <;> (rintro rfl; cases digit)
    -- So nothing is skipped in front of the digits.
    have body : (first :: rest).dropWhile Sexp.isSpace = first :: rest := by
      rw [List.dropWhile_cons, noSpace]
      rfl
    have unsigned : splitSign (first :: rest) = (false, first :: rest) := by
      unfold splitSign
      split
      · rename_i same
        exact absurd (List.cons.inj same).1 noSign.1
      · rename_i same
        exact absurd (List.cons.inj same).1 noSign.2
      · rfl
    simp only [strtoll, Bool.false_eq_true, if_false, body, unsigned, taken, dropped, nonempty]

/-- A number in range is read back from its decimal text. -/
theorem parseInt64_decimalText {value : Int} (low : -2 ^ 63 ≤ value) (high : value < 2 ^ 63) :
    parseInt64 (decimalText value) = some value := by
  have digits : ∀ char ∈ Nat.toDigits 10 value.natAbs, char.isDigit = true := fun char member =>
    Nat.isDigit_of_mem_toDigits (by decide) (by decide) member
  have parsed := strtoll_digits Nat.toDigits_ne_nil digits (decide (value < 0))
  rw [Nat.ofDigitChars_ten_toDigits] at parsed
  have text : decimalText value = if decide (value < 0) = true
      then '-' :: Nat.toDigits 10 value.natAbs else Nat.toDigits 10 value.natAbs := by
    simp [decimalText]
  have nonempty : decimalText value ≠ [] := by
    rw [text]
    split <;> simp
  rw [← text] at parsed
  rw [parseInt64, parsed]
  simp only [ne_eq, not_true, or_false, nonempty.symm, if_false, Option.some.injEq]
  -- The magnitude with its sign is the number, which no bound changes.
  by_cases negative : value < 0
  · simp only [negative, decide_true, if_true]
    omega
  · simp only [negative, decide_false, Bool.false_eq_true, if_false]
    omega

/-- Every number that is read is in range. -/
theorem parseInt64_range {text : List Char} {value : Int}
    (parsed : parseInt64 text = some value) : -2 ^ 63 ≤ value ∧ value < 2 ^ 63 := by
  simp only [parseInt64, Option.ite_none_left_eq_some, Option.some.injEq] at parsed
  obtain ⟨-, rfl⟩ := parsed
  -- What is out of range was clamped to the nearest number.
  rw [strtoll]
  dsimp only
  split
  · omega
  · dsimp only
    omega

/-- The characters of a number are digits, but for a minus in front. -/
theorem mem_decimalText {value : Int} {char : Char} (member : char ∈ decimalText value) :
    char.isDigit = true ∨ char = '-' := by
  rw [decimalText] at member
  split at member
  -- A negative number begins with the minus.
  · rcases List.mem_cons.mp member with rfl | digit
    · exact .inr rfl
    · exact .inl (Listing.isDigit_toDigits _ char digit)
  · exact .inl (Listing.isDigit_toDigits _ char member)

/-- Signed numbers are read back from their texts. -/
theorem decimalText_injective {value value' : Int} (same : decimalText value = decimalText value') :
    value = value' := by
  -- No digit is a minus sign, so the signs agree.
  have minus : ∀ {n m : Nat}, '-' :: Nat.toDigits 10 n ≠ Nat.toDigits 10 m := by
    intro n m equal
    have digit := Listing.isDigit_toDigits m '-' (equal ▸ List.mem_cons_self)
    cases digit
  rw [decimalText, decimalText] at same
  -- The signs are the same or differ, as the texts do.
  split at same
  · split at same
    · have absolute := Listing.toDigits_injective (List.cons.inj same).2
      omega
    · exact absurd same minus
  · split at same
    · exact absurd same.symm minus
    · have absolute := Listing.toDigits_injective same
      omega

end Decimal
