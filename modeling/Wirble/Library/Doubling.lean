import Mathlib.Data.Nat.Find
import Wirble.Library.Halting

/-! Loops that double a word until it reaches another one. The doubled word may wrap around. -/

namespace Doubling

variable {w : Nat}

/-- One round of the loop, which ends at a word that is large enough. -/
def step (needed cap : BitVec w) : Option (BitVec w) :=
  if cap < needed then some (cap * 2) else none

/-- The word where the loop ends, if it does within the rounds. -/
def loop (rounds : Nat) (start needed : BitVec w) : Option (BitVec w) :=
  (Search.whileSome (step needed) rounds start).map (·.2)

/-- After so many doublings, and no fewer, the word is large enough. -/
def First (start needed : BitVec w) (count : Nat) : Prop :=
  -- A doubling shifts by one bit, and bits that leave the word are lost.
  needed ≤ start <<< count ∧ ∀ fewer < count, start <<< fewer < needed

/-- Some number of doublings makes the word large enough. -/
def Reaches (start needed : BitVec w) : Prop := ∃ count : Nat, needed ≤ start <<< count

/-- Behind as many doublings as there are bits, the word is zero. -/
theorem reaches_iff {start needed : BitVec w} :
    Reaches start needed ↔ ∃ count : Nat, count ≤ w ∧ needed ≤ start <<< count := by
  -- Only the other direction has something to show: more doublings give zero as well.
  constructor
  · intro ⟨count, enough⟩
    by_cases short : count ≤ w
    · exact ⟨count, short, enough⟩
    · refine ⟨w, Nat.le_refl w, ?_⟩
      rw [BitVec.shiftLeft_eq_zero (by omega)] at enough
      rw [BitVec.shiftLeft_eq_zero (Nat.le_refl w)]
      exact enough
  · intro ⟨count, _, enough⟩
    exact ⟨count, enough⟩

instance (start needed : BitVec w) : Decidable (Reaches start needed) :=
  decidable_of_iff _ reaches_iff.symm

/-- A word is reached by some least number of doublings. -/
theorem Reaches.exists_first {start needed : BitVec w} (reaches : Reaches start needed) :
    ∃ count, First start needed count := by
  refine ⟨Nat.find reaches, Nat.find_spec reaches, fun fewer less => ?_⟩
  -- The number is the least one, so that one doubling less is not enough.
  exact BitVec.not_le.mp (Nat.find_min reaches less)

/-- Where there is a first number of doublings, there is one. -/
theorem First.reaches {start needed : BitVec w} {count : Nat} (first : First start needed count) :
    Reaches start needed := ⟨count, first.1⟩

/-- Doubling a number before it is shifted is one shift more. -/
theorem shift_next (start : BitVec w) (count : Nat) :
    (start * 2) <<< count = start <<< (count + 1) := by
  -- One doubling first is one more doubling.
  have doubled : (start * 2 : BitVec w) = start <<< (1 : Nat) := by
    apply BitVec.eq_of_toNat_eq
    rw [BitVec.toNat_mul, BitVec.toNat_shiftLeft, Nat.shiftLeft_eq]
    show start.toNat * (2 % 2 ^ w) % 2 ^ w = _
    rw [Nat.mul_mod_mod]
  rw [doubled, Nat.add_comm, BitVec.shiftLeft_add]

/-- The first doubling of a word that is too small counts. -/
theorem first_succ {start needed : BitVec w} (small : start < needed) (count : Nat) :
    First start needed (count + 1) ↔ First (start * 2) needed count := by
  unfold First
  rw [shift_next]
  refine and_congr_right fun _ => ?_
  constructor
  · intro before fewer less
    rw [shift_next]
    exact before (fewer + 1) (by omega)
  · intro before fewer less
    -- No doubling at all leaves the word itself.
    cases fewer with
    | zero =>
      rw [BitVec.shiftLeft_zero]
      exact small
    | succ fewer =>
      rw [← shift_next]
      exact before fewer (by omega)

/-- What the loop returns within its rounds. -/
theorem loop_eq_some {rounds : Nat} {start needed final : BitVec w} :
    loop rounds start needed = some final ↔
      ∃ count < rounds, First start needed count ∧ final = start <<< count := by
  -- The induction is on the rounds, and every round begins with the doubled word.
  induction rounds generalizing start with
  | zero => simp [loop, Search.whileSome]
  | succ rounds next =>
    by_cases small : start < needed
    · have doubled : loop (rounds + 1) start needed = loop rounds (start * 2) needed := by
        rw [loop, Search.whileSome, step, if_pos small, Option.map_map]
        rfl
      rw [doubled, next]
      constructor
      · rintro ⟨count, inside, first, same⟩
        exact ⟨count + 1, by omega, (first_succ small count).mpr first, by rw [same, shift_next]⟩
      · rintro ⟨count, inside, first, same⟩
        cases count with
        | zero =>
          have enough := first.1
          rw [BitVec.shiftLeft_zero] at enough
          exact absurd small (BitVec.not_lt.mpr enough)
        | succ count =>
          exact ⟨count, by omega, (first_succ small count).mp first, by rw [same, shift_next]⟩
    · have ended : loop (rounds + 1) start needed = some start := by
        rw [loop, Search.whileSome, step, if_neg small]
        rfl
      rw [ended]
      constructor
      · intro same
        refine ⟨0, by omega, ⟨?_, fun fewer less => absurd less (Nat.not_lt_zero fewer)⟩, ?_⟩
        · rw [BitVec.shiftLeft_zero]
          exact BitVec.not_lt.mp small
        · rw [BitVec.shiftLeft_zero]
          exact (Option.some.inj same).symm
      · rintro ⟨count, inside, first, same⟩
        -- A word that is large enough is not doubled.
        cases count with
        | zero => rw [same, BitVec.shiftLeft_zero]
        | succ count =>
          have before := first.2 0 (by omega)
          rw [BitVec.shiftLeft_zero] at before
          exact absurd before small

/-- Doublings that do not leave the word are exact. -/
theorem toNat_shift {start : BitVec w} {count : Nat} (inside : start.toNat * 2 ^ count < 2 ^ w) :
    (start <<< count).toNat = start.toNat * 2 ^ count := by
  rw [BitVec.toNat_shiftLeft, Nat.shiftLeft_eq, Nat.mod_eq_of_lt inside]

/-- A word up to half of the range is reached from every word but zero. -/
theorem reaches_of_half {start needed : BitVec w} (some : start ≠ 0)
    (half : 2 * needed.toNat ≤ 2 ^ w) : Reaches start needed := by
  have positive : 0 < start.toNat := by
    apply Nat.pos_of_ne_zero
    intro zero
    exact some (BitVec.eq_of_toNat_eq zero)
  -- Without a bound on the word, some number of doublings would do.
  have unbounded : ∃ count, needed.toNat ≤ start.toNat * 2 ^ count := by
    refine ⟨needed.toNat, ?_⟩
    have large : needed.toNat < 2 ^ needed.toNat := Nat.lt_two_pow_self
    have more := Nat.mul_le_mul positive (Nat.le_refl (2 ^ needed.toNat))
    omega
  by_cases small : Nat.find unbounded = 0
  · refine ⟨0, ?_⟩
    have enough := Nat.find_spec unbounded
    rw [small, Nat.pow_zero, Nat.mul_one] at enough
    rw [BitVec.shiftLeft_zero, BitVec.le_def]
    exact enough
  · obtain ⟨before, count⟩ := Nat.exists_eq_succ_of_ne_zero small
    -- One doubling less is too small, so that the last one stays below the range.
    have less := Nat.find_min unbounded (show before < Nat.find unbounded by omega)
    have enough := Nat.find_spec unbounded
    rw [count, Nat.pow_succ] at enough
    refine ⟨before + 1, ?_⟩
    rw [BitVec.le_def, toNat_shift (by rw [Nat.pow_succ, ← Nat.mul_assoc]; omega),
      Nat.pow_succ]
    exact enough

/-- From a power of two, the words up to half of the range are all that is reached. -/
theorem reaches_twoPow_iff {bit : Nat} (inside : bit < w) {needed : BitVec w} :
    Reaches (BitVec.twoPow w bit) needed ↔ 2 * needed.toNat ≤ 2 ^ w := by
  constructor
  · intro ⟨count, enough⟩
    rw [BitVec.le_def, BitVec.toNat_shiftLeft, BitVec.toNat_twoPow_of_lt inside, Nat.shiftLeft_eq,
      ← Nat.pow_add] at enough
    -- The only bit of the word is one of the range, or has left it.
    rcases Nat.lt_or_ge (bit + count) w with stays | leaves
    · have top : 2 ^ (bit + count + 1) ≤ 2 ^ w := Nat.pow_le_pow_right (by omega) stays
      rw [Nat.mod_eq_of_lt (Nat.pow_lt_pow_right (by omega) stays)] at enough
      rw [Nat.pow_succ] at top
      omega
    · rw [Nat.mod_eq_zero_of_dvd (Nat.pow_dvd_pow 2 leaves)] at enough
      omega
  · intro half
    apply reaches_of_half _ half
    intro zero
    have value := BitVec.toNat_twoPow_of_lt inside
    rw [zero] at value
    exact absurd value.symm (Nat.pos_iff_ne_zero.mp (Nat.two_pow_pos bit))

/-- The first large enough doubling of a power of two is a power of two. -/
theorem First.twoPow {bit count : Nat} (inside : bit < w) {needed : BitVec w}
    (first : First (BitVec.twoPow w bit) needed count) (some : needed ≠ 0) :
    bit + count < w ∧ BitVec.twoPow w bit <<< count = BitVec.twoPow w (bit + count) := by
  have enough := first.1
  rw [BitVec.le_def, BitVec.toNat_shiftLeft, BitVec.toNat_twoPow_of_lt inside, Nat.shiftLeft_eq,
    ← Nat.pow_add] at enough
  have stays : bit + count < w := by
    -- A word whose only bit has left it is zero, which is not large enough.
    rcases Nat.lt_or_ge (bit + count) w with stays | leaves
    · exact stays
    · rw [Nat.mod_eq_zero_of_dvd (Nat.pow_dvd_pow 2 leaves)] at enough
      exact absurd (BitVec.eq_of_toNat_eq (Nat.le_zero.mp enough)) some
  refine ⟨stays, BitVec.eq_of_toNat_eq ?_⟩
  rw [BitVec.toNat_shiftLeft, BitVec.toNat_twoPow_of_lt inside, BitVec.toNat_twoPow_of_lt stays,
    Nat.shiftLeft_eq, ← Nat.pow_add,
    Nat.mod_eq_of_lt (Nat.pow_lt_pow_right (by omega) stays)]

end Doubling
