import Mathlib.Data.Fintype.Card
import Mathlib.Data.Set.Finite.List
import Mathlib.Logic.Relation
import Wirble.Library.Search

/-! When repeating a step comes to an end: cycles, finite orbits and steps inside a list. -/

namespace Search

variable {α : Type*}

/-- Repeating the step comes to a value where the step fails. -/
inductive Halts (step : α → Option α) : α → Prop
  | stop {x : α} (stuck : step x = none) : Halts step x
  | next {x y : α} (moves : step x = some y) (later : Halts step y) : Halts step x

/-- One step leads from the first value to the second. -/
def Steps (step : α → Option α) (x y : α) : Prop := step x = some y

section Steps

variable {step : α → Option α} {x y : α}

/-- A value halts just when the value that it steps to does. -/
theorem Halts.iff_next (moves : step x = some y) : Halts step x ↔ Halts step y := by
  constructor
  -- The step is unique, so halting after it is the only way.
  · intro halts
    cases halts with
    | stop stuck => rw [stuck] at moves; cases moves
    | next other later =>
      obtain rfl := Option.some.inj (other.symm.trans moves)
      exact later
  · exact .next moves

/-- Everything that a halting value leads to halts. -/
theorem Halts.reach (halts : Halts step x) (leads : Relation.ReflTransGen (Steps step) x y) :
    Halts step y := by
  induction leads with
  | refl => exact halts
  | tail _ moves later => exact (Halts.iff_next moves).mp later

/-- A halting value is on no cycle. -/
theorem Halts.not_cycle (halts : Halts step x) : ¬ Relation.TransGen (Steps step) x x := by
  -- The induction moves along the cycle together with the value.
  induction halts with
  | stop stuck =>
    intro cycle
    obtain ⟨_, moves, -⟩ := Relation.TransGen.head'_iff.mp cycle
    rw [Steps, stuck] at moves
    cases moves
  | next moves later ih =>
    intro cycle
    obtain ⟨z, first, rest⟩ := Relation.TransGen.head'_iff.mp cycle
    obtain rfl := Option.some.inj (Eq.trans (Eq.symm moves) first)
    exact ih (.tail' rest moves)

/-- A value that leads to finitely many values halts just when it leads to no cycle. -/
theorem halts_iff_no_cycle
    (finite : {y | Relation.ReflTransGen (Steps step) x y}.Finite) :
    Halts step x ↔
      ¬ ∃ y, Relation.ReflTransGen (Steps step) x y ∧ Relation.TransGen (Steps step) y y := by
  constructor
  · intro halts cycles
    obtain ⟨y, leads, cycle⟩ := cycles
    exact (halts.reach leads).not_cycle cycle
  · intro acyclic
    -- Behind a value come finitely many, and none of them twice.
    let Orbit := {y // Relation.ReflTransGen (Steps step) x y}
    have : Finite Orbit := finite
    let behind : Orbit → Orbit → Prop := fun z y => Relation.TransGen (Steps step) y.1 z.1
    have irreflexive : Std.Irrefl behind :=
      ⟨fun y cycle => acyclic ⟨y.1, y.2, cycle⟩⟩
    have transitive : IsTrans Orbit behind :=
      ⟨fun _ _ _ first second => Relation.TransGen.trans second first⟩
    have founded : WellFounded behind := Finite.wellFounded_of_trans_of_irrefl behind
    -- So every value of the orbit halts, by induction along that order.
    have every : ∀ y : Orbit, Halts step y.1 := by
      intro y
      induction y using founded.induction with
      | _ y ih =>
        cases moves : step y.1 with
        | none => exact .stop moves
        | some z => exact .next moves (ih ⟨z, y.2.tail moves⟩ (.single moves))
    exact every ⟨x, .refl⟩

/-- The bounded loop returns, for enough rounds, just when the step halts. -/
theorem whileSome_isSome_iff :
    (∃ rounds, (whileSome step rounds x).isSome) ↔ Halts step x := by
  constructor
  · intro returns
    obtain ⟨rounds, returned⟩ := returns
    -- Each direction is an induction: on the rounds given, and on the steps made.
    induction rounds generalizing x with
    | zero => cases returned
    | succ rounds ih =>
      rw [whileSome] at returned
      cases moves : step x with
      | none => exact .stop moves
      | some y =>
        rw [moves] at returned
        exact .next moves (ih (by simpa using returned))
  · intro halts
    -- The rounds needed are one more than for the value behind the step.
    induction halts with
    | stop stuck => exact ⟨1, by rw [whileSome, stuck]; rfl⟩
    | next moves _ ih =>
      obtain ⟨rounds, returned⟩ := ih
      refine ⟨rounds + 1, ?_⟩
      rw [whileSome, moves]
      simpa using returned

end Steps

section Lists

variable {f : α → Option α}

/-- Replacing elements from the front on halts just when it does for each of them. -/
theorem halts_replaceFirst_iff {list : List α} :
    Halts (replaceFirst f) list ↔ ∀ x ∈ list, Halts f x := by
  constructor
  · intro halts
    induction halts with
    | stop stuck => exact fun x member => .stop (replaceFirst_none.mp stuck x member)
    | next moves _ ih =>
      intro x member
      obtain ⟨before, y, z, after, rfl, rfl, change⟩ := replaceFirst_some moves
      -- The element is the one that changed or is still there.
      rcases List.mem_append.mp member with front | back
      · exact ih x (by simp [front])
      · rcases List.mem_cons.mp back with rfl | later
        · exact .next change (ih z (by simp))
        · exact ih x (by simp [later])
  · intro each
    induction list with
    | nil => exact .stop rfl
    | cons x rest ih =>
      have tail : Halts (replaceFirst f) rest := ih fun y member => each y (by simp [member])
      have head : Halts f x := each x (by simp)
      clear each ih
      -- The head is replaced until it is stuck, and the rest is replaced from then on.
      induction head with
      | stop stuck =>
        induction tail with
        | stop idle => exact .stop (by rw [replaceFirst, stuck, idle]; rfl)
        | next moves _ ih => exact .next (by rw [replaceFirst, stuck, moves]; rfl) ih
      | next moves _ ih => exact .next (by rw [replaceFirst, moves]) ih

end Lists

section Parts

variable {β : Type*} {f : β → Option β} {step : α → Option α} (part : α → β)

/-- A step that changes one part of a value halts just when the step of the part does. -/
theorem halts_part_iff (moved : ∀ x y, f (part x) = some y → ∃ x', step x = some x' ∧ part x' = y)
    (idle : ∀ x, f (part x) = none → step x = none) {x : α} :
    Halts step x ↔ Halts f (part x) := by
  constructor
  · intro halts
    -- A step of the value is a step of its part, and a part without one stops the value.
    induction halts with
    | @stop x stuck =>
      cases image : f (part x) with
      | none => exact .stop image
      | some y =>
        obtain ⟨_, moves, -⟩ := moved x y image
        rw [stuck] at moves
        cases moves
    | @next x x' moves _ ih =>
      cases image : f (part x) with
      | none => exact .stop image
      | some y =>
        -- The step of the part is the one that was made.
        obtain ⟨z, other, rfl⟩ := moved x y image
        obtain rfl := Option.some.inj (moves.symm.trans other)
        exact .next image ih
  · intro halts
    -- A step of the part lifts to some step of the value.
    generalize same : part x = y at halts
    induction halts generalizing x with
    | stop stuck => exact .stop (idle x (same ▸ stuck))
    | next moves _ ih =>
      obtain ⟨x', stepped, reached⟩ := moved x _ (same ▸ moves)
      exact .next stepped (ih reached)

end Parts

/-- Lists of bounded length over finitely many elements are finitely many. -/
theorem finite_lists (pool : List α) (bound : Nat) :
    {list : List α | list.length ≤ bound ∧ ∀ x ∈ list, x ∈ pool}.Finite := by
  -- Such a list is a list over the elements of the pool.
  have finite : Finite {x // x ∈ pool} := List.finite_toSet pool
  have lists := (List.finite_length_le {x // x ∈ pool} bound).image (List.map Subtype.val)
  refine lists.subset fun list within => ?_
  obtain ⟨short, drawn⟩ := within
  refine ⟨list.attachWith (· ∈ pool) drawn, by simpa using short, ?_⟩
  simp

end Search
