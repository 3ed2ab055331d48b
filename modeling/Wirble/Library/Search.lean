import Mathlib.Data.List.Forall2
import Wirble.Library.Dag

/-! Replacing the first element that a function changes, and repeating a step until it fails. -/

namespace Search

variable {α : Type*}

/-- Replace the first element on which the function is defined. -/
def replaceFirst (f : α → Option α) : List α → Option (List α)
  | [] => none
  | x :: rest =>
    match f x with
    | some y => some (y :: rest)
    | none => (replaceFirst f rest).map (x :: ·)

/-- A successful replacement changes one element and passes over those before it. -/
theorem replaceFirst_some {f : α → Option α} {list list' : List α}
    (replaced : replaceFirst f list = some list') :
    ∃ before x y after, list = before ++ x :: after ∧ list' = before ++ y :: after ∧
      f x = some y := by
  -- The induction follows the search to the element that changes.
  induction list generalizing list' with
  | nil => cases replaced
  | cons x rest ih =>
    rw [replaceFirst] at replaced
    cases image : f x with
    | some y =>
      simp only [image, Option.some.injEq] at replaced
      exact ⟨[], x, y, rest, rfl, replaced.symm, image⟩
    | none =>
      simp only [image, Option.map_eq_some_iff] at replaced
      obtain ⟨rest', later, rfl⟩ := replaced
      obtain ⟨before, a, b, after, rfl, rfl, change⟩ := ih later
      exact ⟨x :: before, a, b, after, rfl, rfl, change⟩

/-- A failed replacement means that the function is defined on no element. -/
theorem replaceFirst_none {f : α → Option α} {list : List α} :
    replaceFirst f list = none ↔ ∀ x ∈ list, f x = none := by
  induction list with
  | nil => simp [replaceFirst]
  | cons x rest ih =>
    rw [replaceFirst]
    -- The first element is replaced, or the rest decides.
    cases image : f x <;> simp [image, ih]

/-- A replacement keeps the image of a list under a map that no single change is seen by. -/
theorem map_replaceFirst {β : Type*} {f : α → Option α} {form : α → β}
    (same : ∀ x y, f x = some y → form y = form x) {list list' : List α}
    (replaced : replaceFirst f list = some list') : list'.map form = list.map form := by
  obtain ⟨before, x, y, after, rfl, rfl, change⟩ := replaceFirst_some replaced
  simp only [List.map_append, List.map_cons, same x y change]

/-- A replacement in a list is the replacement in the list of the elements' parts. -/
theorem replaceFirst_map {β : Type*} {f : α → Option α} {g : β → Option β} (part : α → β)
    (same : ∀ x, (f x).map part = g (part x)) (list : List α) :
    (replaceFirst f list).map (List.map part) = replaceFirst g (list.map part) := by
  induction list with
  | nil => rfl
  | cons x rest ih =>
    rw [List.map_cons, replaceFirst, replaceFirst, ← same, ← ih]
    -- The first element is replaced in both lists, or stays in both.
    cases f x with
    | some y => rfl
    | none => cases replaceFirst f rest <;> rfl

/-- Repeat a step until it fails, within a bound on the rounds, and tell whether it ever ran. -/
def whileSome (step : α → Option α) : Nat → α → Option (Bool × α)
  | 0, _ => none
  | fuel + 1, x =>
    match step x with
    | none => some (false, x)
    | some y => (whileSome step fuel y).map fun result => (true, result.2)

/-- With a measure that every step decreases the loop ends, at a point where the step fails, and
every relation that contains the steps relates the start to this point. -/
theorem whileSome_ends {step : α → Option α} (measure : α → Nat)
    (decreases : ∀ x y, step x = some y → measure y < measure x)
    {R : α → α → Prop} (refl : ∀ x, R x x) (trans : ∀ x y z, R x y → R y z → R x z)
    (contains : ∀ x y, step x = some y → R x y) (x : α) :
    ∃ ran final, step final = none ∧ R x final ∧
      ∀ fuel, measure x < fuel → whileSome step fuel x = some (ran, final) := by
  -- The induction is on the measure, which bounds the remaining rounds.
  induction bound : measure x using Nat.strongRecOn generalizing x with
  | ind size ih =>
    subst bound
    cases next : step x with
    | none =>
      refine ⟨false, x, next, refl x, fun fuel enough => ?_⟩
      obtain ⟨fuel, rfl⟩ := Nat.exists_eq_succ_of_ne_zero (Nat.ne_of_gt (Nat.zero_lt_of_lt enough))
      rw [whileSome, next]
    | some y =>
      obtain ⟨ran, final, stuck, related, runs⟩ := ih (measure y) (decreases x y next) y rfl
      -- The rounds after the first are fewer, so fuel beyond the measure is enough.
      refine ⟨true, final, stuck, trans x y final (contains x y next) related, ?_⟩
      intro fuel enough
      obtain ⟨fuel, rfl⟩ := Nat.exists_eq_succ_of_ne_zero (Nat.ne_of_gt (Nat.zero_lt_of_lt enough))
      have smaller := decreases x y next
      simp only [whileSome, next, runs fuel (by omega), Option.map_some]

/-- A loop that has ended relates its start to its end. -/
theorem whileSome_related {step : α → Option α} {R : α → α → Prop} (refl : ∀ x, R x x)
    (trans : ∀ x y z, R x y → R y z → R x z) (contains : ∀ x y, step x = some y → R x y)
    {fuel : Nat} {x final : α} {ran : Bool} (ended : whileSome step fuel x = some (ran, final)) :
    R x final := by
  -- Induction on the rounds that are left.
  induction fuel generalizing x ran with
  | zero => cases ended
  | succ fuel ih =>
    rw [whileSome] at ended
    cases next : step x with
    | none =>
      rw [next] at ended
      cases ended
      exact refl _
    -- The first step is contained in the relation, and the rest by the induction.
    | some y =>
      rw [next] at ended
      obtain ⟨⟨later, final'⟩, rest, same⟩ := Option.map_eq_some_iff.mp ended
      cases same
      exact trans _ _ _ (contains _ _ next) (ih rest)

/-! Lists that are related position by position. -/

/-- Related lists have related entries at every position. -/
theorem forall₂_getElem? {R : α → α → Prop} {list list' : List α}
    (related : List.Forall₂ R list list') (index : Nat) :
    (list[index]? = none ∧ list'[index]? = none) ∨
      ∃ x y, list[index]? = some x ∧ list'[index]? = some y ∧ R x y := by
  induction related generalizing index with
  | nil => exact .inl ⟨rfl, rfl⟩
  | cons head tail ih =>
    -- The entry is that of the heads, or one of the tails.
    cases index with
    | zero => exact .inr ⟨_, _, rfl, rfl, head⟩
    | succ index => simpa using ih index

/-- A list with one element replaced is related to the list if the elements are. -/
theorem forall₂_replace {R : α → α → Prop} (refl : ∀ x, R x x) {x y : α}
    (related : R x y) (before after : List α) :
    List.Forall₂ R (before ++ x :: after) (before ++ y :: after) := by
  have same : ∀ list : List α, List.Forall₂ R list list := fun list =>
    List.forall₂_same.mpr fun z _ => refl z
  exact List.rel_append (same before) (.cons related (same after))

/-- Related lists compose. -/
theorem forall₂_trans {R : α → α → Prop} (trans : ∀ x y z, R x y → R y z → R x z)
    {a b c : List α} (first : List.Forall₂ R a b) (second : List.Forall₂ R b c) :
    List.Forall₂ R a c := by
  induction first generalizing c with
  | nil => exact second
  | cons head tail ih =>
    cases second with
    | cons head' tail' => exact .cons (trans _ _ _ head head') (ih tail')

/-- An element on the right is related to one on the left. -/
theorem forall₂_mem_right {β : Type*} {R : α → β → Prop} {list : List α} {values : List β}
    (related : List.Forall₂ R list values) {y : β} (member : y ∈ values) :
    ∃ x ∈ list, R x y := by
  induction related with
  | nil => cases member
  | @cons x y' list values head tail ih =>
    -- The element is the head of the right list, or comes later.
    rcases List.mem_cons.mp member with rfl | later
    · exact ⟨x, List.mem_cons_self, head⟩
    · obtain ⟨z, place, holds⟩ := ih later
      exact ⟨z, List.mem_cons_of_mem _ place, holds⟩

/-- An element on the left is related to one on the right. -/
theorem forall₂_mem_left {β : Type*} {R : α → β → Prop} {list : List α} {values : List β}
    (related : List.Forall₂ R list values) {x : α} (member : x ∈ list) :
    ∃ y ∈ values, R x y :=
  forall₂_mem_right related.flip member

/-- Every value of a traversal is the value of an element. -/
theorem mapM_some_mem {β : Type*} {f : α → Option β} {list : List α} {values : List β}
    (traversed : list.mapM f = some values) {y : β} (member : y ∈ values) :
    ∃ x ∈ list, f x = some y :=
  forall₂_mem_right (Dag.mapM_eq_some_iff.mp traversed) member

end Search
