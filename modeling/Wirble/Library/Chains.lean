import Mathlib.Data.List.Forall2
import Mathlib.Logic.Function.Basic
import Mathlib.Data.List.Perm.Basic

/-! Linked lists in a heap, as the chains of a hash table: reading them and pushing in front. -/

namespace Chains

/-- The list that starts at a pointer and follows the links. -/
def Chain (next : Nat → Option Nat) : Option Nat → List Nat → Prop
  | pointer, [] => pointer = none
  | pointer, id :: ids => pointer = some id ∧ Chain next (next id) ids

variable {next next' : Nat → Option Nat} {pointer : Option Nat} {ids : List Nat}

/-- A pointer starts one chain at most. -/
theorem Chain.unique {ids' : List Nat} (chain : Chain next pointer ids)
    (chain' : Chain next pointer ids') : ids = ids' := by
  -- Both chains follow the same links.
  induction ids generalizing pointer ids' with
  | nil =>
    cases ids' with
    | nil => rfl
    | cons id rest =>
      have null : pointer = none := chain
      rw [null] at chain'
      cases chain'.1
  | cons id rest ih =>
    cases ids' with
    | nil =>
      have null : pointer = none := chain'
      rw [null] at chain
      cases chain.1
    | cons id' rest' =>
      have heads : some id = some id' := chain.1.symm.trans chain'.1
      cases heads
      rw [ih chain.2 chain'.2]

/-- Links outside of a chain do not matter to it. -/
theorem Chain.frame (chain : Chain next pointer ids) (same : ∀ id ∈ ids, next' id = next id) :
    Chain next' pointer ids := by
  induction ids generalizing pointer with
  | nil => exact chain
  | cons id rest ih =>
    refine ⟨chain.1, ?_⟩
    rw [same id (.head _)]
    exact ih chain.2 fun other member => same other (.tail _ member)

/-- A fresh cell that links to a chain starts a longer one. -/
theorem Chain.push (chain : Chain next pointer ids) {id : Nat} (fresh : id ∉ ids) :
    Chain (Function.update next id pointer) (some id) (id :: ids) := by
  refine ⟨rfl, ?_⟩
  rw [Function.update_self]
  refine chain.frame fun other member => Function.update_of_ne ?_ _ _
  rintro rfl
  exact fresh member

/-- Every head of a table starts its chain. -/
def Table (next : Nat → Option Nat) (heads : List (Option Nat)) (chains : List (List Nat)) : Prop :=
  List.Forall₂ (Chain next) heads chains

variable {heads : List (Option Nat)} {chains : List (List Nat)}

/-- Every slot has a head and a chain. -/
theorem Table.length (table : Table next heads chains) : heads.length = chains.length :=
  List.Forall₂.length_eq table

/-- The chain of one slot. -/
theorem Table.slot (table : Table next heads chains) {slot : Nat} {head : Option Nat}
    (found : heads[slot]? = some head) :
    ∃ ids, chains[slot]? = some ids ∧ Chain next head ids := by
  induction table generalizing slot with
  | nil => cases found
  | @cons head' ids heads chains first rest ih =>
    cases slot with
    | zero =>
      cases found
      exact ⟨ids, rfl, first⟩
    | succ slot => exact ih found

/-- Links outside of all chains do not matter to the table. -/
theorem Table.frame (table : Table next heads chains)
    (same : ∀ id ∈ chains.flatten, next' id = next id) : Table next' heads chains := by
  induction table with
  | nil => exact .nil
  | cons first rest ih =>
    simp only [List.flatten_cons, List.mem_append] at same
    exact .cons (first.frame fun id member => same id (.inl member))
      (ih fun id member => same id (.inr member))

/-- An empty table has empty chains. -/
theorem table_empty (next : Nat → Option Nat) (count : Nat) :
    Table next (List.replicate count none) (List.replicate count []) := by
  induction count with
  | zero => exact .nil
  | succ count ih => exact .cons rfl ih

/-- Push a cell in front of the chain of a slot. -/
def pushAt (slot id : Nat) (chains : List (List Nat)) : List (List Nat) :=
  chains.modify slot (id :: ·)

/-- Pushing a cell adds no slot. -/
@[simp] theorem length_pushAt (slot id : Nat) (chains : List (List Nat)) :
    (pushAt slot id chains).length = chains.length := by
  rw [pushAt, List.length_modify]

/-- Linking a fresh cell to a head, and the head to the cell, pushes it on the chain. -/
theorem Table.push (table : Table next heads chains) {slot id : Nat} {head : Option Nat}
    (found : heads[slot]? = some head) (fresh : id ∉ chains.flatten) :
    Table (Function.update next id head) (heads.set slot (some id)) (pushAt slot id chains) := by
  induction table generalizing slot with
  | nil => cases found
  | @cons first ids heads chains chain rest ih =>
    simp only [List.flatten_cons, List.mem_append, not_or] at fresh
    cases slot with
    | zero =>
      -- The slot itself: the other chains do not hold the fresh cell.
      cases found
      refine .cons (chain.push fresh.1) (Table.frame rest fun other member => ?_)
      refine Function.update_of_ne ?_ _ _
      rintro rfl
      exact fresh.2 member
    | succ slot =>
      refine .cons (chain.frame fun other member => ?_) (ih found fresh.2)
      refine Function.update_of_ne ?_ _ _
      rintro rfl
      exact fresh.1 member

/-- A push adds its cell to the cells of the table. -/
theorem flatten_pushAt {slot id : Nat} (valid : slot < chains.length) :
    (pushAt slot id chains).flatten.Perm (id :: chains.flatten) := by
  induction chains generalizing slot with
  | nil => cases valid
  | cons ids rest ih =>
    cases slot with
    | zero => exact .refl _
    | succ slot =>
      -- The other slots have one cell more, which may as well come first.
      have tail := ih (Nat.lt_of_succ_lt_succ valid)
      exact (tail.append_left ids).trans List.perm_middle

/-- Every cell of the table is in the chain of its slot. -/
def Placed (slotOf : Nat → Nat) (chains : List (List Nat)) : Prop :=
  ∀ slot ids, chains[slot]? = some ids → ∀ id ∈ ids, slotOf id = slot

/-- In an empty table all cells are placed. -/
theorem placed_empty (slotOf : Nat → Nat) (count : Nat) :
    Placed slotOf (List.replicate count []) := by
  intro slot ids found id member
  rw [List.getElem?_replicate] at found
  split at found
  · cases found
    cases member
  · cases found

/-- Pushing a cell at its own slot keeps all cells placed. -/
theorem Placed.push {slotOf : Nat → Nat} (placed : Placed slotOf chains) (id : Nat) :
    Placed slotOf (pushAt (slotOf id) id chains) := by
  intro slot ids found other member
  rw [pushAt, List.getElem?_modify] at found
  -- The slot is an old one, or the chain of the cell itself.
  cases old : chains[slot]? with
  | none => simp [old] at found
  | some known =>
    simp only [old, Option.map_eq_map, Option.map_some, Option.some.injEq] at found
    by_cases here : slotOf id = slot
    · rw [if_pos here] at found
      rw [← found] at member
      rcases List.mem_cons.mp member with rfl | later
      · exact here
      · exact placed slot known old other later
    · rw [if_neg here] at found
      exact placed slot known old other (found ▸ member)

end Chains
