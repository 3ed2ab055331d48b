import Mathlib.Data.List.Basic
import Mathlib.Data.List.Nodup

/-! Doubly linked lists whose links are kept in the linked cells themselves. -/

namespace Linked

variable {α : Type*}

/-- A cell with its two links, where `none` is the null pointer. -/
structure Cell (α : Type*) where
  value : α
  prev : Option Nat
  next : Option Nat

/-- The cells in use, by address. -/
abbrev Heap (α : Type*) := Nat → Option (Cell α)

/-- The two pointers that a list is reached by. -/
structure Ends where
  first : Option Nat
  last : Option Nat
  deriving DecidableEq, Repr

namespace Heap

variable (heap : Heap α)

/-- Write a whole cell. -/
def store (address : Nat) (cell : Cell α) : Heap α := fun other =>
  if other = address then some cell else heap other

/-- Give a cell back. -/
def free (address : Nat) : Heap α := fun other => if other = address then none else heap other

/-- Write one link of a cell, which has to be in use. -/
def setPrev (address : Nat) (prev : Option Nat) : Option (Heap α) :=
  (heap address).map fun cell => heap.store address { cell with prev := prev }

def setNext (address : Nat) (next : Option Nat) : Option (Heap α) :=
  (heap address).map fun cell => heap.store address { cell with next := next }

end Heap

/-- Write the link to what follows the previous cell, or the start of the list without one. -/
def linkNext (heap : Heap α) (ends : Ends) (prev next : Option Nat) : Option (Heap α × Ends) :=
  match prev with
  | some address => (heap.setNext address next).map fun heap => (heap, ends)
  | none => some (heap, { ends with first := next })

/-- Write the link to what precedes the next cell, or the end of the list without one. -/
def linkPrev (heap : Heap α) (ends : Ends) (next prev : Option Nat) : Option (Heap α × Ends) :=
  match next with
  | some address => (heap.setPrev address prev).map fun heap => (heap, ends)
  | none => some (heap, { ends with last := prev })

/-! Lists in memory. -/

/-- The address at which a list starts, where another address follows the list. -/
def headOr : List (Nat × α) → Option Nat → Option Nat
  | [], after => after
  | (address, _) :: _, _ => some address

/-- The address at which a list ends, where another address precedes the list. -/
def lastOr : List (Nat × α) → Option Nat → Option Nat
  | [], before => before
  | (address, _) :: rest, _ => lastOr rest (some address)

/-- The cells of a list hold its values and point to each other and to what is around the list. -/
def Segment (heap : Heap α) : Option Nat → List (Nat × α) → Option Nat → Prop
  | _, [], _ => True
  | before, (address, value) :: rest, after =>
    heap address = some ⟨value, before, headOr rest after⟩ ∧
      Segment heap (some address) rest after

/-- The addresses of a list. -/
def addresses (list : List (Nat × α)) : List Nat := list.map Prod.fst

/-- A whole list between two null pointers. -/
structure Represents (heap : Heap α) (ends : Ends) (list : List (Nat × α)) : Prop where
  first : ends.first = headOr list none
  last : ends.last = lastOr list none
  cells : Segment heap none list none

section Segment

variable {heap heap' : Heap α} {before after : Option Nat}

/-- The first address of a concatenation is found in its first part that has one. -/
theorem headOr_append (front back : List (Nat × α)) (after : Option Nat) :
    headOr (front ++ back) after = headOr front (headOr back after) := by
  cases front <;> rfl

/-- The last address of a concatenation is found in its last part that has one. -/
theorem lastOr_append (front back : List (Nat × α)) (before : Option Nat) :
    lastOr (front ++ back) before = lastOr back (lastOr front before) := by
  induction front generalizing before with
  | nil => rfl
  | cons cell rest ih => exact ih (some cell.1)

/-- A list is a front part and a back part that point to each other. -/
theorem segment_append (front back : List (Nat × α)) :
    Segment heap before (front ++ back) after ↔
      Segment heap before front (headOr back after) ∧
        Segment heap (lastOr front before) back after := by
  induction front generalizing before with
  | nil => simp [Segment, lastOr]
  | cons cell rest ih =>
    simp only [List.cons_append, Segment, lastOr, headOr_append, ih, and_assoc]

/-- Cells elsewhere do not matter to a list. -/
theorem Segment.frame {list : List (Nat × α)} (cells : Segment heap before list after)
    (same : ∀ address ∈ addresses list, heap' address = heap address) :
    Segment heap' before list after := by
  induction list generalizing before with
  | nil => trivial
  | cons cell rest ih =>
    -- The first cell is as before, and so are the others.
    refine ⟨(same cell.1 (by simp [addresses])).trans cells.1, ih cells.2 ?_⟩
    intro address member
    exact same address (List.mem_cons_of_mem _ member)

/-- A store leaves other addresses alone. -/
theorem store_other {address other : Nat} (cell : Cell α) (different : other ≠ address) :
    heap.store address cell other = heap other := if_neg different

/-- A store is read back. -/
theorem store_same (address : Nat) (cell : Cell α) :
    heap.store address cell address = some cell := if_pos rfl

/-- Of two writes to a cell the second one stays. -/
theorem store_store (address : Nat) (first second : Cell α) :
    (heap.store address first).store address second = heap.store address second := by
  funext other
  by_cases same : other = address
  · rw [same, store_same, store_same]
  · rw [store_other _ same, store_other _ same, store_other _ same]

/-- Freeing a cell leaves other addresses alone. -/
theorem free_other {address other : Nat} (different : other ≠ address) :
    heap.free address other = heap other := if_neg different

end Segment

/-! Writing the links around a gap. -/

section Links

variable {heap : Heap α} {ends : Ends}

/-- A write behind the last cell of a front part redirects the whole part. -/
theorem linkNext_front {front : List (Nat × α)} {next : Option Nat} (target : Option Nat)
    (cells : Segment heap none front next) (distinct : (addresses front).Nodup)
    (start : ends.first = headOr front next) :
    ∃ heap' ends', linkNext heap ends (lastOr front none) target = some (heap', ends') ∧
      Segment heap' none front target ∧ ends'.first = headOr front target ∧
      ends'.last = ends.last ∧ ∀ other ∉ addresses front, heap' other = heap other := by
  -- An empty front part is redirected at the ends of the list, any other at its last cell.
  rcases List.eq_nil_or_concat front with rfl | ⟨inner, ⟨address, value⟩, rfl⟩
  · exact ⟨heap, { ends with first := target }, rfl, trivial, rfl, rfl, fun _ _ => rfl⟩
  · rw [List.concat_eq_append] at cells distinct start ⊢
    obtain ⟨innerCells, lastCell, -⟩ := (segment_append inner _).mp cells
    have outside : address ∉ addresses inner := by
      intro member
      rw [addresses, List.map_append, List.nodup_append] at distinct
      exact distinct.2.2 address member address (by simp) rfl
    refine ⟨heap.store address ⟨value, lastOr inner none, target⟩, ends, ?_, ?_, ?_, rfl, ?_⟩
    · rw [lastOr_append, lastOr, lastOr, linkNext, Heap.setNext, lastCell]
      rfl
    · -- Only the last cell of the part is written.
      refine (segment_append inner _).mpr ⟨innerCells.frame fun other member => ?_, ?_, trivial⟩
      · exact store_other _ fun equal => outside (equal ▸ member)
      · exact store_same _ _
    · rw [start, headOr_append, headOr_append]
      rfl
    · intro other apart
      refine store_other _ fun equal => apart ?_
      simp [addresses, equal]

/-- A write in front of the first cell of a back part redirects the whole part. -/
theorem linkPrev_back {back : List (Nat × α)} {prev : Option Nat} (target : Option Nat)
    (cells : Segment heap prev back none) (distinct : (addresses back).Nodup)
    (finish : ends.last = lastOr back prev) :
    ∃ heap' ends', linkPrev heap ends (headOr back none) target = some (heap', ends') ∧
      Segment heap' target back none ∧ ends'.last = lastOr back target ∧
      ends'.first = ends.first ∧ ∀ other ∉ addresses back, heap' other = heap other := by
  -- An empty back part has no first cell, and the end of the list is redirected.
  cases back with
  | nil => exact ⟨heap, { ends with last := target }, rfl, trivial, rfl, rfl, fun _ _ => rfl⟩
  | cons cell rest =>
    obtain ⟨address, value⟩ := cell
    -- The first cell of the back part is rewritten, and no other cell is at its address.
    have outside : address ∉ addresses rest := (List.nodup_cons.mp distinct).1
    refine ⟨heap.store address ⟨value, target, headOr rest none⟩, ends, ?_, ⟨?_, ?_⟩, finish, rfl, ?_⟩
    · rw [headOr, linkPrev, Heap.setPrev, cells.1]
      rfl
    · exact store_same _ _
    · exact cells.2.frame fun other member =>
        store_other _ fun equal => outside (equal ▸ member)
    · intro other apart
      refine store_other _ fun equal => apart ?_
      simp [addresses, equal]

/-- Both parts around a gap are redirected, and only their cells are written. -/
theorem link_around {front back : List (Nat × α)} {next prev : Option Nat}
    (target source : Option Nat) (frontCells : Segment heap none front next)
    (backCells : Segment heap prev back none) (distinct : (addresses (front ++ back)).Nodup)
    (start : ends.first = headOr front next) (finish : ends.last = lastOr back prev) :
    ∃ heap₁ ends₁ heap₂ ends₂,
      linkNext heap ends (lastOr front none) target = some (heap₁, ends₁) ∧
      linkPrev heap₁ ends₁ (headOr back none) source = some (heap₂, ends₂) ∧
      Segment heap₂ none front target ∧ Segment heap₂ source back none ∧
      ends₂ = ⟨headOr front target, lastOr back source⟩ ∧
      (∀ other ∉ addresses front, heap₁ other = heap other) ∧
      ∀ other ∉ addresses (front ++ back), heap₂ other = heap other := by
  -- The front is redirected first, which leaves the cells behind the gap alone.
  rw [addresses, List.map_append, List.nodup_append] at distinct
  obtain ⟨frontDistinct, backDistinct, apart⟩ := distinct
  obtain ⟨heap₁, ends₁, linked₁, front₁, first₁, last₁, kept₁⟩ :=
    linkNext_front target frontCells frontDistinct start
  have back₁ : Segment heap₁ prev back none :=
    backCells.frame fun other member => kept₁ other fun both => apart other both other member rfl
  obtain ⟨heap₂, ends₂, linked₂, back₂, last₂, first₂, kept₂⟩ :=
    linkPrev_back source back₁ backDistinct (last₁.trans finish)
  -- The front stays as it was redirected, since the back lies apart.
  have front₂ : Segment heap₂ none front target :=
    front₁.frame fun other member => kept₂ other fun both => apart other member other both rfl
  refine ⟨heap₁, ends₁, heap₂, ends₂, linked₁, linked₂, front₂, back₂, ?_, kept₁, ?_⟩
  · cases ends₂
    simp only [Ends.mk.injEq]
    exact ⟨first₂.trans first₁, last₂⟩
  · intro other outside
    rw [addresses, List.map_append, List.mem_append, not_or] at outside
    exact (kept₂ other outside.2).trans (kept₁ other outside.1)

end Links

end Linked
