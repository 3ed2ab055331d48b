import Wirble.Library.Linked
import Wirble.Mal.Ir

/-! The instruction list of a block in memory: appending, removing and replacing instructions. -/

namespace Wirble

open Linked

/-- The allocated instructions, each with its links. -/
abbrev MALInstHeap := Heap MALInst

/-- The pointers `first` and `last` of a block. -/
abbrev MALBlockEnds := Ends

/-- `mal_block_insert_end`: the instruction's own links are written only if the block has others. -/
def malBlockInsertEnd (heap : MALInstHeap) (block : MALBlockEnds) (inst : Nat) :
    Option (MALInstHeap × MALBlockEnds) :=
  match block.first with
  | none => some (heap, ⟨some inst, some inst⟩)
  | some _ => do
    let heap ← heap.setPrev inst block.last
    let last ← block.last
    let heap ← heap.setNext last (some inst)
    return (heap, { block with last := some inst })

/-- `mal_inst_remove`, where the instruction's links are read again for the second write. -/
def malInstRemove (heap : MALInstHeap) (block : MALBlockEnds) (inst : Nat) :
    Option (MALInstHeap × MALBlockEnds) := do
  let cell ← heap inst
  let (heap, block) ← linkNext heap block cell.prev cell.next
  let cell ← heap inst
  let (heap, block) ← linkPrev heap block cell.next cell.prev
  return (heap.free inst, block)

/-- `mal_replace_inst`, where the old instruction's links are read again for the second write. -/
def malReplaceInst (heap : MALInstHeap) (block : MALBlockEnds) (oldInst newInst : Nat) :
    Option (MALInstHeap × MALBlockEnds) := do
  let cell ← heap oldInst
  let heap ← heap.setPrev newInst cell.prev
  let heap ← heap.setNext newInst cell.next
  let (heap, block) ← linkNext heap block cell.prev (some newInst)
  let cell ← heap oldInst
  let (heap, block) ← linkPrev heap block cell.next (some newInst)
  return (heap.free oldInst, block)

section Splices

variable {heap : MALInstHeap} {block : MALBlockEnds}

/-- A fresh instruction arrives behind the others. -/
theorem malBlockInsertEnd_represents {list : List (Nat × MALInst)} {address : Nat} {inst : MALInst}
    (rep : Represents heap block list) (fresh : heap address = some ⟨inst, none, none⟩)
    (distinct : (addresses (list ++ [(address, inst)])).Nodup) :
    ∃ heap' block', malBlockInsertEnd heap block address = some (heap', block') ∧
      Represents heap' block' (list ++ [(address, inst)]) ∧
      ∀ other ∉ addresses (list ++ [(address, inst)]), heap' other = heap other := by
  rcases List.eq_nil_or_concat list with rfl | ⟨inner, ⟨tail, last⟩, rfl⟩
  · have empty : block.first = none := rep.first
    refine ⟨heap, ⟨some address, some address⟩, ?_, ⟨rfl, rfl, fresh, trivial⟩, fun _ _ => rfl⟩
    rw [malBlockInsertEnd, empty]
  · rw [List.concat_eq_append] at rep distinct ⊢
    obtain ⟨start, start_eq⟩ : ∃ start, block.first = some start := by
      rw [rep.first, headOr_append]
      cases inner with
      | nil => exact ⟨tail, rfl⟩
      | cons cell rest => exact ⟨cell.1, rfl⟩
    have finish : block.last = some tail := by rw [rep.last, lastOr_append]; rfl
    obtain ⟨innerCells, lastCell, -⟩ := (segment_append inner _).mp rep.cells
    -- Neither the new cell nor the last one is in front of the last one.
    simp only [addresses, List.map_append, List.map_cons, List.map_nil, List.append_assoc,
      List.cons_append, List.nil_append, List.nodup_append, List.nodup_cons, List.mem_cons] at distinct
    obtain ⟨-, ⟨other_tail, -⟩, apart⟩ := distinct
    have tail_ne : tail ≠ address := fun equal => other_tail (.inl equal)
    have inner_ne : ∀ other ∈ addresses inner, other ≠ tail ∧ other ≠ address :=
      fun other member => ⟨apart other member tail (.inl rfl), apart other member address
        (.inr (by simp))⟩
    let linked := heap.store address ⟨inst, some tail, none⟩
    refine ⟨linked.store tail ⟨last, lastOr inner none, some address⟩,
      { block with last := some address }, ?_, ⟨?_, ?_, ?_⟩, ?_⟩
    · have read : linked tail = some ⟨last, lastOr inner none, none⟩ :=
        (store_other _ tail_ne).trans lastCell
      rw [malBlockInsertEnd, start_eq, finish, Heap.setPrev, fresh]
      show (linked.setNext tail (some address)).bind _ = _
      rw [Heap.setNext, read]
      rfl
    -- The first cell is that of the list, and the last one is the new cell.
    · rw [rep.first, headOr_append, headOr_append, headOr_append]
      rfl
    · rw [lastOr_append]
      rfl
    · refine (segment_append _ _).mpr ⟨(segment_append _ _).mpr ⟨?_, ?_, trivial⟩, ?_, trivial⟩
      · refine innerCells.frame fun other member => ?_
        obtain ⟨ne_tail, ne_address⟩ := inner_ne other member
        exact (store_other _ ne_tail).trans (store_other _ ne_address)
      · exact store_same _ _
      · rw [lastOr_append]
        exact (store_other _ tail_ne.symm).trans (store_same _ _)
    -- Only the old tail and the new cell have been written.
    · intro other outside
      simp only [addresses, List.map_append, List.mem_append, List.map_cons, List.map_nil,
        List.mem_singleton, not_or] at outside
      exact (store_other _ outside.1.2).trans (store_other _ outside.2)

/-- The parts around a cell, without the cell. -/
theorem nodup_around {front back : List (Nat × MALInst)} {cell : Nat × MALInst}
    (distinct : (addresses (front ++ cell :: back)).Nodup) :
    (addresses (front ++ back)).Nodup ∧ cell.1 ∉ addresses (front ++ back) := by
  -- The cell may stand in front of both parts.
  have moved : List.Perm (addresses (front ++ cell :: back)) (addresses (cell :: (front ++ back))) :=
    List.Perm.map _ List.perm_middle
  have parts := List.nodup_cons.mp (moved.nodup_iff.mp distinct)
  exact ⟨parts.2, parts.1⟩

/-- A member leaves the list, its neighbours become neighbours, and its memory is given back. -/
theorem malInstRemove_represents {front back : List (Nat × MALInst)} {address : Nat}
    {inst : MALInst} (rep : Represents heap block (front ++ (address, inst) :: back))
    (distinct : (addresses (front ++ (address, inst) :: back)).Nodup) :
    ∃ heap' block', malInstRemove heap block address = some (heap', block') ∧
      Represents heap' block' (front ++ back) ∧ heap' address = none ∧
      ∀ other ∉ addresses (front ++ (address, inst) :: back), heap' other = heap other := by
  obtain ⟨frontCells, cell, backCells⟩ := (segment_append front _).mp rep.cells
  obtain ⟨partsDistinct, outside⟩ := nodup_around distinct
  -- Both neighbours, or the ends of the list, are written around the member.
  obtain ⟨heap₁, ends₁, heap₂, ends₂, linked₁, linked₂, front₂, back₂, ends, kept₁, kept₂⟩ :=
    link_around (headOr back none) (lastOr front none) frontCells backCells partsDistinct
      (by rw [rep.first, headOr_append]) (by rw [rep.last, lastOr_append]; rfl)
  -- The member's own cell is not among the neighbours.
  have still : heap₁ address = some ⟨inst, lastOr front none, headOr back none⟩ := by
    refine (kept₁ address fun member => outside ?_).trans cell
    rw [addresses, List.map_append]
    exact List.mem_append_left _ member
  have apart : ∀ other ∈ addresses (front ++ back), other ≠ address :=
    fun other member equal => outside (equal ▸ member)
  refine ⟨heap₂.free address, ends₂, ?_, ⟨?_, ?_, ?_⟩, if_pos rfl, ?_⟩
  · simp only [malInstRemove, cell, linked₁, still, linked₂, Option.bind_eq_bind, Option.bind_some]
    rfl
  · rw [ends, headOr_append]
  · rw [ends, lastOr_append]
  · refine (segment_append _ _).mpr ⟨front₂, back₂⟩ |>.frame fun other member => ?_
    exact free_other (apart other member)
  -- No address outside the list has been touched.
  · intro other absent
    simp only [addresses, List.map_append, List.map_cons, List.mem_append, List.mem_cons,
      not_or] at absent
    rw [free_other absent.2.1, kept₂ other (by simp [addresses, absent])]

/-- A fresh instruction takes the place of a member, whose memory is given back. -/
theorem malReplaceInst_represents {front back : List (Nat × MALInst)} {oldInst newInst : Nat}
    {inst inst' : MALInst} (rep : Represents heap block (front ++ (oldInst, inst) :: back))
    (fresh : heap newInst = some ⟨inst', none, none⟩)
    (distinct : (addresses (front ++ (oldInst, inst) :: back)).Nodup)
    (apart : newInst ∉ addresses (front ++ (oldInst, inst) :: back)) :
    ∃ heap' block', malReplaceInst heap block oldInst newInst = some (heap', block') ∧
      Represents heap' block' (front ++ (newInst, inst') :: back) ∧ heap' oldInst = none ∧
      ∀ other ∉ newInst :: addresses (front ++ (oldInst, inst) :: back),
        heap' other = heap other := by
  obtain ⟨frontCells, cell, backCells⟩ := (segment_append front _).mp rep.cells
  obtain ⟨partsDistinct, outside⟩ := nodup_around distinct
  simp only [addresses, List.map_append, List.map_cons, List.mem_append, List.mem_cons,
    not_or] at apart
  obtain ⟨front_ne, old_ne, back_ne⟩ := apart
  -- The new cell gets its links first, which is written nowhere in the list.
  let linked := heap.store newInst ⟨inst', lastOr front none, headOr back none⟩
  have frontLinked : Segment linked none front (some oldInst) :=
    frontCells.frame fun other member => store_other _ fun equal => front_ne (equal ▸ member)
  have backLinked : Segment linked (some oldInst) back none :=
    backCells.frame fun other member => store_other _ fun equal => back_ne (equal ▸ member)
  obtain ⟨heap₁, ends₁, heap₂, ends₂, linked₁, linked₂, front₂, back₂, ends, kept₁, kept₂⟩ :=
    link_around (some newInst) (some newInst) frontLinked backLinked partsDistinct
      (by rw [rep.first, headOr_append]; rfl) (by rw [rep.last, lastOr_append]; rfl)
  have still : heap₁ oldInst = some ⟨inst, lastOr front none, headOr back none⟩ := by
    refine (kept₁ oldInst fun member => outside ?_).trans ((store_other _ ?_).trans cell)
    · rw [addresses, List.map_append]
      exact List.mem_append_left _ member
    · exact fun equal => old_ne equal.symm
  -- The new cell is not among those that were redirected.
  have placed : heap₂ newInst = some ⟨inst', lastOr front none, headOr back none⟩ := by
    refine (kept₂ newInst ?_).trans (store_same _ _)
    simp only [addresses, List.map_append, List.mem_append, not_or]
    exact ⟨front_ne, back_ne⟩
  refine ⟨heap₂.free oldInst, ends₂, ?_, ⟨?_, ?_, ?_⟩, if_pos rfl, ?_⟩
  · simp only [malReplaceInst, cell, Heap.setPrev, Heap.setNext, fresh, store_same, store_store,
      Option.map_some, Option.bind_eq_bind, Option.bind_some]
    rw [show linkNext (heap.store newInst _) block (lastOr front none) (some newInst) = _ from
      linked₁]
    simp only [Option.bind_some, still, linked₂]
    rfl
  · rw [ends, headOr_append]
    rfl
  · rw [ends, lastOr_append]
    rfl
  -- The new instruction stands between both parts.
  · have whole : Segment heap₂ none (front ++ (newInst, inst') :: back) none :=
      (segment_append _ _).mpr ⟨front₂, placed, back₂⟩
    refine whole.frame fun other member => free_other fun equal => ?_
    -- The old address is in neither part and is not the new one.
    rw [addresses, List.map_append, List.map_cons, List.mem_append, List.mem_cons, equal] at member
    rw [addresses, List.map_append, List.mem_append, not_or] at outside
    rcases member with inFront | isNew | inBack
    · exact outside.1 inFront
    · exact old_ne isNew.symm
    · exact outside.2 inBack
  · intro other absent
    simp only [addresses, List.map_append, List.map_cons, List.mem_append, List.mem_cons,
      not_or] at absent
    obtain ⟨not_new, not_front, not_old, not_back⟩ := absent
    refine (free_other not_old).trans ((kept₂ other ?_).trans (store_other _ not_new))
    simp only [addresses, List.map_append, List.mem_append, not_or]
    exact ⟨not_front, not_back⟩

end Splices

end Wirble
