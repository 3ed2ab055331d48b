import Mathlib.Data.Nat.Bits
import Mathlib.Tactic.IntervalCases

/-! The arena: blocks from `malloc`, and allocations at rising offsets of the newest block. -/

namespace Wirble

/-- A block with its header, which malloc placed at an address. -/
structure WirbleArenaBlock where
  base : Nat
  capacity : BitVec 64
  used : BitVec 64
  deriving DecidableEq, Repr

/-- An arena with its newest block first. -/
structure WirbleArena where
  blocks : List WirbleArenaBlock
  blockSize : BitVec 64
  totalReserved : BitVec 64
  deriving DecidableEq, Repr

/-- The size of the block header, after which the data area starts. -/
def wirbleArenaHeader : BitVec 64 := 24

/-- `WIRBLE_ARENA_DEFAULT_BLOCK_SIZE`. -/
def wirbleArenaDefaultBlockSize : BitVec 64 := 4096

/-- `wirble_align_up`. -/
def wirbleAlignUp (value alignment : BitVec 64) : BitVec 64 :=
  if alignment = 0 then value
  else
    let mask := alignment - 1
    (value + mask) &&& ~~~mask

/-- `wirble_max_size`. -/
def wirbleMaxSize (lhs rhs : BitVec 64) : BitVec 64 := if lhs > rhs then lhs else rhs

/-- `wirble_arena_init`. -/
def wirbleArenaInit (blockSize : BitVec 64) : WirbleArena :=
  { blocks := []
    blockSize := if blockSize = 0 then wirbleArenaDefaultBlockSize else blockSize
    totalReserved := 0 }

/-- `wirble_arena_reset`, which frees all blocks. -/
def wirbleArenaReset (arena : WirbleArena) : WirbleArena :=
  { arena with blocks := [], totalReserved := 0 }

/-- The address and the size of the memory of a block, with its header. -/
def WirbleArenaBlock.region (block : WirbleArenaBlock) : Nat × Nat :=
  (block.base, (wirbleArenaHeader + block.capacity).toNat)

/-- The regions that the arena holds. -/
def WirbleArena.live (arena : WirbleArena) : List (Nat × Nat) := arena.blocks.map (·.region)

section Alloc

-- The allocator knows the live regions of the arena, and answers a size with an address or NULL.
variable (malloc : List (Nat × Nat) → BitVec 64 → Option Nat)

/-- `wirble_arena_block_create`. -/
def wirbleArenaBlockCreate (arena : WirbleArena) (capacity : BitVec 64) :
    Option WirbleArenaBlock :=
  (malloc arena.live (wirbleArenaHeader + capacity)).map fun base => { base, capacity, used := 0 }

/-- The offset in the newest block where the request is served, if it seems to fit there. -/
def headStart (arena : WirbleArena) (size alignment : BitVec 64) : Option (BitVec 64) :=
  match arena.blocks with
  | [] => none
  | block :: _ =>
    let start := wirbleAlignUp block.used alignment
    if start + size ≤ block.capacity then some start else none

/-- The capacity of a new block for a request. -/
def newCapacity (arena : WirbleArena) (size alignment : BitVec 64) : BitVec 64 :=
  wirbleMaxSize arena.blockSize (size + alignment)

/-- Serve a request from the newest block, at an offset. -/
def takeFromHead (arena : WirbleArena) (start size : BitVec 64) : WirbleArena × Option Nat :=
  match arena.blocks with
  | [] => (arena, none)
  | block :: rest =>
    ({ arena with blocks := { block with used := start + size } :: rest },
      some (block.base + wirbleArenaHeader.toNat + start.toNat))

/-- `wirble_arena_alloc_from`. -/
def wirbleArenaAllocFrom (arena : WirbleArena) (size alignment : BitVec 64) :
    WirbleArena × Option Nat :=
  if size = 0 then (arena, none)
  else
    let alignment := if alignment = 0 then 8 else alignment
    match headStart arena size alignment with
    | some start => takeFromHead arena start size
    | none =>
      let capacity := newCapacity arena size alignment
      match wirbleArenaBlockCreate malloc arena capacity with
      | none => (arena, none)
      | some block =>
        takeFromHead
          { arena with
            blocks := block :: arena.blocks
            totalReserved := arena.totalReserved + capacity }
          (wirbleAlignUp 0 alignment) size

/-- `wirble_arena_calloc_from`, without the zeros that it writes. -/
def wirbleArenaCallocFrom (arena : WirbleArena) (count size alignment : BitVec 64) :
    WirbleArena × Option Nat :=
  if count = 0 ∨ size = 0 then (arena, none)
  else
    let totalSize := count * size
    if size ≠ 0 ∧ totalSize / size ≠ count then (arena, none)
    else wirbleArenaAllocFrom malloc arena totalSize alignment

end Alloc

/-! Runs of calls. -/

/-- The calls on one arena. -/
inductive ArenaCall where
  | alloc (size alignment : BitVec 64)
  | calloc (count size alignment : BitVec 64)
  | reset
  deriving DecidableEq, Repr

/-- A range of memory that a call returned, with the alignment that was asked for. -/
structure ArenaResult where
  address : Nat
  size : Nat
  alignment : Nat
  deriving DecidableEq, Repr

/-- An arena and the results since the last reset. -/
structure ArenaState where
  arena : WirbleArena
  results : List ArenaResult
  deriving DecidableEq, Repr

/-- Record a result that is not NULL. -/
def ArenaState.record (state : ArenaState) (size alignment : BitVec 64)
    (outcome : WirbleArena × Option Nat) : ArenaState :=
  { arena := outcome.1
    results := outcome.2.toList.map
      (fun address => { address, size := size.toNat, alignment := alignment.toNat }) ++
        state.results }

/-- One call. -/
def arenaStep (malloc : List (Nat × Nat) → BitVec 64 → Option Nat) (state : ArenaState) :
    ArenaCall → ArenaState
  | .alloc size alignment =>
    state.record size alignment (wirbleArenaAllocFrom malloc state.arena size alignment)
  | .calloc count size alignment =>
    state.record (count * size) alignment
      (wirbleArenaCallocFrom malloc state.arena count size alignment)
  | .reset => { arena := wirbleArenaReset state.arena, results := [] }

/-- An arena before its first call. -/
def arenaStart (blockSize : BitVec 64) : ArenaState :=
  { arena := wirbleArenaInit blockSize, results := [] }

/-- What malloc promises: aligned regions in the address space, apart from all live ones. -/
structure Malloc (malloc : List (Nat × Nat) → BitVec 64 → Option Nat) : Prop where
  aligned : ∀ live size address, malloc live size = some address → 16 ∣ address ∧ 0 < address
  inside : ∀ live size address, malloc live size = some address →
    address + size.toNat ≤ 2 ^ 64
  apart : ∀ live size address, malloc live size = some address → ∀ region ∈ live,
    address + size.toNat ≤ region.1 ∨ region.1 + region.2 ≤ address

/-- Two ranges have no byte in common. -/
def ArenaResult.Apart (left right : ArenaResult) : Prop :=
  left.address + left.size ≤ right.address ∨ right.address + right.size ≤ left.address

/-- A range lies in the data area of a block. -/
def ArenaResult.Within (result : ArenaResult) (block : WirbleArenaBlock) : Prop :=
  block.base + wirbleArenaHeader.toNat ≤ result.address ∧
    result.address + result.size ≤ block.region.1 + block.region.2

/-- All results are aligned, lie in blocks of the arena and do not overlap. -/
structure ArenaSafe (state : ArenaState) : Prop where
  aligned : ∀ result ∈ state.results, result.alignment ∣ result.address
  within : ∀ result ∈ state.results, ∃ block ∈ state.arena.blocks, result.Within block
  apart : state.results.Pairwise ArenaResult.Apart

/-- Every state of the run is safe, the first one included. -/
def SafeThroughout (malloc : List (Nat × Nat) → BitVec 64 → Option Nat) :
    ArenaState → List ArenaCall → Prop
  | state, [] => ArenaSafe state
  | state, call :: rest => ArenaSafe state ∧ SafeThroughout malloc (arenaStep malloc state call) rest

/-! The calls that do not go wrong. -/

/-- The number of bytes that a call asks for, zero when it is turned down at once. -/
def callocBytes (count size : BitVec 64) : BitVec 64 :=
  if count = 0 ∨ size = 0 ∨ count * size / size ≠ count then 0 else count * size

/-- A request is turned down, or asks for an alignment that the data area has and makes none of the
unchecked sums wrap. -/
def RequestSound (malloc : List (Nat × Nat) → BitVec 64 → Option Nat) (arena : WirbleArena)
    (size alignment : BitVec 64) : Prop :=
  size = 0 ∨
    match headStart arena size alignment with
    | some start => alignment ≤ 8 ∧ start.toNat + size.toNat < 2 ^ 64
    | none =>
      let capacity := newCapacity arena size alignment
      malloc arena.live (wirbleArenaHeader + capacity) = none ∨
        alignment ≤ 8 ∧ size.toNat + alignment.toNat < 2 ^ 64 ∧
          wirbleArenaHeader.toNat + capacity.toNat < 2 ^ 64

/-- A call makes a sound request, or a reset. -/
def ArenaCall.Sound (malloc : List (Nat × Nat) → BitVec 64 → Option Nat) (arena : WirbleArena) :
    ArenaCall → Prop
  | .alloc size alignment => RequestSound malloc arena size alignment
  | .calloc count size alignment => RequestSound malloc arena (callocBytes count size) alignment
  | .reset => True

/-- Every call of the run is sound when its turn comes. -/
def SoundThroughout (malloc : List (Nat × Nat) → BitVec 64 → Option Nat) :
    ArenaState → List ArenaCall → Prop
  | _, [] => True
  | state, call :: rest =>
    call.Sound malloc state.arena ∧ SoundThroughout malloc (arenaStep malloc state call) rest

/-- A call asks for a power of two up to 16. -/
def ArenaCall.PowerOfTwo : ArenaCall → Prop
  | .alloc _ alignment | .calloc _ _ alignment => ∃ k ≤ 4, alignment = BitVec.ofNat 64 (2 ^ k)
  | .reset => True

/-! Rounding up. -/

/-- Clearing the low bits rounds down to a multiple. -/
theorem and_not_mask (value : BitVec 64) (k : Nat) :
    (value &&& ~~~BitVec.ofNat 64 (2 ^ k - 1)).toNat = value.toNat / 2 ^ k * 2 ^ k := by
  -- The bits from the exponent on are those of the value shifted there and back.
  have shifted : value &&& ~~~BitVec.ofNat 64 (2 ^ k - 1) = (value >>> k) <<< k := by
    ext index inside
    have bit : (BitVec.ofNat 64 (2 ^ k - 1))[index] = decide (index < k) := by
      rw [← BitVec.getLsbD_eq_getElem inside, BitVec.getLsbD_ofNat, Nat.testBit_two_pow_sub_one]
      simp [inside]
    simp only [BitVec.getElem_and, BitVec.getElem_not, BitVec.getElem_shiftLeft, bit]
    by_cases low : index < k
    · simp [low]
    · have back : k + (index - k) = index := by omega
      simp [low, back, BitVec.getLsbD_eq_getElem inside]
  rw [shifted, BitVec.toNat_shiftLeft, BitVec.toNat_ushiftRight, Nat.shiftLeft_eq,
    Nat.shiftRight_eq_div_pow, Nat.mod_eq_of_lt]
  exact Nat.lt_of_le_of_lt (Nat.div_mul_le_self _ _) value.isLt

/-- Rounding up without a wrap gives the next multiple. -/
theorem wirbleAlignUp_spec (value : BitVec 64) {k : Nat} (small : k ≤ 4)
    (room : value.toNat + 15 < 2 ^ 64) :
    let start := (wirbleAlignUp value (BitVec.ofNat 64 (2 ^ k))).toNat
    value.toNat ≤ start ∧ start ≤ value.toNat + 15 ∧ 2 ^ k ∣ start := by
  -- The mask clears the low bits of the sum, which rounds it down to a multiple.
  intro start
  have mask : BitVec.ofNat 64 (2 ^ k) - 1 = BitVec.ofNat 64 (2 ^ k - 1) := by
    interval_cases k <;> decide
  have nonzero : BitVec.ofNat 64 (2 ^ k) ≠ 0 := by
    interval_cases k <;> decide
  have bound : 2 ^ k - 1 ≤ 15 := by
    interval_cases k <;> decide
  have positive : 0 < 2 ^ k := Nat.two_pow_pos k
  -- The sum does not wrap.
  have sum : (value + BitVec.ofNat 64 (2 ^ k - 1)).toNat = value.toNat + (2 ^ k - 1) := by
    rw [BitVec.toNat_add, BitVec.toNat_ofNat, Nat.mod_eq_of_lt (a := 2 ^ k - 1) (by omega),
      Nat.mod_eq_of_lt (by omega)]
  have rounded : start = (value.toNat + (2 ^ k - 1)) / 2 ^ k * 2 ^ k := by
    show (wirbleAlignUp value (BitVec.ofNat 64 (2 ^ k))).toNat = _
    rw [wirbleAlignUp, if_neg nonzero, mask]
    show (_ &&& ~~~_ : BitVec 64).toNat = _
    rw [and_not_mask, sum]
  -- With quotient and remainder of the sum the two bounds are linear.
  have split := Nat.div_add_mod (value.toNat + (2 ^ k - 1)) (2 ^ k)
  have rest := Nat.mod_lt (value.toNat + (2 ^ k - 1)) positive
  rw [Nat.mul_comm] at split
  refine ⟨by omega, by omega, ?_⟩
  rw [rounded]
  exact Nat.dvd_mul_left _ _

/-- The start of a new block needs no rounding. -/
theorem wirbleAlignUp_zero {k : Nat} (small : k ≤ 4) :
    wirbleAlignUp 0 (BitVec.ofNat 64 (2 ^ k)) = 0 := by
  interval_cases k <;> decide

/-! The invariant of sound runs. -/

/-- Blocks are whole and apart, and results lie below the used part of their blocks. -/
structure ArenaInvariant (state : ArenaState) : Prop where
  blocks : ∀ block ∈ state.arena.blocks, 16 ∣ block.base ∧
    block.base + 24 + block.capacity.toNat ≤ 2 ^ 64 ∧ 24 + block.capacity.toNat < 2 ^ 64 ∧
    block.used.toNat ≤ block.capacity.toNat
  regions : state.arena.blocks.Pairwise fun left right =>
    left.base + 24 + left.capacity.toNat ≤ right.base ∨
      right.base + 24 + right.capacity.toNat ≤ left.base
  blockSize : state.arena.blocks ≠ [] → 24 + state.arena.blockSize.toNat < 2 ^ 64
  aligned : ∀ result ∈ state.results, result.alignment ∣ result.address
  within : ∀ result ∈ state.results, ∃ block ∈ state.arena.blocks,
    block.base + 24 ≤ result.address ∧
      result.address + result.size ≤ block.base + 24 + block.used.toNat
  apart : state.results.Pairwise ArenaResult.Apart

/-- A block whose sizes do not wrap has its header before its data area. -/
theorem region_of_small {block : WirbleArenaBlock} (small : 24 + block.capacity.toNat < 2 ^ 64) :
    block.region.2 = 24 + block.capacity.toNat := by
  rw [WirbleArenaBlock.region, wirbleArenaHeader, BitVec.toNat_add]
  exact Nat.mod_eq_of_lt small

/-- The invariant of an arena gives its safety. -/
theorem ArenaInvariant.safe {state : ArenaState} (invariant : ArenaInvariant state) :
    ArenaSafe state where
  aligned := invariant.aligned
  within := by
    intro result member
    obtain ⟨block, inside, low, high⟩ := invariant.within result member
    obtain ⟨-, -, small, used⟩ := invariant.blocks block inside
    refine ⟨block, inside, low, ?_⟩
    -- The region of a block is its header and its capacity, which do not wrap.
    rw [region_of_small small]
    show result.address + result.size ≤ block.base + (24 + block.capacity.toNat)
    omega
  apart := invariant.apart

/-- A fresh arena satisfies the invariant. -/
theorem arenaInvariant_start (blockSize : BitVec 64) : ArenaInvariant (arenaStart blockSize) where
  blocks := nofun
  regions := .nil
  blockSize := fun some => (some rfl).elim
  aligned := nofun
  within := nofun
  apart := .nil

/-- Serving a request from the used part on keeps the invariant. -/
theorem ArenaInvariant.take {state : ArenaState} (invariant : ArenaInvariant state)
    {block : WirbleArenaBlock} {rest : List WirbleArenaBlock}
    (newest : state.arena.blocks = block :: rest) {start size : BitVec 64} {k : Nat} (small : k ≤ 3)
    (after : block.used.toNat ≤ start.toNat) (aligned : 2 ^ k ∣ start.toNat)
    (noWrap : start.toNat + size.toNat < 2 ^ 64) (fits : start + size ≤ block.capacity) :
    ArenaInvariant (state.record size (BitVec.ofNat 64 (2 ^ k))
      (takeFromHead state.arena start size)) := by
  have used : (start + size).toNat = start.toNat + size.toNat := by
    rw [BitVec.toNat_add, Nat.mod_eq_of_lt noWrap]
  have room : start.toNat + size.toNat ≤ block.capacity.toNat := used ▸ fits
  have header : wirbleArenaHeader.toNat = 24 := rfl
  have power : (BitVec.ofNat 64 (2 ^ k)).toNat = 2 ^ k := by
    interval_cases k <;> rfl
  -- Only the newest block changes, so the invariant of the others is kept by membership.
  obtain ⟨base16, top, whole, usedOld⟩ := invariant.blocks block (newest ▸ .head _)
  have regions := invariant.regions
  rw [newest] at regions
  obtain ⟨apartRest, regionsRest⟩ := List.pairwise_cons.mp regions
  rw [takeFromHead, newest]
  refine ⟨?_, ?_, fun _ => invariant.blockSize (newest ▸ List.cons_ne_nil _ _), ?_, ?_, ?_⟩
  · intro other member
    rcases List.mem_cons.mp member with rfl | old
    · exact ⟨base16, top, whole, used.symm ▸ room⟩
    · exact invariant.blocks other (newest ▸ .tail _ old)
  · exact List.pairwise_cons.mpr ⟨apartRest, regionsRest⟩
  · intro result member
    rcases List.mem_cons.mp member with rfl | old
    · -- The data area is eight bytes past a multiple of sixteen.
      show (BitVec.ofNat 64 (2 ^ k)).toNat ∣ block.base + wirbleArenaHeader.toNat + start.toNat
      rw [power, header]
      have eight : 2 ^ k ∣ 8 := by interval_cases k <;> decide
      have sixteen : 2 ^ k ∣ 16 := eight.trans (by decide)
      have data : 2 ^ k ∣ block.base + 24 :=
        Nat.dvd_add (sixteen.trans base16) (eight.trans (by decide))
      exact Nat.dvd_add data aligned
    · exact invariant.aligned result old
  · intro result member
    rcases List.mem_cons.mp member with rfl | old
    · refine ⟨_, .head _, ?_, ?_⟩
      · show block.base + 24 ≤ block.base + wirbleArenaHeader.toNat + start.toNat
        omega
      · show block.base + wirbleArenaHeader.toNat + start.toNat + size.toNat ≤
          block.base + 24 + (start + size).toNat
        omega
    -- An older region lies in the newest block, whose used part has only grown, or in another one.
    · obtain ⟨holder, inside, low, high⟩ := invariant.within result old
      rw [newest] at inside
      rcases List.mem_cons.mp inside with rfl | later
      · refine ⟨_, .head _, low, ?_⟩
        show result.address + result.size ≤ holder.base + 24 + (start + size).toNat
        omega
      · exact ⟨holder, .tail _ later, low, high⟩
  · -- Earlier results lie below the old used part, or in another block.
    refine List.pairwise_cons.mpr ⟨fun result old => ?_, invariant.apart⟩
    obtain ⟨holder, inside, low, high⟩ := invariant.within result old
    rw [newest] at inside
    show block.base + wirbleArenaHeader.toNat + start.toNat + size.toNat ≤ result.address ∨
      result.address + result.size ≤ block.base + wirbleArenaHeader.toNat + start.toNat
    rcases List.mem_cons.mp inside with rfl | later
    · exact .inr (by omega)
    · have bounds := invariant.blocks holder (newest ▸ .tail _ later)
      have separate := apartRest holder later
      omega

/-- A new block, before anything is taken from it, keeps the invariant. -/
theorem ArenaInvariant.grow {malloc : List (Nat × Nat) → BitVec 64 → Option Nat}
    (behaves : Malloc malloc) {state : ArenaState} (invariant : ArenaInvariant state)
    {capacity : BitVec 64} (totalReserved : BitVec 64) {base : Nat}
    (given : malloc state.arena.live (wirbleArenaHeader + capacity) = some base)
    (noWrap : 24 + capacity.toNat < 2 ^ 64) (larger : state.arena.blockSize ≤ capacity) :
    ArenaInvariant { state with arena := { state.arena with
      blocks := { base, capacity, used := 0 } :: state.arena.blocks, totalReserved } } := by
  -- What the allocator promises of the new region is stated in the size that it was asked for.
  have size : (wirbleArenaHeader + capacity).toNat = 24 + capacity.toNat := by
    rw [BitVec.toNat_add]
    exact Nat.mod_eq_of_lt noWrap
  have inside := behaves.inside _ _ _ given
  have apart := behaves.apart _ _ _ given
  rw [size] at inside apart
  have bound : state.arena.blockSize.toNat ≤ capacity.toNat := larger
  refine ⟨?_, ?_, fun _ => by show 24 + state.arena.blockSize.toNat < _; omega,
    invariant.aligned, ?_, invariant.apart⟩
  -- The new block is aligned and ends inside the address space.
  · intro block member
    rcases List.mem_cons.mp member with rfl | old
    · exact ⟨(behaves.aligned _ _ _ given).1, by show base + 24 + capacity.toNat ≤ _; omega, noWrap,
        Nat.zero_le _⟩
    · exact invariant.blocks block old
  -- It meets none of the blocks before.
  · refine List.pairwise_cons.mpr ⟨fun other old => ?_, invariant.regions⟩
    obtain ⟨-, -, whole, -⟩ := invariant.blocks other old
    have separate := apart other.region (List.mem_map_of_mem old)
    rw [region_of_small whole] at separate
    have read : other.region.1 = other.base := rfl
    show base + 24 + capacity.toNat ≤ other.base ∨ other.base + 24 + other.capacity.toNat ≤ base
    omega
  · -- Earlier results stay where they are, in older blocks.
    intro result member
    obtain ⟨block, old, bounds⟩ := invariant.within result member
    exact ⟨block, .tail _ old, bounds⟩

/-! Requests, one after the other. -/

section Request

variable {malloc : List (Nat × Nat) → BitVec 64 → Option Nat}

/-- An allocation whose result is recorded. -/
def request (malloc : List (Nat × Nat) → BitVec 64 → Option Nat) (state : ArenaState)
    (size alignment : BitVec 64) : ArenaState :=
  state.record size alignment (wirbleArenaAllocFrom malloc state.arena size alignment)

/-- A call that returned null hands out nothing. -/
theorem record_null (state : ArenaState) (size alignment : BitVec 64) :
    state.record size alignment (state.arena, none) = state := rfl

/-- The checked product is a request for its bytes, where none are asked for after an overflow. -/
theorem arenaStep_calloc (state : ArenaState) (count size alignment : BitVec 64) :
    arenaStep malloc state (.calloc count size alignment) =
      request malloc state (callocBytes count size) alignment := by
  -- Both sides test for a zero factor and for a wrapped product, in a different order.
  simp only [arenaStep, request, wirbleArenaCallocFrom, callocBytes]
  by_cases empty : count = 0 ∨ size = 0
  · have none : count = 0 ∨ size = 0 ∨ count * size / size ≠ count :=
      empty.elim .inl fun zero => .inr (.inl zero)
    rw [if_pos empty, if_pos none, wirbleArenaAllocFrom, if_pos rfl, record_null, record_null]
  · obtain ⟨hasCount, hasSize⟩ := not_or.mp empty
    rw [if_neg empty]
    -- After an overflow both sides ask for nothing.
    by_cases overflow : count * size / size ≠ count
    · rw [if_pos ⟨hasSize, overflow⟩, if_pos (.inr (.inr overflow)), wirbleArenaAllocFrom,
        if_pos rfl, record_null, record_null]
    · have checked : ¬ (size ≠ 0 ∧ count * size / size ≠ count) := fun both => overflow both.2
      have whole : ¬ (count = 0 ∨ size = 0 ∨ count * size / size ≠ count) := by
        rintro (zero | zero | wrapped)
        · exact hasCount zero
        · exact hasSize zero
        · exact overflow wrapped
      rw [if_neg checked, if_neg whole]

/-- The power of two that a small alignment is. -/
theorem power_toNat {k : Nat} (small : k ≤ 4) : (BitVec.ofNat 64 (2 ^ k)).toNat = 2 ^ k := by
  interval_cases k <;> rfl

/-- A power of two is at most eight just when its exponent is at most three. -/
theorem power_le_iff {k : Nat} (small : k ≤ 4) : BitVec.ofNat 64 (2 ^ k) ≤ 8 ↔ k ≤ 3 := by
  interval_cases k <;> decide

variable {state : ArenaState} {size : BitVec 64} {k : Nat}

/-- A request for some bytes is served by the newest block or by a new one. -/
theorem request_eq (asked : size ≠ 0) (small : k ≤ 4) :
    request malloc state size (BitVec.ofNat 64 (2 ^ k)) =
      state.record size (BitVec.ofNat 64 (2 ^ k))
        (match headStart state.arena size (BitVec.ofNat 64 (2 ^ k)) with
        | some start => takeFromHead state.arena start size
        | none =>
          let capacity := newCapacity state.arena size (BitVec.ofNat 64 (2 ^ k))
          match malloc state.arena.live (wirbleArenaHeader + capacity) with
          | none => (state.arena, none)
          | some base => takeFromHead { state.arena with
              blocks := { base, capacity, used := 0 } :: state.arena.blocks
              totalReserved := state.arena.totalReserved + capacity } 0 size) := by
  have nonzero : BitVec.ofNat 64 (2 ^ k) ≠ 0 := by
    interval_cases k <;> decide
  -- The guards against an empty request and an alignment of zero do not apply.
  rw [request, wirbleArenaAllocFrom, if_neg asked, if_neg nonzero]
  simp only [wirbleArenaBlockCreate, wirbleAlignUp_zero small]
  cases headStart state.arena size (BitVec.ofNat 64 (2 ^ k)) with
  | some start => rfl
  | none => cases malloc state.arena.live _ <;> rfl

/-- The head that serves a request has room for it, as far as the wrapped sum says. -/
theorem headStart_some {arena : WirbleArena} {alignment start : BitVec 64}
    (found : headStart arena size alignment = some start) :
    ∃ block rest, arena.blocks = block :: rest ∧ start = wirbleAlignUp block.used alignment ∧
      start + size ≤ block.capacity := by
  unfold headStart at found
  -- Without a block there is no head to look at.
  cases held : arena.blocks with
  | nil => simp [held] at found
  | cons block rest =>
    simp only [held, Option.ite_none_right_eq_some, Option.some.injEq] at found
    obtain ⟨fits, rfl⟩ := found
    exact ⟨block, rest, rfl, rfl, fits⟩

/-- A new block is at least as large as the arena's block size and as the wrapped request. -/
theorem newCapacity_spec (arena : WirbleArena) (size alignment : BitVec 64) :
    let capacity := newCapacity arena size alignment
    arena.blockSize ≤ capacity ∧ size + alignment ≤ capacity ∧
      (capacity = arena.blockSize ∨ capacity = size + alignment) := by
  intro capacity
  have chosen : capacity =
      if arena.blockSize > size + alignment then arena.blockSize else size + alignment := rfl
  rw [chosen]
  -- The larger of the two sizes is taken.
  split
  · rename_i larger
    exact ⟨BitVec.le_refl _, BitVec.le_of_lt larger, .inl rfl⟩
  · rename_i smaller
    exact ⟨BitVec.not_lt.mp smaller, BitVec.le_refl _, .inr rfl⟩

/-- Sound requests keep the invariant. -/
theorem ArenaInvariant.request (behaves : Malloc malloc) (invariant : ArenaInvariant state)
    (small : k ≤ 4) (sound : RequestSound malloc state.arena size (BitVec.ofNat 64 (2 ^ k))) :
    ArenaInvariant (request malloc state size (BitVec.ofNat 64 (2 ^ k))) := by
  rcases sound with rfl | sound
  · rw [Wirble.request, wirbleArenaAllocFrom, if_pos rfl, record_null]
    exact invariant
  by_cases empty : size = 0
  · rw [empty, Wirble.request, wirbleArenaAllocFrom, if_pos rfl, record_null]
    exact invariant
  rw [request_eq empty small]
  -- The request is served from the newest block, or a block is allocated for it.
  cases head : headStart state.arena size (BitVec.ofNat 64 (2 ^ k)) with
  | some start =>
    rw [head] at sound
    obtain ⟨low, noWrap⟩ := sound
    obtain ⟨block, rest, newest, rfl, fits⟩ := headStart_some head
    obtain ⟨-, -, whole, used⟩ := invariant.blocks block (newest ▸ .head _)
    obtain ⟨after, -, aligned⟩ := wirbleAlignUp_spec block.used small (by omega)
    exact invariant.take newest ((power_le_iff small).mp low) after aligned noWrap fits
  | none =>
    rw [head] at sound
    simp only at sound ⊢
    -- Without memory the request fails, and nothing changes.
    cases given : malloc state.arena.live (wirbleArenaHeader +
        newCapacity state.arena size (BitVec.ofNat 64 (2 ^ k))) with
    | none =>
      rw [record_null]
      exact invariant
    | some base =>
      -- The new block is taken over first, and then the request is served from it.
      rcases sound with refused | ⟨low, noWrap, header⟩
      · rw [refused] at given
        cases given
      obtain ⟨larger, room, -⟩ := newCapacity_spec state.arena size (BitVec.ofNat 64 (2 ^ k))
      have grown := invariant.grow behaves (state.arena.totalReserved +
        newCapacity state.arena size (BitVec.ofNat 64 (2 ^ k))) given header larger
      -- The capacity holds the size and the alignment, so the size fits.
      have sum : (size + BitVec.ofNat 64 (2 ^ k)).toNat =
          size.toNat + (BitVec.ofNat 64 (2 ^ k)).toNat := by
        rw [BitVec.toNat_add, Nat.mod_eq_of_lt noWrap]
      have fits : (0 : BitVec 64) + size ≤
          newCapacity state.arena size (BitVec.ofNat 64 (2 ^ k)) := by
        have zero : (0 : BitVec 64) + size = size := by simp
        rw [zero]
        have bound : (size + BitVec.ofNat 64 (2 ^ k)).toNat ≤ _ := room
        show size.toNat ≤ _
        omega
      exact grown.take rfl ((power_le_iff small).mp low) (Nat.le_refl _) (Nat.dvd_zero _)
        (by simpa using size.isLt) fits

/-- An alignment above eight is sixteen, which no data area has. -/
theorem not_dvd_of_high (small : k ≤ 4) (high : ¬ BitVec.ofNat 64 (2 ^ k) ≤ 8)
    {address offset : Nat} (base : 16 ∣ address) (start : 2 ^ k ∣ offset) :
    ¬ 2 ^ k ∣ address + 24 + offset := by
  -- Of the small powers only the fourth is above eight.
  have sixteen : k = 4 := by
    rw [power_le_iff small] at high
    omega
  subst sixteen
  omega

/-- No block reaches beyond the end of the address space. -/
theorem ArenaInvariant.region_le (invariant : ArenaInvariant state) {block : WirbleArenaBlock}
    (inside : block ∈ state.arena.blocks) : block.region.1 + block.region.2 ≤ 2 ^ 64 := by
  obtain ⟨-, bounded, whole, -⟩ := invariant.blocks block inside
  rw [region_of_small whole]
  show block.base + (24 + block.capacity.toNat) ≤ _
  omega

/-- A request that the newest block serves is misaligned or leaves every block if it is not sound. -/
theorem ArenaInvariant.unsound_head (invariant : ArenaInvariant state) (small : k ≤ 4)
    {start : BitVec 64}
    (head : headStart state.arena size (BitVec.ofNat 64 (2 ^ k)) = some start)
    (unsound : ¬ (BitVec.ofNat 64 (2 ^ k) ≤ 8 ∧ start.toNat + size.toNat < 2 ^ 64)) :
    ¬ ArenaSafe (state.record size (BitVec.ofNat 64 (2 ^ k))
      (takeFromHead state.arena start size)) := by
  obtain ⟨block, rest, newest, rfl, fits⟩ := headStart_some head
  obtain ⟨base16, -, whole, used⟩ := invariant.blocks block (newest ▸ .head _)
  obtain ⟨-, -, aligned⟩ := wirbleAlignUp_spec block.used small (by omega)
  have header : wirbleArenaHeader.toNat = 24 := rfl
  intro safe
  simp only [takeFromHead, newest, ArenaState.record, Option.toList_some, List.map_cons,
    List.map_nil, List.singleton_append] at safe
  by_cases low : BitVec.ofNat 64 (2 ^ k) ≤ 8
  · -- The range goes beyond the end of the address space.
    have wraps : ¬ _ < 2 ^ 64 := fun noWrap => unsound ⟨low, noWrap⟩
    obtain ⟨holder, inside, -, high⟩ := safe.within _ (.head _)
    have ends : holder.region.1 + holder.region.2 ≤ 2 ^ 64 := by
      rcases List.mem_cons.mp inside with rfl | later
      · -- The region of a block does not depend on what is used of it.
        show block.region.1 + block.region.2 ≤ _
        exact invariant.region_le (newest ▸ .head _)
      · exact invariant.region_le (newest ▸ .tail _ later)
    simp only [header] at high
    omega
  · have divides := safe.aligned _ (.head _)
    simp only [power_toNat small, header] at divides
    exact not_dvd_of_high small low base16 aligned divides

/-- A block whose size wraps with its header has no data area for a request. -/
theorem region_of_wrapped {base : Nat} {used capacity : BitVec 64}
    (wraps : ¬ wirbleArenaHeader.toNat + capacity.toNat < 2 ^ 64) :
    (WirbleArenaBlock.region { base, capacity, used }).1 = base ∧
      (WirbleArenaBlock.region { base, capacity, used }).2 < 24 := by
  refine ⟨rfl, ?_⟩
  -- The size that malloc is asked for is smaller than the header.
  show (wirbleArenaHeader + capacity).toNat < 24
  have header : wirbleArenaHeader.toNat = 24 := rfl
  have bound := capacity.isLt
  rw [BitVec.toNat_add, header]
  omega

/-- A request that a new block serves is misaligned or leaves every block if it is not sound. -/
theorem ArenaInvariant.unsound_block (behaves : Malloc malloc) (invariant : ArenaInvariant state)
    (small : k ≤ 4) (positive : 0 < size.toNat) {base : Nat}
    (answer : malloc state.arena.live (wirbleArenaHeader +
      newCapacity state.arena size (BitVec.ofNat 64 (2 ^ k))) = some base)
    (unsound : ¬ (BitVec.ofNat 64 (2 ^ k) ≤ 8 ∧
      size.toNat + (BitVec.ofNat 64 (2 ^ k)).toNat < 2 ^ 64 ∧ wirbleArenaHeader.toNat +
        (newCapacity state.arena size (BitVec.ofNat 64 (2 ^ k))).toNat < 2 ^ 64)) :
    let capacity := newCapacity state.arena size (BitVec.ofNat 64 (2 ^ k))
    ¬ ArenaSafe (state.record size (BitVec.ofNat 64 (2 ^ k)) (takeFromHead { state.arena with
      blocks := { base, capacity, used := 0 } :: state.arena.blocks
      totalReserved := state.arena.totalReserved + capacity } 0 size)) := by
  obtain ⟨base16, above⟩ := behaves.aligned _ _ _ answer
  have top := behaves.inside _ _ _ answer
  have header : wirbleArenaHeader.toNat = 24 := rfl
  intro capacity safe
  simp only [takeFromHead, ArenaState.record, Option.toList_some, List.map_cons, List.map_nil,
    List.singleton_append] at safe
  by_cases low : BitVec.ofNat 64 (2 ^ k) ≤ 8
  -- The region that was taken lies in some block.
  · obtain ⟨holder, inside, -, high⟩ := safe.within _ (.head _)
    simp only [header] at high
    have eight : (BitVec.ofNat 64 (2 ^ k)).toNat ≤ 8 := low
    have ends : holder.region.1 + holder.region.2 ≤ 2 ^ 64 := by
      rcases List.mem_cons.mp inside with rfl | old
      · exact top
      · exact invariant.region_le old
    by_cases noWrap : size.toNat + (BitVec.ofNat 64 (2 ^ k)).toNat < 2 ^ 64
    · have whole : ¬ wirbleArenaHeader.toNat + capacity.toNat < 2 ^ 64 := fun whole =>
        unsound ⟨low, noWrap, whole⟩
      obtain ⟨-, -, chosen⟩ := newCapacity_spec state.arena size (BitVec.ofNat 64 (2 ^ k))
      rcases chosen with large | requested
      · -- A block size that wraps with the header leaves no data area, and no earlier block.
        rcases List.mem_cons.mp inside with rfl | old
        · obtain ⟨start, little⟩ := @region_of_wrapped base (0 + size) _ whole
          rw [start] at high
          omega
        · have bound := invariant.blockSize (List.ne_nil_of_mem old)
          rw [show capacity = _ from large] at whole
          omega
      -- A capacity for the request itself wraps with the header only if the request is too large.
      · have sum : (size + BitVec.ofNat 64 (2 ^ k)).toNat =
            size.toNat + (BitVec.ofNat 64 (2 ^ k)).toNat := by
          rw [BitVec.toNat_add, Nat.mod_eq_of_lt noWrap]
        rw [show capacity = _ from requested, sum] at whole
        omega
    · omega
  -- A power above eight does not divide an address that is eight past a multiple of sixteen.
  · have divides := safe.aligned _ (.head _)
    simp only [power_toNat small, header] at divides
    exact not_dvd_of_high small low base16 (Nat.dvd_zero _) divides

/-- A result that is recorded is misaligned or leaves every block, unless the request is sound. -/
theorem ArenaInvariant.unsound (behaves : Malloc malloc) (invariant : ArenaInvariant state)
    (small : k ≤ 4) (unsound : ¬ RequestSound malloc state.arena size (BitVec.ofNat 64 (2 ^ k))) :
    ¬ ArenaSafe (Wirble.request malloc state size (BitVec.ofNat 64 (2 ^ k))) := by
  obtain ⟨asked, unsound⟩ := not_or.mp unsound
  rw [request_eq asked small]
  have positive : 0 < size.toNat := by
    rcases Nat.eq_zero_or_pos size.toNat with zero | positive
    · exact (asked (BitVec.eq_of_toNat_eq zero)).elim
    · exact positive
  -- The head serves the request, or a new block does.
  cases head : headStart state.arena size (BitVec.ofNat 64 (2 ^ k)) with
  | some start =>
    rw [head] at unsound
    exact invariant.unsound_head small head unsound
  | none =>
    rw [head] at unsound
    obtain ⟨given, unsound⟩ := not_or.mp unsound
    cases answer : malloc state.arena.live (wirbleArenaHeader +
        newCapacity state.arena size (BitVec.ofNat 64 (2 ^ k))) with
    | none => exact absurd answer given
    | some base =>
      simp only [answer]
      exact invariant.unsound_block behaves small positive answer unsound

end Request

/-! Whole runs. -/

section Run

variable {malloc : List (Nat × Nat) → BitVec 64 → Option Nat}

/-- One sound call keeps the invariant, and any other one leaves an unsafe state. -/
theorem ArenaInvariant.step (behaves : Malloc malloc) {state : ArenaState}
    (invariant : ArenaInvariant state) {call : ArenaCall} (power : call.PowerOfTwo) :
    (call.Sound malloc state.arena → ArenaInvariant (arenaStep malloc state call)) ∧
      (¬ call.Sound malloc state.arena → ¬ ArenaSafe (arenaStep malloc state call)) := by
  cases call with
  -- Both allocating calls are requests, and a reset leaves nothing to be unsafe.
  | alloc size alignment =>
    obtain ⟨k, small, rfl⟩ := power
    exact ⟨invariant.request behaves small, invariant.unsound behaves small⟩
  | calloc count size alignment =>
    obtain ⟨k, small, rfl⟩ := power
    rw [arenaStep_calloc]
    exact ⟨invariant.request behaves small, invariant.unsound behaves small⟩
  | reset =>
    refine ⟨fun _ => ?_, fun unsound => (unsound trivial).elim⟩
    exact ⟨nofun, .nil, fun some => (some rfl).elim, nofun, nofun, .nil⟩

/-- Calls are safe throughout just when each request is sound where it is made. -/
theorem ArenaInvariant.run_iff (behaves : Malloc malloc) {state : ArenaState}
    (invariant : ArenaInvariant state) {calls : List ArenaCall}
    (powers : ∀ call ∈ calls, call.PowerOfTwo) :
    SafeThroughout malloc state calls ↔ SoundThroughout malloc state calls := by
  -- Induction on the calls: the first unsound one leaves a state that is not safe.
  induction calls generalizing state with
  | nil => exact iff_of_true invariant.safe trivial
  | cons call rest ih =>
    obtain ⟨keeps, breaks⟩ := invariant.step behaves (powers call (.head _))
    have later := fun other (member : other ∈ rest) => powers other (.tail _ member)
    rw [SafeThroughout, SoundThroughout]
    -- What comes after the first call is safe just when it is sound.
    constructor
    · rintro ⟨-, safe⟩
      have sound : call.Sound malloc state.arena := by
        by_contra unsound
        refine breaks unsound ?_
        cases rest with
        | nil => exact safe
        | cons => exact safe.1
      exact ⟨sound, (ih (keeps sound) later).mp safe⟩
    · rintro ⟨sound, soundRest⟩
      exact ⟨invariant.safe, (ih (keeps sound) later).mpr soundRest⟩

/-- Over a whole run with alignments up to sixteen, the results stay aligned, inside of blocks and
apart exactly when no call gets memory at alignment sixteen or through a sum that wraps. -/
theorem arena_safe_iff (behaves : Malloc malloc) (blockSize : BitVec 64) (calls : List ArenaCall)
    (powers : ∀ call ∈ calls, call.PowerOfTwo) :
    SafeThroughout malloc (arenaStart blockSize) calls ↔
      SoundThroughout malloc (arenaStart blockSize) calls :=
  (arenaInvariant_start blockSize).run_iff behaves powers

end Run

/-- The first multiple of sixteen above all live regions. -/
def freshAddress : List (Nat × Nat) → Nat
  | [] => 4096
  | region :: rest => max ((region.1 + region.2 + 15) / 16 * 16) (freshAddress rest)

/-- An allocator that goes upwards through the address space. -/
def risingMalloc (live : List (Nat × Nat)) (size : BitVec 64) : Option Nat :=
  if freshAddress live + size.toNat ≤ 2 ^ 64 then some (freshAddress live) else none

/-- The address above all live regions is aligned and meets none of them. -/
theorem freshAddress_spec (live : List (Nat × Nat)) :
    16 ∣ freshAddress live ∧ 0 < freshAddress live ∧
      ∀ region ∈ live, region.1 + region.2 ≤ freshAddress live := by
  -- The induction is on the live regions, of which every one pushes the address up.
  induction live with
  | nil => exact ⟨by decide, by decide, nofun⟩
  | cons region rest ih =>
    obtain ⟨aligned, positive, above⟩ := ih
    rw [freshAddress]
    refine ⟨?_, by omega, ?_⟩
    · rcases Nat.le_total ((region.1 + region.2 + 15) / 16 * 16) (freshAddress rest) with less | more
      · rwa [Nat.max_eq_right less]
      · rw [Nat.max_eq_left more]
        exact Nat.dvd_mul_left _ _
    -- The address is above the first region and above the others.
    · intro other member
      rcases List.mem_cons.mp member with rfl | later
      · omega
      · have bound := above other later
        omega

/-- The allocator that only goes up behaves as required. -/
theorem risingMalloc_behaves : Malloc risingMalloc := by
  -- An answer is the fresh address, which is above every live region.
  have answer : ∀ live size address, risingMalloc live size = some address →
      address = freshAddress live ∧ freshAddress live + size.toNat ≤ 2 ^ 64 := by
    intro live size address given
    rw [risingMalloc, Option.ite_none_right_eq_some, Option.some.injEq] at given
    exact ⟨given.2.symm, given.1⟩
  refine ⟨?_, ?_, ?_⟩
  -- The address is aligned, inside the address space, and above every live region.
  · intro live size address given
    obtain ⟨rfl, -⟩ := answer live size address given
    exact ⟨(freshAddress_spec live).1, (freshAddress_spec live).2.1⟩
  · intro live size address given
    obtain ⟨rfl, bound⟩ := answer live size address given
    exact bound
  · intro live size address given region member
    obtain ⟨rfl, -⟩ := answer live size address given
    exact .inr ((freshAddress_spec live).2.2 region member)

/-- Two allocations, a cleared array and a reset are sound, so all their states are safe. -/
theorem arena_safe_rising :
    SafeThroughout risingMalloc (arenaStart 64)
      [.alloc 24 8, .alloc 3 1, .calloc 10 4 4, .alloc 200 8, .reset, .alloc 1 2] := by
  refine (arena_safe_iff risingMalloc_behaves 64 _ ?_).mpr ?_
  · -- Every alignment that is asked for is a power of two.
    intro call member
    simp only [List.mem_cons, List.not_mem_nil, or_false] at member
    rcases member with rfl | rfl | rfl | rfl | rfl | rfl
    · exact ⟨3, by decide, rfl⟩
    · exact ⟨0, by decide, rfl⟩
    · exact ⟨2, by decide, rfl⟩
    · exact ⟨3, by decide, rfl⟩
    · trivial
    · exact ⟨1, by decide, rfl⟩
  · -- Only the second request fits in the newest block, the others open new ones.
    exact ⟨.inr (.inr ⟨by decide, by decide, by decide⟩), .inr ⟨by decide, by decide⟩,
      .inr (.inr ⟨by decide, by decide, by decide⟩),
      .inr (.inr ⟨by decide, by decide, by decide⟩), trivial,
      .inr (.inr ⟨by decide, by decide, by decide⟩), trivial⟩

/-- The data area of a block starts eight bytes past a multiple of sixteen, so the first result at
alignment sixteen is misaligned. -/
theorem arena_misaligned :
    ¬ ∀ (malloc : List (Nat × Nat) → BitVec 64 → Option Nat), Malloc malloc →
      ∀ (blockSize : BitVec 64) (calls : List ArenaCall),
        (∀ call ∈ calls, call.PowerOfTwo) → SafeThroughout malloc (arenaStart blockSize) calls := by
  intro claimed
  -- Alignment sixteen is a power of two, and one byte fits the first block.
  have safe := claimed risingMalloc risingMalloc_behaves 64 [.alloc 1 16] (by
    intro call member
    obtain rfl := List.mem_singleton.mp member
    exact ⟨4, by decide, rfl⟩)
  have divides := safe.2.aligned ⟨4120, 1, 16⟩ (by decide)
  revert divides
  decide

end Wirble
