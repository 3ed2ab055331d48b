import Wirble.Library.Doubling

/-! Buffers that double their capacity until a request fits. -/

namespace Wirble

open Doubling (First Reaches)

/-! The four functions that grow a buffer. -/

/-- What a pointer refers to: nothing, a block of so many bytes, or memory that was given back. -/
inductive HeapBlock where
  | null
  | live (bytes : BitVec 64)
  | freed
  deriving DecidableEq, Repr

/-- `free`. -/
def HeapBlock.free : HeapBlock → HeapBlock
  | .null => .null
  | .live _ | .freed => .freed

/-- A buffer with its block, the number of elements in use and the number that it has room for. -/
structure GrowingBuffer (w : Nat) where
  data : HeapBlock
  size : BitVec w
  capacity : BitVec w
  deriving DecidableEq, Repr

/-- The fields `stack`, `stackSize` and `stackCap` of a virtual machine. -/
abbrev WVMStack := GrowingBuffer 32

abbrev WVMBuffer := GrowingBuffer 64

abbrev WirbleByteBuf := GrowingBuffer 64

/-- The fields `uses`, `use_count` and `use_capacity` of a node. Their type is `unsigned long`,
whose width depends on the platform. -/
abbrev WILUses (w : Nat) := GrowingBuffer w

section Functions

variable {w : Nat}

-- The allocator grants some numbers of bytes, and a loop has so many rounds to end.
variable (granted : BitVec 64 → Bool) (rounds : Nat)

/-- `realloc`, which leaves the block alone where it fails. -/
def realloc (block : HeapBlock) (bytes : BitVec 64) : Bool × HeapBlock :=
  if granted bytes then (true, .live bytes) else (false, block)

/-- `wil_xrealloc`, which frees the block where no bytes are wanted. -/
def wilXrealloc (block : HeapBlock) (bytes : BitVec 64) : Bool × HeapBlock :=
  if bytes = 0 then (false, block.free) else realloc granted block bytes

/-- The capacity that doubling begins with. -/
def firstCapacity (initial capacity : BitVec w) : BitVec w :=
  if capacity = 0 then initial else capacity

/-- Set the capacity of a buffer, with elements of so many bytes, if its block can be resized. -/
def GrowingBuffer.resize (buffer : GrowingBuffer w)
    (resized : HeapBlock → BitVec 64 → Bool × HeapBlock) (element : BitVec 64)
    (capacity : BitVec w) : Bool × GrowingBuffer w :=
  match resized buffer.data (capacity.setWidth 64 * element) with
  | (true, data) => (true, { buffer with data, capacity })
  | (false, data) => (false, { buffer with data })

/-- Growing a buffer to a capacity, as all four functions do it. There is no result while the loop
has not ended. -/
def GrowingBuffer.grow (buffer : GrowingBuffer w)
    (resized : HeapBlock → BitVec 64 → Bool × HeapBlock) (initial : BitVec w)
    (element : BitVec 64) (needed : BitVec w) : Option (Bool × GrowingBuffer w) :=
  if needed ≤ buffer.capacity then some (true, buffer)
  else
    (Doubling.loop rounds (firstCapacity initial buffer.capacity) needed).map
      (buffer.resize resized element)

/-- `wvmEnsureStack`, without the zeros that it writes into new slots. It reports nothing. -/
def wvmEnsureStack (vm : WVMStack) (extra : BitVec 32) : Option WVMStack :=
  (vm.grow rounds (realloc granted) 32 8 (vm.size + extra)).map (·.2)

/-- `wvm_buffer_grow`. -/
def wvmBufferGrow (buf : WVMBuffer) (extra : BitVec 64) : Option (Bool × WVMBuffer) :=
  buf.grow rounds (realloc granted) 64 1 (buf.size + extra)

/-- `wirble_bytebuf_reserve`. -/
def wirbleBytebufReserve (buffer : WirbleByteBuf) (capacity : BitVec 64) :
    Option (Bool × WirbleByteBuf) :=
  buffer.grow rounds (realloc granted) 64 1 capacity

/-- `wil_node_ensure_use_capacity`. -/
def wilNodeEnsureUseCapacity (node : WILUses w) (capacity : BitVec w) :
    Option (Bool × WILUses w) :=
  node.grow rounds (wilXrealloc granted) 4 8 capacity

end Functions

/-! What growing is to do. -/

section Growth

variable {w : Nat}

/-- With every allocator the function returns, with room for the total if it reports success, and
with the buffer as it was otherwise. -/
def GrowsRight (buffer : GrowingBuffer w) (total : Nat)
    (run : (BitVec 64 → Bool) → Nat → Option (Bool × GrowingBuffer w)) : Prop :=
  ∀ granted, ∃ rounds reported after, run granted rounds = some (reported, after) ∧
    (reported = true → total ≤ after.capacity.toNat) ∧ (reported = false → after = buffer)

/-- The same without a report: only an allocator that refuses memory excuses the lack of room. -/
def GrowsSilently (buffer : GrowingBuffer w) (total : Nat)
    (run : (BitVec 64 → Bool) → Nat → Option (GrowingBuffer w)) : Prop :=
  ∀ granted, ∃ rounds after, run granted rounds = some after ∧
    (total ≤ after.capacity.toNat ∨ after = buffer ∧ ∃ bytes, granted bytes = false)

/-- The capacity is large enough already, or some doubling of it is. -/
def Enough (initial capacity needed : BitVec w) : Prop :=
  needed ≤ capacity ∨ Reaches (firstCapacity initial capacity) needed

instance (initial capacity needed : BitVec w) : Decidable (Enough initial capacity needed) :=
  inferInstanceAs (Decidable (_ ∨ _))

variable {buffer : GrowingBuffer w} {resized : HeapBlock → BitVec 64 → Bool × HeapBlock}
  {initial needed : BitVec w} {element : BitVec 64} {rounds : Nat}
  {result : Bool × GrowingBuffer w}

/-- What growing a buffer returns, and when. -/
theorem grow_eq_some : buffer.grow rounds resized initial element needed = some result ↔
    (needed ≤ buffer.capacity ∧ result = (true, buffer)) ∨
      (¬ needed ≤ buffer.capacity ∧ ∃ count < rounds,
        First (firstCapacity initial buffer.capacity) needed count ∧
          result = buffer.resize resized element
            (firstCapacity initial buffer.capacity <<< count)) := by
  -- A request that fits is answered before the loop.
  rw [GrowingBuffer.grow]
  by_cases room : needed ≤ buffer.capacity
  · simp only [room, if_true, true_and, not_true_eq_false, false_and, or_false, Option.some.injEq]
    exact eq_comm
  · simp only [room, if_false, false_and, not_false_eq_true, true_and, false_or,
      Option.map_eq_some_iff]
    constructor
    · intro ⟨capacity, ended, equal⟩
      obtain ⟨count, inside, first, same⟩ := Doubling.loop_eq_some.mp ended
      exact ⟨count, inside, first, by rw [← equal, same]⟩
    · intro ⟨count, inside, first, same⟩
      exact ⟨_, Doubling.loop_eq_some.mpr ⟨count, inside, first, rfl⟩, same.symm⟩

/-- A block that cannot be resized stays, and the buffer with it. -/
theorem resize_false {capacity : BitVec w} {granted : BitVec 64 → Bool}
    (refused : granted (capacity.setWidth 64 * element) = false) :
    buffer.resize (realloc granted) element capacity = (false, buffer) := by
  rw [GrowingBuffer.resize, realloc, refused]
  rfl

/-- A reallocation that is granted keeps the buffer and takes the new capacity. -/
theorem resize_granted {capacity : BitVec w} {granted : BitVec 64 → Bool}
    (enough : granted (capacity.setWidth 64 * element) = true) :
    buffer.resize (realloc granted) element capacity =
      (true, { buffer with data := .live (capacity.setWidth 64 * element), capacity }) := by
  rw [GrowingBuffer.resize, realloc, enough]
  rfl

/-- Where a request can be met, growing meets it or leaves the buffer alone. -/
theorem grow_enough {granted : BitVec 64 → Bool}
    (enough : Enough initial buffer.capacity needed) :
    ∃ rounds reported after, buffer.grow rounds (realloc granted) initial element needed =
        some (reported, after) ∧ (reported = true → needed ≤ after.capacity) ∧
      (reported = false → after = buffer ∧ ∃ bytes, granted bytes = false) := by
  by_cases room : needed ≤ buffer.capacity
  · exact ⟨0, true, buffer, grow_eq_some.mpr (.inl ⟨room, rfl⟩), fun _ => room, nofun⟩
  obtain ⟨count, first⟩ := (enough.resolve_left room).exists_first
  have found (reported : Bool) (after : GrowingBuffer w)
      (same : buffer.resize (realloc granted) element
        (firstCapacity initial buffer.capacity <<< count) = (reported, after)) :
      buffer.grow (count + 1) (realloc granted) initial element needed = some (reported, after) :=
    grow_eq_some.mpr (.inr ⟨room, count, by omega, first, same.symm⟩)
  -- The allocator decides whether the buffer grows.
  cases answer : granted ((firstCapacity initial buffer.capacity <<< count).setWidth 64 * element)
  · exact ⟨count + 1, false, buffer, found _ _ (resize_false answer), nofun,
      fun _ => ⟨rfl, _, answer⟩⟩
  · exact ⟨count + 1, true, _, found _ _ (resize_granted answer), fun _ => first.1, nofun⟩

/-- An allocator that refuses nothing shows what a request comes to. -/
theorem grow_granted {reported : Bool} {after : GrowingBuffer w}
    (returned : buffer.grow rounds (realloc fun _ => true) initial element needed =
      some (reported, after)) :
    reported = true ∧ Enough initial buffer.capacity needed := by
  -- Either the buffer had room, or the search for a capacity succeeded.
  rcases grow_eq_some.mp returned with ⟨room, same⟩ | ⟨small, count, inside, first, same⟩
  · exact ⟨congrArg Prod.fst same, .inl room⟩
  · refine ⟨?_, .inr first.reaches⟩
    rw [resize_granted rfl] at same
    exact congrArg Prod.fst same

/-- A buffer keeps its elements, and grows by its capacity only. It stays as it is where memory is
refused. -/
theorem grow_spec {granted : BitVec 64 → Bool} {reported : Bool} {after : GrowingBuffer w}
    (returned : buffer.grow rounds (realloc granted) initial element needed =
      some (reported, after)) :
    after.size = buffer.size ∧
      (after = buffer ∨ buffer.capacity < after.capacity ∧
        after.data = .live (after.capacity.setWidth 64 * element)) ∧
      (reported = true → needed ≤ after.capacity) ∧
      (reported = false → after = buffer ∧ ∃ bytes, granted bytes = false) := by
  rcases grow_eq_some.mp returned with ⟨room, same⟩ | ⟨small, count, -, first, same⟩
  · cases same
    exact ⟨rfl, .inl rfl, fun _ => room, nofun⟩
  · have larger : buffer.capacity < firstCapacity initial buffer.capacity <<< count :=
      BitVec.lt_def.mpr (Nat.lt_of_lt_of_le (BitVec.lt_def.mp (BitVec.not_le.mp small))
        (BitVec.le_def.mp first.1))
    -- The allocator decides which of the two capacities the buffer has now.
    cases answer : granted
      ((firstCapacity initial buffer.capacity <<< count).setWidth 64 * element) with
    | false =>
      rw [resize_false answer] at same
      cases same
      exact ⟨rfl, .inl rfl, nofun, fun _ => ⟨rfl, _, answer⟩⟩
    | true =>
      rw [resize_granted answer] at same
      cases same
      exact ⟨rfl, .inr ⟨larger, rfl⟩, fun _ => first.1, nofun⟩

variable {total : Nat}

/-- A total that has not wrapped around is the request. -/
theorem le_of_needed (wrapped : needed.toNat = total % 2 ^ w) (fits : total < 2 ^ w)
    {capacity : BitVec w} (room : needed ≤ capacity) : total ≤ capacity.toNat := by
  rw [BitVec.le_def, wrapped, Nat.mod_eq_of_lt fits] at room
  exact room

/-- Growing for a sum that may wrap around is right exactly if it does not, and if doubling gets
there. -/
theorem grows_iff (wrapped : needed.toNat = total % 2 ^ w) :
    GrowsRight buffer total (fun granted rounds =>
        buffer.grow rounds (realloc granted) initial element needed) ↔
      total < 2 ^ w ∧ Enough initial buffer.capacity needed := by
  constructor
  · intro grows
    obtain ⟨rounds, reported, after, returned, success, -⟩ := grows fun _ => true
    obtain ⟨granted, enough⟩ := grow_granted returned
    -- No capacity is beyond the range.
    have bound := after.capacity.isLt
    exact ⟨Nat.lt_of_le_of_lt (success granted) bound, enough⟩
  · intro ⟨fits, enough⟩ granted
    obtain ⟨rounds, reported, after, returned, success, failure⟩ := @grow_enough w buffer initial
      needed element granted enough
    exact ⟨rounds, reported, after, returned,
      fun granted => le_of_needed wrapped fits (success granted),
      fun refused => (failure refused).1⟩

/-- A buffer grows as silently as it should just when the total does not wrap and the doubling ends.
-/
theorem growsSilently_iff (wrapped : needed.toNat = total % 2 ^ w) :
    GrowsSilently buffer total (fun granted rounds =>
        (buffer.grow rounds (realloc granted) initial element needed).map (·.2)) ↔
      total < 2 ^ w ∧ Enough initial buffer.capacity needed := by
  constructor
  · intro grows
    obtain ⟨rounds, after, returned, outcome⟩ := grows fun _ => true
    obtain ⟨result, found, same⟩ := Option.map_eq_some_iff.mp returned
    obtain ⟨-, enough⟩ := grow_granted found
    -- This allocator is no excuse.
    rcases outcome with success | ⟨-, bytes, refused⟩
    · exact ⟨Nat.lt_of_le_of_lt success after.capacity.isLt, enough⟩
    · cases refused
  · intro ⟨fits, enough⟩ granted
    obtain ⟨rounds, reported, after, returned, success, failure⟩ := @grow_enough w buffer initial
      needed element granted enough
    refine ⟨rounds, after, congrArg (Option.map (·.2)) returned, ?_⟩
    cases reported with
    | true => exact .inl (le_of_needed wrapped fits (success rfl))
    | false => exact .inr (failure rfl)

/-! Requests that are always met. -/

/-- A request up to half of the range is met from every capacity. -/
theorem enough_of_half {capacity : BitVec w} (some : initial ≠ 0)
    (half : 2 * needed.toNat ≤ 2 ^ w) : Enough initial capacity needed := by
  refine .inr (Doubling.reaches_of_half ?_ half)
  -- A buffer without capacity begins with the initial one.
  rw [firstCapacity]
  split
  · exact some
  · assumption

/-- Such requests take no more rounds than the capacity has bits. -/
theorem grow_isSome (some : initial ≠ 0) (half : 2 * needed.toNat ≤ 2 ^ w)
    (enough : w ≤ rounds) :
    (buffer.grow rounds resized initial element needed).isSome = true := by
  by_cases room : needed ≤ buffer.capacity
  · rw [grow_eq_some.mpr (.inl ⟨room, rfl⟩)]
    rfl
  · obtain ⟨count, first⟩ :=
      ((@enough_of_half w initial _ buffer.capacity some half).resolve_left room).exists_first
    -- Behind all bits the capacity is zero, which is no request.
    have short : count < w := by
      by_contra long
      have reached := first.1
      rw [BitVec.shiftLeft_eq_zero (Nat.not_lt.mp long)] at reached
      exact room (BitVec.le_trans reached (BitVec.le_def.mpr (by simp)))
    rw [grow_eq_some.mpr (.inr ⟨room, count, by omega, first, rfl⟩)]
    rfl

/-- From a power of two, as growing itself makes them, no other request is met. -/
theorem enough_twoPow_iff {capacity : BitVec w} {bit : Nat} (inside : bit < w)
    (power : firstCapacity initial capacity = BitVec.twoPow w bit) :
    Enough initial capacity needed ↔ 2 * needed.toNat ≤ 2 ^ w := by
  rw [Enough, power, Doubling.reaches_twoPow_iff inside]
  constructor
  · intro either
    rcases either with room | half
    · -- The capacity is zero or that power.
      have top : 2 ^ (bit + 1) ≤ 2 ^ w := Nat.pow_le_pow_right (by omega) inside
      have value := BitVec.toNat_twoPow_of_lt inside
      rw [Nat.pow_succ] at top
      rw [BitVec.le_def] at room
      rw [firstCapacity] at power
      split at power
      · next zero =>
        rw [zero, show (0 : BitVec w).toNat = 0 from by simp] at room
        omega
      · rw [power, value] at room
        omega
    · exact half
  · exact .inr

/-- Growing makes powers of two from powers of two. -/
theorem grow_twoPow {granted : BitVec 64 → Bool} {reported : Bool} {after : GrowingBuffer w}
    (returned : buffer.grow rounds (realloc granted) initial element needed =
      some (reported, after))
    (power : ∃ bit < w, firstCapacity initial buffer.capacity = BitVec.twoPow w bit) :
    ∃ bit < w, firstCapacity initial after.capacity = BitVec.twoPow w bit := by
  obtain ⟨bit, inside, same⟩ := power
  rcases grow_eq_some.mp returned with ⟨-, kept⟩ | ⟨small, count, -, first, resized⟩
  · have equal : after = buffer := congrArg Prod.snd kept
    rw [equal]
    exact ⟨bit, inside, same⟩
  rw [same] at first resized
  have some : needed ≠ 0 := by
    intro zero
    rw [zero] at small
    exact small (BitVec.le_def.mpr (by simp))
  obtain ⟨stays, doubled⟩ := first.twoPow inside some
  rw [doubled] at resized
  -- The allocator decides which of the two capacities the buffer has now.
  cases answer : granted ((BitVec.twoPow w (bit + count)).setWidth 64 * element) with
  | false =>
    rw [resize_false answer] at resized
    have equal : after = buffer := congrArg Prod.snd resized
    rw [equal]
    exact ⟨bit, inside, same⟩
  -- The new capacity is a power of two that has not been shifted out.
  | true =>
    rw [resize_granted answer] at resized
    have equal : after.capacity = BitVec.twoPow w (bit + count) :=
      congrArg (·.2.capacity) resized
    rw [equal, firstCapacity, if_neg]
    · exact ⟨bit + count, stays, rfl⟩
    · intro zero
      have value := BitVec.toNat_twoPow_of_lt stays
      rw [show BitVec.twoPow w (bit + count) = 0 from zero] at value
      exact absurd value.symm (Nat.pos_iff_ne_zero.mp (Nat.two_pow_pos _))

end Growth

/-! Use lists, whose block is freed where the number of bytes wraps around to zero. -/

section Uses

variable {w : Nat} {node : WILUses w} {capacity : BitVec w}

/-- The doubling that reaches the capacity does not wrap the number of bytes around to zero, or
there is no block to lose. -/
def UsesEnough (node : WILUses w) (capacity : BitVec w) : Prop :=
  capacity ≤ node.capacity ∨
    ∃ count, First (firstCapacity 4 node.capacity) capacity count ∧
      ((firstCapacity 4 node.capacity <<< count).setWidth 64 * 8 ≠ 0 ∨ node.data.free = node.data)

/-- Asking for nothing frees the array. -/
theorem wilXrealloc_zero {granted : BitVec 64 → Bool} {cap : BitVec w}
    (zero : cap.setWidth 64 * 8 = 0) :
    node.resize (wilXrealloc granted) 8 cap = (false, { node with data := node.data.free }) := by
  rw [GrowingBuffer.resize, wilXrealloc, if_pos zero]

/-- Asking for something is a plain reallocation. -/
theorem wilXrealloc_some {granted : BitVec 64 → Bool} {cap : BitVec w}
    (some : cap.setWidth 64 * 8 ≠ 0) :
    node.resize (wilXrealloc granted) 8 cap = node.resize (realloc granted) 8 cap := by
  rw [GrowingBuffer.resize, wilXrealloc, if_neg some]
  rfl

/-- The array of users grows rightly just when the count is small enough to double. -/
theorem wilNodeEnsureUseCapacity_iff :
    GrowsRight node capacity.toNat (fun granted rounds =>
        wilNodeEnsureUseCapacity granted rounds node capacity) ↔ UsesEnough node capacity := by
  constructor
  · -- An allocator that grants everything shows that the doubling ends.
    intro grows
    obtain ⟨rounds, reported, after, returned, -, failure⟩ := grows fun _ => true
    rcases grow_eq_some.mp returned with ⟨room, -⟩ | ⟨small, count, inside, first, same⟩
    · exact .inl room
    refine .inr ⟨count, first, ?_⟩
    by_cases zero : (firstCapacity 4 node.capacity <<< count).setWidth 64 * 8 = 0
    · -- The block has been freed, and the node was to stay as it is.
      rw [wilXrealloc_zero zero] at same
      obtain ⟨refused, freed⟩ := Prod.mk.inj same
      have kept := failure refused
      rw [freed] at kept
      exact .inr (congrArg GrowingBuffer.data kept)
    · exact .inl zero
  · -- The rounds are those of the first capacity that is large enough.
    intro enough granted
    by_cases room : capacity ≤ node.capacity
    · exact ⟨0, true, node, grow_eq_some.mpr (.inl ⟨room, rfl⟩),
        fun _ => BitVec.le_def.mp room, nofun⟩
    obtain ⟨count, first, bytes⟩ := enough.resolve_left room
    -- That many rounds grow the array to the first capacity that is large enough.
    have found (reported : Bool) (after : WILUses w)
        (same : node.resize (wilXrealloc granted) 8 (firstCapacity 4 node.capacity <<< count) =
          (reported, after)) :
        wilNodeEnsureUseCapacity granted (count + 1) node capacity = some (reported, after) :=
      grow_eq_some.mpr (.inr ⟨room, count, by omega, first, same.symm⟩)
    -- A product of zero bytes is refused, or keeps the array.
    by_cases zero : (firstCapacity 4 node.capacity <<< count).setWidth 64 * 8 = 0
    · have kept := bytes.resolve_left fun some => some zero
      refine ⟨count + 1, false, node, found _ _ ?_, nofun, fun _ => rfl⟩
      rw [wilXrealloc_zero zero, kept]
    · -- The block is resized as other blocks are.
      have resized := @wilXrealloc_some w node granted _ zero
      cases answer : granted ((firstCapacity 4 node.capacity <<< count).setWidth 64 * 8)
      · exact ⟨count + 1, false, node, found _ _ (resized.trans (resize_false answer)), nofun,
          fun _ => rfl⟩
      · exact ⟨count + 1, true, _, found _ _ (resized.trans (resize_granted answer)),
          fun _ => BitVec.le_def.mp first.1, nofun⟩

/-- Where the index type is narrow, as with 32 bits, the number of bytes does not wrap around. -/
theorem usesEnough_narrow (narrow : w ≤ 61) :
    UsesEnough node capacity ↔ Enough 4 node.capacity capacity := by
  constructor
  · intro enough
    rcases enough with room | ⟨count, first, -⟩
    · exact .inl room
    · exact .inr first.reaches
  · intro enough
    by_cases room : capacity ≤ node.capacity
    · exact .inl room
    -- The first capacity that is large enough has bytes that do not wrap.
    obtain ⟨count, first⟩ := (enough.resolve_left room).exists_first
    refine .inr ⟨count, first, .inl ?_⟩
    intro zero
    have reached := first.1
    generalize firstCapacity 4 node.capacity <<< count = cap at zero reached
    have bound := cap.isLt
    have range : 2 ^ w ≤ 2 ^ 61 := Nat.pow_le_pow_right (by omega) narrow
    -- Eight times the capacity is below the range of 64 bits, so that the capacity is zero.
    have bytes := congrArg BitVec.toNat zero
    rw [BitVec.toNat_mul, BitVec.toNat_setWidth] at bytes
    change cap.toNat % 2 ^ 64 * 8 % 2 ^ 64 = 0 at bytes
    rw [BitVec.le_def] at reached room
    omega

end Uses

/-! All four functions. -/

/-- Growing is right exactly for totals that do not wrap around and that some doubling reaches. The
block of a use list must not be freed, either. -/
theorem growth_iff {w : Nat} (vm : WVMStack) (extra : BitVec 32) (buf : WVMBuffer)
    (bytes : BitVec 64) (buffer : WirbleByteBuf) (capacity : BitVec 64) (node : WILUses w)
    (uses : BitVec w) :
    (GrowsSilently vm (vm.size.toNat + extra.toNat)
        (fun granted rounds => wvmEnsureStack granted rounds vm extra) ↔
      vm.size.toNat + extra.toNat < 2 ^ 32 ∧ Enough 32 vm.capacity (vm.size + extra)) ∧
    (GrowsRight buf (buf.size.toNat + bytes.toNat)
        (fun granted rounds => wvmBufferGrow granted rounds buf bytes) ↔
      buf.size.toNat + bytes.toNat < 2 ^ 64 ∧ Enough 64 buf.capacity (buf.size + bytes)) ∧
    (GrowsRight buffer capacity.toNat
        (fun granted rounds => wirbleBytebufReserve granted rounds buffer capacity) ↔
      Enough 64 buffer.capacity capacity) ∧
    (GrowsRight node uses.toNat
        (fun granted rounds => wilNodeEnsureUseCapacity granted rounds node uses) ↔
      UsesEnough node uses) := by
  refine ⟨?_, ?_, ?_, ?_⟩
  · exact growsSilently_iff (BitVec.toNat_add ..)
  · exact grows_iff (BitVec.toNat_add ..)
  · -- The requested capacity is a word itself.
    have word : capacity.toNat = capacity.toNat % 2 ^ 64 := (Nat.mod_eq_of_lt capacity.isLt).symm
    exact (grows_iff word).trans (and_iff_right capacity.isLt)
  · exact wilNodeEnsureUseCapacity_iff

/-- A buffer without anything in it. -/
def emptyBuffer (w : Nat) : GrowingBuffer w := ⟨.null, 0, 0⟩

/-- None of the four functions returns for a request just above half of the range, and an extra that
wraps the sum around is taken for room. -/
theorem growth_not_right :
    (¬ ∀ (vm : WVMStack) (extra : BitVec 32),
      GrowsSilently vm (vm.size.toNat + extra.toNat)
        fun granted rounds => wvmEnsureStack granted rounds vm extra) ∧
    (¬ ∀ (buf : WVMBuffer) (extra : BitVec 64),
      GrowsRight buf (buf.size.toNat + extra.toNat)
        fun granted rounds => wvmBufferGrow granted rounds buf extra) ∧
    (¬ ∀ (buffer : WirbleByteBuf) (capacity : BitVec 64),
      GrowsRight buffer capacity.toNat
        fun granted rounds => wirbleBytebufReserve granted rounds buffer capacity) ∧
    (¬ ∀ (node : WILUses 32) (capacity : BitVec 32),
      GrowsRight node capacity.toNat
        fun granted rounds => wilNodeEnsureUseCapacity granted rounds node capacity) := by
  refine ⟨fun grows => ?_, fun grows => ?_, fun grows => ?_, fun grows => ?_⟩
  · have right := (growsSilently_iff (BitVec.toNat_add ..)).mp (grows (emptyBuffer 32) 2147483649)
    exact absurd right.2 (by decide +kernel)
  · -- One byte is in use, and the sum is zero.
    have right := (grows_iff (BitVec.toNat_add ..)).mp
      (grows { emptyBuffer 64 with size := 1 } 18446744073709551615)
    exact absurd right.1 (by decide)
  · have right := (grows_iff (by decide)).mp (grows (emptyBuffer 64) 9223372036854775809)
    exact absurd right.2 (by decide +kernel)
  · have right := wilNodeEnsureUseCapacity_iff.mp (grows (emptyBuffer 32) 2147483649)
    exact absurd ((usesEnough_narrow (by decide)).mp right) (by decide +kernel)

end Wirble
