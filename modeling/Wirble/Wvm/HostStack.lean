import Wirble.Common.Growth
import Wirble.Frontend.Pipeline

/-! The stack of a virtual machine as a block of memory, and as the slots that the interpreter sees. -/

namespace Wirble

/-! The calls of a host on the block. An access outside of it has no result. -/

/-- The fields of the stack, with the contents of its block. -/
structure WVMHost where
  stack : WVMStack
  cells : List (BitVec 64)

namespace WVMHost

/-- A machine that has just been created has room for 32 values. -/
def create : WVMHost := ⟨⟨.live 256, 0, 32⟩, List.replicate 32 0⟩

def load (host : WVMHost) (slot : BitVec 32) : Option (BitVec 64) := host.cells[slot.toNat]?

def store (host : WVMHost) (slot : BitVec 32) (value : BitVec 64) : Option WVMHost :=
  if slot.toNat < host.cells.length then
    some { host with cells := host.cells.set slot.toNat value }
  else none

/-- Set the number of values. -/
def resize (host : WVMHost) (size : BitVec 32) : WVMHost :=
  { host with stack := { host.stack with size } }

/-- `memset` with zeros, from one slot up to another. -/
def clear (host : WVMHost) (first bound : Nat) : Option WVMHost :=
  if bound ≤ first then some host
  else if bound ≤ host.cells.length then
    some { host with
      cells := host.cells.mapIdx fun slot value =>
        if first ≤ slot ∧ slot < bound then 0 else value }
  else none

end WVMHost

section Calls

-- The allocator grants some numbers of bytes, and the loop of growing has so many rounds.
variable (granted : BitVec 64 → Bool) (rounds : Nat)

/-- `wvmEnsureStack` with the zeros that it writes into new slots. -/
def wvmEnsureStackIn (host : WVMHost) (extra : BitVec 32) : Option WVMHost :=
  (wvmEnsureStack granted rounds host.stack extra).map fun stack =>
    ⟨stack, host.cells ++
      List.replicate (stack.capacity.toNat - host.stack.capacity.toNat) 0⟩

def wvmPush (host : WVMHost) (value : BitVec 64) : Option WVMHost := do
  let host ← wvmEnsureStackIn granted rounds host 1
  let stored ← host.store host.stack.size value
  return stored.resize (host.stack.size + 1)

def wvmPop (host : WVMHost) : Option (WVMHost × BitVec 64) :=
  if host.stack.size = 0 then some (host, wvmValueNil)
  else (host.load (host.stack.size - 1)).map fun value =>
    (host.resize (host.stack.size - 1), value)

/-- A negative offset reads as nil. -/
def wvmPeek (host : WVMHost) (offset : BitVec 32) : Option (BitVec 64) :=
  if offset.toInt < 0 ∨ host.stack.size ≤ offset then some wvmValueNil
  else host.load (host.stack.size - 1 - offset)

def wvmSetReg (host : WVMHost) (reg : BitVec 16) (value : BitVec 64) : Option WVMHost :=
  let slot := reg.setWidth 32
  let ensured :=
    if host.stack.capacity ≤ slot then
      wvmEnsureStackIn granted rounds host (slot - host.stack.size + 1)
    else some host
  ensured.bind fun grown =>
    (if grown.stack.size ≤ slot then grown.resize (slot + 1) else grown).store slot value

def wvmGetRegIn (host : WVMHost) (reg : BitVec 16) : Option (BitVec 64) :=
  if host.stack.size ≤ reg.setWidth 32 then some wvmValueNil else host.load (reg.setWidth 32)

/-- What `wvmExecute` does to the stack before its loop. -/
def wvmEnter (host : WVMHost) (regCount : BitVec 16) : Option WVMHost := do
  let grown ← wvmEnsureStackIn granted rounds host (regCount.setWidth 32)
  let cleared ← grown.clear host.stack.size.toNat regCount.toNat
  return cleared.resize (regCount.setWidth 32)

/-- The calls of a host. -/
inductive WVMHostCall where
  | push (value : BitVec 64)
  | pop
  | peek (offset : BitVec 32)
  | setReg (reg : BitVec 16) (value : BitVec 64)
  | getReg (reg : BitVec 16)
  | enter (regCount : BitVec 16)
  deriving DecidableEq, Repr

/-- Perform a call, whose result is nil where the function has none. -/
def WVMHostCall.run (host : WVMHost) : WVMHostCall → Option (WVMHost × BitVec 64)
  | push value => (wvmPush granted rounds host value).map (·, wvmValueNil)
  | pop => wvmPop host
  | peek offset => (wvmPeek host offset).map (host, ·)
  | setReg reg value => (wvmSetReg granted rounds host reg value).map (·, wvmValueNil)
  | getReg reg => (wvmGetRegIn host reg).map (host, ·)
  | enter regCount => (wvmEnter granted rounds host regCount).map (·, wvmValueNil)

/-- Perform calls one after the other, and collect their results. The allocator answers by the
number of the call, too. -/
def runHost (granted : Nat → BitVec 64 → Bool) (host : WVMHost) : List WVMHostCall → Option (WVMHost × List (BitVec 64))
  | [] => some (host, [])
  | call :: rest => do
    let (next, value) ← call.run (granted 0) rounds host
    let (final, values) ← runHost (fun done => granted (done + 1)) next rest
    return (final, value :: values)

end Calls

/-! The same calls on slots without a bound. -/

/-- What a call is to do: the stack has all slots, and those above its top keep their values. -/
def WVMHostCall.apply (vm : WVMState) : WVMHostCall → WVMState × BitVec 64
  | push value =>
    ({ vm with
        stack := Function.update vm.stack vm.stackSize.toNat value
        stackSize := vm.stackSize + 1 }, wvmValueNil)
  | pop =>
    if vm.stackSize = 0 then (vm, wvmValueNil)
    else ({ vm with stackSize := vm.stackSize - 1 }, vm.stack (vm.stackSize - 1).toNat)
  | peek offset =>
    (vm, if offset.toInt < 0 ∨ vm.stackSize ≤ offset then wvmValueNil
      else vm.stack (vm.stackSize - 1 - offset).toNat)
  | setReg reg value =>
    ({ vm with
        stack := Function.update vm.stack reg.toNat value
        stackSize := if vm.stackSize ≤ reg.setWidth 32 then reg.setWidth 32 + 1
          else vm.stackSize }, wvmValueNil)
  | getReg reg => (vm, wvmGetReg vm reg.toNat)
  | enter regCount =>
    ({ vm with
        stack := fun slot =>
          if vm.stackSize.toNat ≤ slot ∧ slot < regCount.toNat then 0 else vm.stack slot
        stackSize := regCount.setWidth 32 }, wvmValueNil)

def applyHost (vm : WVMState) : List WVMHostCall → WVMState × List (BitVec 64)
  | [] => (vm, [])
  | call :: rest =>
    let (final, values) := applyHost (call.apply vm).1 rest
    (final, (call.apply vm).2 :: values)

/-- No reached stack is so full that the loop of growing could miss a request. -/
def StaysSmall (vm : WVMState) : List WVMHostCall → Prop
  | [] => True
  | call :: rest => vm.stackSize.toNat + 2 ^ 16 ≤ 2 ^ 31 ∧ StaysSmall (call.apply vm).1 rest

/-- The slots that a block stands for: those behind it have never been written. -/
def WVMHost.view (host : WVMHost) (vm : WVMState) : WVMState :=
  { vm with stack := fun slot => host.cells.getD slot 0, stackSize := host.stack.size }

/-- The block has the size that its fields say, and room for all values. -/
structure WVMHost.Sound (host : WVMHost) : Prop where
  cells : host.cells.length = host.stack.capacity.toNat
  size : host.stack.size ≤ host.stack.capacity

/-! Growing is invisible. -/

section Grow

variable {granted : BitVec 64 → Bool} {rounds : Nat} {host host' : WVMHost} {extra : BitVec 32}

/-- A stack grows by its capacity only, and not at all where memory is refused. -/
theorem wvmEnsureStack_spec {stack after : WVMStack}
    (grown : wvmEnsureStack granted rounds stack extra = some after) :
    after.size = stack.size ∧ stack.capacity ≤ after.capacity ∧
      ((∀ bytes, granted bytes = true) → stack.size + extra ≤ after.capacity) := by
  obtain ⟨⟨reported, stack'⟩, grows, rfl⟩ := Option.map_eq_some_iff.mp grown
  obtain ⟨size, resized, success, failure⟩ := grow_spec grows
  have larger : stack.capacity ≤ stack'.capacity := by
    rcases resized with same | ⟨larger, -⟩
    · rw [same]
      exact BitVec.le_refl _
    · exact BitVec.le_of_lt larger
  refine ⟨size, larger, fun all => ?_⟩
  -- Nothing but refused memory is reported as a failure.
  cases reported with
  | true => exact success rfl
  | false =>
    obtain ⟨-, bytes, refused⟩ := failure rfl
    exact absurd (all bytes) (by simp [refused])

/-- With all memory granted, requests up to half of the range are met in few rounds. -/
theorem wvmEnsureStack_returns {stack : WVMStack} (enough : 32 ≤ rounds)
    (half : 2 * (stack.size + extra).toNat ≤ 2 ^ 32) :
    (wvmEnsureStack (fun _ => true) rounds stack extra).isSome = true := by
  rw [wvmEnsureStack, Option.isSome_map]
  exact grow_isSome (by decide) half enough

/-- Growing keeps the slots, and the block as its fields say. -/
theorem wvmEnsureStackIn_spec (sound : host.Sound)
    (grown : wvmEnsureStackIn granted rounds host extra = some host') :
    host'.Sound ∧ host'.stack.size = host.stack.size ∧
      host.cells.length ≤ host'.cells.length ∧
      (∀ slot, host'.cells.getD slot 0 = host.cells.getD slot 0) ∧
      ((∀ bytes, granted bytes = true) →
        (host.stack.size + extra).toNat ≤ host'.cells.length) := by
  obtain ⟨stack, ensured, rfl⟩ := Option.map_eq_some_iff.mp grown
  obtain ⟨size, larger, met⟩ := wvmEnsureStack_spec ensured
  have capacity := BitVec.le_def.mp larger
  have length : (host.cells ++ List.replicate
      (stack.capacity.toNat - host.stack.capacity.toNat) 0).length = stack.capacity.toNat := by
    rw [List.length_append, List.length_replicate, sound.cells]
    omega
  refine ⟨⟨length, ?_⟩, size, by simp, fun slot => ?_, fun all => ?_⟩
  · rw [size]
    exact BitVec.le_trans sound.size larger
  · -- New slots are zeros, as the slots behind the block.
    show (host.cells ++ _).getD slot 0 = _
    rw [List.getD_eq_getElem?_getD, List.getD_eq_getElem?_getD, List.getElem?_append]
    split
    · rfl
    · rename_i behind
      rw [List.getElem?_eq_none (Nat.not_lt.mp behind), List.getElem?_replicate]
      split <;> rfl
  · show _ ≤ (host.cells ++ _).length
    rw [length]
    exact BitVec.le_def.mp (met all)

end Grow

/-! Every call does to the block what it does to the slots. -/

section Calls

variable {granted : BitVec 64 → Bool} {rounds : Nat} {host host' : WVMHost}

namespace WVMHost

/-- A value inside the block is read as the slot is. -/
theorem load_eq_some {slot : BitVec 32} {value : BitVec 64} (loaded : host.load slot = some value) :
    host.cells.getD slot.toNat 0 = value := by
  rw [List.getD_eq_getElem?_getD, show host.cells[slot.toNat]? = some value from loaded,
    Option.getD_some]

/-- Storing writes one slot inside the block. -/
theorem store_eq_some {slot : BitVec 32} {value : BitVec 64}
    (cells : host.cells.length = host.stack.capacity.toNat)
    (stored : host.store slot value = some host') :
    slot.toNat < host.stack.capacity.toNat ∧ host'.stack = host.stack ∧
      host'.cells.length = host.stack.capacity.toNat ∧
        ∀ other, host'.cells.getD other 0 =
          Function.update (fun slot => host.cells.getD slot 0) slot.toNat value other := by
  unfold store at stored
  split at stored
  -- The slot is inside the block, and no other slot is written.
  · rename_i inside
    cases stored
    refine ⟨cells ▸ inside, rfl, ?_, fun other => ?_⟩
    · rw [List.length_set, cells]
    · rw [List.getD_eq_getElem?_getD, List.getElem?_set]
      by_cases same : slot.toNat = other
      · rw [if_pos same, ← same, if_pos inside, Function.update_self]
        rfl
      · rw [if_neg same, Function.update_of_ne (Ne.symm same), List.getD_eq_getElem?_getD]
  · cases stored

/-- Clearing writes zeros into the slots of the range. -/
theorem clear_eq_some {first bound : Nat} (sound : host.Sound)
    (cleared : host.clear first bound = some host') :
    (first < bound → bound ≤ host.stack.capacity.toNat) ∧ host'.Sound ∧
      host'.stack = host.stack ∧ ∀ slot, host'.cells.getD slot 0 =
        if first ≤ slot ∧ slot < bound then 0 else host.cells.getD slot 0 := by
  unfold clear at cleared
  split at cleared
  -- An empty range is not touched at all.
  · rename_i none
    cases cleared
    refine ⟨fun some => by omega, sound, rfl, fun slot => ?_⟩
    rw [if_neg (by omega)]
  · split at cleared
    -- The range is inside the block, and each slot of it is set to zero.
    · rename_i inside
      cases cleared
      refine ⟨fun _ => sound.cells ▸ inside, ⟨?_, sound.size⟩, rfl, fun slot => ?_⟩
      · rw [List.length_mapIdx, sound.cells]
      · rw [List.getD_eq_getElem?_getD, List.getD_eq_getElem?_getD, List.getElem?_mapIdx]
        cases found : host.cells[slot]? with
        | none => split <;> rfl
        | some value => rfl
    · cases cleared

end WVMHost

/-- A block that holds the slots is seen as these slots. -/
theorem view_eq {vm : WVMState} {slots : Nat → BitVec 64} {size : BitVec 32}
    (cells : ∀ slot, host.cells.getD slot 0 = slots slot) (same : host.stack.size = size) :
    host.view vm = { vm with stack := slots, stackSize := size } := by
  rw [WVMHost.view, same, funext cells]

/-- One value more is no overflow while the last slot is inside the block. -/
theorem succ_le_capacity {size capacity : BitVec 32} (inside : size.toNat < capacity.toNat) :
    size + 1 ≤ capacity := by
  have bound := capacity.isLt
  rw [BitVec.le_def, BitVec.toNat_add, show (1 : BitVec 32).toNat = 1 from rfl,
    Nat.mod_eq_of_lt (by omega)]
  exact inside

/-- A call has kept the block sound, and has done to it what it is to do to the slots. -/
def WVMHostCall.Refined (call : WVMHostCall) (host host' : WVMHost) (value : BitVec 64)
    (vm : WVMState) : Prop :=
  host'.Sound ∧ call.apply (host.view vm) = (host'.view vm, value)

section Refined

variable {value : BitVec 64}

/-- A push writes behind the top of the stack, and moves it up. -/
theorem wvmPush_refined (sound : host.Sound) (vm : WVMState) {pushed : BitVec 64}
    (ran : (WVMHostCall.push pushed).run granted rounds host = some (host', value)) :
    (WVMHostCall.push pushed).Refined host host' value vm := by
  obtain ⟨after, pushes, same⟩ := Option.map_eq_some_iff.mp ran
  cases same
  simp only [wvmPush, Option.bind_eq_bind, Option.bind_eq_some_iff] at pushes
  -- The stack grows first, and then the value is stored at its old size.
  obtain ⟨grown, ensured, stored, writes, resized⟩ := pushes
  cases resized
  obtain ⟨sound', size, -, slots, -⟩ := wvmEnsureStackIn_spec sound ensured
  obtain ⟨inside, stack, cells, slots'⟩ := WVMHost.store_eq_some sound'.cells writes
  refine ⟨⟨?_, ?_⟩, Prod.ext (view_eq (fun slot => ?_) ?_).symm rfl⟩
  · show stored.cells.length = stored.stack.capacity.toNat
    rw [stack, cells]
  · show grown.stack.size + 1 ≤ stored.stack.capacity
    rw [stack]
    exact succ_le_capacity inside
  -- Growing keeps what is on the slots, and the store writes one of them.
  · show stored.cells.getD slot 0 = _
    rw [slots' slot, funext slots, size]
    rfl
  · show grown.stack.size + 1 = _
    rw [size]
    rfl

/-- A pop reads the top slot, and moves down unless the stack is empty. -/
theorem wvmPop_refined (sound : host.Sound) (vm : WVMState)
    (ran : WVMHostCall.pop.run granted rounds host = some (host', value)) :
    WVMHostCall.pop.Refined host host' value vm := by
  rw [WVMHostCall.run, wvmPop] at ran
  split at ran
  -- An empty stack has nothing to read, and stays empty.
  · rename_i empty
    cases ran
    refine ⟨sound, ?_⟩
    rw [WVMHostCall.apply, if_pos (show (host.view vm).stackSize = 0 from empty)]
  · rename_i some
    -- The slot below the top is inside the block.
    obtain ⟨loaded, loads, same⟩ := Option.map_eq_some_iff.mp ran
    cases same
    have positive : host.stack.size.toNat ≠ 0 := by
      intro zero
      exact some (BitVec.eq_of_toNat_eq zero)
    refine ⟨⟨sound.cells, ?_⟩, ?_⟩
    · have fits := BitVec.le_def.mp sound.size
      show host.stack.size - 1 ≤ host.stack.capacity
      rw [BitVec.le_def, BitVec.toNat_sub_of_le (by rw [BitVec.le_def]; show 1 ≤ _; omega)]
      omega
    · rw [WVMHostCall.apply, if_neg (show ¬ (host.view vm).stackSize = 0 from some)]
      exact Prod.ext rfl (WVMHost.load_eq_some loads)

/-- A peek reads a slot of the stack, and nothing else. -/
theorem wvmPeek_refined (sound : host.Sound) (vm : WVMState) {offset : BitVec 32}
    (ran : (WVMHostCall.peek offset).run granted rounds host = some (host', value)) :
    (WVMHostCall.peek offset).Refined host host' value vm := by
  obtain ⟨peeked, peeks, same⟩ := Option.map_eq_some_iff.mp ran
  cases same
  refine ⟨sound, Prod.ext rfl ?_⟩
  rw [wvmPeek] at peeks
  show (if offset.toInt < 0 ∨ host.stack.size ≤ offset then wvmValueNil else _) = value
  -- Offsets outside the stack read as nil, without a look at the block.
  split at peeks
  · rename_i outside
    rw [if_pos outside]
    exact Option.some.inj peeks
  · rename_i inside
    rw [if_neg inside]
    exact WVMHost.load_eq_some peeks

/-- A register is written, and the top of the stack moves if the register is above it. -/
theorem wvmSetReg_refined (sound : host.Sound) (vm : WVMState) {reg : BitVec 16} {written : BitVec 64}
    (ran : (WVMHostCall.setReg reg written).run granted rounds host = some (host', value)) :
    (WVMHostCall.setReg reg written).Refined host host' value vm := by
  obtain ⟨after, sets, same⟩ := Option.map_eq_some_iff.mp ran
  cases same
  obtain ⟨grown, ensured, writes⟩ := Option.bind_eq_some_iff.mp sets
  obtain ⟨sound', size, slots⟩ : grown.Sound ∧ grown.stack.size = host.stack.size ∧
      ∀ slot, grown.cells.getD slot 0 = host.cells.getD slot 0 := by
    split at ensured
    · obtain ⟨sound', size, -, slots, -⟩ := wvmEnsureStackIn_spec sound ensured
      exact ⟨sound', size, slots⟩
    · cases ensured
      exact ⟨sound, rfl, fun _ => rfl⟩
  have register : (reg.setWidth 32).toNat = reg.toNat :=
    BitVec.toNat_setWidth_of_le (by decide)
  split at writes
  · -- The register is above the top of the stack, which it moves.
    rename_i above
    have length : (grown.resize (reg.setWidth 32 + 1)).cells.length =
        (grown.resize (reg.setWidth 32 + 1)).stack.capacity.toNat := sound'.cells
    -- The write is inside the block, and the top moves behind it.
    obtain ⟨inside, stack, cells, slots'⟩ := WVMHost.store_eq_some length writes
    refine ⟨⟨?_, ?_⟩, Prod.ext (view_eq (fun slot => ?_) ?_).symm rfl⟩
    · rw [stack, cells]
    · rw [stack]
      exact succ_le_capacity inside
    · rw [slots' slot, register]
      exact congrFun (congrArg (Function.update · reg.toNat written) (funext slots)) slot
    · rw [stack]
      rw [size] at above
      exact (if_pos above).symm
  · rename_i below
    -- Below the top only the cell is written.
    obtain ⟨inside, stack, cells, slots'⟩ := WVMHost.store_eq_some sound'.cells writes
    refine ⟨⟨?_, ?_⟩, Prod.ext (view_eq (fun slot => ?_) ?_).symm rfl⟩
    · rw [stack, cells]
    · rw [stack]
      exact sound'.size
    · rw [slots' slot, register]
      exact congrFun (congrArg (Function.update · reg.toNat written) (funext slots)) slot
    · rw [stack, size]
      rw [size] at below
      exact (if_neg below).symm

/-- A register is read if it is below the top of the stack. -/
theorem wvmGetReg_refined (sound : host.Sound) (vm : WVMState) {reg : BitVec 16}
    (ran : (WVMHostCall.getReg reg).run granted rounds host = some (host', value)) :
    (WVMHostCall.getReg reg).Refined host host' value vm := by
  obtain ⟨got, gets, same⟩ := Option.map_eq_some_iff.mp ran
  cases same
  refine ⟨sound, Prod.ext rfl ?_⟩
  -- The register number is as small as it was.
  have register : (reg.setWidth 32).toNat = reg.toNat :=
    BitVec.toNat_setWidth_of_le (by decide)
  rw [wvmGetRegIn] at gets
  show (if host.stack.size.toNat ≤ reg.toNat then wvmValueNil else _) = value
  -- A register above the top reads as nil, without a look at the block.
  split at gets
  · rename_i outside
    rw [BitVec.le_def, register] at outside
    rw [if_pos outside]
    exact Option.some.inj gets
  · rename_i inside
    have loaded := WVMHost.load_eq_some gets
    rw [BitVec.le_def, register] at inside
    rw [register] at loaded
    rw [if_neg inside]
    exact loaded

/-- Entering a function clears the registers above the top of the stack. -/
theorem wvmEnter_refined (sound : host.Sound) (vm : WVMState) {regCount : BitVec 16}
    (ran : (WVMHostCall.enter regCount).run granted rounds host = some (host', value)) :
    (WVMHostCall.enter regCount).Refined host host' value vm := by
  obtain ⟨after, enters, same⟩ := Option.map_eq_some_iff.mp ran
  cases same
  simp only [wvmEnter, Option.bind_eq_bind, Option.bind_eq_some_iff] at enters
  obtain ⟨grown, ensured, cleared, clears, resized⟩ := enters
  cases resized
  -- Growing keeps the slots, and clearing sets those above the old top to zero.
  obtain ⟨sound', size, larger, slots, -⟩ := wvmEnsureStackIn_spec sound ensured
  obtain ⟨inside, sound'', stack, slots'⟩ := WVMHost.clear_eq_some sound' clears
  have register : (regCount.setWidth 32).toNat = regCount.toNat :=
    BitVec.toNat_setWidth_of_le (by decide)
  -- Cells between the old top and the registers read as zero.
  have seen : ∀ slot, (cleared.resize (regCount.setWidth 32)).cells.getD slot 0 =
      if host.stack.size.toNat ≤ slot ∧ slot < regCount.toNat then 0
      else host.cells.getD slot 0 := by
    intro slot
    rw [← slots slot]
    exact slots' slot
  refine ⟨⟨sound''.cells, ?_⟩, Prod.ext (view_eq seen rfl).symm rfl⟩
  show regCount.setWidth 32 ≤ cleared.stack.capacity
  have fits := BitVec.le_def.mp sound'.size
  rw [stack, BitVec.le_def, register]
  rw [size] at fits
  omega

end Refined

/-- A call that stays inside the block keeps it sound, and does what it is to do. -/
theorem WVMHostCall.run_refines (sound : host.Sound) (vm : WVMState) (call : WVMHostCall)
    {value : BitVec 64} (ran : call.run granted rounds host = some (host', value)) :
    host'.Sound ∧ call.apply (host.view vm) = (host'.view vm, value) := by
  -- Each call has its lemma above.
  cases call with
  | push pushed => exact wvmPush_refined sound vm ran
  | pop => exact wvmPop_refined sound vm ran
  | peek offset => exact wvmPeek_refined sound vm ran
  | setReg reg written => exact wvmSetReg_refined sound vm ran
  | getReg reg => exact wvmGetReg_refined sound vm ran
  | enter regCount => exact wvmEnter_refined sound vm ran

/-- A value inside the block can be read. -/
theorem WVMHost.load_isSome {slot : BitVec 32} (inside : slot.toNat < host.cells.length) :
    (host.load slot).isSome = true := by
  rw [WVMHost.load, List.getElem?_eq_getElem inside]
  rfl

/-- A slot inside the stack can be stored to. -/
theorem WVMHost.store_isSome {slot : BitVec 32} (inside : slot.toNat < host.cells.length)
    (value : BitVec 64) : (host.store slot value).isSome = true := by
  rw [WVMHost.store, if_pos inside]
  rfl

/-- With all memory granted, growing a small stack makes room. -/
theorem wvmEnsureStackIn_returns {extra : BitVec 32} (sound : host.Sound) (enough : 32 ≤ rounds)
    (half : 2 * (host.stack.size + extra).toNat ≤ 2 ^ 32) :
    ∃ grown, wvmEnsureStackIn (fun _ => true) rounds host extra = some grown ∧ grown.Sound ∧
      grown.stack.size = host.stack.size ∧
        (host.stack.size + extra).toNat ≤ grown.cells.length := by
  -- The growing loop ends for half the range, and then all of it is granted.
  obtain ⟨stack, ensured⟩ := Option.isSome_iff_exists.mp (wvmEnsureStack_returns enough half)
  have grown : wvmEnsureStackIn (fun _ => true) rounds host extra = some _ :=
    Option.map_eq_some_iff.mpr ⟨stack, ensured, rfl⟩
  obtain ⟨sound', size, -, -, room⟩ := wvmEnsureStackIn_spec sound grown
  exact ⟨_, grown, sound', size, room fun _ => rfl⟩

/-- A push stays inside the block that has grown for it. -/
theorem WVMHostCall.push_isSome (sound : host.Sound) (enough : 32 ≤ rounds)
    (small : host.stack.size.toNat + 2 ^ 16 ≤ 2 ^ 31) (value : BitVec 64) :
    ((push value).run (fun _ => true) rounds host).isSome = true := by
  have next : (host.stack.size + 1).toNat = host.stack.size.toNat + 1 := by
    rw [BitVec.toNat_add, show (1 : BitVec 32).toNat = 1 from rfl, Nat.mod_eq_of_lt (by omega)]
  obtain ⟨grown, ensured, -, size, room⟩ :=
    wvmEnsureStackIn_returns sound enough (by rw [next]; omega)
  obtain ⟨stored, stores⟩ := Option.isSome_iff_exists.mp
    (@WVMHost.store_isSome grown grown.stack.size (by rw [size]; omega) value)
  rw [run, Option.isSome_map, wvmPush, ensured]
  simp only [Option.bind_eq_bind, Option.bind_some, stores]
  rfl

/-- An empty stack is left alone, and otherwise the top is read. -/
theorem WVMHostCall.pop_isSome (sound : host.Sound) :
    (pop.run (fun _ => true) rounds host).isSome = true := by
  have fits := BitVec.le_def.mp sound.size
  have cells := sound.cells
  rw [run, wvmPop]
  split
  · rfl
  · rename_i some
    have positive : host.stack.size.toNat ≠ 0 := fun zero => some (BitVec.eq_of_toNat_eq zero)
    rw [Option.isSome_map]
    apply WVMHost.load_isSome
    rw [BitVec.toNat_sub_of_le (by rw [BitVec.le_def]; show 1 ≤ _; omega)]
    show host.stack.size.toNat - 1 < _
    omega

/-- The offset counts from the top, and stays above the bottom. -/
theorem WVMHostCall.peek_isSome (sound : host.Sound) (offset : BitVec 32) :
    ((peek offset).run (fun _ => true) rounds host).isSome = true := by
  have fits := BitVec.le_def.mp sound.size
  have cells := sound.cells
  rw [run, Option.isSome_map, wvmPeek]
  split
  · rfl
  · rename_i inside
    have below : ¬ host.stack.size.toNat ≤ offset.toNat :=
      fun above => inside (.inr (BitVec.le_def.mpr above))
    apply WVMHost.load_isSome
    have first : (host.stack.size - 1).toNat = host.stack.size.toNat - 1 :=
      BitVec.toNat_sub_of_le (by rw [BitVec.le_def]; show 1 ≤ _; omega)
    rw [BitVec.toNat_sub_of_le (by rw [BitVec.le_def, first]; omega), first]
    omega

/-- A register is written inside the block that has grown for it. -/
theorem WVMHostCall.setReg_isSome (sound : host.Sound) (enough : 32 ≤ rounds)
    (reg : BitVec 16) (value : BitVec 64) :
    ((setReg reg value).run (fun _ => true) rounds host).isSome = true := by
  have cells := sound.cells
  have bound := reg.isLt
  have register : (reg.setWidth 32).toNat = reg.toNat :=
    BitVec.toNat_setWidth_of_le (by decide)
  -- The request is for one slot more than the register.
  have next : (reg.setWidth 32 + 1 : BitVec 32).toNat = reg.toNat + 1 := by
    rw [BitVec.toNat_add, register, show (1 : BitVec 32).toNat = 1 from rfl,
      Nat.mod_eq_of_lt (by omega)]
  have request : host.stack.size + (reg.setWidth 32 - host.stack.size + 1) =
      reg.setWidth 32 + 1 := by
    rw [← BitVec.add_assoc, BitVec.add_comm host.stack.size, BitVec.sub_add_cancel]
  -- The write is inside the block that has grown.
  have stored : ∀ grown : WVMHost, reg.toNat < grown.cells.length →
      ((if grown.stack.size ≤ reg.setWidth 32 then grown.resize (reg.setWidth 32 + 1)
        else grown).store (reg.setWidth 32) value).isSome = true := by
    intro grown inside
    apply WVMHost.store_isSome
    rw [register]
    split <;> exact inside
  rw [run, Option.isSome_map, wvmSetReg]
  split
  · obtain ⟨grown, ensured, -, -, room⟩ := wvmEnsureStackIn_returns sound enough
      (by rw [request, next]; omega)
    rw [request, next] at room
    rw [ensured]
    exact stored grown (by omega)
  · rename_i below
    rw [BitVec.le_def, register] at below
    exact stored host (by omega)

/-- A register above the top reads as zero. -/
theorem WVMHostCall.getReg_isSome (sound : host.Sound) (reg : BitVec 16) :
    ((getReg reg).run (fun _ => true) rounds host).isSome = true := by
  have fits := BitVec.le_def.mp sound.size
  have cells := sound.cells
  rw [run, Option.isSome_map, wvmGetRegIn]
  split
  · rfl
  · rename_i inside
    rw [BitVec.le_def] at inside
    exact WVMHost.load_isSome (by omega)

/-- A frame is cleared inside the block that has grown for it. -/
theorem WVMHostCall.enter_isSome (sound : host.Sound) (enough : 32 ≤ rounds)
    (small : host.stack.size.toNat + 2 ^ 16 ≤ 2 ^ 31) (regCount : BitVec 16) :
    ((enter regCount).run (fun _ => true) rounds host).isSome = true := by
  have bound := regCount.isLt
  have register : (regCount.setWidth 32).toNat = regCount.toNat :=
    BitVec.toNat_setWidth_of_le (by decide)
  -- The request is for all registers behind the top.
  have total : (host.stack.size + regCount.setWidth 32).toNat =
      host.stack.size.toNat + regCount.toNat := by
    rw [BitVec.toNat_add, register, Nat.mod_eq_of_lt (by omega)]
  obtain ⟨grown, ensured, -, -, room⟩ :=
    wvmEnsureStackIn_returns sound enough (by rw [total]; omega)
  have cleared : (grown.clear host.stack.size.toNat regCount.toNat).isSome = true := by
    rw [WVMHost.clear]
    split
    · rfl
    · rw [if_pos (by omega)]
      rfl
  obtain ⟨after, clears⟩ := Option.isSome_iff_exists.mp cleared
  simp [run, wvmEnter, ensured, clears]

/-- With all memory granted, no call on a small stack leaves the block. -/
theorem WVMHostCall.run_isSome (sound : host.Sound) (enough : 32 ≤ rounds)
    (small : host.stack.size.toNat + 2 ^ 16 ≤ 2 ^ 31) (call : WVMHostCall) :
    (call.run (fun _ => true) rounds host).isSome = true := by
  cases call with
  | push value => exact push_isSome sound enough small value
  | pop => exact pop_isSome sound
  | peek offset => exact peek_isSome sound offset
  | setReg reg value => exact setReg_isSome sound enough reg value
  | getReg reg => exact getReg_isSome sound reg
  | enter regCount => exact enter_isSome sound enough small regCount

/-- Calls that stay inside the block do to it what they are to do to the slots. -/
theorem runHost_refines {granted : Nat → BitVec 64 → Bool} (sound : host.Sound) (vm : WVMState)
    (calls : List WVMHostCall) {values : List (BitVec 64)}
    (ran : runHost rounds granted host calls = some (host', values)) :
    host'.Sound ∧ applyHost (host.view vm) calls = (host'.view vm, values) := by
  -- Induction on the calls, each of which keeps the block sound.
  induction calls generalizing granted host values with
  | nil =>
    cases ran
    exact ⟨sound, rfl⟩
  | cons call rest ih =>
    simp only [runHost, Option.bind_eq_bind, Option.bind_eq_some_iff] at ran
    obtain ⟨⟨next, value⟩, first, ⟨final, later⟩, others, same⟩ := ran
    -- The first call keeps the block sound and does to the slots what it should.
    cases same
    obtain ⟨sound', applied⟩ := call.run_refines sound vm first
    obtain ⟨sound'', remaining⟩ := ih sound' others
    refine ⟨sound'', ?_⟩
    rw [applyHost, applied]
    dsimp only
    rw [remaining]

/-- With all memory granted, calls on small stacks never leave the block. -/
theorem runHost_isSome (sound : host.Sound) (enough : 32 ≤ rounds) (vm : WVMState)
    (calls : List WVMHostCall) (small : StaysSmall (host.view vm) calls) :
    (runHost rounds (fun _ _ => true) host calls).isSome = true := by
  induction calls generalizing host with
  | nil => rfl
  | cons call rest ih =>
    obtain ⟨here, later⟩ := small
    -- The call returns on the block, and what it leaves is again small enough.
    obtain ⟨⟨next, value⟩, first⟩ :=
      Option.isSome_iff_exists.mp (call.run_isSome sound enough here)
    obtain ⟨sound', applied⟩ := call.run_refines sound vm first
    rw [applied] at later
    obtain ⟨⟨final, values⟩, others⟩ := Option.isSome_iff_exists.mp (ih sound' later)
    simp [runHost, first, others]

end Calls

/-- A machine that has just been created is sound. -/
theorem WVMHost.create_sound : WVMHost.create.Sound := ⟨rfl, by decide⟩

/-- Whatever the allocator grants, calls whose accesses stay inside the block return what they
would return on slots without a bound, and leave these slots. With all memory granted, and while
the stack has room for all registers within two to the power of 31 values before every call, no
access is outside of the block. -/
theorem wvmHost_refines_slots (host : WVMHost) (sound : host.Sound) (vm : WVMState)
    (calls : List WVMHostCall) :
    (∀ rounds granted host' values, runHost rounds granted host calls = some (host', values) →
      host'.Sound ∧ applyHost (host.view vm) calls = (host'.view vm, values)) ∧
    (StaysSmall (host.view vm) calls →
      ∀ rounds, 32 ≤ rounds → (runHost rounds (fun _ _ => true) host calls).isSome = true) :=
  ⟨fun _ _ _ _ ran => runHost_refines sound vm calls ran,
    fun small _ enough => runHost_isSome sound enough vm calls small⟩

/-- A value is written behind the first block, read back, and popped. -/
def hostCalls : List WVMHostCall := [.push 5, .setReg 40 42, .getReg 40, .pop, .pop, .pop]

/-- The calls succeed on a new machine, and return what is on the slots. -/
theorem wvmHost_refines_slots_grows :
    ∃ host', runHost 32 (fun _ _ => true) .create hostCalls = some (host',
      [wvmValueNil, wvmValueNil, 42, 42, 0, 0]) := by
  obtain ⟨refines, returns⟩ :=
    wvmHost_refines_slots .create WVMHost.create_sound wvmCreate hostCalls
  have small : StaysSmall (WVMHost.create.view wvmCreate) hostCalls := by
    simp only [StaysSmall, hostCalls]
    decide
  -- The calls stay small, so they return on the block.
  obtain ⟨⟨host', values⟩, ran⟩ := Option.isSome_iff_exists.mp (returns small 32 (by decide))
  have same := congrArg Prod.snd (refines _ _ _ _ ran).2
  have expected : (applyHost (WVMHost.create.view wvmCreate) hostCalls).2 =
      [wvmValueNil, wvmValueNil, 42, 42, 0, 0] := by decide
  rw [expected] at same
  exact ⟨host', by rw [ran, same]⟩

end Wirble
