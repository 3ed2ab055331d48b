import Wirble.Common.Growth
import Wirble.Wvm.Prototype

/-! Byte buffers: what the calls on them do to a block of memory, and what the block holds. -/

namespace Wirble

/-- A byte buffer with the contents of its block. A byte that nothing has written has no value. -/
structure WirbleBytes where
  buffer : WirbleByteBuf
  cells : List (Option Byte)

/-- A string that fits in memory. -/
structure CText extends CString where
  bound : text.length < 2 ^ 64

/-- What one `fread` of 4096 bytes gives before the end of a file. -/
structure FileChunk where
  bytes : List Byte
  some : bytes ≠ []
  bound : bytes.length ≤ 4096

/-! The functions. An access outside of a block has no result. -/

/-- `wirble_bytebuf_init`. -/
def wirbleBytebufInit : WirbleBytes := ⟨emptyBuffer 64, []⟩

/-- `wirble_bytebuf_destroy`, which leaves the buffer as a new one. -/
def wirbleBytebufDestroy (_ : WirbleBytes) : WirbleBytes := ⟨emptyBuffer 64, []⟩

def wirbleBytebufClear (bytes : WirbleBytes) : WirbleBytes :=
  { bytes with buffer := { bytes.buffer with size := 0 } }

/-- `memcpy` of the first bytes of some data to an offset of a block. -/
def memcpyInto (cells : List (Option Byte)) (offset : Nat) (data : List Byte) (size : Nat) :
    Option (List (Option Byte)) :=
  if size ≤ data.length ∧ offset + size ≤ cells.length then
    some (cells.take offset ++ (data.take size).map some ++ cells.drop (offset + size))
  else none

section Functions

-- The allocator grants some numbers of bytes, and the loop of growing has so many rounds.
variable (granted : BitVec 64 → Bool) (rounds : Nat)

/-- `wirble_bytebuf_reserve` with the bytes of the block. -/
def wirbleBytebufReserveIn (bytes : WirbleBytes) (capacity : BitVec 64) :
    Option (Bool × WirbleBytes) :=
  (wirbleBytebufReserve granted rounds bytes.buffer capacity).map fun (reported, buffer) =>
    (reported, ⟨buffer, bytes.cells ++
      List.replicate (buffer.capacity.toNat - bytes.buffer.capacity.toNat) none⟩)

def wirbleBytebufAppend (bytes : WirbleBytes) (data : Option (List Byte)) (size : BitVec 64) :
    Option (Bool × WirbleBytes) :=
  match data with
  | none => some (size = 0, bytes)
  | some data =>
    if size = 0 then some (true, bytes)
    else do
      let (reserved, grown) ← wirbleBytebufReserveIn granted rounds bytes (bytes.buffer.size + size)
      if reserved then
        let cells ← memcpyInto grown.cells grown.buffer.size.toNat data size.toNat
        return (true, ⟨{ grown.buffer with size := grown.buffer.size + size }, cells⟩)
      else return (false, grown)

def wirbleBytebufAppendByte (bytes : WirbleBytes) (byte : Byte) : Option (Bool × WirbleBytes) :=
  wirbleBytebufAppend granted rounds bytes (some [byte]) 1

def strlen (text : CText) : BitVec 64 := BitVec.ofNat 64 text.text.length

def wirbleBytebufAppendCstr (bytes : WirbleBytes) (text : Option CText) :
    Option (Bool × WirbleBytes) :=
  match text with
  | none => some (false, bytes)
  | some text => wirbleBytebufAppend granted rounds bytes (some text.text) (strlen text)

end Functions

/-! Calls make several requests, and the allocator answers by the number of the request, too. -/

section Calls

variable (granted : Nat → BitVec 64 → Bool) (rounds : Nat)

/-- The loop of `wirble_bytebuf_read_file`, over what `fread` gives. -/
def wirbleBytebufReadChunks (granted : Nat → BitVec 64 → Bool) (bytes : WirbleBytes) :
    List FileChunk → Option (Bool × WirbleBytes)
  | [] => some (true, bytes)
  | chunk :: rest => do
    let (appended, after) ← wirbleBytebufAppend (granted 0) rounds bytes (some chunk.bytes)
      (BitVec.ofNat 64 chunk.bytes.length)
    if appended then wirbleBytebufReadChunks (fun request => granted (request + 1)) after rest
    else return (false, after)

/-- A file that cannot be opened is `none`, and so is a missing path. -/
def wirbleBytebufReadFile (bytes : WirbleBytes) (file : Option (List FileChunk)) :
    Option (Bool × WirbleBytes) :=
  match file with
  | none => some (false, bytes)
  | some chunks => wirbleBytebufReadChunks rounds granted (wirbleBytebufClear bytes) chunks

inductive BytebufCall where
  | reserve (capacity : BitVec 64)
  | append (data : Option (List Byte)) (size : BitVec 64)
  | appendByte (byte : Byte)
  | appendCstr (text : Option CText)
  | clear
  | readFile (file : Option (List FileChunk))
  | destroy

/-- Perform a call. Functions without a result report success. -/
def BytebufCall.run (bytes : WirbleBytes) : BytebufCall → Option (Bool × WirbleBytes)
  | reserve capacity => wirbleBytebufReserveIn (granted 0) rounds bytes capacity
  | append data size => wirbleBytebufAppend (granted 0) rounds bytes data size
  | appendByte byte => wirbleBytebufAppendByte (granted 0) rounds bytes byte
  | appendCstr text => wirbleBytebufAppendCstr (granted 0) rounds bytes text
  | clear => some (true, wirbleBytebufClear bytes)
  | readFile file => wirbleBytebufReadFile granted rounds bytes file
  | destroy => some (true, wirbleBytebufDestroy bytes)

/-- Perform calls one after the other, and collect their reports. -/
def runBytebuf (granted : Nat → Nat → BitVec 64 → Bool) (bytes : WirbleBytes) :
    List BytebufCall → Option (List Bool × WirbleBytes)
  | [] => some ([], bytes)
  | call :: rest => do
    let (reported, next) ← call.run (granted 0) rounds bytes
    let (reports, final) ← runBytebuf (fun done => granted (done + 1)) next rest
    return (reported :: reports, final)

end Calls

/-! What the calls are to do to a sequence of bytes. -/

/-- The bytes behind a call that reports success. -/
def BytebufCall.apply (content : List Byte) : BytebufCall → List Byte
  | reserve _ => content
  | append data size => content ++ (data.getD []).take size.toNat
  | appendByte byte => content ++ [byte]
  | appendCstr text => content ++ (text.map (·.text)).getD []
  | clear => []
  | readFile none => content
  | readFile (some chunks) => (chunks.map (·.bytes)).flatten
  | destroy => []

/-- The bytes behind a call that reports failure: only a file that has been opened leaves others
than before, the chunks ahead of one that found no memory. -/
def BytebufCall.Refused (content : List Byte) : BytebufCall → List Byte → Prop
  | clear, _ | destroy, _ => False
  | readFile (some chunks), after =>
    ∃ kept < chunks.length, after = ((chunks.take kept).map (·.bytes)).flatten
  | _, after => after = content

/-- A call has what it needs besides memory. -/
def BytebufCall.Given : BytebufCall → Prop
  | append none size => size = 0
  | appendCstr none | readFile none => False
  | _ => True

/-- What a call does, given its report. Failure is due to a missing argument or to the allocator. -/
def BytebufCall.Does (call : BytebufCall) (granted : Nat → BitVec 64 → Bool) (content : List Byte) :
    Bool → List Byte → Prop
  | true, after => after = call.apply content
  | false, after => call.Refused content after ∧
      (call.Given → ∃ request bytes, granted request bytes = false)

/-- Calls that report success or failure lead from some bytes to others. -/
def BytebufDo (granted : Nat → Nat → BitVec 64 → Bool) :
    List BytebufCall → List Byte → List Bool → List Byte → Prop
  | [], content, reports, final => reports = [] ∧ final = content
  | call :: rest, content, reports, final => ∃ reported later after,
      reports = reported :: later ∧ call.Does (granted 0) content reported after ∧
        BytebufDo (fun done => granted (done + 1)) rest after later final

/-- The block has the size that the fields say, which is zero or a power of two, and its first bytes
are the given ones. -/
structure WirbleBytes.Holds (bytes : WirbleBytes) (content : List Byte) : Prop where
  block : bytes.buffer.data =
    if bytes.buffer.capacity = 0 then .null else .live bytes.buffer.capacity
  cells : bytes.cells.length = bytes.buffer.capacity.toNat
  size : bytes.buffer.size.toNat = content.length
  content : bytes.cells.take content.length = content.map some
  power : ∃ bit < 64, firstCapacity 64 bytes.buffer.capacity = BitVec.twoPow 64 bit

/-! Every call does to the block what it is to do to the bytes. -/

section Specs

variable {bytes after : WirbleBytes} {content : List Byte} {reported : Bool}

/-- A new buffer holds nothing. -/
theorem wirbleBytebufInit_holds : wirbleBytebufInit.Holds [] :=
  ⟨rfl, rfl, rfl, rfl, 6, by decide, rfl⟩

/-- Clearing keeps the block, and forgets what is in it. -/
theorem wirbleBytebufClear_holds (holds : bytes.Holds content) :
    (wirbleBytebufClear bytes).Holds [] :=
  ⟨holds.block, holds.cells, rfl, rfl, holds.power⟩

namespace WirbleBytes.Holds

/-- The bytes are inside of the block. -/
theorem inside (holds : bytes.Holds content) : content.length ≤ bytes.cells.length := by
  have same := congrArg List.length holds.content
  rw [List.length_take, List.length_map] at same
  omega

/-- No block has more than half of all bytes. -/
theorem length_le (holds : bytes.Holds content) : content.length ≤ 2 ^ 63 := by
  -- The capacity is zero or a power of two, the largest of which is the top bit.
  obtain ⟨bit, inside, power⟩ := holds.power
  refine Nat.le_trans holds.inside ?_
  rw [holds.cells]
  by_cases zero : bytes.buffer.capacity = 0
  · simp [zero]
  · rw [firstCapacity, if_neg zero] at power
    rw [power, BitVec.toNat_twoPow_of_lt inside]
    exact Nat.pow_le_pow_right (by decide) (by omega)

/-- Copying behind the bytes appends to them. -/
theorem copied {cells : List (Option Byte)} {data : List Byte} {size : BitVec 64}
    (holds : bytes.Holds content)
    (copies : memcpyInto bytes.cells bytes.buffer.size.toNat data size.toNat = some cells) :
    WirbleBytes.Holds ⟨{ bytes.buffer with size := bytes.buffer.size + size }, cells⟩
      (content ++ data.take size.toNat) := by
  -- The copy is made only if the bytes fit into the block.
  rw [memcpyInto, holds.size] at copies
  split at copies
  · rename_i inside
    cases copies
    have bound := bytes.buffer.capacity.isLt
    have length := holds.cells
    refine ⟨holds.block, ?_, ?_, ?_, holds.power⟩
    · simp only [List.length_append, List.length_take, List.length_map, List.length_drop]
      omega
    · -- The sum does not wrap around, because the block ends behind it.
      rw [BitVec.toNat_add, holds.size, List.length_append, List.length_take]
      omega
    · rw [List.map_append, holds.content, List.take_append_of_le_length]
      · apply List.take_of_length_le
        simp
      · simp
  · cases copies

end WirbleBytes.Holds

section Requests

variable {granted : BitVec 64 → Bool} {rounds : Nat}

/-- Reserving keeps the bytes, and reports whether there is room. -/
theorem wirbleBytebufReserveIn_spec {capacity : BitVec 64} (holds : bytes.Holds content)
    (reserved : wirbleBytebufReserveIn granted rounds bytes capacity = some (reported, after)) :
    after.Holds content ∧
      (reported = true → capacity.toNat ≤ after.cells.length) ∧
      (reported = false → ∃ bytes, granted bytes = false) := by
  obtain ⟨⟨reported', buffer⟩, grown, same⟩ := Option.map_eq_some_iff.mp reserved
  cases same
  obtain ⟨size, resized, success, failure⟩ := grow_spec grown
  suffices held : WirbleBytes.Holds ⟨buffer, bytes.cells ++
      List.replicate (buffer.capacity.toNat - bytes.buffer.capacity.toNat) none⟩ content by
    refine ⟨held, fun reported => ?_, fun refused => (failure refused).2⟩
    rw [held.cells]
    exact BitVec.le_def.mp (success reported)
  have kept : ∀ more, (bytes.cells ++ more).take content.length = content.map some := by
    intro more
    rw [List.take_append_of_le_length holds.inside, holds.content]
  -- Either nothing was enlarged, or the block is longer by bytes without content.
  rcases resized with same | ⟨larger, live⟩
  · cases same
    exact ⟨holds.block, by simp [holds.cells], holds.size, kept _, holds.power⟩
  · have less := BitVec.lt_def.mp larger
    refine ⟨?_, ?_, ?_, kept _, grow_twoPow grown holds.power⟩
    · -- A capacity that has grown is not zero.
      have some : buffer.capacity ≠ 0 := by
        intro zero
        simp [zero] at less
      rw [live, if_neg some]
      simp
    · rw [List.length_append, List.length_replicate, holds.cells]
      dsimp only
      omega
    · rw [← holds.size]
      exact congrArg BitVec.toNat size

/-- Appending data leaves it behind the bytes, or leaves the bytes alone for lack of memory. -/
theorem wirbleBytebufAppend_spec {data : List Byte} {size : BitVec 64}
    (holds : bytes.Holds content)
    (appended : wirbleBytebufAppend granted rounds bytes (some data) size =
      some (reported, after)) :
    (reported = true → after.Holds (content ++ data.take size.toNat)) ∧
      (reported = false → after.Holds content ∧ ∃ bytes, granted bytes = false) := by
  rw [wirbleBytebufAppend] at appended
  dsimp only at appended
  split at appended
  · -- Nothing is appended.
    rename_i zero
    cases appended
    refine ⟨fun _ => ?_, fun refused => by cases refused⟩
    simpa [zero] using holds
  · simp only [Option.bind_eq_bind, Option.bind_eq_some_iff] at appended
    -- The data is copied behind the bytes once there is room.
    obtain ⟨⟨granted', grown⟩, reserves, continues⟩ := appended
    obtain ⟨kept, -, refused⟩ := wirbleBytebufReserveIn_spec holds reserves
    split at continues
    · obtain ⟨cells, copies, same⟩ := Option.bind_eq_some_iff.mp continues
      cases same
      exact ⟨fun _ => kept.copied copies, fun refused => by cases refused⟩
    · rename_i failed
      cases continues
      exact ⟨fun appended => (by cases appended), fun _ => ⟨kept, refused (Bool.not_eq_true _ ▸ failed)⟩⟩

end Requests

section Runs

variable {rounds : Nat}

/-- The loop over a file appends its chunks, up to one that finds no memory. -/
theorem wirbleBytebufReadChunks_spec {granted : Nat → BitVec 64 → Bool} {chunks : List FileChunk}
    (holds : bytes.Holds content)
    (read : wirbleBytebufReadChunks rounds granted bytes chunks = some (reported, after)) :
    (reported = true → after.Holds (content ++ (chunks.map (·.bytes)).flatten)) ∧
      (reported = false →
        (∃ kept < chunks.length,
          after.Holds (content ++ ((chunks.take kept).map (·.bytes)).flatten)) ∧
        ∃ request bytes, granted request bytes = false) := by
  -- Induction on the chunks, each of which is appended to the bytes of those before it.
  induction chunks generalizing granted bytes content with
  | nil =>
    cases read
    exact ⟨fun _ => by simpa using holds, fun refused => by cases refused⟩
  | cons chunk rest ih =>
    simp only [wirbleBytebufReadChunks, Option.bind_eq_bind, Option.bind_eq_some_iff] at read
    obtain ⟨⟨appended, middle⟩, appends, continues⟩ := read
    obtain ⟨whole, refused⟩ := wirbleBytebufAppend_spec holds appends
    -- The length of a chunk does not wrap, so all of it is appended.
    have taken : chunk.bytes.take (BitVec.ofNat 64 chunk.bytes.length).toNat = chunk.bytes := by
      have bound := chunk.bound
      rw [BitVec.toNat_ofNat, Nat.mod_eq_of_lt (by omega), List.take_length]
    rw [taken] at whole
    cases appended with
    | true =>
      obtain ⟨all, part⟩ := ih (whole rfl) continues
      refine ⟨fun success => ?_, fun failure => ?_⟩
      · simpa using all success
      · obtain ⟨⟨kept, inside, held⟩, request, count, denied⟩ := part failure
        refine ⟨⟨kept + 1, by simpa using inside, ?_⟩, request + 1, count, denied⟩
        simpa using held
    -- The chunk that found no memory ends the loop.
    | false =>
      cases continues
      obtain ⟨held, count, denied⟩ := refused rfl
      exact ⟨fun appended => (by cases appended), fun _ => ⟨⟨0, by simp, by simpa using held⟩, 0, count, denied⟩⟩

/-- A call leaves the bytes that it is to leave. -/
theorem BytebufCall.run_spec {granted : Nat → BitVec 64 → Bool} (call : BytebufCall)
    (holds : bytes.Holds content)
    (ran : call.run granted rounds bytes = some (reported, after)) :
    ∃ content', call.Does granted content reported content' ∧ after.Holds content' := by
  have appends {call : BytebufCall} {data : List Byte} {size : BitVec 64}
      (applied : call.apply content = content ++ data.take size.toNat)
      (refuses : ∀ content', content' = content → call.Refused content content')
      (appended : wirbleBytebufAppend (granted 0) rounds bytes (some data) size =
        some (reported, after)) :
      ∃ content', call.Does granted content reported content' ∧ after.Holds content' := by
    -- What is appended depends on the answer of the allocator.
    obtain ⟨whole, refused⟩ := wirbleBytebufAppend_spec holds appended
    cases reported with
    | true => exact ⟨_, applied.symm, whole rfl⟩
    | false =>
      obtain ⟨held, denied⟩ := refused rfl
      exact ⟨content, ⟨refuses content rfl, fun _ => ⟨0, denied⟩⟩, held⟩
  cases call with
  | reserve capacity =>
    obtain ⟨held, -, refused⟩ := wirbleBytebufReserveIn_spec holds ran
    refine ⟨content, ?_, held⟩
    cases reported with
    | true => rfl
    | false => exact ⟨rfl, fun _ => ⟨0, refused rfl⟩⟩
  | append data size =>
    cases data with
    | none =>
      -- Without data, nothing is appended, and only the size is looked at.
      cases ran
      refine ⟨content, ?_, holds⟩
      by_cases zero : size = 0
      · rw [decide_eq_true zero]
        simp [Does, apply]
      · rw [decide_eq_false zero]
        exact ⟨rfl, fun given => absurd given zero⟩
    | some data => exact appends rfl (fun _ => id) ran
  | appendByte byte => exact @appends (appendByte byte) [byte] 1 rfl (fun _ => id) ran
  -- A text without characters is no text.
  | appendCstr text =>
    cases text with
    | none =>
      cases ran
      exact ⟨content, ⟨rfl, fun given => by cases given⟩, holds⟩
    | some text =>
      refine appends ?_ (fun _ => id) ran
      -- The length is that of the whole text.
      rw [strlen, BitVec.toNat_ofNat, Nat.mod_eq_of_lt text.bound, List.take_length]
      rfl
  | clear =>
    cases ran
    exact ⟨[], rfl, wirbleBytebufClear_holds holds⟩
  | readFile file =>
    cases file with
    | none =>
      cases ran
      exact ⟨content, ⟨rfl, fun given => by cases given⟩, holds⟩
    -- A file is read chunk by chunk into an empty buffer.
    | some chunks =>
      obtain ⟨whole, part⟩ := wirbleBytebufReadChunks_spec (wirbleBytebufClear_holds holds) ran
      cases reported with
      | true => exact ⟨_, rfl, whole rfl⟩
      | false =>
        obtain ⟨⟨kept, inside, held⟩, denied⟩ := part rfl
        exact ⟨_, ⟨⟨kept, inside, rfl⟩, fun _ => denied⟩, held⟩
  | destroy =>
    cases ran
    exact ⟨[], rfl, wirbleBytebufInit_holds⟩

/-- Calls leave the bytes that they are to leave. -/
theorem runBytebuf_spec {granted : Nat → Nat → BitVec 64 → Bool} {calls : List BytebufCall}
    {reports : List Bool} (holds : bytes.Holds content)
    (ran : runBytebuf rounds granted bytes calls = some (reports, after)) :
    ∃ content', BytebufDo granted calls content reports content' ∧ after.Holds content' := by
  -- Induction on the calls, each of which finds the bytes of the one before it.
  induction calls generalizing granted bytes content reports with
  | nil =>
    cases ran
    exact ⟨content, ⟨rfl, rfl⟩, holds⟩
  | cons call rest ih =>
    simp only [runBytebuf, Option.bind_eq_bind, Option.bind_eq_some_iff] at ran
    obtain ⟨⟨reported, next⟩, first, ⟨later, final⟩, others, same⟩ := ran
    cases same
    obtain ⟨middle, does, held⟩ := call.run_spec holds first
    obtain ⟨content', remaining, held'⟩ := ih held others
    exact ⟨content', ⟨reported, later, middle, rfl, does, remaining⟩, held'⟩

end Runs

end Specs

/-! Which calls return. -/

section Within

variable {bytes after : WirbleBytes} {content : List Byte} {rounds : Nat}

/-- The data is there, and at most half of all bytes are asked for. -/
def BytebufCall.Within (content : List Byte) : BytebufCall → Prop
  | reserve capacity => capacity.toNat ≤ 2 ^ 63
  | append none _ | appendCstr none | readFile none | clear | destroy => True
  | append (some data) size => size.toNat ≤ data.length ∧ content.length + size.toNat ≤ 2 ^ 63
  | appendByte _ => content.length + 1 ≤ 2 ^ 63
  | appendCstr (some text) => content.length + text.text.length ≤ 2 ^ 63
  | readFile (some chunks) => ((chunks.map (·.bytes)).flatten).length ≤ 2 ^ 63

/-- The same for calls one after the other, with memory for all of them. -/
def BytebufWithin (content : List Byte) : List BytebufCall → Prop
  | [] => True
  | call :: rest => call.Within content ∧ BytebufWithin (call.apply content) rest

namespace BytebufCall

/-- Fewer bytes leave room for more. -/
theorem Within.of_le {call : BytebufCall} {fewer : List Byte} (within : call.Within content)
    (less : fewer.length ≤ content.length) : call.Within fewer := by
  -- Only appending looks at what the buffer holds.
  cases call with
  | append data size =>
    cases data with
    | none => trivial
    | some data => exact ⟨within.1, Nat.le_trans (Nat.add_le_add_right less _) within.2⟩
  | appendByte byte => exact Nat.le_trans (Nat.add_le_add_right less _) within
  | appendCstr text =>
    cases text with
    | none => trivial
    | some text => exact Nat.le_trans (Nat.add_le_add_right less _) within
  | readFile file => cases file <;> exact within
  | _ => exact within

/-- Fewer bytes stay fewer. -/
theorem length_apply_le {fewer : List Byte} (call : BytebufCall)
    (less : fewer.length ≤ content.length) :
    (call.apply fewer).length ≤ (call.apply content).length := by
  -- Appending makes both longer by the same bytes, and every other call forgets or keeps them.
  cases call with
  | append data size => simpa [apply] using less
  | appendByte byte => simpa [apply] using less
  | appendCstr text => simpa [apply] using less
  | reserve capacity => exact less
  | readFile file =>
    cases file with
    | none => exact less
    | some chunks => exact Nat.le_refl _
  | _ => exact Nat.le_refl _

/-- A call that is refused leaves no more bytes than one that is not. -/
theorem Does.length_le {call : BytebufCall} {granted : Nat → BitVec 64 → Bool}
    {content' : List Byte} {reported : Bool}
    (does : call.Does granted content reported content') :
    content'.length ≤ (call.apply content).length := by
  cases reported with
  | true =>
    obtain rfl : content' = call.apply content := does
    exact Nat.le_refl _
  | false =>
    obtain ⟨refused, -⟩ := does
    cases call with
    | clear | destroy => cases refused
    | readFile file =>
      cases file with
      | none => exact Nat.le_of_eq (congrArg List.length refused)
      | some chunks =>
        obtain ⟨kept, -, rfl⟩ := refused
        -- The chunks that were appended are some of all.
        exact ((List.take_sublist kept chunks).map (·.bytes)).flatten.length_le
    | _ =>
      obtain rfl : content' = content := refused
      simp [apply]

/-- With all memory granted, a call does what it is to do, or nothing for lack of an argument. -/
theorem Does.all_granted {call : BytebufCall} {content' : List Byte} {reported : Bool}
    (does : call.Does (fun _ _ => true) content reported content') :
    content' = call.apply content := by
  cases reported with
  | true => exact does
  | false =>
    obtain ⟨refused, denied⟩ := does
    -- Nothing was refused, so an argument must have been missing.
    have missing : ¬ call.Given := by
      intro given
      obtain ⟨request, count, answer⟩ := denied given
      cases answer
    -- Only three calls have an argument that may be missing.
    cases call with
    | clear | destroy => cases refused
    | append data size =>
      cases data with
      | none =>
        obtain rfl : content' = content := refused
        simp [apply]
      | some data => exact absurd trivial missing
    -- The other two calls are like it.
    | appendCstr text =>
      cases text with
      | none =>
        obtain rfl : content' = content := refused
        simp [apply]
      | some text => exact absurd trivial missing
    | readFile file =>
      cases file with
      | none => exact refused
      | some chunks => exact absurd trivial missing
    | _ => exact absurd trivial missing

end BytebufCall

/-- Reserving up to half of the range returns. -/
theorem wirbleBytebufReserveIn_isSome {granted : BitVec 64 → Bool} {capacity : BitVec 64}
    (enough : 64 ≤ rounds) (small : capacity.toNat ≤ 2 ^ 63) :
    (wirbleBytebufReserveIn granted rounds bytes capacity).isSome = true := by
  rw [wirbleBytebufReserveIn, Option.isSome_map]
  exact grow_isSome (by decide) (by omega) enough

/-- Appending data that is there returns, with and without memory for it. -/
theorem wirbleBytebufAppend_isSome {granted : BitVec 64 → Bool} {data : List Byte}
    {size : BitVec 64} (holds : bytes.Holds content) (enough : 64 ≤ rounds)
    (given : size.toNat ≤ data.length) (small : content.length + size.toNat ≤ 2 ^ 63) :
    (wirbleBytebufAppend granted rounds bytes (some data) size).isSome = true := by
  have sum : (bytes.buffer.size + size).toNat = content.length + size.toNat := by
    rw [BitVec.toNat_add, holds.size]
    omega
  obtain ⟨⟨reserved, grown⟩, reserves⟩ := Option.isSome_iff_exists.mp
    (@wirbleBytebufReserveIn_isSome bytes rounds granted (bytes.buffer.size + size) enough
      (by omega))
  obtain ⟨kept, room, -⟩ := wirbleBytebufReserveIn_spec holds reserves
  simp only [wirbleBytebufAppend, reserves, Option.bind_eq_bind, Option.bind_some]
  split
  · rfl
  · split
    · -- The block has room for the data behind the bytes.
      rename_i success
      have inside := room success
      rw [memcpyInto, if_pos ⟨given, by rw [kept.size]; omega⟩]
      rfl
    · rfl

/-- Appending copies no more than there is. -/
theorem wirbleBytebufAppend_given {data : List Byte} {size : BitVec 64}
    (appended : (wirbleBytebufAppend (fun _ => true) rounds bytes (some data) size).isSome = true) :
    size.toNat ≤ data.length := by
  obtain ⟨⟨reported, after⟩, appended⟩ := Option.isSome_iff_exists.mp appended
  rw [wirbleBytebufAppend] at appended
  dsimp only at appended
  split at appended
  · rename_i zero
    simp [zero]
  · simp only [Option.bind_eq_bind, Option.bind_eq_some_iff] at appended
    obtain ⟨⟨granted, grown⟩, reserves, continues⟩ := appended
    obtain ⟨⟨granted', buffer⟩, grows, same⟩ := Option.map_eq_some_iff.mp reserves
    cases same
    obtain ⟨rfl, -⟩ := grow_granted grows
    -- Memory was granted, so that the data has been copied.
    obtain ⟨cells, copies, -⟩ := Option.bind_eq_some_iff.mp continues
    rw [memcpyInto] at copies
    split at copies
    · rename_i inside
      exact inside.1
    · cases copies

/-- A file is read while all of its bytes are few enough. -/
theorem wirbleBytebufReadChunks_isSome {granted : Nat → BitVec 64 → Bool}
    {chunks : List FileChunk} (holds : bytes.Holds content) (enough : 64 ≤ rounds)
    (small : content.length + ((chunks.map (·.bytes)).flatten).length ≤ 2 ^ 63) :
    (wirbleBytebufReadChunks rounds granted bytes chunks).isSome = true := by
  induction chunks generalizing granted bytes content with
  | nil => rfl
  | cons chunk rest ih =>
    rw [List.map_cons, List.flatten_cons, List.length_append] at small
    have size : (BitVec.ofNat 64 chunk.bytes.length).toNat = chunk.bytes.length := by
      rw [BitVec.toNat_ofNat, Nat.mod_eq_of_lt (by omega)]
    -- Each chunk is appended while there is room for it.
    obtain ⟨⟨appended, middle⟩, appends⟩ := Option.isSome_iff_exists.mp
      (@wirbleBytebufAppend_isSome bytes content rounds (granted 0) chunk.bytes _ holds enough
        (Nat.le_of_eq size) (by omega))
    obtain ⟨whole, -⟩ := wirbleBytebufAppend_spec holds appends
    simp only [wirbleBytebufReadChunks, appends, Option.bind_eq_bind, Option.bind_some]
    -- The loop goes on as long as appending succeeds.
    split
    · rename_i success
      have held := whole success
      rw [size, List.take_length] at held
      exact ih held (by rw [List.length_append]; omega)
    · rfl

/-- A call within the bounds returns, whatever the allocator grants. -/
theorem BytebufCall.run_isSome {granted : Nat → BitVec 64 → Bool} {call : BytebufCall}
    (holds : bytes.Holds content) (enough : 64 ≤ rounds) (within : call.Within content) :
    (call.run granted rounds bytes).isSome = true := by
  -- Without an argument nothing is called, and the others go through the one that appends.
  cases call with
  | reserve capacity => exact wirbleBytebufReserveIn_isSome enough within
  | append data size =>
    cases data with
    | none => rfl
    | some data => exact wirbleBytebufAppend_isSome holds enough within.1 within.2
  | appendByte byte =>
    exact @wirbleBytebufAppend_isSome bytes content rounds (granted 0) [byte] 1 holds enough
      (Nat.le_refl 1) within
  -- The length of a text fits, as its own bound says.
  | appendCstr text =>
    cases text with
    | none => rfl
    | some text =>
      have size : (strlen text).toNat = text.text.length := by
        rw [strlen, BitVec.toNat_ofNat, Nat.mod_eq_of_lt text.bound]
      exact @wirbleBytebufAppend_isSome bytes content rounds (granted 0) text.text _ holds enough
        (Nat.le_of_eq size) (by rw [size]; exact within)
  | clear => rfl
  -- The buffer is cleared before the file is read.
  | readFile file =>
    cases file with
    | none => rfl
    | some chunks =>
      apply wirbleBytebufReadChunks_isSome (wirbleBytebufClear_holds holds) enough
      rw [List.length_nil, Nat.zero_add]
      exact within
  | destroy => rfl

/-- With all memory granted, only a call within the bounds returns. -/
theorem BytebufCall.run_within {call : BytebufCall} {reported : Bool}
    (holds : bytes.Holds content)
    (ran : call.run (fun _ _ => true) rounds bytes = some (reported, after)) :
    call.Within content := by
  obtain ⟨content', does, held⟩ := call.run_spec holds ran
  obtain rfl := BytebufCall.Does.all_granted does
  -- What is held afterwards is not too much, and doubling does not get further.
  have bound := held.length_le
  cases call with
  | reserve capacity =>
    obtain ⟨⟨granted, buffer⟩, grows, -⟩ := Option.map_eq_some_iff.mp ran
    obtain ⟨bit, inside, power⟩ := holds.power
    have half := (enough_twoPow_iff inside power).mp (grow_granted grows).2
    exact Nat.le_of_mul_le_mul_left half (by decide : 0 < 2)
  -- What has been appended is held, and so within the bound.
  | append data size =>
    cases data with
    | none => trivial
    | some data =>
      have given := wirbleBytebufAppend_given (Option.isSome_of_eq_some ran)
      simp only [apply, Option.getD_some, List.length_append, List.length_take] at bound
      exact ⟨given, by omega⟩
  | appendByte byte =>
    rw [apply, List.length_append] at bound
    exact bound
  | appendCstr text =>
    cases text with
    | none => trivial
    | some text =>
      rw [apply, List.length_append] at bound
      exact bound
  | readFile file =>
    cases file with
    | none => trivial
    | some chunks => exact bound
  | _ => trivial

/-- Calls within the bounds return, whatever the allocator grants. -/
theorem runBytebuf_isSome {granted : Nat → Nat → BitVec 64 → Bool} {calls : List BytebufCall}
    {ideal : List Byte} (holds : bytes.Holds content) (enough : 64 ≤ rounds)
    (less : content.length ≤ ideal.length) (within : BytebufWithin ideal calls) :
    (runBytebuf rounds granted bytes calls).isSome = true := by
  induction calls generalizing granted bytes content ideal with
  | nil => rfl
  | cons call rest ih =>
    obtain ⟨here, later⟩ := within
    obtain ⟨⟨reported, next⟩, first⟩ := Option.isSome_iff_exists.mp
      (@BytebufCall.run_isSome bytes content rounds (granted 0) call holds enough
        (here.of_le less))
    obtain ⟨middle, does, held⟩ := call.run_spec holds first
    -- Refused calls leave fewer bytes than there would have been.
    have fewer := Nat.le_trans does.length_le (call.length_apply_le less)
    obtain ⟨⟨reports, final⟩, others⟩ := Option.isSome_iff_exists.mp
      (@ih next middle (fun done => granted (done + 1)) _ held fewer later)
    simp [runBytebuf, first, others]

/-- With all memory granted, only calls within the bounds return. -/
theorem runBytebuf_within {calls : List BytebufCall} (holds : bytes.Holds content)
    (ran : (runBytebuf rounds (fun _ _ _ => true) bytes calls).isSome = true) :
    BytebufWithin content calls := by
  induction calls generalizing bytes content with
  | nil => trivial
  | cons call rest ih =>
    obtain ⟨result, ran⟩ := Option.isSome_iff_exists.mp ran
    simp only [runBytebuf, Option.bind_eq_bind, Option.bind_eq_some_iff] at ran
    obtain ⟨⟨reported, next⟩, first, others, later, -⟩ := ran
    -- What a call leaves is the content that the next one starts from.
    obtain ⟨content', does, held⟩ := call.run_spec holds first
    obtain rfl := BytebufCall.Does.all_granted does
    exact ⟨BytebufCall.run_within holds first, ih held (Option.isSome_of_eq_some later)⟩

end Within

/-- Whatever the allocator grants, calls on a byte buffer that return lead from the bytes that it
holds to those that the reports say: calls that succeed do what they are to do, and calls that fail
for lack of memory or of an argument change nothing, apart from a file that is read in part. With
all memory granted, calls return exactly if their data is there and no more than two to the power of
63 bytes are ever asked for, and such calls return with every other allocator as well. -/
theorem wirbleBytebuf_holds_appended (bytes : WirbleBytes) (content : List Byte)
    (holds : bytes.Holds content) (calls : List BytebufCall) :
    (∀ rounds granted reports after,
      runBytebuf rounds granted bytes calls = some (reports, after) →
        ∃ content', BytebufDo granted calls content reports content' ∧ after.Holds content') ∧
    ((∃ rounds, (runBytebuf rounds (fun _ _ _ => true) bytes calls).isSome = true) ↔
      BytebufWithin content calls) ∧
    (BytebufWithin content calls → ∀ rounds granted, 64 ≤ rounds →
      (runBytebuf rounds granted bytes calls).isSome = true) := by
  -- What returns is within the bounds, and what is within the bounds returns.
  refine ⟨fun _ _ _ _ ran => runBytebuf_spec holds ran, ⟨?_, ?_⟩, ?_⟩
  · rintro ⟨rounds, ran⟩
    exact runBytebuf_within holds ran
  · intro within
    exact ⟨64, runBytebuf_isSome holds (Nat.le_refl 64) (Nat.le_refl _) within⟩
  · intro within rounds granted enough
    exact runBytebuf_isSome holds enough (Nat.le_refl _) within

/-- Two bytes are appended to a new buffer, and a third one finds no memory to grow for. -/
def bytebufCalls : List BytebufCall := [.append (some [1, 2]) 2, .reserve 65, .appendByte 3]

/-- The calls return with an allocator that grants 64 bytes only. -/
theorem wirbleBytebuf_holds_appended_three :
    ∃ after, runBytebuf 64 (fun _ _ bytes => bytes = 64) wirbleBytebufInit bytebufCalls =
      some ([true, false, true], after) ∧ after.Holds [1, 2, 3] := by
  obtain ⟨refines, -, -⟩ :=
    wirbleBytebuf_holds_appended wirbleBytebufInit [] wirbleBytebufInit_holds bytebufCalls
  have reports : (runBytebuf 64 (fun _ _ bytes => bytes = 64) wirbleBytebufInit bytebufCalls).map
      (·.1) = some [true, false, true] := by decide +kernel
  obtain ⟨⟨_, after⟩, ran, rfl⟩ := Option.map_eq_some_iff.mp reports
  obtain ⟨content, does, held⟩ := refines _ _ _ _ ran
  obtain ⟨_, _, two, same, first, does⟩ := does
  cases same
  obtain ⟨_, _, two', same, second, does⟩ := does
  cases same
  obtain ⟨_, _, three, same, third, -, rfl⟩ := does
  cases same
  -- The second call has changed nothing.
  obtain rfl : two = [1, 2] := first
  obtain rfl : two' = [1, 2] := second.1
  obtain rfl : content = [1, 2, 3] := third
  exact ⟨after, ran, held⟩

end Wirble
