import Wirble.Wvm.Truncate

/-! Which prototypes that are read from object files are well formed. -/

namespace Wirble

open Reader (word words skips)

/-! What the writer and the destructor rely on. -/

/-- A loop over a count reads only inside an array. -/
def ReadsInside {α : Type} (count : BitVec 32) (array : Option (List α)) : Prop :=
  ∀ index < count.toNat, index < (array.getD []).length

/-- A count that is not zero comes with a table of that length. -/
def HasTable {α : Type} (count : BitVec 32) (array : Option (List α)) : Prop :=
  count ≠ 0 → ∃ table, array = some table ∧ table.length = count.toNat

/-- The arrays of a prototype are as long as its counts say, and it can be written again, which
reads only inside them, and gives the same prototype when it is read back. -/
structure WVMPrototype.WellFormed (proto : WVMPrototype) (timestamp : BitVec 64) : Prop where
  instrs : (proto.instrs.getD []).length = proto.instrCount.toNat
  consts : (proto.consts.getD []).length = proto.constCount.toNat
  lineMap : ∀ lines, proto.lineMap = some lines → proto.instrCount.toNat ≤ lines.length
  strs : HasTable proto.strCount proto.strs
  protos : HasTable proto.protoCount proto.protos
  inside : ReadsInside proto.instrCount proto.instrs ∧ ReadsInside proto.constCount proto.consts ∧
    ReadsInside proto.lineCount proto.lineMap
  again : ObjectRoundTrips proto timestamp

/-! Where the counts stand in a file. -/

/-- The characters of the string at the front are all there. -/
def StringWhole (bytes : List Byte) : Prop :=
  (word 4 bytes : BitVec 32 × List Byte).1.toNat ≤ (word 4 bytes : BitVec 32 × List Byte).2.length

/-- The bytes behind the header and the two strings. -/
def wvmFieldBytes (bytes : List Byte) : List Byte := afterSource (afterSource (bytes.drop 56))

/-- The word at an offset, which is zero past the end. -/
def wvmFieldAt (fields : List Byte) (offset : Nat) : BitVec 32 := (word 4 (fields.drop offset)).1

/-- The offset of the line count, behind as many instructions and constants as there are bytes
for. -/
def wvmLineOffset (fields : List Byte) : Nat :=
  22 + 8 * min ((wvmFieldAt fields 6).toNat + (wvmFieldAt fields 10).toNat)
    ((fields.length - 22) / 8)

/-- The strings of a file are whole, it counts no strings in a pool and no nested prototypes, and it
has no lines or one for each instruction. -/
structure ObjectWhole (bytes : List Byte) : Prop where
  name : StringWhole (bytes.drop 56)
  source : StringWhole (afterSource (bytes.drop 56))
  strs : wvmFieldAt (wvmFieldBytes bytes) 14 = 0
  protos : wvmFieldAt (wvmFieldBytes bytes) 18 = 0
  lines : wvmFieldAt (wvmFieldBytes bytes) (wvmLineOffset (wvmFieldBytes bytes)) = 0 ∨
    wvmFieldAt (wvmFieldBytes bytes) (wvmLineOffset (wvmFieldBytes bytes)) =
      wvmFieldAt (wvmFieldBytes bytes) 6

section Fields

variable (name source : Option CString) {fields : List Byte} (long : 10 ≤ fields.length)

include long

/-- The bytes from the counts on. -/
theorem skips_head : skips [2, 2, 1, 1] fields = fields.drop 6 := by
  apply Reader.skips_long
  show 6 ≤ fields.length
  omega

/-- The counts stand one behind the other. -/
theorem word_count (index : Nat) :
    (word 4 (skips (List.replicate index 4) (skips [2, 2, 1, 1] fields)) :
      BitVec 32 × List Byte).1 = wvmFieldAt fields (6 + 4 * index) := by
  rw [Reader.word_skips_replicate (by decide), skips_head long, List.drop_drop, wvmFieldAt]

/-- The four counts are read from their places behind the small fields. -/
theorem wvmDeserializeFields_counted :
    (wvmDeserializeFields name source fields).instrCount = wvmFieldAt fields 6 ∧
      (wvmDeserializeFields name source fields).constCount = wvmFieldAt fields 10 ∧
      (wvmDeserializeFields name source fields).strCount = wvmFieldAt fields 14 ∧
      (wvmDeserializeFields name source fields).protoCount = wvmFieldAt fields 18 := by
  rw [← word_count long 0, ← word_count long 1, ← word_count long 2, ← word_count long 3]
  simp only [wvmDeserializeFields, Reader.word_snd, skips, List.replicate, List.foldl, and_self]

/-- The words of the code and the constants are skipped as far as they are complete. -/
theorem word_lines (instrs consts : Nat) :
    (word 4 (skips (List.replicate consts 8) (skips (List.replicate instrs 8)
      (skips (List.replicate 4 4) (skips [2, 2, 1, 1] fields)))) : BitVec 32 × List Byte).1 =
        (word 4 (fields.drop (22 + 8 * min (instrs + consts) ((fields.length - 22) / 8)))).1 := by
  rw [skips_head long, Reader.skips_replicate (by decide), Reader.skips_replicate (by decide),
    Reader.skips_replicate (by decide)]
  simp only [List.drop_drop, List.length_drop]
  by_cases whole : 22 ≤ fields.length
  · -- All counts are there.
    have four : min 4 ((fields.length - 6) / 4) = 4 := by
      omega
    rw [four]
    congr 3
    omega
  · -- Fewer than four bytes are left, which are no word.
    have short : (fields.drop (22 + 8 * min (instrs + consts)
        ((fields.length - 22) / 8))).length < 4 := by
      rw [List.length_drop]
      omega
    rw [Reader.word_short short, Reader.word_short]
    rw [List.length_drop]
    omega

/-- There is a line map exactly if the line count is not zero, and it has that length. -/
theorem wvmDeserializeFields_lineMap :
    ∃ lines : List (BitVec 32),
      lines.length = (wvmFieldAt fields (wvmLineOffset fields)).toNat ∧
        (wvmDeserializeFields name source fields).lineMap =
          if wvmFieldAt fields (wvmLineOffset fields) = 0 then none else some lines := by
  obtain ⟨instrs, consts, -, -⟩ := wvmDeserializeFields_counted name source long
  -- The reader comes to the line count behind the code and the constants.
  have line := word_lines long (wvmFieldAt fields 6).toNat (wvmFieldAt fields 10).toNat
  rw [← wvmLineOffset, ← wvmFieldAt, ← instrs, ← consts] at line
  rw [← line]
  let rest := skips (List.replicate (wvmDeserializeFields name source fields).constCount.toNat 8)
    (skips (List.replicate (wvmDeserializeFields name source fields).instrCount.toNat 8)
      (skips (List.replicate 4 4) (skips [2, 2, 1, 1] fields)))
  refine ⟨(words 4 (word 4 rest : BitVec 32 × List Byte).1.toNat
    (word 4 rest : BitVec 32 × List Byte).2).1, Reader.length_words _ _, ?_⟩
  simp only [rest, wvmDeserializeFields, Reader.words_snd, Reader.word_snd, skips, List.replicate,
    List.foldl]

end Fields

section Strings

variable {bytes : List Byte}

/-- A string that is whole is read, and its length fits the word before it. -/
theorem readString_whole (whole : StringWhole bytes) :
    ∃ str : CString, (wvmReaderReadString bytes).1 = some str ∧ str.text.length < 2 ^ 32 := by
  unfold StringWhole at whole
  refine ⟨_, by rw [wvmReaderReadString, if_pos whole], ?_⟩
  -- The text is part of what was taken, which is as long as the word says.
  have taken := (List.takeWhile_sublist (· ≠ (0 : Byte))
    (l := (word 4 bytes : BitVec 32 × List Byte).2.take
      (word 4 bytes : BitVec 32 × List Byte).1.toNat)).length_le
  have size := List.length_take_le (word 4 bytes : BitVec 32 × List Byte).1.toNat
    (word 4 bytes : BitVec 32 × List Byte).2
  have bound := (word 4 bytes : BitVec 32 × List Byte).1.isLt
  exact Nat.lt_of_le_of_lt (Nat.le_trans taken size) bound

/-- Otherwise it is NULL. -/
theorem readString_cut (cut : ¬ StringWhole bytes) : (wvmReaderReadString bytes).1 = none := by
  unfold StringWhole at cut
  rw [wvmReaderReadString, if_neg cut]

end Strings

section Read

variable {bytes : List Byte} {proto : WVMPrototype}

/-- What has been read from a file that is accepted. -/
theorem wvmReadObjectMemory_ok (read : wvmReadObjectMemory bytes = .ok proto) :
    proto = wvmDeserializeFields (wvmReaderReadString (bytes.drop 56)).1
        (wvmReaderReadString (afterSource (bytes.drop 56))).1 (wvmFieldBytes bytes) ∧
      wvmVerifyPrototype proto = .ok () ∧ proto.instrCount ≠ 0 ∧
        10 ≤ (wvmFieldBytes bytes).length := by
  rw [wvmReadObjectMemory] at read
  split at read
  · cases read
  split at read
  · cases read
  have fields : wvmDeserializePrototype (bytes.drop 56) =
      wvmDeserializeFields (wvmReaderReadString (bytes.drop 56)).1
        (wvmReaderReadString (afterSource (bytes.drop 56))).1 (wvmFieldBytes bytes) := by
    simp only [wvmDeserializePrototype, wvmReaderReadString_left, wvmFieldBytes]
  rw [fields] at read
  -- The verifier has accepted what was read.
  generalize made : wvmDeserializeFields (wvmReaderReadString (bytes.drop 56)).1
    (wvmReaderReadString (afterSource (bytes.drop 56))).1 (wvmFieldBytes bytes) = loaded at read
  have checked : (wvmVerifyPrototype loaded).map (fun _ => loaded) = .ok proto :=
    (except_check _ _).symm.trans read
  -- An error of the verifier would be an error of the reader.
  cases verdict : wvmVerifyPrototype loaded with
  | error text =>
    rw [verdict] at checked
    cases checked
  | ok accepted =>
    rw [verdict] at checked
    have same : loaded = proto := Except.ok.inj checked
    subst same
    have code : loaded.instrCount ≠ 0 := by
      rw [← made] at verdict ⊢
      exact ((wvmVerifyPrototype_fields _ _ _).mp verdict).1
    refine ⟨rfl, verdict, code, ?_⟩
    -- Without the fixed fields there would be no code.
    by_contra short
    rw [← made] at code
    exact code (wvmDeserializeFields_short _ _ _ (by omega))

/-- The arrays of code and constants that are read have their counted lengths. -/
theorem wvmDeserializeFields_lengths (name source : Option CString) (fields : List Byte) :
    ((wvmDeserializeFields name source fields).instrs.getD []).length =
        (wvmDeserializeFields name source fields).instrCount.toNat ∧
      ((wvmDeserializeFields name source fields).consts.getD []).length =
        (wvmDeserializeFields name source fields).constCount.toNat := by
  -- An array that is counted as empty is NULL.
  have array : ∀ (count : BitVec 32) (rest : List Byte),
      ((if count = 0 then none else some (words 8 count.toNat rest).1).getD [] :
        List (BitVec 64)).length = count.toNat := by
    intro count rest
    split
    · next empty =>
      rw [empty]
      rfl
    · rw [Option.getD_some]
      exact Reader.length_words _ _
  simp only [wvmDeserializeFields]
  exact ⟨array _ _, array _ _⟩

/-- The line count that the reader comes to. -/
def wvmFieldLines (bytes : List Byte) : BitVec 32 :=
  wvmFieldAt (wvmFieldBytes bytes) (wvmLineOffset (wvmFieldBytes bytes))

/-- What is known of a prototype that has been read from a file. The tables of strings and of nested
prototypes are never read. -/
structure ReadFromObject (bytes : List Byte) (proto : WVMPrototype) : Prop where
  name : proto.name = (wvmReaderReadString (bytes.drop 56)).1
  source : proto.source = (wvmReaderReadString (afterSource (bytes.drop 56))).1
  verified : wvmVerifyPrototype proto = .ok ()
  code : proto.instrCount ≠ 0
  instrCount : proto.instrCount = wvmFieldAt (wvmFieldBytes bytes) 6
  strCount : proto.strCount = wvmFieldAt (wvmFieldBytes bytes) 14
  protoCount : proto.protoCount = wvmFieldAt (wvmFieldBytes bytes) 18
  instrs : (proto.instrs.getD []).length = proto.instrCount.toNat
  consts : (proto.consts.getD []).length = proto.constCount.toNat
  strs : proto.strs = none
  protos : proto.protos = none
  upvals : proto.upvalCount = 0 ∧ proto.upvalIsLocal = none ∧ proto.upvalIndex = none
  lineMap : ∃ lines : List (BitVec 32), lines.length = (wvmFieldLines bytes).toNat ∧
    proto.lineMap = if wvmFieldLines bytes = 0 then none else some lines

/-- What was read came from the fields of the object. -/
theorem wvmReadObjectMemory_from (read : wvmReadObjectMemory bytes = .ok proto) :
    ReadFromObject bytes proto := by
  -- The fields are those of the deserialized prototype, one by one.
  obtain ⟨fields, verified, code, long⟩ := wvmReadObjectMemory_ok read
  obtain ⟨instrCount, -, strCount, protoCount⟩ := wvmDeserializeFields_counted
    (wvmReaderReadString (bytes.drop 56)).1
    (wvmReaderReadString (afterSource (bytes.drop 56))).1 long
  have lineMap := wvmDeserializeFields_lineMap
    (wvmReaderReadString (bytes.drop 56)).1
    (wvmReaderReadString (afterSource (bytes.drop 56))).1 long
  obtain ⟨instrs, consts⟩ := wvmDeserializeFields_lengths
    (wvmReaderReadString (bytes.drop 56)).1
    (wvmReaderReadString (afterSource (bytes.drop 56))).1 (wvmFieldBytes bytes)
  rw [← fields] at instrCount strCount protoCount lineMap instrs consts
  -- The fields that are never read back are NULL or zero.
  have fixed : proto.name = (wvmReaderReadString (bytes.drop 56)).1 ∧
      proto.source = (wvmReaderReadString (afterSource (bytes.drop 56))).1 ∧
        proto.strs = none ∧ proto.protos = none ∧
          proto.upvalCount = 0 ∧ proto.upvalIsLocal = none ∧ proto.upvalIndex = none := by
    rw [fields]
    exact ⟨rfl, rfl, rfl, rfl, rfl, rfl, rfl⟩
  obtain ⟨name, source, strs, protos, upvals⟩ := fixed
  exact ⟨name, source, verified, code, instrCount, strCount, protoCount, instrs, consts, strs,
    protos, upvals, lineMap⟩

/-- What is written and read again keeps the strings and the lines. -/
theorem ReadFromObject.written_same (made : ReadFromObject bytes proto) {timestamp : BitVec 64}
    (again : ObjectRoundTrips proto timestamp) :
    proto.written.name = proto.name ∧ proto.written.source = proto.source ∧
      proto.written.lineMap = proto.lineMap := by
  obtain ⟨bytes', copy, write, back, same⟩ := again
  have written : wvmWriteObjectMemory proto timestamp =
      .ok (wvmFileHeader timestamp ++ wvmSerializePrototype proto) := by
    rw [wvmWriteObjectMemory, made.verified]
    rfl
  -- The bytes that are read back are those of the prototype itself.
  obtain rfl := Except.ok.inj (written.symm.trans write)
  rw [wvmReadObjectMemory_write made.verified timestamp, if_neg made.code] at back
  obtain rfl := Except.ok.inj back
  cases same with
  | intro name source _ _ _ _ _ _ _ lineMap => exact ⟨name, source, lineMap⟩

/-- One line is written for each instruction, if there are lines. -/
theorem ReadFromObject.lines_counted (made : ReadFromObject bytes proto)
    (same : proto.written.lineMap = proto.lineMap) :
    wvmFieldLines bytes = 0 ∨ wvmFieldLines bytes = proto.instrCount := by
  obtain ⟨lines, entries, lineMap⟩ := made.lineMap
  by_cases empty : wvmFieldLines bytes = 0
  · exact .inl empty
  · right
    rw [if_neg empty] at lineMap
    have count : proto.lineCount = proto.instrCount := by
      rw [WVMPrototype.lineCount, lineMap]
      rfl
    have stored : proto.written.lineMap = some (wvmArray proto.lineCount proto.lineMap) := by
      show (if proto.lineCount = 0 then none else _) = _
      rw [if_neg (count ▸ made.code)]
    -- The two tables have the same length.
    rw [stored, lineMap] at same
    have length := congrArg List.length (Option.some.inj same)
    rw [length_wvmArray, entries, count] at length
    exact BitVec.eq_of_toNat_eq length.symm

/-- The file of a well formed prototype is whole. -/
theorem ReadFromObject.whole (made : ReadFromObject bytes proto) {timestamp : BitVec 64}
    (wellFormed : proto.WellFormed timestamp) : ObjectWhole bytes := by
  obtain ⟨sameName, sameSource, sameLines⟩ := made.written_same wellFormed.again
  refine ⟨?_, ?_, ?_, ?_, ?_⟩
  · -- A string that was cut is NULL, and is read back as an empty one.
    by_contra cut
    rw [made.name, readString_cut cut] at sameName
    cases sameName
  · by_contra cut
    rw [made.source, readString_cut cut] at sameSource
    cases sameSource
  -- A count of the pool promises a table, which is NULL here.
  · by_contra counted
    rw [← made.strCount] at counted
    obtain ⟨table, present, -⟩ := wellFormed.strs counted
    rw [made.strs] at present
    cases present
  -- So does a count of nested prototypes.
  · by_contra counted
    rw [← made.protoCount] at counted
    obtain ⟨table, present, -⟩ := wellFormed.protos counted
    rw [made.protos] at present
    cases present
  · rw [← made.instrCount]
    exact made.lines_counted sameLines

/-- The line map of a whole file has one line for each instruction. -/
theorem ReadFromObject.mapped (made : ReadFromObject bytes proto) (whole : ObjectWhole bytes)
    {table : List (BitVec 32)} (present : proto.lineMap = some table) :
    table.length = proto.instrCount.toNat := by
  obtain ⟨lines, entries, lineMap⟩ := made.lineMap
  rw [lineMap] at present
  split at present
  · cases present
  -- The map was stored with as many entries as there are instructions.
  · next filled =>
    rw [← Option.some.inj present, entries, made.instrCount]
    exact congrArg BitVec.toNat (whole.lines.resolve_left filled)

/-- A prototype from a whole file is read back as it is. -/
theorem ReadFromObject.again (made : ReadFromObject bytes proto) (whole : ObjectWhole bytes)
    (timestamp : BitVec 64) : ObjectRoundTrips proto timestamp := by
  obtain ⟨name, hasName, shortName⟩ := readString_whole whole.name
  obtain ⟨source, hasSource, shortSource⟩ := readString_whole whole.source
  have noStrs : proto.strCount = 0 := made.strCount.trans whole.strs
  have noProtos : proto.protoCount = 0 := made.protoCount.trans whole.protos
  obtain ⟨noUpvals, isLocal, index⟩ := made.upvals
  -- All counts are the lengths of the arrays that are there.
  have counts : proto.CountsMatch := by
    refine ⟨made.instrs, made.consts, ?_, ?_, ?_, ?_, fun table => made.mapped whole⟩
    · rw [made.strs, noStrs]
      rfl
    · rw [isLocal, noUpvals]
      rfl
    · rw [index, noUpvals]
      rfl
    · rw [made.protos, noProtos]
      rfl
  exact (objectRoundTrips_iff proto timestamp name source made.verified
    (made.name.trans hasName) (made.source.trans hasSource) counts).mpr
      ⟨made.code, shortName, shortSource, noStrs, noUpvals, noProtos⟩

/-- The loops of the writer stay inside of the arrays from a whole file. -/
theorem ReadFromObject.inside (made : ReadFromObject bytes proto) (whole : ObjectWhole bytes) :
    ReadsInside proto.instrCount proto.instrs ∧ ReadsInside proto.constCount proto.consts ∧
      ReadsInside proto.lineCount proto.lineMap := by
  refine ⟨?_, ?_, ?_⟩
  · intro index below
    rwa [made.instrs]
  · intro index below
    rwa [made.consts]
  · intro index below
    rw [WVMPrototype.lineCount] at below
    -- Without a map there are no lines to write.
    cases present : proto.lineMap with
    | none =>
      rw [present] at below
      exact absurd below (Nat.not_lt_zero index)
    | some table =>
      rw [present] at below
      rw [Option.getD_some, made.mapped whole present]
      exact below

/-- A prototype that is read from a file is well formed exactly if the file is whole. -/
theorem wvmReadObjectMemory_wellFormed_iff (read : wvmReadObjectMemory bytes = .ok proto)
    (timestamp : BitVec 64) : proto.WellFormed timestamp ↔ ObjectWhole bytes := by
  have made := wvmReadObjectMemory_from read
  constructor
  -- What is well formed came from a whole file.
  · intro wellFormed
    exact made.whole wellFormed
  · intro whole
    refine ⟨made.instrs, made.consts, ?_, ?_, ?_, made.inside whole, made.again whole timestamp⟩
    -- No table is longer or shorter than its count.
    · intro table present
      exact Nat.le_of_eq (made.mapped whole present).symm
    -- A count without its list would contradict a whole file.
    · intro counted
      exact absurd (made.strCount.trans whole.strs) counted
    · intro counted
      exact absurd (made.protoCount.trans whole.protos) counted

end Read

/-- A file of two instructions with one line. -/
def shortLines : List Byte :=
  wvmBufferWriteString (some (cString [0x66])) ++ wvmBufferWriteString (some (cString [0x73])) ++
    Bytes.encode 2 1 ++ Bytes.encode 2 0 ++ [0, 0] ++ Bytes.encode 4 2 ++ Bytes.encode 4 0 ++
    Bytes.encode 4 0 ++ Bytes.encode 4 0 ++ Bytes.encode 8 0 ++ Bytes.encode 8 0 ++
    Bytes.encode 4 1 ++ Bytes.encode 4 7

/-- A prototype of one instruction is well formed when it has been read. -/
theorem wvmReadObjectMemory_wellFormed_nop : (wvmNopPrototype []).written.WellFormed 0 := by
  have verified : wvmVerifyPrototype (wvmNopPrototype []) = .ok () := rfl
  have read := wvmReadObjectMemory_write verified 0
  rw [if_neg (by decide)] at read
  -- Every field of the file of one instruction is there.
  refine (wvmReadObjectMemory_wellFormed_iff read 0).mpr ⟨?_, ?_, ?_, ?_, ?_⟩
  · unfold StringWhole
    decide
  · unfold StringWhole
    decide
  · decide
  · decide
  · decide

/-- Two instructions are accepted with a line map of one entry, which writing them again reads
past its end. -/
theorem wvmReadObjectMemory_not_wellFormed :
    ¬ ∀ (bytes : List Byte) (proto : WVMPrototype) (timestamp : BitVec 64),
      wvmReadObjectMemory bytes = .ok proto → proto.WellFormed timestamp := by
  intro claimed
  have verified : wvmVerifyPrototype (wvmDeserializePrototype shortLines) = .ok () := by
    rfl
  have read : wvmReadObjectMemory (wvmFileHeader 0 ++ shortLines) =
      .ok (wvmDeserializePrototype shortLines) := by
    rw [wvmReadObjectMemory_header, verified]
    rfl
  have lines := (claimed _ _ 0 read).lineMap [7] (by rfl)
  -- There are two instructions.
  have count : (wvmDeserializePrototype shortLines).instrCount = 2 := by
    rfl
  rw [count] at lines
  exact absurd lines (by decide)

end Wirble
