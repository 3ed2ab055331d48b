import Wirble.Wvm.Prototype
import Wirble.Library.Reader

/-! Object files: what the writer stores of a prototype and what the reader makes of any bytes.
Allocations succeed. -/

namespace Wirble

/-- The magic number of object files. -/
def wvmMagicWvmo : BitVec 32 := 0x57564D4F

/-- The bytes of the file header. The time of writing is the only field that varies. -/
def wvmFileHeader (timestamp : BitVec 64) : List Byte :=
  -- The magic number, the two versions, the flags, the section count and the time.
  Bytes.encode 4 wvmMagicWvmo.toNat ++ Bytes.encode 2 1 ++ Bytes.encode 2 0 ++ Bytes.encode 4 0 ++
    Bytes.encode 4 1 ++ Bytes.encode 8 timestamp.toNat ++
    -- The checksum stays zero.
    List.replicate 32 0

/-- The bytes of one word. -/
def wvmBufferWrite (count : Nat) {width : Nat} (value : BitVec width) : List Byte :=
  Bytes.encode count value.toNat

/-- The length of a string in 32 bits, where NULL has length zero. -/
def wvmStringLength (str : Option CString) : BitVec 32 :=
  BitVec.ofNat 32 ((str.map (·.text)).getD []).length

/-- The characters of a string that are written. -/
def wvmStringBytes (str : Option CString) : List Byte :=
  ((str.map (·.text)).getD []).take (wvmStringLength str).toNat

def wvmBufferWriteString (str : Option CString) : List Byte :=
  wvmBufferWrite 4 (wvmStringLength str) ++ wvmStringBytes str

/-- The line count that is written: no lines without a line map. -/
def WVMPrototype.lineCount (proto : WVMPrototype) : BitVec 32 :=
  if proto.lineMap.isNone then 0 else proto.instrCount

/-- The part of a prototype after its two strings. -/
def wvmSerializeFields (proto : WVMPrototype) : List Byte :=
  wvmBufferWrite 2 proto.regCount ++ (wvmBufferWrite 2 proto.paramCount ++
    (wvmBufferWrite 1 proto.isVararg ++ (wvmBufferWrite 1 (0 : BitVec 8) ++
      (wvmBufferWrite 4 proto.instrCount ++ (wvmBufferWrite 4 proto.constCount ++
        (wvmBufferWrite 4 proto.strCount ++ (wvmBufferWrite 4 proto.protoCount ++
          ((wvmArray proto.instrCount proto.instrs).flatMap (wvmBufferWrite 8) ++
            ((wvmArray proto.constCount proto.consts).flatMap (wvmBufferWrite 8) ++
              (wvmBufferWrite 4 proto.lineCount ++
                (wvmArray proto.lineCount proto.lineMap).flatMap (wvmBufferWrite 4)))))))))))

def wvmSerializePrototype (proto : WVMPrototype) : List Byte :=
  wvmBufferWriteString proto.name ++
    (wvmBufferWriteString proto.source ++ wvmSerializeFields proto)

/-- Writing fails with the error of the verifier. -/
def wvmWriteObjectMemory (proto : WVMPrototype) (timestamp : BitVec 64) :
    Except String (List Byte) := do
  wvmVerifyPrototype proto
  return wvmFileHeader timestamp ++ wvmSerializePrototype proto

/-- A string is NULL when its characters are cut short, which leaves the reader behind its
length. -/
def wvmReaderReadString (bytes : List Byte) : Option CString × List Byte :=
  let len : BitVec 32 × List Byte := Reader.word 4 bytes
  if len.1.toNat ≤ len.2.length then
    (some (cString (len.2.take len.1.toNat)), len.2.drop len.1.toNat)
  else (none, len.2)

/-- Reads the part of a prototype after its two strings. -/
def wvmDeserializeFields (name source : Option CString) (bytes : List Byte) : WVMPrototype :=
  let regCount : BitVec 16 × List Byte := Reader.word 2 bytes
  let paramCount : BitVec 16 × List Byte := Reader.word 2 regCount.2
  let isVararg : BitVec 8 × List Byte := Reader.word 1 paramCount.2
  let padding : BitVec 8 × List Byte := Reader.word 1 isVararg.2
  let instrCount : BitVec 32 × List Byte := Reader.word 4 padding.2
  let constCount : BitVec 32 × List Byte := Reader.word 4 instrCount.2
  let strCount : BitVec 32 × List Byte := Reader.word 4 constCount.2
  let protoCount : BitVec 32 × List Byte := Reader.word 4 strCount.2
  let instrs : List (BitVec 64) × List Byte := Reader.words 8 instrCount.1.toNat protoCount.2
  let consts : List (BitVec 64) × List Byte := Reader.words 8 constCount.1.toNat instrs.2
  let lineCount : BitVec 32 × List Byte := Reader.word 4 consts.2
  let lineMap : List (BitVec 32) × List Byte := Reader.words 4 lineCount.1.toNat lineCount.2
  { name
    source
    instrCount := instrCount.1
    instrs := if instrCount.1 = 0 then none else some instrs.1
    constCount := constCount.1
    consts := if constCount.1 = 0 then none else some consts.1
    -- The counts of strings and nested prototypes are restored without their arrays.
    strCount := strCount.1
    strs := none
    upvalCount := 0
    upvalIsLocal := none
    upvalIndex := none
    regCount := regCount.1
    paramCount := paramCount.1
    isVararg := isVararg.1
    protoCount := protoCount.1
    protos := none
    lineMap := if lineCount.1 = 0 then none else some lineMap.1 }

def wvmDeserializePrototype (bytes : List Byte) : WVMPrototype :=
  let name := wvmReaderReadString bytes
  let source := wvmReaderReadString name.2
  wvmDeserializeFields name.1 source.1 source.2

/-- Reading gives NULL with the text of the error that is set. -/
def wvmReadObjectMemory (bytes : List Byte) : Except String WVMPrototype :=
  if bytes.length < 56 then .error "bytecode buffer is too small"
  else if (Reader.word 4 bytes).1 ≠ wvmMagicWvmo then .error "invalid WVM object header"
  else do
    let proto := wvmDeserializePrototype (bytes.drop 56)
    wvmVerifyPrototype proto
    return proto

/-- The header takes 56 bytes. -/
@[simp] theorem length_wvmFileHeader (timestamp : BitVec 64) :
    (wvmFileHeader timestamp).length = 56 := by
  simp [wvmFileHeader]

/-- Writing a number takes its count of bytes. -/
@[simp] theorem length_wvmBufferWrite (count : Nat) {width : Nat} (value : BitVec width) :
    (wvmBufferWrite count value).length = count :=
  Bytes.length_encode _ _

/-- The length written is never above the length of the text. -/
theorem wvmStringLength_le (str : Option CString) :
    (wvmStringLength str).toNat ≤ ((str.map (·.text)).getD []).length := by
  rw [wvmStringLength, BitVec.toNat_ofNat]
  exact Nat.mod_le ((str.map (·.text)).getD []).length (2 ^ 32)

/-- As many bytes are written as the length says. -/
@[simp] theorem length_wvmStringBytes (str : Option CString) :
    (wvmStringBytes str).length = (wvmStringLength str).toNat :=
  List.length_take_of_le (wvmStringLength_le str)

/-- A check in front of a result. -/
theorem except_check {ε α : Type} (check : Except ε Unit) (value : α) :
    (do check; return value) = check.map fun _ => value := by
  cases check <;> rfl

/-- After a header the reader verifies what follows it. -/
theorem wvmReadObjectMemory_header (timestamp : BitVec 64) (rest : List Byte) :
    wvmReadObjectMemory (wvmFileHeader timestamp ++ rest) =
      (wvmVerifyPrototype (wvmDeserializePrototype rest)).map fun _ =>
        wvmDeserializePrototype rest := by
  -- The header has its full size and its magic number, and ends where the body starts.
  have size : ¬ (wvmFileHeader timestamp ++ rest).length < 56 := by
    rw [List.length_append, length_wvmFileHeader]
    omega
  have magic : Reader.word 4 (wvmFileHeader timestamp ++ rest) =
      (wvmMagicWvmo, (wvmFileHeader timestamp ++ rest).drop 4) := by
    simp only [wvmFileHeader, List.append_assoc]
    rw [Reader.word_encode (by decide), List.drop_left' (Bytes.length_encode 4 _)]
  have body : (wvmFileHeader timestamp ++ rest).drop 56 = rest :=
    List.drop_left' (length_wvmFileHeader timestamp)
  rw [wvmReadObjectMemory, if_neg size, magic, if_neg (not_not_intro rfl), body]
  exact except_check _ _

section RoundTrip

/-- A string as it is written, where NULL becomes the empty string. -/
def wvmWrittenString (str : Option CString) : Option CString :=
  some (cString (wvmStringBytes str))

/-- What an object file keeps of a prototype. -/
def WVMPrototype.written (proto : WVMPrototype) : WVMPrototype where
  name := wvmWrittenString proto.name
  source := wvmWrittenString proto.source
  instrCount := proto.instrCount
  instrs := if proto.instrCount = 0 then none else some (wvmArray proto.instrCount proto.instrs)
  constCount := proto.constCount
  consts := if proto.constCount = 0 then none else some (wvmArray proto.constCount proto.consts)
  strCount := proto.strCount
  strs := none
  upvalCount := 0
  upvalIsLocal := none
  upvalIndex := none
  regCount := proto.regCount
  paramCount := proto.paramCount
  isVararg := proto.isVararg
  protoCount := proto.protoCount
  protos := none
  lineMap := if proto.lineCount = 0 then none else some (wvmArray proto.lineCount proto.lineMap)

/-- Reading takes back the string that was written, cut as it was. -/
theorem wvmReaderReadString_write (str : Option CString) (rest : List Byte) :
    wvmReaderReadString (wvmBufferWriteString str ++ rest) = (wvmWrittenString str, rest) := by
  -- The length fits, and that many bytes follow.
  have size : (wvmStringLength str).toNat ≤ (wvmStringBytes str ++ rest).length := by
    rw [List.length_append, length_wvmStringBytes]
    omega
  rw [wvmReaderReadString, wvmBufferWriteString, List.append_assoc, wvmBufferWrite,
    Reader.word_encode (by decide), if_pos size, List.take_left' (length_wvmStringBytes str),
    List.drop_left' (length_wvmStringBytes str)]
  rfl

/-- A counted array that was written is read back. -/
theorem words_wvmArray {count width : Nat} (fits : width ≤ 8 * count) (length : BitVec 32)
    (array : Option (List (BitVec width))) (rest : List Byte) :
    Reader.words count length.toNat
      ((wvmArray length array).flatMap (wvmBufferWrite count) ++ rest) =
        (wvmArray length array, rest) := by
  have whole := Reader.words_encode fits (wvmArray length array) rest
  rwa [length_wvmArray] at whole

/-- The fields of a prototype are restored behind any strings. -/
theorem wvmDeserializeFields_serialize (name source : Option CString) (proto : WVMPrototype) :
    wvmDeserializeFields name source (wvmSerializeFields proto) =
      { proto.written with name, source } := by
  have word {count width : Nat} (fits : width ≤ 8 * count) (value : BitVec width)
      (rest : List Byte) : Reader.word count (wvmBufferWrite count value ++ rest) = (value, rest) :=
    Reader.word_encode fits value rest
  -- The last array ends the file.
  have lines := words_wvmArray (by decide : 32 ≤ 8 * 4) proto.lineCount proto.lineMap []
  rw [List.append_nil] at lines
  rw [wvmDeserializeFields, wvmSerializeFields]
  simp (disch := decide) only [word, words_wvmArray, lines]
  rfl

/-- The reader makes of a written prototype what the file keeps of it. -/
theorem wvmDeserializePrototype_serialize (proto : WVMPrototype) :
    wvmDeserializePrototype (wvmSerializePrototype proto) = proto.written := by
  rw [wvmDeserializePrototype, wvmSerializePrototype]
  simp only [wvmReaderReadString_write]
  exact wvmDeserializeFields_serialize _ _ proto

/-- What a file keeps of an accepted prototype is accepted, unless there is no code. -/
theorem wvmVerifyPrototype_written (name source : Option CString) {proto : WVMPrototype}
    (verified : wvmVerifyPrototype proto = .ok ()) :
    wvmVerifyPrototype { proto.written with name, source } =
      if proto.instrCount = 0 then .error "prototype is missing bytecode" else .ok () := by
  split
  · -- No instructions are read as a NULL array.
    next empty => simp [wvmVerifyPrototype, WVMPrototype.written, empty]
  · next code =>
    have valid := (wvmVerifyPrototype_ok_iff.mp verified).2
    have present : proto.written.instrs = some (wvmArray proto.instrCount proto.instrs) :=
      if_neg code
    refine wvmVerifyPrototype_ok_iff.mpr ⟨by rw [present]; exact Option.some_ne_none _, ?_⟩
    have stored : wvmArray proto.written.instrCount proto.written.instrs =
        wvmArray proto.instrCount proto.instrs := by
      rw [present]
      exact wvmArray_eq (length_wvmArray _ _)
    rw [stored]
    exact valid

/-- The file of an accepted prototype is read as what it keeps, unless there is no code. -/
theorem wvmReadObjectMemory_write {proto : WVMPrototype}
    (verified : wvmVerifyPrototype proto = .ok ()) (timestamp : BitVec 64) :
    wvmReadObjectMemory (wvmFileHeader timestamp ++ wvmSerializePrototype proto) =
      if proto.instrCount = 0 then .error "prototype is missing bytecode"
      else .ok proto.written := by
  have verdict := wvmVerifyPrototype_written proto.written.name proto.written.source verified
  rw [wvmReadObjectMemory_header, wvmDeserializePrototype_serialize]
  rw [show wvmVerifyPrototype proto.written = _ from verdict]
  split <;> rfl

/-- Every count is the length of its array, and a line map has an entry for every instruction. -/
structure WVMPrototype.CountsMatch (proto : WVMPrototype) : Prop where
  instrs : (proto.instrs.getD []).length = proto.instrCount.toNat
  consts : (proto.consts.getD []).length = proto.constCount.toNat
  strs : (proto.strs.getD []).length = proto.strCount.toNat
  upvalIsLocal : (proto.upvalIsLocal.getD []).length = proto.upvalCount.toNat
  upvalIndex : (proto.upvalIndex.getD []).length = proto.upvalCount.toNat
  protos : (proto.protos.getD []).length = proto.protoCount.toNat
  lineMap : ∀ lines, proto.lineMap = some lines → lines.length = proto.instrCount.toNat

/-- Two prototypes that agree in every field, with arrays compared by their contents and nested
prototypes compared in turn. -/
inductive WVMPrototype.Same : WVMPrototype → WVMPrototype → Prop
  | intro {p q : WVMPrototype} (name : p.name = q.name) (source : p.source = q.source)
    (regCount : p.regCount = q.regCount) (paramCount : p.paramCount = q.paramCount)
    (isVararg : p.isVararg = q.isVararg)
    (instrCount : p.instrCount = q.instrCount) (instrs : p.instrs.getD [] = q.instrs.getD [])
    (constCount : p.constCount = q.constCount) (consts : p.consts.getD [] = q.consts.getD [])
    (lineMap : p.lineMap = q.lineMap)
    (strCount : p.strCount = q.strCount) (strs : p.strs.getD [] = q.strs.getD [])
    (upvalCount : p.upvalCount = q.upvalCount)
    (upvalIsLocal : p.upvalIsLocal.getD [] = q.upvalIsLocal.getD [])
    (upvalIndex : p.upvalIndex.getD [] = q.upvalIndex.getD [])
    (protoCount : p.protoCount = q.protoCount)
    (protos : List.Forall₂ Same (p.protos.getD []) (q.protos.getD [])) : Same p q

/-- A prototype survives being written and read back. -/
def ObjectRoundTrips (proto : WVMPrototype) (timestamp : BitVec 64) : Prop :=
  ∃ bytes copy, wvmWriteObjectMemory proto timestamp = .ok bytes ∧
    wvmReadObjectMemory bytes = .ok copy ∧ copy.Same proto

/-- A string survives just when 32 bits hold its length. -/
theorem wvmWrittenString_eq_iff (str : CString) :
    wvmWrittenString (some str) = some str ↔ str.text.length < 2 ^ 32 := by
  have noZero : (0 : Byte) ∉ wvmStringBytes (some str) :=
    fun member => str.noZero (List.mem_of_mem_take member)
  rw [wvmWrittenString, Option.some_inj, CString.ext_iff, text_cString noZero]
  -- The written characters are all of them just when the written length is the whole length.
  show str.text.take (BitVec.ofNat 32 str.text.length).toNat = str.text ↔ _
  rw [List.take_eq_self_iff, BitVec.toNat_ofNat]
  omega

section

variable {proto : WVMPrototype}

/-- An array that the file holds is restored. -/
theorem wvmStoredArray_getD {α : Type} [Inhabited α] {count : BitVec 32} {array : Option (List α)}
    (counted : (array.getD []).length = count.toNat) :
    (if count = 0 then none else some (wvmArray count array)).getD [] = array.getD [] := by
  split
  -- Without a count there is no array, and nothing to restore.
  · next empty =>
    rw [empty] at counted
    exact (List.length_eq_zero_iff.mp counted).symm
  · exact wvmArray_eq counted

/-- A line map that has an entry for every instruction of a nonempty code is restored. -/
theorem wvmStoredLineMap_eq (code : proto.instrCount ≠ 0)
    (counted : ∀ lines, proto.lineMap = some lines → lines.length = proto.instrCount.toNat) :
    proto.written.lineMap = proto.lineMap := by
  show (if proto.lineCount = 0 then none else some (wvmArray proto.lineCount proto.lineMap)) = _
  rw [WVMPrototype.lineCount]
  -- An absent map is restored as absent, and a present one with its entries.
  cases lines : proto.lineMap with
  | none => rfl
  | some entries =>
    have whole : wvmArray proto.instrCount (some entries) = entries :=
      wvmArray_eq (counted entries lines)
    simp only [Option.isNone_some, Bool.false_eq_true, if_false, if_neg code, whole]

/-- A counted array is empty just when its count is zero. -/
theorem getD_eq_nil_iff {α : Type} {count : BitVec 32} {array : Option (List α)}
    (counted : (array.getD []).length = count.toNat) : array.getD [] = [] ↔ count = 0 := by
  rw [← List.length_eq_zero_iff, counted, BitVec.toNat_eq]
  rfl

/-- What the file keeps is the prototype itself just when nothing is left out of it. -/
theorem written_same_iff {name source : CString} (named : proto.name = some name)
    (sourced : proto.source = some source) (counts : proto.CountsMatch)
    (code : proto.instrCount ≠ 0) :
    proto.written.Same proto ↔
      name.text.length < 2 ^ 32 ∧ source.text.length < 2 ^ 32 ∧
        proto.strCount = 0 ∧ proto.upvalCount = 0 ∧ proto.protoCount = 0 := by
  -- The file keeps every other field of a prototype with code.
  have nameKept : proto.written.name = proto.name ↔ name.text.length < 2 ^ 32 := by
    rw [named, ← wvmWrittenString_eq_iff, ← named]
    rfl
  have sourceKept : proto.written.source = proto.source ↔ source.text.length < 2 ^ 32 := by
    rw [sourced, ← wvmWrittenString_eq_iff, ← sourced]
    rfl
  have noStrs := getD_eq_nil_iff counts.strs
  have noProtos := getD_eq_nil_iff counts.protos
  -- Sameness is read field by field.
  constructor
  · intro same
    cases same with
    | intro name source _ _ _ _ _ _ _ _ _ strs upvalCount _ _ _ protos =>
      have nested : proto.protos.getD [] = [] := List.forall₂_nil_left_iff.mp protos
      exact ⟨nameKept.mp name, sourceKept.mp source, noStrs.mp strs.symm, upvalCount.symm,
        noProtos.mp nested⟩
  -- With these fields kept the others are as the file has them.
  · rintro ⟨shortName, shortSource, strCount, upvalCount, protoCount⟩
    have locals := (getD_eq_nil_iff counts.upvalIsLocal).mpr upvalCount
    have indices := (getD_eq_nil_iff counts.upvalIndex).mpr upvalCount
    refine .intro (nameKept.mpr shortName) (sourceKept.mpr shortSource) rfl rfl rfl rfl
      (wvmStoredArray_getD counts.instrs) rfl (wvmStoredArray_getD counts.consts)
      (wvmStoredLineMap_eq code counts.lineMap) rfl (noStrs.mpr strCount).symm upvalCount.symm
      locals.symm indices.symm rfl ?_
    rw [noProtos.mpr protoCount]
    exact .nil

end

/-- The prototypes that survive are those with code, with strings whose lengths fit 32 bits, and
without strings in their pool, upvalues or nested prototypes. -/
theorem objectRoundTrips_iff (proto : WVMPrototype) (timestamp : BitVec 64) (name source : CString)
    (verified : wvmVerifyPrototype proto = .ok ()) (named : proto.name = some name)
    (sourced : proto.source = some source) (counts : proto.CountsMatch) :
    ObjectRoundTrips proto timestamp ↔
      proto.instrCount ≠ 0 ∧ name.text.length < 2 ^ 32 ∧ source.text.length < 2 ^ 32 ∧
        proto.strCount = 0 ∧ proto.upvalCount = 0 ∧ proto.protoCount = 0 := by
  -- Writing succeeds, and what is read then is what the file keeps.
  have written : wvmWriteObjectMemory proto timestamp =
      .ok (wvmFileHeader timestamp ++ wvmSerializePrototype proto) := by
    rw [wvmWriteObjectMemory, verified]
    rfl
  have reads := wvmReadObjectMemory_write verified timestamp
  constructor
  -- The copy is what was read, which is the prototype when nothing was left out.
  · rintro ⟨bytes, copy, write, read, same⟩
    obtain rfl := Except.ok.inj (written.symm.trans write)
    rw [reads] at read
    split at read
    · cases read
    · next code =>
      obtain rfl := Except.ok.inj read
      exact ⟨code, (written_same_iff named sourced counts code).mp same⟩
  · rintro ⟨code, kept⟩
    rw [if_neg code] at reads
    exact ⟨_, _, written, reads, (written_same_iff named sourced counts code).mpr kept⟩

/-- A prototype of one instruction, the given strings in its pool, and nothing else. -/
def wvmNopPrototype (strings : List WVMString) : WVMPrototype where
  name := some (cString [0x66])
  source := some (cString [0x73])
  instrCount := 1
  instrs := some [0]
  constCount := 0
  consts := none
  strCount := BitVec.ofNat 32 strings.length
  strs := some strings
  upvalCount := 0
  upvalIsLocal := none
  upvalIndex := none
  regCount := 1
  paramCount := 0
  isVararg := 0
  protoCount := 0
  protos := none
  lineMap := some [7]

/-- The counts are those of the lists. -/
theorem countsMatch_nop (strings : List WVMString) (few : strings.length < 2 ^ 32) :
    (wvmNopPrototype strings).CountsMatch where
  instrs := rfl
  consts := rfl
  -- The number of strings survives the 32 bits of its field.
  strs := by
    show strings.length = (BitVec.ofNat 32 strings.length).toNat
    rw [BitVec.toNat_ofNat, Nat.mod_eq_of_lt few]
  upvalIsLocal := rfl
  upvalIndex := rfl
  protos := rfl
  lineMap lines present := by
    obtain rfl := Option.some.inj present
    rfl

/-- Without strings it survives. -/
theorem objectRoundTrips_nop : ObjectRoundTrips (wvmNopPrototype []) 0 :=
  (objectRoundTrips_iff (wvmNopPrototype []) 0 (cString [0x66]) (cString [0x73]) rfl rfl rfl
    (countsMatch_nop [] (by decide))).mpr (by decide)

/-- With a string in its pool it comes back with a count of one and no pool. -/
theorem not_objectRoundTrips :
    ¬ ∀ (proto : WVMPrototype) (timestamp : BitVec 64) (name source : CString),
      wvmVerifyPrototype proto = .ok () → proto.name = some name → proto.source = some source →
        proto.CountsMatch → ObjectRoundTrips proto timestamp := by
  intro trips
  have verified : wvmVerifyPrototype (wvmNopPrototype [⟨[0x78]⟩]) = .ok () := rfl
  obtain ⟨bytes, copy, write, read, same⟩ := trips (wvmNopPrototype [⟨[0x78]⟩]) 0 _ _ verified
    rfl rfl (countsMatch_nop _ (by decide))
  have written : wvmWriteObjectMemory (wvmNopPrototype [⟨[0x78]⟩]) 0 =
      .ok (wvmFileHeader 0 ++ wvmSerializePrototype (wvmNopPrototype [⟨[0x78]⟩])) := rfl
  obtain rfl := Except.ok.inj (written.symm.trans write)
  rw [wvmReadObjectMemory_write verified] at read
  obtain rfl := Except.ok.inj read
  -- The restored pool is empty.
  cases same with
  | intro _ _ _ _ _ _ _ _ _ _ _ strs _ _ _ _ _ => cases strs

end RoundTrip

end Wirble
