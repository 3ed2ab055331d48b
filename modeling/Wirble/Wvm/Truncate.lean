import Wirble.Wvm.Object
import Mathlib.Tactic.SplitIfs

/-! What the reader makes of an object file that is cut short. A number past the end reads as zero
and a string past the end as NULL, so that only the verifier can reject such a file. -/

namespace Wirble

open Reader (word words wordAt skips)

/-- The bytes after the strings are rejected when they end before the instruction count, when that
count is zero, or when a complete instruction among them fails its check. -/
def FieldsRejected (bytes : List Byte) : Prop :=
  bytes.length < 10 ∨ (wordAt 4 bytes 6 : BitVec 32) = 0 ∨
    ∃ index < (wordAt 4 bytes 6 : BitVec 32).toNat, 22 + 8 * (index + 1) ≤ bytes.length ∧
      ¬ WVMInstrValid (wordAt 2 bytes 0) (wordAt 4 bytes 10) (wordAt 8 bytes (22 + 8 * index))

instance (bytes : List Byte) : Decidable (FieldsRejected bytes) :=
  inferInstanceAs (Decidable (_ ∨ _ ∨ ∃ index, index < _ ∧ _ ∧ _))

section Fields

variable (name source : Option CString) (bytes : List Byte)

/-- The counts and the code that the verifier looks at. -/
theorem wvmDeserializeFields_regCount :
    (wvmDeserializeFields name source bytes).regCount = (word 2 bytes).1 := rfl

/-- The number of instructions stands after the six bytes of the small fields. -/
theorem wvmDeserializeFields_instrCount :
    (wvmDeserializeFields name source bytes).instrCount =
      (word 4 (skips [2, 2, 1, 1] bytes)).1 := by
  simp only [wvmDeserializeFields, Reader.word_snd, skips, List.foldl]

/-- The number of constants stands after the number of instructions. -/
theorem wvmDeserializeFields_constCount :
    (wvmDeserializeFields name source bytes).constCount =
      (word 4 (skips [2, 2, 1, 1, 4] bytes)).1 := by
  simp only [wvmDeserializeFields, Reader.word_snd, skips, List.foldl]

/-- The instructions stand after the four counts, when there are any. -/
theorem wvmDeserializeFields_instrs
    (code : (wvmDeserializeFields name source bytes).instrCount ≠ 0) :
    (wvmDeserializeFields name source bytes).instrs =
      some (words 8 (wvmDeserializeFields name source bytes).instrCount.toNat
        (skips [2, 2, 1, 1, 4, 4, 4, 4] bytes)).1 := by
  simp only [wvmDeserializeFields] at code ⊢
  rw [if_neg code]
  simp only [Reader.word_snd, skips, List.foldl]

/-- The verifier sees the instructions that were read. -/
theorem wvmVerifyPrototype_fields :
    wvmVerifyPrototype (wvmDeserializeFields name source bytes) = .ok () ↔
      (wvmDeserializeFields name source bytes).instrCount ≠ 0 ∧
        ∀ instr ∈ (words 8 (wvmDeserializeFields name source bytes).instrCount.toNat
            (skips [2, 2, 1, 1, 4, 4, 4, 4] bytes)).1,
          WVMInstrValid (wvmDeserializeFields name source bytes).regCount
            (wvmDeserializeFields name source bytes).constCount instr := by
  have instrs := wvmDeserializeFields_instrs name source bytes
  have none : (wvmDeserializeFields name source bytes).instrCount = 0 →
      (wvmDeserializeFields name source bytes).instrs = none := by
    intro empty
    simp only [wvmDeserializeFields] at empty ⊢
    rw [if_pos empty]
  rw [wvmVerifyPrototype_ok_iff]
  generalize (wvmDeserializeFields name source bytes) = proto at instrs none
  -- The verifier fails on no code, and otherwise reads the words that were stored.
  by_cases empty : proto.instrCount = 0
  · simp [empty, none empty]
  · rw [instrs empty, wvmArray_eq (by rw [Option.getD_some]; exact Reader.length_words _ _)]
    exact ⟨fun both => ⟨empty, both.2⟩, fun both => ⟨Option.some_ne_none _, both.2⟩⟩

/-- Too few bytes give no instruction count. -/
theorem wvmDeserializeFields_short (short : bytes.length < 10) :
    (wvmDeserializeFields name source bytes).instrCount = 0 := by
  rw [wvmDeserializeFields_instrCount, Reader.word_short]
  simp only [skips, List.foldl, Reader.length_scalar]
  split_ifs <;> omega

/-- With enough bytes the counts stand at their offsets. -/
theorem wvmDeserializeFields_counts (long : 10 ≤ bytes.length) :
    (wvmDeserializeFields name source bytes).instrCount = wordAt 4 bytes 6 ∧
      (wvmDeserializeFields name source bytes).regCount = wordAt 2 bytes 0 := by
  constructor
  · rw [wvmDeserializeFields_instrCount, Reader.skips_long (by simp; omega),
      Reader.word_long (by simp; omega), Reader.wordAt_drop]
    rfl
  · rw [wvmDeserializeFields_regCount, Reader.word_long (by omega)]

/-- The fields of a prototype are rejected just as their bytes are. -/
theorem fieldsRejected_iff :
    wvmVerifyPrototype (wvmDeserializeFields name source bytes) ≠ .ok () ↔
      FieldsRejected bytes := by
  rw [Ne, wvmVerifyPrototype_fields]
  by_cases short : bytes.length < 10
  · simp [FieldsRejected, short, wvmDeserializeFields_short name source bytes short]
  · obtain ⟨counts, regs⟩ := wvmDeserializeFields_counts name source bytes (by omega)
    rw [counts, regs]
    by_cases room : 22 ≤ bytes.length
    · -- All counts are there, and the instructions follow them.
      have consts : (wvmDeserializeFields name source bytes).constCount = wordAt 4 bytes 10 := by
        rw [wvmDeserializeFields_constCount, Reader.skips_long (by simp; omega),
          Reader.word_long (by simp; omega), Reader.wordAt_drop]
        rfl
      have tail : skips [2, 2, 1, 1, 4, 4, 4, 4] bytes = bytes.drop 22 := by
        rw [Reader.skips_long (by simpa using room)]
        rfl
      rw [consts, tail, Reader.forall_words_iff (wvmInstrValid_zero _ _)]
      simp only [Reader.wordAt_drop, List.length_drop]
      -- What is rejected has no code or an invalid instruction among the complete ones.
      constructor
      · intro rejected
        by_cases empty : (wordAt 4 bytes 6 : BitVec 32) = 0
        · exact .inr (.inl empty)
        · refine .inr (.inr ?_)
          by_contra allValid
          refine rejected ⟨empty, fun index inside complete => ?_⟩
          by_contra invalid
          exact allValid ⟨index, inside, by omega, invalid⟩
      · rintro (few | empty | ⟨index, inside, complete, invalid⟩) ⟨code, valid⟩
        · exact short few
        · exact code empty
        · exact invalid (valid index inside (by omega))
    · -- No instruction is complete, so that all of them are read as zero.
      have few : (skips [2, 2, 1, 1, 4, 4, 4, 4] bytes).length < 8 := by
        have step (rest : List Byte) (limit : Nat) (wide : 4 ≤ limit)
            (bound : rest.length < limit + 4) : (Reader.scalar 4 rest).2.length < limit := by
          rw [Reader.length_scalar]
          split <;> omega
        have left : (skips [2, 2, 1, 1] bytes).length < 16 := by
          rw [Reader.skips_long (by simp; omega), List.length_drop]
          simp
          omega
        -- Each count that is read takes four of the bytes, until fewer are left.
        have second := step _ 12 (by omega) left
        have third := step _ 8 (by omega) second
        have fourth := step _ 4 (by omega) third
        exact (step _ 4 (by omega) (fourth.trans (by omega))).trans (by omega)
      -- Missing words are read as zero, which every instruction check passes.
      rw [Reader.words_short few]
      constructor
      · intro rejected
        by_contra kept
        refine rejected ⟨fun empty => kept (.inr (.inl empty)), fun instr member => ?_⟩
        rw [List.eq_of_mem_replicate member]
        exact wvmInstrValid_zero _ _
      · rintro (few | empty | ⟨index, inside, complete, invalid⟩) ⟨code, -⟩
        · exact short few
        · exact code empty
        · omega

end Fields

section Cuts

/-- The bytes that are left of cut name characters when their first four bytes have been read as
the length of the source. -/
def afterSource (bytes : List Byte) : List Byte :=
  if bytes.length < 4 then bytes
  else if (wordAt 4 bytes 0 : BitVec 32).toNat ≤ bytes.length - 4 then
    bytes.drop (4 + (wordAt 4 bytes 0 : BitVec 32).toNat)
  else bytes.drop 4

/-- The files cut to a length that are rejected: those that end in the header, in the length of a
string, before the code or in a string whose remaining characters are rejected as fields, and those
without code. -/
def TruncationRejected (proto : WVMPrototype) (length : Nat) : Prop :=
  let name := wvmStringBytes proto.name
  let source := wvmStringBytes proto.source
  if length < 60 then True
  else if length < 60 + name.length then FieldsRejected (afterSource (name.take (length - 60)))
  else if length < 64 + name.length then True
  else if length < 64 + name.length + source.length then
    FieldsRejected (source.take (length - 64 - name.length))
  else length < 74 + name.length + source.length ∨ proto.instrCount = 0

instance (proto : WVMPrototype) (length : Nat) : Decidable (TruncationRejected proto length) := by
  unfold TruncationRejected
  infer_instance

/-- A string whose length is cut is empty. -/
theorem wvmReaderReadString_short {bytes : List Byte} (short : bytes.length < 4) :
    wvmReaderReadString bytes = (some (cString []), bytes) := by
  rw [wvmReaderReadString, Reader.word_short short]
  simp

/-- What is left after reading a string of any bytes. -/
theorem wvmReaderReadString_left (bytes : List Byte) :
    (wvmReaderReadString bytes).2 = afterSource bytes := by
  rw [afterSource]
  by_cases short : bytes.length < 4
  · rw [if_pos short, wvmReaderReadString_short short]
  -- A length that is there is followed by as many bytes as are left.
  · rw [if_neg short, wvmReaderReadString, Reader.word_long (by omega), List.length_drop]
    split
    · exact List.drop_drop
    · rfl

/-- A string whose characters are cut is NULL. -/
theorem wvmReaderReadString_cut (str : Option CString) {kept : Nat}
    (cut : kept < (wvmStringBytes str).length) :
    wvmReaderReadString (wvmBufferWrite 4 (wvmStringLength str) ++ (wvmStringBytes str).take kept) =
      (none, (wvmStringBytes str).take kept) := by
  rw [wvmReaderReadString, wvmBufferWrite, Reader.word_encode (by decide)]
  -- Fewer bytes are left than the length asks for.
  refine if_neg ?_
  rw [List.length_take, ← length_wvmStringBytes]
  omega

variable {proto : WVMPrototype}

/-- The fixed fields take 22 bytes, whatever the lists hold. -/
theorem length_wvmSerializeFields_le (proto : WVMPrototype) :
    22 ≤ (wvmSerializeFields proto).length := by
  simp only [wvmSerializeFields, List.length_append, length_wvmBufferWrite]
  omega

/-- The fields of an accepted prototype are rejected when they are cut before the end of the
instruction count, and when there is no code. -/
theorem fieldsRejected_take_iff (verified : wvmVerifyPrototype proto = .ok ()) (kept : Nat) :
    FieldsRejected ((wvmSerializeFields proto).take kept) ↔ kept < 10 ∨ proto.instrCount = 0 := by
  have size := length_wvmSerializeFields_le proto
  -- The fields of the whole file are rejected only if there is no code.
  have whole : FieldsRejected (wvmSerializeFields proto) ↔ proto.instrCount = 0 := by
    rw [← fieldsRejected_iff none none, wvmDeserializeFields_serialize,
      wvmVerifyPrototype_written none none verified]
    split
    · next empty => exact iff_of_true nofun empty
    · next code => exact iff_of_false (fun differs => differs rfl) code
  -- The tenth byte ends the count of the instructions.
  have count : (wordAt 4 (wvmSerializeFields proto) 6 : BitVec 32) = proto.instrCount := by
    have counts := (wvmDeserializeFields_counts none none (wvmSerializeFields proto) (by omega)).1
    rw [wvmDeserializeFields_serialize] at counts
    exact counts.symm
  by_cases short : kept < 10
  · refine ⟨fun _ => .inl short, fun _ => .inl ?_⟩
    rw [List.length_take]
    omega
  · constructor
    · -- A cut file has only instructions of the whole file.
      intro rejected
      refine .inr (whole.mp ?_)
      simp only [FieldsRejected, List.length_take] at rejected
      rw [Reader.wordAt_take (by omega)] at rejected
      rcases rejected with few | empty | ⟨index, inside, complete, invalid⟩
      · omega
      · exact .inr (.inl empty)
      · refine .inr (.inr ⟨index, inside, by omega, ?_⟩)
        rwa [Reader.wordAt_take (by omega), Reader.wordAt_take (by omega),
          Reader.wordAt_take (by omega)] at invalid
    -- Whatever made the whole fail makes the cut fields fail.
    · rintro (few | empty)
      · exact absurd few short
      · refine .inr (.inl ?_)
        rw [Reader.wordAt_take (by omega), count, empty]

/-- A cut behind the first of two parts cuts the second one. -/
theorem take_append_right {α : Type} {front back : List α} {kept : Nat}
    (behind : front.length ≤ kept) :
    (front ++ back).take kept = front ++ back.take (kept - front.length) := by
  rw [List.take_append, List.take_of_length_le behind]

/-- What is read of a file cut behind its header is what is read of the cut fields. -/
theorem wvmDeserializePrototype_cut (verified : wvmVerifyPrototype proto = .ok ()) (kept : Nat) :
    wvmVerifyPrototype (wvmDeserializePrototype ((wvmSerializePrototype proto).take kept)) ≠
      .ok () ↔ TruncationRejected proto (56 + kept) := by
  -- The cut lies in a length, in the characters of a string, or behind both strings.
  have lenSize (str : Option CString) : (wvmBufferWrite 4 (wvmStringLength str)).length = 4 :=
    length_wvmBufferWrite _ _
  have whole (str : Option CString) (rest : List Byte) :
      wvmReaderReadString (wvmBufferWrite 4 (wvmStringLength str) ++ (wvmStringBytes str ++ rest)) =
        (wvmWrittenString str, rest) := by
    rw [← List.append_assoc]
    exact wvmReaderReadString_write str rest
  have parts : wvmSerializePrototype proto =
      wvmBufferWrite 4 (wvmStringLength proto.name) ++ (wvmStringBytes proto.name ++
        (wvmBufferWrite 4 (wvmStringLength proto.source) ++ (wvmStringBytes proto.source ++
          wvmSerializeFields proto))) := by
    simp only [wvmSerializePrototype, wvmBufferWriteString, List.append_assoc]
  -- The three places of the cut are told apart by the definition.
  rw [wvmDeserializePrototype, fieldsRejected_iff, TruncationRejected, parts]
  split
  · -- Both lengths are zero, and too few bytes are left for the fields.
    next inLength =>
    have short (rest : List Byte) : (rest.take kept).length < 4 := by
      rw [List.length_take]
      omega
    rw [wvmReaderReadString_short (short _), wvmReaderReadString_short (short _)]
    exact iff_of_true (.inl ((short _).trans (by omega))) trivial
  next behindLength =>
  rw [take_append_right (by rw [lenSize]; omega), lenSize]
  split
  · -- The name is NULL, and the source is read from its characters.
    next inName =>
    rw [List.take_append_of_le_length (by omega), wvmReaderReadString_cut _ (by omega),
      wvmReaderReadString_left, show 56 + kept - 60 = kept - 4 by omega]
  next behindName =>
  rw [take_append_right (by omega), whole]
  split
  · -- The source is empty, and too few bytes are left for the fields.
    next inLength =>
    have short (rest : List Byte) :
        (rest.take (kept - 4 - (wvmStringBytes proto.name).length)).length < 4 := by
      rw [List.length_take]
      omega
    rw [wvmReaderReadString_short (short _)]
    exact iff_of_true (.inl ((short _).trans (by omega))) trivial
  next behindLength =>
  rw [take_append_right (by rw [lenSize]; omega), lenSize]
  split
  · -- The source is NULL, and the fields are read from its characters.
    next inSource =>
    rw [List.take_append_of_le_length (by omega), wvmReaderReadString_cut _ (by omega),
      show 56 + kept - 64 - (wvmStringBytes proto.name).length =
        kept - 4 - (wvmStringBytes proto.name).length - 4 by omega]
  · -- Both strings are whole.
    next behindSource =>
    rw [take_append_right (by omega), whole, fieldsRejected_take_iff verified]
    refine or_congr_left ?_
    omega

end Cuts

/-- A file cut short is rejected precisely where the cut ends it too early for any code, leaves
rejected fields in a string, or where the file has no code. -/
theorem wvmReadObjectMemory_truncated_iff (proto : WVMPrototype) (timestamp : BitVec 64)
    (bytes : List Byte) (length : Nat) (write : wvmWriteObjectMemory proto timestamp = .ok bytes) :
    (∃ text, wvmReadObjectMemory (bytes.take length) = .error text) ↔
      TruncationRejected proto length := by
  obtain ⟨verified, rfl⟩ : wvmVerifyPrototype proto = .ok () ∧
      wvmFileHeader timestamp ++ wvmSerializePrototype proto = bytes := by
    rw [wvmWriteObjectMemory, except_check] at write
    cases verdict : wvmVerifyPrototype proto with
    | error text => rw [verdict] at write; cases write
    | ok _ => rw [verdict] at write; exact ⟨rfl, Except.ok.inj write⟩
  by_cases inHeader : length < 56
  · -- The header itself is cut.
    have small : ((wvmFileHeader timestamp ++
        wvmSerializePrototype proto).take length).length < 56 := by
      rw [List.length_take]
      omega
    refine iff_of_true ⟨"bytecode buffer is too small", if_pos small⟩ ?_
    rw [TruncationRejected, if_pos (by omega)]
    trivial
  -- Otherwise only the part behind the header is cut.
  · have header := length_wvmFileHeader timestamp
    rw [take_append_right (by omega), header, wvmReadObjectMemory_header]
    have cut := wvmDeserializePrototype_cut verified (length - 56)
    rw [show 56 + (length - 56) = length by omega] at cut
    rw [← cut]
    cases wvmVerifyPrototype
        (wvmDeserializePrototype ((wvmSerializePrototype proto).take (length - 56))) with
    -- Both sides say that the verifier failed or passed.
    | error text => exact iff_of_true ⟨text, rfl⟩ (fun same => by cases same)
    | ok _ =>
      refine iff_of_false ?_ (fun differs => differs rfl)
      rintro ⟨text, failed⟩
      cases failed

/-- Cut in the instruction count it is rejected. -/
theorem wvmReadObjectMemory_truncated_nop :
    ∃ text, wvmReadObjectMemory ((wvmFileHeader 0 ++
      wvmSerializePrototype (wvmNopPrototype [])).take 75) = .error text :=
  (wvmReadObjectMemory_truncated_iff (wvmNopPrototype []) 0 _ 75 rfl).mpr (by decide)

/-- Cut behind the instruction count it is read as a file of one instruction. -/
theorem wvmReadObjectMemory_not_truncated :
    ¬ ∀ (proto : WVMPrototype) (timestamp : BitVec 64) (bytes : List Byte) (length : Nat),
      wvmWriteObjectMemory proto timestamp = .ok bytes → length < bytes.length →
        ∃ text, wvmReadObjectMemory (bytes.take length) = .error text := by
  intro rejected
  -- At 76 bytes the count of instructions is there, and the one instruction is read as zeros.
  obtain ⟨text, read⟩ := rejected (wvmNopPrototype []) 0 _ 76 rfl (by decide)
  have accepted : (wvmReadObjectMemory ((wvmFileHeader 0 ++
      wvmSerializePrototype (wvmNopPrototype [])).take 76)).isOk = true := by decide
  rw [read] at accepted
  cases accepted

end Wirble
