import Wirble.Library.Doubling
import Wirble.Wrs.PatternText
import Wirble.Wvm.Runtime

/-! The listing of the bytecode of a prototype, and what it tells about executing it. -/

namespace Wirble

open Decimal

/-- The table of names. -/
def wvmOpcodeNames : WVMOpcode → String
  | .nop => "nop" | .halt => "halt" | .return => "return" | .call => "call"
  | .tailcall => "tailcall" | .jump => "jump" | .jumpIfTrue => "jump_if_true"
  | .jumpIfFalse => "jump_if_false" | .move => "move" | .loadConst => "load_const"
  | .loadImm => "load_imm" | .loadNil => "load_nil" | .loadTrue => "load_true"
  | .loadFalse => "load_false" | .add => "add" | .sub => "sub" | .mul => "mul" | .div => "div"
  | .mod => "mod" | .neg => "neg" | .inc => "inc" | .dec => "dec" | .and => "and" | .or => "or"
  | .xor => "xor" | .not => "not" | .shl => "shl" | .shr => "shr" | .eq => "eq" | .ne => "ne"
  | .lt => "lt" | .le => "le" | .gt => "gt" | .ge => "ge" | .loadGlobal => "load_global"
  | .storeGlobal => "store_global" | .loadUpval => "load_upval" | .storeUpval => "store_upval"
  | .loadField => "load_field" | .storeField => "store_field" | .newTable => "new_table"
  | .getIndex => "get_index" | .setIndex => "set_index" | .getLen => "get_len"
  | .closure => "closure" | .guardType => "guard_type" | .guardTrue => "guard_true"
  | .guardFalse => "guard_false" | .guardNotNil => "guard_not_nil" | .guardClass => "guard_class"
  | .guardRange => "guard_range" | .guardResource => "guard_resource" | .push => "push"
  | .pop => "pop" | .toInt => "to_int" | .toFloat => "to_float" | .toString => "to_string"
  | .toBool => "to_bool"

def wvmOpcodeName (op : Nat) : String := (wvmOpcodes[op]?.map wvmOpcodeNames).getD "unknown"

/-- The conversion `r%u`. -/
def registerText (reg : BitVec 16) : List Char := 'r' :: Nat.toDigits 10 reg.toNat

/-- `snprintf` into so many bytes, of which the last one is the terminator. -/
def snprintf (size : Nat) (text : List Char) : List Char := text.take (size - 1)

/-- What the format of an encoding has behind the name. -/
def wvmOperandsText (instr : BitVec 64) : List Char :=
  let ra := registerText (wvmDecodeRA instr)
  match wvmGetEncoding (wvmDecodeOp instr) with
  | .op => []
  | .opR => ' ' :: ra
  | .opRr => ' ' :: (ra ++ ',' :: ' ' :: registerText (wvmDecodeRB instr))
  | .opRrr =>
    ' ' :: (ra ++ ',' :: ' ' :: (registerText (wvmDecodeRB instr) ++
      ',' :: ' ' :: registerText (wvmDecodeRC instr)))
  | .opRImm32 => ' ' :: (ra ++ ',' :: ' ' :: decimalText (wvmDecodeImm32 instr).toInt)
  | .opRConst =>
    ' ' :: (ra ++ ',' :: ' ' :: 'k' :: Nat.toDigits 10 (wvmDecodeConst instr).toNat)
  | .opJump => ' ' :: decimalText (wvmDecodeJump instr).toInt
  | .opRJump => ' ' :: (ra ++ ',' :: ' ' :: decimalText (wvmDecodeRJump instr).toInt)
  | _ => [' ', '?']

/-- The formatted instruction. -/
def wvmInstrText (instr : BitVec 64) : List Char :=
  (wvmOpcodeName (wvmDecodeOp instr)).toList ++ wvmOperandsText instr

def wvmDisassembleInstr (instr : BitVec 64) : List Char := snprintf 128 (wvmInstrText instr)

/-- The conversion `%04u`. -/
def paddedText (index : Nat) : List Char :=
  List.replicate (4 - (Nat.toDigits 10 index).length) '0' ++ Nat.toDigits 10 index

/-- The text so far, with the length that is counted for it and the capacity of its block. -/
structure WVMListing where
  text : List Char
  len : Nat
  cap : BitVec 64

section Loop

-- Which sizes of a block are granted, and a bound on the doublings that is not in the source.
variable (granted : BitVec 64 → Bool) (rounds : Nat)

/-- The block is grown until a line fits, which is nothing where memory is refused. -/
def wvmListingGrow (listing : WVMListing) (needed : BitVec 64) : Option (Option (BitVec 64)) :=
  if needed > listing.cap then
    (Doubling.loop rounds listing.cap needed).map fun cap => if granted cap then some cap else none
  else some (some listing.cap)

/-- The loop over the instructions from an index on. -/
def wvmDisassembleFrom : Nat → List (BitVec 64) → WVMListing → Option (Option (List Char))
  | _, [], listing => some (some listing.text)
  | index, instr :: rest, listing =>
    let line := wvmDisassembleInstr instr
    match wvmListingGrow granted rounds listing
      (BitVec.ofNat 64 (listing.len + line.length + 32)) with
    | none => none
    | some none => some none
    | some (some cap) =>
      let whole := paddedText index ++ ' ' :: ' ' :: (line ++ ['\n'])
      wvmDisassembleFrom (index + 1) rest
        { text := listing.text.take listing.len ++ snprintf (cap.toNat - listing.len) whole
          len := listing.len + whole.length
          cap := cap }

/-- The listing of a prototype, which is null where memory is refused. -/
def wvmDisassemble (proto : Option WVMPrototype) : Option (Option (List Char)) :=
  match proto with
  | none => some (some "<null prototype>".toList)
  | some proto =>
    if granted 128 then
      wvmDisassembleFrom granted rounds 0 (wvmArray proto.instrCount proto.instrs) ⟨[], 0, 128⟩
    else some none

end Loop

section Texts

/-- Names have few letters, and no character of a format. -/
theorem wvmOpcodeName_plain (op : Nat) :
    (∀ char ∈ (wvmOpcodeName op).toList, char ≠ ' ' ∧ char ≠ '\n') ∧
      (wvmOpcodeName op).toList.length ≤ 14 := by
  -- The names are compared with the format one by one.
  have each : ∀ name ∈ "unknown" :: wvmOpcodes.map wvmOpcodeNames,
      Listing.isWord name.toList = true ∧ name.toList.length ≤ 14 := by decide +kernel
  have listed : wvmOpcodeName op ∈ "unknown" :: wvmOpcodes.map wvmOpcodeNames := by
    cases found : wvmOpcodes[op]? with
    | none =>
      rw [wvmOpcodeName, found]
      exact List.mem_cons_self
    | some opcode =>
      rw [wvmOpcodeName, found]
      exact List.mem_cons_of_mem _ (List.mem_map_of_mem (List.mem_of_getElem? found))
  obtain ⟨word, short⟩ := each _ listed
  exact ⟨Listing.forall_of_isWord word, short⟩

/-- Different opcodes have different names, and so have the numbers that are none. -/
theorem wvmOpcodeName_inj {op op' : Nat} (same : wvmOpcodeName op = wvmOpcodeName op') :
    wvmOpcodes[op]? = wvmOpcodes[op']? := by
  -- The names are told apart one by one.
  have names : ∀ opcode ∈ none :: wvmOpcodes.map some, ∀ opcode' ∈ none :: wvmOpcodes.map some,
      (opcode.map wvmOpcodeNames).getD "unknown" = (opcode'.map wvmOpcodeNames).getD "unknown" →
        opcode = opcode' := by decide +kernel
  have listed : ∀ op : Nat, wvmOpcodes[op]? ∈ none :: wvmOpcodes.map some := by
    intro op
    cases found : wvmOpcodes[op]? with
    | none => exact List.mem_cons_self
    | some opcode =>
      exact List.mem_cons_of_mem _ (List.mem_map_of_mem (List.mem_of_getElem? found))
  exact names _ (listed op) _ (listed op') same

/-- The text stays on its line, and has no more than so many characters. -/
structure OnLine (bound : Nat) (text : List Char) : Prop where
  plain : ∀ char ∈ text, char ≠ '\n'
  short : text.length ≤ bound

namespace OnLine

/-- No text is on a line of no length. -/
theorem nil : OnLine 0 [] := ⟨fun _ member => absurd member List.not_mem_nil, Nat.le_refl 0⟩

/-- A character that is no line end makes the bound longer by one. -/
theorem cons {bound : Nat} {text : List Char} (line : OnLine bound text) {char : Char}
    (other : char ≠ '\n') : OnLine (bound + 1) (char :: text) :=
  ⟨List.forall_mem_cons.mpr ⟨other, line.plain⟩, Nat.succ_le_succ line.short⟩

/-- Texts on one line join on one line. -/
theorem append {bound bound' : Nat} {text text' : List Char} (first : OnLine bound text)
    (second : OnLine bound' text') : OnLine (bound + bound') (text ++ text') := by
  refine ⟨List.forall_mem_append.mpr ⟨first.plain, second.plain⟩, ?_⟩
  rw [List.length_append]
  exact Nat.add_le_add first.short second.short

/-- A line within a bound is within a greater one. -/
theorem mono {bound bound' : Nat} {text : List Char} (line : OnLine bound text)
    (more : bound ≤ bound') : OnLine bound' text :=
  ⟨line.plain, Nat.le_trans line.short more⟩

/-- The digits of a number below a power of ten. -/
theorem digits {number count : Nat} (some : 0 < count) (small : number < 10 ^ count) :
    OnLine count (Nat.toDigits 10 number) :=
  ⟨fun char member => (Listing.isDigit_ne (Listing.isDigit_toDigits _ char member)).2.2,
    Listing.length_toDigits_le some small⟩

/-- The text of a register takes six characters at most. -/
theorem register (reg : BitVec 16) : OnLine 6 (registerText reg) :=
  (digits (by decide) (Nat.lt_trans reg.isLt (by decide))).cons (by decide)

/-- The text of a 32-bit integer takes eleven characters at most. -/
theorem decimal (value : BitVec 32) : OnLine 11 (decimalText value.toInt) := by
  -- A signed 32-bit number has ten digits at most, and perhaps a sign.
  have low := BitVec.le_toInt value
  have high := @BitVec.toInt_lt 32 value
  have absolute : OnLine 10 (Nat.toDigits 10 value.toInt.natAbs) :=
    digits (by decide) (by omega)
  rw [decimalText]
  split
  · exact absolute.cons (by decide)
  · exact absolute.mono (by decide)

end OnLine

/-- The operands stay on the line, and are short. -/
theorem wvmOperandsText_onLine (instr : BitVec 64) : OnLine 23 (wvmOperandsText instr) := by
  have ra := OnLine.register (wvmDecodeRA instr)
  have rb := OnLine.register (wvmDecodeRB instr)
  have rc := OnLine.register (wvmDecodeRC instr)
  have const : OnLine 10 (Nat.toDigits 10 (wvmDecodeConst instr).toNat) :=
    .digits (by decide) (Nat.lt_trans (wvmDecodeConst instr).isLt (by decide))
  have comma : ',' ≠ '\n' := by decide
  have space : ' ' ≠ '\n' := by decide
  have next : ∀ {bound text}, OnLine bound text → OnLine (bound + 2) (',' :: ' ' :: text) :=
    fun line => (line.cons space).cons comma
  rw [wvmOperandsText]
  -- Every format has plain texts with separators between them.
  split
  · exact OnLine.nil.mono (by decide)
  · exact (ra.cons space).mono (by decide)
  · exact ((ra.append (next rb)).cons space).mono (by decide)
  · exact ((ra.append (next (rb.append (next rc)))).cons space).mono (by decide)
  · exact ((ra.append (next (.decimal _))).cons space).mono (by decide)
  · exact ((ra.append (next (const.cons (by decide)))).cons space).mono (by decide)
  · exact ((OnLine.decimal _).cons space).mono (by decide)
  · exact ((ra.append (next (.decimal _))).cons space).mono (by decide)
  · exact ((OnLine.nil.cons (by decide)).cons space).mono (by decide)

/-- The text of an instruction takes 37 characters at most. -/
theorem wvmInstrText_onLine (instr : BitVec 64) : OnLine 37 (wvmInstrText instr) := by
  obtain ⟨plain, short⟩ := wvmOpcodeName_plain (wvmDecodeOp instr)
  have name : OnLine 14 (wvmOpcodeName (wvmDecodeOp instr)).toList :=
    ⟨fun char member => (plain char member).2, short⟩
  exact name.append (wvmOperandsText_onLine instr)

/-- No formatted instruction is cut off. -/
theorem wvmDisassembleInstr_eq (instr : BitVec 64) :
    wvmDisassembleInstr instr = wvmInstrText instr :=
  List.take_of_length_le (Nat.le_trans (wvmInstrText_onLine instr).short (by decide))

/-- The text of an index takes thirteen characters at most. -/
theorem paddedText_onLine {index : Nat} (small : index < 2 ^ 32) :
    OnLine 13 (paddedText index) := by
  -- At most three zeros stand before the digits.
  have zeros : OnLine 3 (List.replicate (4 - (Nat.toDigits 10 index).length) '0') := by
    refine ⟨fun char member => ?_, ?_⟩
    · rw [(List.mem_replicate.mp member).2]
      decide
    · have some := @Nat.length_toDigits_pos 10 index
      rw [List.length_replicate]
      omega
  -- Numbers of 32 bits have at most ten digits.
  have number : OnLine 10 (Nat.toDigits 10 index) :=
    .digits (by decide) (Nat.lt_trans small (by decide))
  exact zeros.append number

end Texts

/-- The lines of instructions from an index on. -/
def wvmListedLines : Nat → List (BitVec 64) → List (List Char)
  | _, [] => []
  | index, instr :: rest =>
    (paddedText index ++ ' ' :: ' ' :: wvmInstrText instr) :: wvmListedLines (index + 1) rest

section Listed

variable {granted : BitVec 64 → Bool} {rounds : Nat}

/-- No listed line has a line end in it. -/
theorem wvmListedLines_plain {index : Nat} {instrs : List (BitVec 64)}
    (few : index + instrs.length ≤ 2 ^ 32) :
    ∀ line ∈ wvmListedLines index instrs, '\n' ∉ line := by
  induction instrs generalizing index with
  | nil => exact fun _ member => absurd member List.not_mem_nil
  | cons instr rest ih =>
    rw [List.length_cons] at few
    have space : ' ' ≠ '\n' := by decide
    -- The line is the index and the text of the instruction.
    have line := (paddedText_onLine (show index < 2 ^ 32 by omega)).append
      (((wvmInstrText_onLine instr).cons space).cons space)
    exact List.forall_mem_cons.mpr ⟨fun inside => line.plain _ inside rfl, ih (by omega)⟩

/-- A block that is grown has the size that is needed. -/
theorem wvmListingGrow_enough {listing : WVMListing} {needed cap : BitVec 64}
    (grown : wvmListingGrow granted rounds listing needed = some (some cap)) : needed ≤ cap := by
  rw [wvmListingGrow] at grown
  split at grown
  -- The doubling loop ends at a sufficient size, and otherwise the block was large enough.
  · obtain ⟨final, ended, kept⟩ := Option.map_eq_some_iff.mp grown
    obtain ⟨count, -, first, rfl⟩ := Doubling.loop_eq_some.mp ended
    split at kept
    · obtain rfl := Option.some.inj kept
      exact first.1
    · cases kept
  · obtain rfl := Option.some.inj (Option.some.inj grown)
    exact BitVec.not_lt.mp (by assumption)

/-- Where the listing is all of the text, and short enough for the lines so far. -/
structure WVMListing.Whole (listing : WVMListing) (index : Nat) : Prop where
  length : listing.text.length = listing.len
  short : listing.len ≤ 53 * index
  some : listing.cap ≠ 0

/-- One round adds the whole line of its instruction. -/
theorem WVMListing.Whole.round {listing : WVMListing} {index : Nat} (whole : listing.Whole index)
    (small : index < 2 ^ 32) (instr : BitVec 64) {cap : BitVec 64}
    (enough : BitVec.ofNat 64 (listing.len + (wvmDisassembleInstr instr).length + 32) ≤ cap) :
    let line := paddedText index ++ ' ' :: ' ' :: (wvmDisassembleInstr instr ++ ['\n'])
    let text := listing.text.take listing.len ++ snprintf (cap.toNat - listing.len) line
    text = listing.text ++ line ∧ WVMListing.Whole ⟨text, listing.len + line.length, cap⟩ (index + 1) := by
  have padded := (paddedText_onLine small).short
  have body := (wvmInstrText_onLine instr).short
  have short := whole.short
  rw [wvmDisassembleInstr_eq] at enough ⊢
  rw [BitVec.le_def, BitVec.toNat_ofNat, Nat.mod_eq_of_lt (by omega)] at enough
  intro line text
  have count : line.length = (paddedText index).length + (wvmInstrText instr).length + 3 := by
    simp [line]
    omega
  -- The block was grown for the line and 32 bytes more, so nothing of it is cut off.
  have fits : snprintf (cap.toNat - listing.len) line = line :=
    List.take_of_length_le (by omega)
  -- The earlier text is whole, so the line comes right behind it.
  have all : text = listing.text ++ line := by
    show listing.text.take listing.len ++ _ = _
    rw [fits, ← whole.length, List.take_length]
  refine ⟨all, ?_, ?_, ?_⟩
  · show text.length = _
    rw [all, List.length_append, whole.length]
  · show listing.len + line.length ≤ _
    omega
  · rintro rfl
    simp at enough

/-- A listing that is returned has every line in full. -/
theorem wvmDisassembleFrom_lines {instrs : List (BitVec 64)} {index : Nat} {listing : WVMListing}
    (whole : listing.Whole index) (few : index + instrs.length ≤ 2 ^ 32) {text : List Char}
    (printed : wvmDisassembleFrom granted rounds index instrs listing = some (some text)) :
    text = listing.text ++ Listing.lines '\n' (wvmListedLines index instrs) := by
  -- Induction on the instructions, where the text is never cut off.
  induction instrs generalizing index listing with
  | nil =>
    rw [wvmDisassembleFrom] at printed
    cases printed
    exact (List.append_nil _).symm
  | cons instr rest ih =>
    rw [List.length_cons] at few
    rw [wvmDisassembleFrom] at printed
    dsimp only at printed
    split at printed
    · cases printed
    · cases printed
    · rename_i cap grown
      -- The buffer has grown, so the next line is written in full.
      obtain ⟨all, next⟩ := whole.round (by omega) instr (wvmListingGrow_enough grown)
      have later := ih next (by omega) printed
      dsimp only at later
      rw [later, all, wvmDisassembleInstr_eq]
      simp [wvmListedLines, Listing.lines]

/-- The listing is never refused where memory is granted. -/
theorem wvmDisassembleFrom_isSome (more : 64 < rounds) {instrs : List (BitVec 64)} {index : Nat}
    {listing : WVMListing} (whole : listing.Whole index) (few : index + instrs.length ≤ 2 ^ 32) :
    ∃ text, wvmDisassembleFrom (fun _ => true) rounds index instrs listing = some (some text) := by
  induction instrs generalizing index listing with
  | nil => exact ⟨_, rfl⟩
  | cons instr rest ih =>
    rw [List.length_cons] at few
    have short := whole.short
    have body := (wvmInstrText_onLine instr).short
    rw [← wvmDisassembleInstr_eq] at body
    obtain ⟨cap, grown⟩ : ∃ cap, wvmListingGrow (fun _ => true) rounds listing
        (BitVec.ofNat 64 (listing.len + (wvmDisassembleInstr instr).length + 32)) =
          some (some cap) := by
      rw [wvmListingGrow]
      split
      -- Half of the largest size is enough, so the doubling reaches it.
      · have reaches := Doubling.reaches_of_half whole.some
          (show 2 * (BitVec.ofNat 64 (listing.len + (wvmDisassembleInstr instr).length + 32)).toNat ≤
            2 ^ 64 by rw [BitVec.toNat_ofNat, Nat.mod_eq_of_lt (by omega)]; omega)
        obtain ⟨count, first⟩ := reaches.exists_first
        obtain ⟨few', inside, enough⟩ := Doubling.reaches_iff.mp reaches
        -- The first sufficient size is reached in as many rounds at most.
        have least : count ≤ few' := by
          by_contra later
          exact BitVec.not_lt.mpr enough (first.2 few' (by omega))
        exact ⟨_, congrArg (Option.map _)
          (Doubling.loop_eq_some.mpr ⟨count, by omega, first, rfl⟩)⟩
      · exact ⟨_, rfl⟩
    -- The round leaves a whole listing for the rest.
    obtain ⟨-, next⟩ := whole.round (by omega) instr (wvmListingGrow_enough grown)
    rw [wvmDisassembleFrom]
    simp only [grown]
    exact ih next (by omega)

/-- Whatever the allocator does, a listing that is returned has all lines. -/
theorem wvmDisassemble_lines {proto : WVMPrototype} {text : List Char}
    (printed : wvmDisassemble granted rounds (some proto) = some (some text)) :
    text = Listing.lines '\n' (wvmListedLines 0 (wvmArray proto.instrCount proto.instrs)) := by
  rw [wvmDisassemble] at printed
  split at printed
  · refine wvmDisassembleFrom_lines ⟨rfl, Nat.le_refl _, by decide⟩ ?_ printed
    rw [length_wvmArray, Nat.zero_add]
    exact Nat.le_of_lt proto.instrCount.isLt
  · cases printed

end Listed

/-! What a line tells. -/

/-- The fields that the format of an encoding shows are the same. -/
def WVMSameFields (x y : BitVec 64) : WVMEncodingType → Prop
  | .opR => wvmDecodeRA x = wvmDecodeRA y
  | .opRr => wvmDecodeRA x = wvmDecodeRA y ∧ wvmDecodeRB x = wvmDecodeRB y
  | .opRrr =>
    wvmDecodeRA x = wvmDecodeRA y ∧ wvmDecodeRB x = wvmDecodeRB y ∧
      wvmDecodeRC x = wvmDecodeRC y
  | .opRImm32 => wvmDecodeRA x = wvmDecodeRA y ∧ wvmDecodeImm32 x = wvmDecodeImm32 y
  | .opRConst => wvmDecodeRA x = wvmDecodeRA y ∧ wvmDecodeConst x = wvmDecodeConst y
  | .opJump => wvmDecodeJump x = wvmDecodeJump y
  | .opRJump => wvmDecodeRA x = wvmDecodeRA y ∧ wvmDecodeRJump x = wvmDecodeRJump y
  | _ => True

/-- Two words are the same instruction, as far as a listing shows it. -/
structure WVMSameShown (x y : BitVec 64) : Prop where
  opcode : wvmOpcodeOf x = wvmOpcodeOf y
  fields : ∀ op, wvmOpcodeOf x = some op → WVMSameFields x y (wvmOpcodeEncodings op)

section Shown

variable {x y : BitVec 64}

/-- A register and what follows it are determined by their text. -/
theorem registerText_inj {reg reg' : BitVec 16} {rest rest' : List Char}
    (ends : ∀ x ∈ rest.head?, x.isDigit = false) (ends' : ∀ x ∈ rest'.head?, x.isDigit = false)
    (same : registerText reg ++ rest = registerText reg' ++ rest') : reg = reg' ∧ rest = rest' := by
  obtain ⟨numbers, rests⟩ := Listing.digits_inj ends ends' (List.cons.inj same).2
  exact ⟨BitVec.eq_of_toNat_eq numbers, rests⟩

/-- A register in front of a comma. -/
theorem registerText_comma {reg reg' : BitVec 16} {rest rest' : List Char}
    (same : registerText reg ++ ',' :: ' ' :: rest = registerText reg' ++ ',' :: ' ' :: rest') :
    reg = reg' ∧ rest = rest' := by
  have comma : ∀ rest : List Char, ∀ x ∈ (',' :: ' ' :: rest).head?, x.isDigit = false := by
    intro rest x first
    cases first
    rfl
  obtain ⟨regs, rests⟩ := registerText_inj (comma rest) (comma rest') same
  exact ⟨regs, (List.cons.inj (List.cons.inj rests).2).2⟩

/-- The text of a register determines it. -/
theorem registerText_injective {reg reg' : BitVec 16} (same : registerText reg = registerText reg') :
    reg = reg' :=
  (@registerText_inj reg reg' [] [] (fun _ none => by cases none) (fun _ none => by cases none)
    (by rw [same])).1

/-- The decimal text of a 32-bit integer determines it. -/
theorem decimalText_toInt_injective {value value' : BitVec 32}
    (same : decimalText value.toInt = decimalText value'.toInt) : value = value' :=
  BitVec.eq_of_toInt_eq (decimalText_injective same)

/-- Operands behind the same name show the same fields. -/
theorem wvmOperandsText_shown {op : WVMOpcode} (found : wvmOpcodeOf x = some op)
    (found' : wvmOpcodeOf y = some op) (same : wvmOperandsText x = wvmOperandsText y) :
    WVMSameFields x y (wvmOpcodeEncodings op) := by
  have encoding : wvmGetEncoding (wvmDecodeOp x) = wvmOpcodeEncodings op := by
    rw [wvmGetEncoding, show wvmOpcodes[wvmDecodeOp x]? = some op from found]
    rfl
  have encoding' : wvmGetEncoding (wvmDecodeOp y) = wvmOpcodeEncodings op := by
    rw [wvmGetEncoding, show wvmOpcodes[wvmDecodeOp y]? = some op from found']
    rfl
  rw [wvmOperandsText, wvmOperandsText, encoding, encoding'] at same
  -- The cases are those of the formats.
  cases kind : wvmOpcodeEncodings op <;> rw [kind] at same
  case opR => exact registerText_injective (List.cons.inj same).2
  case opRr =>
    obtain ⟨ra, rest⟩ := registerText_comma (List.cons.inj same).2
    exact ⟨ra, registerText_injective rest⟩
  -- Every field ends at its comma.
  case opRrr =>
    obtain ⟨ra, rest⟩ := registerText_comma (List.cons.inj same).2
    obtain ⟨rb, last⟩ := registerText_comma rest
    exact ⟨ra, rb, registerText_injective last⟩
  case opRImm32 =>
    obtain ⟨ra, rest⟩ := registerText_comma (List.cons.inj same).2
    exact ⟨ra, decimalText_toInt_injective rest⟩
  case opRConst =>
    obtain ⟨ra, rest⟩ := registerText_comma (List.cons.inj same).2
    exact ⟨ra, BitVec.eq_of_toNat_eq (Listing.toDigits_injective (List.cons.inj rest).2)⟩
  case opJump => exact decimalText_toInt_injective (List.cons.inj same).2
  case opRJump =>
    obtain ⟨ra, rest⟩ := registerText_comma (List.cons.inj same).2
    exact ⟨ra, decimalText_toInt_injective rest⟩
  all_goals exact trivial

/-- The same text shows the same instruction. -/
theorem wvmInstrText_shown (same : wvmInstrText x = wvmInstrText y) : WVMSameShown x y := by
  -- The name ends at the first space, or at the end of the line.
  have inside : ∀ op, ∀ char ∈ (wvmOpcodeName op).toList, (char != ' ') = true :=
    fun op char member => bne_iff_ne.mpr ((wvmOpcodeName_plain op).1 char member).1
  have ends : ∀ instr, ∀ char ∈ (wvmOperandsText instr).head?, (char != ' ') = false := by
    intro instr char first
    rw [wvmOperandsText] at first
    split at first <;> cases first <;> rfl
  obtain ⟨names, operands⟩ := Listing.word_inj (inside _) (inside _) (ends x) (ends y) same
  have opcode : wvmOpcodeOf x = wvmOpcodeOf y := wvmOpcodeName_inj (String.toList_inj.mp names)
  exact ⟨opcode, fun op found => wvmOperandsText_shown found (opcode ▸ found) operands⟩

end Shown

section Execute

variable {p q : WVMPrototype}

/-- What the verifier says about a word is shown. -/
theorem WVMSameShown.verify {x y : BitVec 64} (shown : WVMSameShown x y) (regCount : BitVec 16)
    (constCount : BitVec 32) :
    wvmVerifyInstr regCount constCount x = wvmVerifyInstr regCount constCount y := by
  have same := shown.opcode
  cases found : wvmOpcodeOf x with
  | none =>
    -- An opcode out of the table is refused in both words.
    have outside : ∀ word, wvmOpcodeOf word = none → wvmDecodeOp word ≥ wvmOpCount :=
      fun word none => List.getElem?_eq_none_iff.mp none
    rw [wvmVerifyInstr, if_pos (outside x found), wvmVerifyInstr,
      if_pos (outside y (same ▸ found))]
  | some op =>
    have inside : ∀ word, wvmOpcodeOf word = some op → ¬ wvmDecodeOp word ≥ wvmOpCount :=
      fun word found => Nat.not_le.mpr (List.getElem?_eq_some_iff.mp found).1
    have encoding : ∀ word, wvmOpcodeOf word = some op →
        wvmGetEncoding (wvmDecodeOp word) = wvmOpcodeEncodings op := by
      intro word found
      rw [wvmGetEncoding, show wvmOpcodes[wvmDecodeOp word]? = some op from found]
      rfl
    -- The encoding of the opcode says which fields are checked, and those are shown.
    have fields := shown.fields op found
    rw [found] at same
    rw [wvmVerifyInstr, if_neg (inside x found), encoding x found, wvmVerifyInstr,
      if_neg (inside y same.symm), encoding y same.symm]
    -- Each encoding has its own bounds.
    cases kind : wvmOpcodeEncodings op <;> rw [kind] at fields <;>
      simp only [WVMSameFields] at fields <;> simp only [fields]

/-- What executing a word does is shown. -/
theorem WVMSameShown.exec {x y : BitVec 64} (shown : WVMSameShown x y)
    (consts : p.consts = q.consts) (count : p.instrCount = q.instrCount)
    (regs : p.regCount = q.regCount) (run : WVMRun) :
    wvmExecInstr p x run = wvmExecInstr q y run := by
  have same := shown.opcode
  rw [wvmExecInstr, wvmExecInstr, ← same]
  cases found : wvmOpcodeOf x with
  | none => rfl
  | some op =>
    have fields := shown.fields op found
    show wvmExecOp p x run op = wvmExecOp q y run op
    -- Each opcode reads the fields of its encoding only.
    cases op <;> simp only [wvmOpcodeEncodings, WVMSameFields] at fields <;>
      simp [wvmExecOp, wvmBinaryOpcodes, fields, consts, count, regs]

/-- The lines of two arrays show the same instructions. -/
theorem wvmListedLines_shown {index : Nat} {instrs instrs' : List (BitVec 64)}
    (same : wvmListedLines index instrs = wvmListedLines index instrs') :
    List.Forall₂ WVMSameShown instrs instrs' := by
  induction instrs generalizing index instrs' with
  | nil =>
    cases instrs' with
    | nil => exact .nil
    | cons instr' rest' => cases same
  | cons instr rest ih =>
    -- One line shows one instruction, so the arrays are as long as each other.
    cases instrs' with
    | nil => cases same
    | cons instr' rest' =>
      obtain ⟨line, lines⟩ := List.cons.inj same
      have text := (List.cons.inj (List.cons.inj (List.append_cancel_left line)).2).2
      exact .cons (wvmInstrText_shown text) (ih lines)

/-- The same text is shown for the same instructions, one by one. -/
theorem wvmDisassemble_shown {granted granted' : BitVec 64 → Bool} {rounds rounds' : Nat}
    {text : List Char} (listed : wvmDisassemble granted rounds (some p) = some (some text))
    (listed' : wvmDisassemble granted' rounds' (some q) = some (some text)) :
    List.Forall₂ WVMSameShown (wvmArray p.instrCount p.instrs) (wvmArray q.instrCount q.instrs) := by
  have plain : ∀ proto : WVMPrototype,
      ∀ line ∈ wvmListedLines 0 (wvmArray proto.instrCount proto.instrs), '\n' ∉ line := by
    intro proto
    apply wvmListedLines_plain
    rw [length_wvmArray, Nat.zero_add]
    exact Nat.le_of_lt proto.instrCount.isLt
  -- The lines are the text between its line ends.
  have lines := (wvmDisassemble_lines listed).symm.trans (wvmDisassemble_lines listed')
  exact wvmListedLines_shown (Listing.lines_injective (plain p) (plain q) lines)

/-- Words that are shown alike are verified alike. -/
theorem wvmVerifyInstr_forM {instrs instrs' : List (BitVec 64)} (regCount : BitVec 16)
    (constCount : BitVec 32) (shown : List.Forall₂ WVMSameShown instrs instrs') :
    instrs.forM (wvmVerifyInstr regCount constCount) =
      instrs'.forM (wvmVerifyInstr regCount constCount) := by
  induction shown with
  | nil => rfl
  | @cons x y rest rest' first _ ih =>
    -- The first word is verified, and then the others.
    show (wvmVerifyInstr regCount constCount x).bind (fun _ => rest.forM _) =
      (wvmVerifyInstr regCount constCount y).bind fun _ => rest'.forM _
    rw [first.verify, ih]

/-- With memory, every prototype has a listing, and a listing has all lines in full. Whenever two
prototypes with the same constants and registers, both or neither with code, have the same listing,
no execution can tell them apart: it makes the same accesses, has the same result and leaves the
same state, after any number of rounds. -/
theorem wvmDisassemble_executes (coded : p.instrs.isSome = q.instrs.isSome)
    (consts : p.consts = q.consts) (constCount : p.constCount = q.constCount)
    (regCount : p.regCount = q.regCount) :
    (∀ rounds, 64 < rounds →
      ∃ text, wvmDisassemble (fun _ => true) rounds (some p) = some (some text)) ∧
    (∀ (granted : BitVec 64 → Bool) (rounds : Nat) (text : List Char),
      wvmDisassemble granted rounds (some p) = some (some text) →
      text = Listing.lines '\n' (wvmListedLines 0 (wvmArray p.instrCount p.instrs))) ∧
    ∀ (granted granted' : BitVec 64 → Bool) (rounds rounds' : Nat) (text : List Char),
      wvmDisassemble granted rounds (some p) = some (some text) →
      wvmDisassemble granted' rounds' (some q) = some (some text) →
      ∀ (vm : WVMState) (turns : Nat), wvmExecute vm p turns = wvmExecute vm q turns := by
  refine ⟨?_, fun granted rounds text listed => wvmDisassemble_lines listed, ?_⟩
  · intro rounds more
    refine wvmDisassembleFrom_isSome more ⟨rfl, Nat.le_refl _, by decide⟩ ?_
    rw [length_wvmArray, Nat.zero_add]
    exact Nat.le_of_lt p.instrCount.isLt
  intro granted granted' rounds rounds' text listed listed' vm turns
  have shown := wvmDisassemble_shown listed listed'
  have count : p.instrCount = q.instrCount := by
    have lengths := shown.length_eq
    rw [length_wvmArray, length_wvmArray] at lengths
    exact BitVec.eq_of_toNat_eq lengths
  have verified : wvmVerifyPrototype p = wvmVerifyPrototype q := by
    rw [wvmVerifyPrototype, wvmVerifyPrototype]
    cases code : p.instrs with
    | none =>
      cases code' : q.instrs with
      | none => rfl
      | some instrs' =>
        rw [code, code'] at coded
        cases coded
    -- Both have instructions, which are shown alike and so verified alike.
    | some instrs =>
      cases code' : q.instrs with
      | none =>
        rw [code, code'] at coded
        cases coded
      | some instrs' =>
        rw [code, code'] at shown
        rw [regCount, constCount]
        exact wvmVerifyInstr_forM _ _ shown
  -- Induction on the rounds: each executes words that are shown alike.
  induction turns with
  | zero =>
    rw [wvmExecute, wvmExecute, wvmStart, wvmStart, verified, regCount]
  | succ turns ih =>
    rw [wvmExecute, wvmExecute, ih, wvmStep, wvmStep, count]
    split
    · rfl
    · split
      · rename_i inside
        generalize wvmExecute vm q turns = run at inside
        -- The counter is inside of both, and the words there are shown alike.
        have place : run.pc.toNat < (wvmArray p.instrCount p.instrs).length := by
          rw [length_wvmArray, count]
          exact BitVec.lt_def.mp inside
        have place' : run.pc.toNat < (wvmArray q.instrCount q.instrs).length := by
          rw [length_wvmArray]
          exact BitVec.lt_def.mp inside
        have here := shown.get place place'
        simp only [wvmArray, List.get_eq_getElem, List.getElem_map, List.getElem_range] at here
        exact here.exec consts count regCount _
      · rfl

end Execute

/-- The prototype of one word. -/
def wvmSingle (word : BitVec 64) : WVMPrototype :=
  { name := none, source := none, instrCount := 1, instrs := some [word], constCount := 0,
    consts := none, strCount := 0, strs := none, upvalCount := 0, upvalIsLocal := none,
    upvalIndex := none, regCount := 1, paramCount := 0, isVararg := 0, protoCount := 0,
    protos := none, lineMap := none }

/-- A return that has bits set above its register is listed and executed as one that has not. -/
theorem wvmDisassemble_executes_return :
    wvmDisassemble (fun _ => true) 65 (some (wvmSingle 0x2)) =
        some (some "0000  return r0\n".toList) ∧
      ∀ (vm : WVMState) (turns : Nat),
        wvmExecute vm (wvmSingle 0x2) turns = wvmExecute vm (wvmSingle 0xABC0000002) turns := by
  -- Both words are listed in the same way, since only the register is shown.
  have listed : wvmDisassemble (fun _ => true) 65 (some (wvmSingle 0x2)) =
      some (some "0000  return r0\n".toList) := by decide +kernel
  have listed' : wvmDisassemble (fun _ => true) 65 (some (wvmSingle 0xABC0000002)) =
      some (some "0000  return r0\n".toList) := by decide +kernel
  exact ⟨listed, (@wvmDisassemble_executes (wvmSingle 0x2) (wvmSingle 0xABC0000002) rfl rfl rfl
    rfl).2.2 _ _ _ _ _ listed listed'⟩

end Wirble
