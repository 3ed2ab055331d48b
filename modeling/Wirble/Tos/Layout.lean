import Wirble.Tos.Stream

/-! Laying out a program permutes its blocks, and where its entry ends up. -/

namespace Wirble

/-- Renumbering the instructions of a block gives those of the block at another place. -/
theorem tosBuildInsts_renumber (block : MDSBasicBlock) (first first' : Nat) :
    ((tosBuildInsts block first).mapIdx fun order inst =>
      { inst with id := first' + order, order := order }) = tosBuildInsts block first' := by
  simp only [tosBuildInsts, List.mapIdx_mapIdx]
  rfl

/-- A block is built with all its instructions. -/
theorem length_tosBuildInsts (block : MDSBasicBlock) (first : Nat) :
    (tosBuildInsts block first).length = block.instructions.length := by
  simp [tosBuildInsts]

/-- The built instructions of a block have its descriptors and operands. -/
theorem tosBuildInsts_map (block : MDSBasicBlock) (first : Nat) :
    (tosBuildInsts block first).map (fun inst => MDSInst.mk inst.desc inst.operands) =
      block.instructions := by
  refine List.ext_getElem? fun index => ?_
  rw [List.getElem?_map, tosBuildInsts, List.getElem?_mapIdx, Option.map_map]
  exact Option.map_id_apply

/-- Moving a built block gives the block built at the other place. -/
theorem tosBuildBlock_move (block : MDSBasicBlock) (layout layout' first first' : Nat) :
    { tosBuildBlock block layout first with
      layoutIndex := layout'
      firstInstr := if (tosBuildBlock block layout first).instrCount = 0 then tosInvalidInstr
        else first' } = tosBuildBlock block layout' first' := rfl

/-- Building keeps the number of blocks. -/
theorem length_tosBuildBlocks (blocks : List MDSBasicBlock) (layout first : Nat) :
    (tosBuildBlocks blocks layout first).1.length = blocks.length := by
  induction blocks generalizing layout first with
  | nil => rfl
  | cons block rest ih => rw [tosBuildBlocks, List.length_cons, ih, List.length_cons]

/-- A built block finds its own instructions in the stream. -/
theorem tosBuildBlocks_at (blocks : List MDSBasicBlock) (layout : Nat) (front : List TOSInst)
    (index : Nat) {block : MDSBasicBlock} (found : blocks[index]? = some block) :
    ∃ first, (tosBuildBlocks blocks layout front.length).1[index]? =
        some (tosBuildBlock block (layout + index) first) ∧
      ((front ++ (tosBuildBlocks blocks layout front.length).2).drop
        (tosBuildBlock block (layout + index) first).firstInstr).take
          block.instructions.length = tosBuildInsts block first := by
  -- The induction is on the blocks, of which each one lengthens the stream in front.
  induction blocks generalizing layout front index with
  | nil => simp at found
  | cons head rest ih =>
    cases index with
    | zero =>
      obtain rfl : head = block := by simpa using found
      refine ⟨front.length, rfl, ?_⟩
      rcases Nat.eq_zero_or_pos head.instructions.length with empty | positive
      · -- An empty block takes no instructions from anywhere.
        rw [empty, List.take_zero]
        exact (List.length_eq_zero_iff.mp ((length_tosBuildInsts head _).trans empty)).symm
      · have first : (tosBuildBlock head (layout + 0) front.length).firstInstr = front.length := by
          rw [tosBuildBlock, if_neg (by omega)]
        rw [first, List.drop_left, tosBuildBlocks]
        exact List.take_left' (length_tosBuildInsts head _)
    | succ index =>
      have later : rest[index]? = some block := by simpa using found
      obtain ⟨first, place, insts⟩ :=
        -- The index in the rest is one less, and the layout one more.
        ih (layout + 1) (front ++ tosBuildInsts head front.length) index later
      have shift : layout + (index + 1) = layout + 1 + index := by omega
      rw [List.length_append, length_tosBuildInsts] at place insts
      refine ⟨first, ?_, ?_⟩
      · rw [tosBuildBlocks, List.getElem?_cons_succ, place, shift]
      · rw [tosBuildBlocks, ← List.append_assoc, shift]
        exact insts

/-- A block of a built program holds the instructions of its source. -/
theorem tosBuildFromMDS_block {program : MDSProgram} {index : Nat} {block : MDSBasicBlock}
    (found : program.blocks[index]? = some block) :
    ∃ start, (tosBuildFromMDS program).blocks[index]? =
        some (tosBuildBlock block (0 + index) start) ∧
      tosBlockInsts (tosBuildFromMDS program) (tosBuildBlock block (0 + index) start) =
        tosBuildInsts block start := by
  obtain ⟨start, place, insts⟩ := tosBuildBlocks_at program.blocks 0 [] index found
  rw [List.nil_append] at insts
  exact ⟨start, place, insts⟩

/-- No block is built where the program has none. -/
theorem tosBuildFromMDS_outside {program : MDSProgram} {index : Nat}
    (missing : program.blocks[index]? = none) : (tosBuildFromMDS program).blocks[index]? = none := by
  rw [List.getElem?_eq_none_iff] at missing ⊢
  exact Nat.le_trans (Nat.le_of_eq (length_tosBuildBlocks _ _ _)) missing

/-- Rebuilding a built program in some order is building its blocks in this order. -/
theorem tosRebuildStream_build (program : MDSProgram) (order : List Nat) (layout first : Nat) :
    tosRebuildStream (tosBuildFromMDS program) order layout first =
      tosBuildBlocks (order.filterMap (program.blocks[·]?)) layout first := by
  induction order generalizing layout first with
  | nil => rfl
  | cons index order ih =>
    cases found : program.blocks[index]? with
    | none =>
      -- A position without a block is skipped by both.
      rw [tosRebuildStream, tosBuildFromMDS_outside found, List.filterMap_cons_none found]
      exact ih layout first
    | some block =>
      obtain ⟨start, source, content⟩ := tosBuildFromMDS_block found
      -- The block keeps its content, and only its places in the stream are renumbered.
      rw [tosRebuildStream, source, List.filterMap_cons_some found, tosBuildBlocks]
      simp only [content, tosBuildInsts_renumber, tosBuildBlock_move, ih]
      rfl

/-- The blocks of a program in layout order. -/
def MDSProgram.laidOut (program : MDSProgram) : MDSProgram :=
  { program with
    blocks := (tosComputeLayoutOrder (tosBuildFromMDS program).blocks).filterMap
      (program.blocks[·]?) }

/-- Mark a program as laid out. -/
def TOSProgram.finalized (program : TOSProgram) : TOSProgram :=
  { program with orderKind := .reversePostorder, isFinalized := true }

/-- Finalizing a built program is building it with its blocks in layout order. -/
theorem tosFinalizeProgram_build (program : MDSProgram) :
    (tosFinalizeProgram (tosBuildFromMDS program)).2 =
      (tosBuildFromMDS program.laidOut).finalized := by
  have unfinished : ¬ ((tosBuildFromMDS program).isFinalized = true ∧
      (tosBuildFromMDS program).orderKind = .reversePostorder) := by simp [tosBuildFromMDS]
  rw [tosFinalizeProgram, if_neg unfinished]
  have count : (tosBuildFromMDS program).blocks.length = program.blocks.length :=
    length_tosBuildBlocks _ _ _
  by_cases empty : (tosBuildFromMDS program).blocks.length = 0
  · -- Without blocks there is nothing to permute.
    have none : program.blocks = [] := List.length_eq_zero_iff.mp (count ▸ empty)
    rw [if_pos empty]
    simp [tosBuildFromMDS, MDSProgram.laidOut, TOSProgram.finalized, none, tosBuildBlocks]
  · rw [if_neg empty]
    simp only [tosRebuildStream_build]
    rfl

/-- The blocks of a stream with their own instructions, as a machine program has them. -/
def tosContents (program : TOSProgram) : List MDSBasicBlock :=
  program.blocks.map fun block =>
    ⟨block.id, (tosBlockInsts program block).map fun inst => ⟨inst.desc, inst.operands⟩,
      block.successors⟩

/-- Building a stream loses nothing. -/
theorem tosContents_build (program : MDSProgram) :
    tosContents (tosBuildFromMDS program) = program.blocks := by
  refine List.ext_getElem? fun index => ?_
  -- Both lists are compared position by position.
  rw [tosContents, List.getElem?_map]
  cases found : program.blocks[index]? with
  | none =>
    rw [tosBuildFromMDS_outside found]
    rfl
  | some block =>
    obtain ⟨start, source, content⟩ := tosBuildFromMDS_block found
    rw [source, Option.map_some, content, tosBuildInsts_map]
    rfl

/-- The stream holds the instructions of all blocks in order. -/
theorem tosBuildBlocks_insts (blocks : List MDSBasicBlock) (layout first : Nat) :
    (tosBuildBlocks blocks layout first).2.map (fun inst => MDSInst.mk inst.desc inst.operands) =
      blocks.flatMap (·.instructions) := by
  induction blocks generalizing layout first with
  | nil => rfl
  | cons block rest ih =>
    rw [tosBuildBlocks, List.map_append, tosBuildInsts_map, ih, List.flatMap_cons]

/-- A built stream is valid if all its instructions have descriptors. -/
theorem tosValidateBlocks_build (blocks : List MDSBasicBlock)
    (described : ∀ block ∈ blocks, ∀ inst ∈ block.instructions, inst.desc.isSome = true)
    (layout : Nat) (front : List TOSInst) :
    tosValidateBlocks (front ++ (tosBuildBlocks blocks layout front.length).2)
      (tosBuildBlocks blocks layout front.length).1 layout front.length = true := by
  induction blocks generalizing layout front with
  | nil => simp [tosBuildBlocks, tosValidateBlocks]
  | cons block rest ih =>
    have later := ih (fun other member => described other (List.mem_cons_of_mem _ member))
      (layout + 1) (front ++ tosBuildInsts block front.length)
    rw [List.length_append, length_tosBuildInsts, List.append_assoc] at later
    rw [tosBuildBlocks, tosValidateBlocks, if_neg (fun wrong => wrong rfl)]
    rcases Nat.eq_zero_or_pos block.instructions.length with empty | positive
    · rw [empty, Nat.add_zero] at later
      rw [if_pos (show (tosBuildBlock block layout front.length).instrCount = 0 from empty)]
      simp only [tosBuildBlock, empty, if_true, beq_self_eq_true, Bool.true_and]
      exact later
    -- A block with instructions starts at the length of what is in front.
    · have full : ¬ (tosBuildBlock block layout front.length).instrCount = 0 := by
        show ¬ block.instructions.length = 0
        omega
      have start : (tosBuildBlock block layout front.length).firstInstr = front.length := by
        rw [tosBuildBlock, if_neg (by omega)]
      rw [if_neg full, start, beq_self_eq_true, Bool.true_and, Bool.and_eq_true]
      refine ⟨List.all_eq_true.mpr fun order member => ?_, later⟩
      have inside : order < block.instructions.length := List.mem_range.mp member
      -- The instruction at the cursor is the one that the block was built with.
      have place : (front ++ (tosBuildInsts block front.length ++
          (tosBuildBlocks rest (layout + 1)
            (front.length + block.instructions.length)).2))[front.length + order]? =
          some ⟨front.length + order, block.id, order, block.instructions[order].desc,
            block.instructions[order].operands⟩ := by
        rw [List.getElem?_append_right (Nat.le_add_right _ _), Nat.add_sub_cancel_left,
          List.getElem?_append_left (by rw [length_tosBuildInsts]; exact inside)]
        simp [tosBuildInsts, inside]
      have desc := described block List.mem_cons_self _ (List.getElem_mem inside)
      simp [tosValidateInst, place, desc, tosBuildBlock]

/-- Successors are blocks of the program. -/
theorem tosSuccessors_lt {blocks : List TOSBlock} {index target : Nat}
    (edge : target ∈ tosSuccessors blocks index) : target < blocks.length := by
  unfold tosSuccessors at edge
  split at edge
  · cases edge
  · obtain ⟨id, -, found⟩ := List.mem_filterMap.mp edge
    exact (List.findIdx?_eq_some_iff_getElem.mp found).1

/-- The positions of a list of blocks are closed under successors. -/
theorem tosSuccessors_closed (blocks : List TOSBlock) :
    ∀ index ∈ List.range blocks.length, ∀ target ∈ tosSuccessors blocks index,
      target ∈ List.range blocks.length :=
  fun _ _ _ edge => List.mem_range.mpr (tosSuccessors_lt edge)

/-- The roots of the search are positions of blocks, and all of them. -/
theorem mem_layoutRoots {count index : Nat} (positive : 0 < count) :
    index ∈ 0 :: List.range count ↔ index ∈ List.range count := by
  simp only [List.mem_cons, List.mem_range]
  omega

/-- The layout order holds every position once. -/
theorem tosComputeLayoutOrder_perm (blocks : List TOSBlock) :
    (tosComputeLayoutOrder blocks).Perm (List.range blocks.length) := by
  unfold tosComputeLayoutOrder
  split
  -- Without blocks there is nothing to order.
  · rename_i empty
    rw [empty]
    exact .nil
  · rename_i full
    -- The search starts from every position, so its postorder holds each of them once.
    refine (List.reverse_perm _).trans ?_
    exact Dfs.search_perm List.nodup_range (tosSuccessors_closed blocks)
      (by rw [List.length_range]) (fun index member => (mem_layoutRoots (by omega)).mp member)
      fun index member => (mem_layoutRoots (by omega)).mpr member

/-- Reading a list at all of its positions in order gives the list. -/
theorem filterMap_range_getElem? {α : Type} (list : List α) :
    (List.range list.length).filterMap (list[·]?) = list := by
  induction list with
  | nil => rfl
  | cons x rest ih =>
    -- The first position has the head, and the others the rest.
    have head : (x :: rest)[0]? = some x := rfl
    rw [List.length_cons, List.range_succ_eq_map, List.filterMap_cons_some head,
      List.filterMap_map]
    exact congrArg (x :: ·) ih

/-- Laying out a program permutes its blocks. -/
theorem MDSProgram.laidOut_perm (program : MDSProgram) :
    program.laidOut.blocks.Perm program.blocks := by
  have count : (tosBuildFromMDS program).blocks.length = program.blocks.length :=
    length_tosBuildBlocks _ _ _
  -- The layout order is a permutation of the positions.
  have order := tosComputeLayoutOrder_perm (tosBuildFromMDS program).blocks
  rw [count] at order
  have permuted := order.filterMap (program.blocks[·]?)
  rwa [filterMap_range_getElem?] at permuted

/-- The instructions of the stream are those of the blocks, one block after the other. -/
theorem tosBuildFromMDS_instructions (program : MDSProgram) :
    (tosBuildFromMDS program).instructions.map (fun inst => MDSInst.mk inst.desc inst.operands) =
      program.insts :=
  tosBuildBlocks_insts _ _ _

/-- What is built from instructions with descriptors passes the validator. -/
theorem tosValidateProgram_build {program : MDSProgram}
    (described : ∀ inst ∈ program.insts, inst.desc.isSome = true) :
    tosValidateProgram (tosBuildFromMDS program) = true :=
  tosValidateBlocks_build program.blocks
    (fun block member inst inside => described inst (List.mem_flatMap.mpr ⟨block, member, inside⟩))
    0 []

/-- Finalizing a built program succeeds, and its result is valid and final. -/
theorem tosFinalizeProgram_succeeds {program : MDSProgram}
    (described : ∀ inst ∈ program.insts, inst.desc.isSome = true) :
    tosFinalizeProgram (tosBuildFromMDS program) =
        (true, (tosBuildFromMDS program.laidOut).finalized) ∧
      tosValidateProgram (tosBuildFromMDS program.laidOut).finalized = true ∧
      tosFinalizeProgram (tosBuildFromMDS program.laidOut).finalized =
        (true, (tosBuildFromMDS program.laidOut).finalized) := by
  have insts : program.laidOut.insts.Perm program.insts := program.laidOut_perm.flatMap_right _
  have stillDescribed : ∀ inst ∈ program.laidOut.insts, inst.desc.isSome = true :=
    fun inst member => described inst (insts.mem_iff.mp member)
  have valid : tosValidateProgram (tosBuildFromMDS program.laidOut).finalized = true :=
    tosValidateProgram_build stillDescribed
  have result := tosFinalizeProgram_build program
  refine ⟨?_, valid, ?_⟩
  · -- The verdict is the validation of the result, unless there are no blocks.
    have verdict : (tosFinalizeProgram (tosBuildFromMDS program)).1 = true ∨
        (tosFinalizeProgram (tosBuildFromMDS program)).1 =
          tosValidateProgram (tosFinalizeProgram (tosBuildFromMDS program)).2 := by
      unfold tosFinalizeProgram
      split
      · exact .inr rfl
      · split
        · exact .inl rfl
        · exact .inr rfl
    rw [result, valid, or_self] at verdict
    exact Prod.ext verdict result
  · rw [tosFinalizeProgram, if_pos ⟨rfl, rfl⟩, valid]

/-- A module of functions that return their register of the given number. -/
def malReturnModule (regs : List Nat) : MALModule where
  functions := regs.map fun reg =>
    ⟨"return", .i32, [], reg + 1,
      [⟨0, [⟨0, .ret, .void, malInvalidReg, [malOperandReg reg .i32]⟩], [], []⟩], reg + 1⟩
  targetTriple := none

/-- The program of this module for the generic machine. -/
def mdsReturnBlocks (regs : List Nat) : MDSProgram where
  machine := some (mdsLoadMachine .generic)
  blocks := regs.map fun reg =>
    ⟨0, [⟨some (mdsInitInstruction 20 "generic.ret" mdsRetOps), [malOperandReg reg .i32]⟩], []⟩

section Entry

/-- The order in which a program is laid out, as positions in the program. -/
def MDSProgram.layoutOrder (program : MDSProgram) : List Nat :=
  tosComputeLayoutOrder (tosBuildFromMDS program).blocks

/-- The successors of a block of a program by position. -/
def MDSProgram.successorsAt (program : MDSProgram) : Nat → List Nat :=
  tosSuccessors (tosBuildFromMDS program).blocks

/-- The finalized program has the blocks of the program in layout order, the first one being the
first block of the first function, and without cycles in the block graph every block that can be
reached from it comes before its successors. -/
structure LayoutStartsAtEntry (module : MALModule) (program : MDSProgram) : Prop where
  laid : ∀ index : Nat, (tosContents (tosFinalizeProgram (tosBuildFromMDS program)).2)[index]? =
    program.layoutOrder[index]?.bind (program.blocks[·]?)
  -- Position zero of a lowered module is the first block of its first function that has one.
  entry : (∃ fn, module.functions.head? = some fn ∧ fn.blocks ≠ []) ∧
    program.layoutOrder.head? = some 0
  forward : Dag.Acyclic program.successorsAt → ∀ i j source target : Nat,
    program.layoutOrder[i]? = some source → program.layoutOrder[j]? = some target →
      Dag.Reach program.successorsAt 0 source → target ∈ program.successorsAt source → i < j

/-- The laid out blocks at every position. -/
theorem tosFinalizeProgram_blocks (program : MDSProgram) (index : Nat) :
    (tosContents (tosFinalizeProgram (tosBuildFromMDS program)).2)[index]? =
      program.layoutOrder[index]?.bind (program.blocks[·]?) := by
  have contents : tosContents (tosFinalizeProgram (tosBuildFromMDS program)).2 =
      program.laidOut.blocks := by
    rw [tosFinalizeProgram_build]
    exact tosContents_build program.laidOut
  have inside : ∀ position ∈ program.layoutOrder, position < program.blocks.length := by
    intro position member
    have range := (tosComputeLayoutOrder_perm _).mem_iff.mp member
    rw [List.mem_range] at range
    exact range.trans_eq (length_tosBuildBlocks _ _ _)
  rw [contents]
  show (program.layoutOrder.filterMap (program.blocks[·]?))[index]? = _
  -- No position is dropped, so the positions of the result are those of the order.
  generalize program.layoutOrder = order at inside
  induction order generalizing index with
  | nil => simp
  | cons position order ih =>
    have present := List.getElem?_eq_getElem (inside position List.mem_cons_self)
    rw [List.filterMap_cons_some present]
    cases index with
    | zero => simp [present]
    | succ index =>
      simpa using ih index fun other member => inside other (List.mem_cons_of_mem _ member)

/-- A lowered module has as many blocks as its functions together. -/
theorem length_mdsLowerFromMAL {module : MALModule} {selector : Option MDSInstrSelector}
    {machine : MDSMachine} {program : MDSProgram}
    (lowered : mdsLowerFromMAL module selector machine = some program) :
    program.blocks.length = (module.functions.flatMap (·.blocks)).length := by
  obtain ⟨blocks, each, rfl⟩ := Option.map_eq_some_iff.mp lowered
  exact (Dag.mapM_eq_some_iff.mp each).length_eq.symm

/-- The layout starts at the entry for precisely the modules whose first function has a block
from which all blocks can be reached. -/
theorem layoutStartsAtEntry_iff (module : MALModule) (selector : Option MDSInstrSelector)
    (machine : MDSMachine) (program : MDSProgram)
    (lowered : mdsLowerFromMAL module selector machine = some program) :
    LayoutStartsAtEntry module program ↔
      (∃ fn, module.functions.head? = some fn ∧ fn.blocks ≠ []) ∧
        ∀ index < program.blocks.length, Dag.Reach program.successorsAt 0 index := by
  -- The layout is the reverse of a postorder, so its head is the root that is left last.
  have count : (tosBuildFromMDS program).blocks.length = program.blocks.length :=
    length_tosBuildBlocks _ _ _
  have closed := tosSuccessors_closed (tosBuildFromMDS program).blocks
  have room : (List.range (tosBuildFromMDS program).blocks.length).length ≤
      (tosBuildFromMDS program).blocks.length := by rw [List.length_range]
  -- The head of the layout is the first block just when that one reaches all others.
  have first : 0 < program.blocks.length →
      (program.layoutOrder.head? = some 0 ↔
        ∀ index < program.blocks.length, Dag.Reach program.successorsAt 0 index) := by
    intro positive
    have full : ¬ (tosBuildFromMDS program).blocks.length = 0 := by omega
    rw [MDSProgram.layoutOrder, tosComputeLayoutOrder, if_neg full, List.head?_reverse,
      Dfs.search_last_iff closed room
        (fun index member => (mem_layoutRoots (by omega)).mp member)
        (fun index member => (mem_layoutRoots (by omega)).mpr member)]
    simp only [List.mem_range, count]
    rfl
  -- A function with a block makes a program with one.
  have nonempty : (∃ fn, module.functions.head? = some fn ∧ fn.blocks ≠ []) →
      0 < program.blocks.length := by
    rintro ⟨fn, head, blocks⟩
    rw [length_mdsLowerFromMAL lowered]
    obtain ⟨block, inside⟩ := List.exists_mem_of_ne_nil _ blocks
    exact List.length_pos_of_mem
      (List.mem_flatMap.mpr ⟨fn, List.mem_of_head? head, inside⟩)
  constructor
  · rintro ⟨-, ⟨hasBlock, start⟩, -⟩
    exact ⟨hasBlock, (first (nonempty hasBlock)).mp start⟩
  · rintro ⟨hasBlock, reach⟩
    refine ⟨tosFinalizeProgram_blocks program,
      ⟨hasBlock, (first (nonempty hasBlock)).mpr reach⟩, ?_⟩
    -- Along an edge of an acyclic graph the postorder goes backwards.
    intro acyclic i j source target here there _ edge
    have full : ¬ (tosBuildFromMDS program).blocks.length = 0 := by
      have positive := nonempty hasBlock
      omega
    rw [MDSProgram.layoutOrder, tosComputeLayoutOrder, if_neg full] at here there
    have roots : ∀ index ∈ 0 :: List.range (tosBuildFromMDS program).blocks.length,
        index ∈ List.range (tosBuildFromMDS program).blocks.length :=
      fun index member => (mem_layoutRoots (by omega)).mp member
    have once := (Dfs.search_perm List.nodup_range closed room roots
      fun index member => (mem_layoutRoots (by omega)).mpr member).nodup_iff.mpr List.nodup_range
    exact (Dfs.search_ordered closed acyclic room roots).before once edge here there

/-- A function that branches to two blocks, which meet again. -/
def malDiamond : MALFunction where
  name := "diamond"
  retType := .i32
  paramTypes := []
  paramCount := 1
  blocks :=
    [⟨0, [⟨0, .cbr, .void, malInvalidReg,
        [malOperandReg 0 .i1, malOperandBlock 1, malOperandBlock 2]⟩], [], [1, 2]⟩,
      ⟨1, [⟨0, .br, .void, malInvalidReg, [malOperandBlock 3]⟩], [0], [3]⟩,
      ⟨2, [⟨0, .br, .void, malInvalidReg, [malOperandBlock 3]⟩], [0], [3]⟩,
      ⟨3, [⟨0, .ret, .void, malInvalidReg, [malOperandReg 0 .i32]⟩], [1, 2], []⟩]
  nextSSAReg := 1

/-- The generic machine with branches. -/
def mdsBranchMachine : MDSMachine :=
  let instructions := mdsBuildBuiltinInstructions .generic ++
    [mdsInitInstruction 21 "generic.br" [], mdsInitInstruction 22 "generic.cbr" []]
  ⟨.generic, instructions, instructions⟩

/-- The patterns of that machine, where branches have any operands. -/
def mdsBranchSelector : MDSInstrSelector :=
  let stock := mdsCreateSelector mdsBranchMachine
  { stock with patterns := stock.patterns ++
      [⟨some (.br, [⟨false, false, false, 0⟩]), [21], 1⟩,
        ⟨some (.cbr, List.replicate 3 ⟨false, false, false, 0⟩), [22], 1⟩] }

/-- All blocks of the diamond can be reached, so that it is laid out from its entry. -/
theorem layoutStartsAtEntry_diamond :
    ∃ program, mdsLowerFromMAL ⟨[malDiamond], none⟩ mdsBranchSelector mdsBranchMachine =
      some program ∧ LayoutStartsAtEntry ⟨[malDiamond], none⟩ program := by
  obtain ⟨program, lowered⟩ := Option.isSome_iff_exists.mp
    (show (mdsLowerFromMAL ⟨[malDiamond], none⟩ mdsBranchSelector mdsBranchMachine).isSome = true by
      decide +kernel)
  -- The edges of the program are those of the function.
  have edges : (mdsLowerFromMAL ⟨[malDiamond], none⟩ mdsBranchSelector mdsBranchMachine).map
      (fun program => (program.blocks.length, (List.range 4).map program.successorsAt)) =
        some (4, [[1, 2], [3], [3], []]) := by
    decide +kernel
  rw [lowered] at edges
  obtain ⟨count, successors⟩ := Prod.mk.inj (Option.some.inj edges)
  obtain ⟨first, left, -, -⟩ : program.successorsAt 0 = [1, 2] ∧
      program.successorsAt 1 = [3] ∧ program.successorsAt 2 = [3] ∧ program.successorsAt 3 = [] := by
    simpa [List.range_succ] using successors
  have edge : ∀ {node target : Nat} {targets : List Nat}, program.successorsAt node = targets →
      target ∈ targets → Dag.Edge program.successorsAt node target := by
    rintro node target _ rfl among
    exact among
  -- From the entry lead paths to both sides and to the end.
  have toLeft : Dag.Reach program.successorsAt 0 1 := .single (edge first (by decide))
  have toRight : Dag.Reach program.successorsAt 0 2 := .single (edge first (by decide))
  have toEnd : Dag.Reach program.successorsAt 0 3 := toLeft.tail (edge left (by decide))
  refine ⟨program, lowered, (layoutStartsAtEntry_iff _ _ _ _ lowered).mpr
    ⟨⟨malDiamond, rfl, by decide⟩, ?_⟩⟩
  intro index inside
  rw [count] at inside
  obtain rfl | rfl | rfl | rfl : index = 0 ∨ index = 1 ∨ index = 2 ∨ index = 3 := by omega
  · exact .refl
  · exact toLeft
  · exact toRight
  · exact toEnd

/-- A second function is laid out in front of the first one. -/
theorem layout_not_startsAtEntry :
    ¬ ∀ (module : MALModule) (selector : Option MDSInstrSelector) (machine : MDSMachine)
      (program : MDSProgram), mdsLowerFromMAL module selector machine = some program →
        LayoutStartsAtEntry module program := by
  intro starts
  -- The layout would start with the block of the first function.
  have entry := (starts (malReturnModule [0, 1]) none (mdsLoadMachine .generic)
    (mdsReturnBlocks [0, 1]) (by decide)).entry.2
  revert entry
  decide

end Entry

end Wirble
