import Wirble.Mds.Machine
import Wirble.Library.Dfs

/-! Linear instruction streams: building them, laying out their blocks, and validating them. -/

namespace Wirble

/-- The instruction number that stands for no instruction. -/
def tosInvalidInstr : Nat := 2 ^ 32 - 1

inductive TOSOrderKind where
  | input | reversePostorder
  deriving DecidableEq, Repr

/-- An instruction of the stream knows its number, its block and its place in the block. -/
structure TOSInst where
  id : Nat
  blockId : Nat
  order : Nat
  desc : Option MDSInstruction
  operands : List MALOperand
  deriving DecidableEq, Repr

/-- A block is a range of the stream. -/
structure TOSBlock where
  id : Nat
  layoutIndex : Nat
  firstInstr : Nat
  instrCount : Nat
  successors : List Nat
  deriving DecidableEq, Repr

structure TOSProgram where
  machine : Option MDSMachine
  blocks : List TOSBlock
  instructions : List TOSInst
  orderKind : TOSOrderKind
  isFinalized : Bool
  deriving DecidableEq, Repr

section Build

/-- The instructions of a block, numbered from the given number on. -/
def tosBuildInsts (block : MDSBasicBlock) (first : Nat) : List TOSInst :=
  block.instructions.mapIdx fun order inst =>
    ⟨first + order, block.id, order, inst.desc, inst.operands⟩

/-- An empty block has no first instruction. -/
def tosBuildBlock (block : MDSBasicBlock) (layoutIndex first : Nat) : TOSBlock where
  id := block.id
  layoutIndex := layoutIndex
  firstInstr := if block.instructions.length = 0 then tosInvalidInstr else first
  instrCount := block.instructions.length
  successors := block.successors

/-- Blocks and instructions in order, with the next layout index and instruction number. -/
def tosBuildBlocks : List MDSBasicBlock → Nat → Nat → List TOSBlock × List TOSInst
  | [], _, _ => ([], [])
  | block :: rest, layoutIndex, first =>
    let tail := tosBuildBlocks rest (layoutIndex + 1) (first + block.instructions.length)
    (tosBuildBlock block layoutIndex first :: tail.1, tosBuildInsts block first ++ tail.2)

def tosBuildFromMDS (program : MDSProgram) : TOSProgram where
  machine := program.machine
  blocks := (tosBuildBlocks program.blocks 0 0).1
  instructions := (tosBuildBlocks program.blocks 0 0).2
  orderKind := .input
  isFinalized := false

end Build

section Layout

/-- The first block with an identifier. -/
def tosFindBlockIndex (blocks : List TOSBlock) (id : Nat) : Option Nat :=
  blocks.findIdx? (·.id == id)

/-- The positions of a block's successors; identifiers that name no block are passed over. -/
def tosSuccessors (blocks : List TOSBlock) (index : Nat) : List Nat :=
  match blocks[index]? with
  | none => []
  | some block => block.successors.filterMap (tosFindBlockIndex blocks)

/-- Depth-first search from the first block, then from every block not seen yet, in reverse order
of leaving. No search goes deeper than there are blocks. -/
def tosComputeLayoutOrder (blocks : List TOSBlock) : List Nat :=
  if blocks.length = 0 then []
  else
    (Dfs.search (tosSuccessors blocks) blocks.length
      (0 :: List.range blocks.length)).post.reverse

/-- The part of the stream that belongs to a block. -/
def tosBlockInsts (program : TOSProgram) (block : TOSBlock) : List TOSInst :=
  (program.instructions.drop block.firstInstr).take block.instrCount

/-- Copy the blocks in layout order, and number their instructions anew. -/
def tosRebuildStream (program : TOSProgram) :
    List Nat → Nat → Nat → List TOSBlock × List TOSInst
  | [], _, _ => ([], [])
  | index :: order, layoutIndex, instCount =>
    match program.blocks[index]? with
    | none => tosRebuildStream program order layoutIndex instCount
    | some block =>
      let tail := tosRebuildStream program order (layoutIndex + 1) (instCount + block.instrCount)
      ({ block with
          layoutIndex := layoutIndex
          firstInstr := if block.instrCount = 0 then tosInvalidInstr else instCount } :: tail.1,
        ((tosBlockInsts program block).mapIdx fun order inst =>
          { inst with id := instCount + order, order := order }) ++ tail.2)

/-- Whether an instruction of the stream is the one that its block expects there. -/
def tosValidateInst (instructions : List TOSInst) (block : TOSBlock) (cursor order : Nat) : Bool :=
  match instructions[cursor + order]? with
  | none => false
  | some inst =>
    inst.id == cursor + order && inst.blockId == block.id && inst.order == order &&
      inst.desc.isSome

/-- The blocks must cover the stream one after the other. -/
def tosValidateBlocks (instructions : List TOSInst) : List TOSBlock → Nat → Nat → Bool
  | [], _, cursor => cursor == instructions.length
  | block :: rest, index, cursor =>
    if block.layoutIndex ≠ index then false
    else if block.instrCount = 0 then
      block.firstInstr == tosInvalidInstr &&
        tosValidateBlocks instructions rest (index + 1) cursor
    else
      block.firstInstr == cursor &&
        (List.range block.instrCount).all (tosValidateInst instructions block cursor) &&
          tosValidateBlocks instructions rest (index + 1) (cursor + block.instrCount)

def tosValidateProgram (program : TOSProgram) : Bool :=
  tosValidateBlocks program.instructions program.blocks 0 0

/-- Lay out the blocks of a program that is not laid out yet. -/
def tosFinalizeProgram (program : TOSProgram) : Bool × TOSProgram :=
  if program.isFinalized = true ∧ program.orderKind = .reversePostorder then
    (tosValidateProgram program, program)
  else if program.blocks.length = 0 then
    (true, { program with orderKind := .reversePostorder, isFinalized := true })
  else
    let rebuilt := tosRebuildStream program (tosComputeLayoutOrder program.blocks) 0 0
    let final : TOSProgram :=
      { program with
        blocks := rebuilt.1
        instructions := rebuilt.2
        orderKind := .reversePostorder
        isFinalized := true }
    (tosValidateProgram final, final)

/-- The counter that optimizing a program changes. -/
structure TOSContext where
  subInstrCreated : BitVec 64
  deriving DecidableEq, Repr

/-- Without a context nothing happens, and with one only its counter changes. -/
def tosApplySubinstr (ctx : Option TOSContext) (program : TOSProgram) :
    Bool × Option TOSContext × TOSProgram :=
  match ctx with
  | none => (false, none, program)
  | some ctx =>
    let result := tosFinalizeProgram program
    (result.1, some ⟨ctx.subInstrCreated + 1⟩, result.2)

def tosOptimizeProgram (ctx : Option TOSContext) (program : TOSProgram) :
    Bool × Option TOSContext × TOSProgram :=
  match ctx with
  | none => (false, none, program)
  | some ctx =>
    let result := tosFinalizeProgram program
    if result.1 then tosApplySubinstr (some ctx) result.2 else (false, some ctx, result.2)

end Layout

end Wirble
