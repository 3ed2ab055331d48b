import Wirble.Mal.PeepholeSound
import Wirble.Mds.Selection

/-! What the stock peephole pass makes of a function, instruction by instruction. -/

namespace Wirble

/-- The instruction after the stock pass. -/
def malStockInst (inst : MALInst) : MALInst := (malRewriteInst malPeepholeRules inst).getD inst

/-- The block with every instruction as after the stock pass. -/
def malStockBlock (block : MALBlock) : MALBlock :=
  { block with insts := block.insts.map malStockInst }

/-- The function with every instruction as after the stock pass. -/
def malStockFunction (fn : MALFunction) : MALFunction :=
  { fn with blocks := fn.blocks.map malStockBlock }

/-- The stock function has the stock form of each instruction. -/
theorem malStockFunction_insts (fn : MALFunction) :
    (malStockFunction fn).insts = fn.insts.map malStockInst := by
  simp only [MALFunction.insts, malStockFunction, malStockBlock, List.flatMap_map,
    List.map_flatMap]

/-- Nothing rewrites a copy. -/
theorem malStockInst_copy {inst : MALInst} (copies : inst.opcode = .copy) :
    malStockInst inst = inst := by
  cases rewritten : malRewriteInst malPeepholeRules inst with
  | none => rw [malStockInst, rewritten, Option.getD_none]
  | some inst' => exact absurd copies (malRewriteInst_refines malPeepholeRules_sound rewritten).2.1

/-- One rewrite of an instruction is the last one. -/
theorem malStockInst_rewritten {inst inst' : MALInst}
    (rewritten : malRewriteInst malPeepholeRules inst = some inst') :
    malStockInst inst' = malStockInst inst := by
  have copies := (malRewriteInst_refines malPeepholeRules_sound rewritten).2.2
  rw [malStockInst_copy copies, malStockInst, rewritten, Option.getD_some]

/-- A step of the pass is on the way to the function of all rewritten instructions. -/
theorem malApplyOnePeephole_stock {fn fn' : MALFunction}
    (applied : malApplyOnePeephole malPeepholeRules fn = some fn') :
    malStockFunction fn' = malStockFunction fn := by
  obtain ⟨blocks, replaced, rfl⟩ := Option.map_eq_some_iff.mp applied
  have inside : ∀ block block', malRewriteBlock malPeepholeRules block = some block' →
      malStockBlock block' = malStockBlock block := by
    intro block block' inBlock
    obtain ⟨insts, inner, rfl⟩ := Option.map_eq_some_iff.mp inBlock
    -- An instruction and what it is rewritten to have the same stock form.
    have list : insts.map malStockInst = block.insts.map malStockInst :=
      Search.map_replaceFirst (fun _ _ => malStockInst_rewritten) inner
    rw [malStockBlock, malStockBlock, list]
  have same : blocks.map malStockBlock = fn.blocks.map malStockBlock :=
    Search.map_replaceFirst inside replaced
  rw [malStockFunction, malStockFunction, same]

/-- Where no step is left, every instruction is as after the pass. -/
theorem malApplyOnePeephole_stuck {fn : MALFunction}
    (stuck : malApplyOnePeephole malPeepholeRules fn = none) : malStockFunction fn = fn := by
  have blocks : ∀ block ∈ fn.blocks, malStockBlock block = block := by
    intro block place
    -- No rule matches any instruction of the block.
    have none := Search.replaceFirst_none.mp (Option.map_eq_none_iff.mp stuck) block place
    have each := Search.replaceFirst_none.mp (Option.map_eq_none_iff.mp none)
    have insts : block.insts.map malStockInst = block.insts := by
      refine (List.map_congr_left fun inst member => ?_).trans (List.map_id _)
      rw [malStockInst, each inst member, Option.getD_none, id_eq]
    rw [malStockBlock, insts]
  rw [malStockFunction, List.map_congr_left blocks, List.map_id']

/-- The stock pass ends with the function of all rewritten instructions. -/
theorem malApplyPeepholeToFixpoint_stock (fn : MALFunction) :
    ∃ changed, FunctionRefines fn (malStockFunction fn) ∧ ∀ rounds, fn.insts.length < rounds →
      malApplyPeepholeToFixpoint malPeepholeRules rounds fn =
        some (changed, malStockFunction fn) := by
  -- The number of instructions that are no copies falls with every step.
  obtain ⟨changed, final, stuck, ⟨refines, same⟩, runs⟩ :=
    Search.whileSome_ends (fun fn => malUncopied fn.insts)
      (fun before after applied => by
        have step := (malApplyOnePeephole_refines malPeepholeRules_sound applied).2
        omega)
      (R := fun fn fn' => FunctionRefines fn fn' ∧ malStockFunction fn' = malStockFunction fn)
      (fun fn => ⟨.refl fn, rfl⟩)
      (fun _ _ _ first second => ⟨first.1.trans second.1, second.2.trans first.2⟩)
      (fun before after applied =>
        ⟨(malApplyOnePeephole_refines malPeepholeRules_sound applied).1,
          malApplyOnePeephole_stock applied⟩) fn
  -- The last function is its own stock form, which is that of the first one.
  rw [malApplyOnePeephole_stuck stuck] at same
  subst same
  exact ⟨changed, refines,
    fun rounds enough => runs rounds (Nat.lt_of_le_of_lt List.countP_le_length enough)⟩

/-- What an instruction with two operands needs to be selected, unless it returns. -/
theorem MALInst.isSelectable_pair {inst : MALInst} {a b : MALOperand}
    (operands : inst.operands = [a, b]) (selectable : inst.isSelectable = true) :
    ∀ operand ∈ inst.operands, ∃ immediate, operand.isShaped immediate = true := by
  -- The shape has as many entries as the instruction has operands.
  obtain ⟨shape, -, shaped⟩ := List.any_eq_true.mp selectable
  rw [Bool.and_eq_true, beq_iff_eq, operands] at shaped
  obtain ⟨count, each⟩ := shaped
  obtain ⟨first, second, rfl⟩ := List.length_eq_two.mp count
  simp only [List.zip_cons_cons, List.zip_nil_right, List.all_cons, List.all_nil, Bool.and_true,
    Bool.and_eq_true] at each
  rw [operands]
  intro operand member
  rcases List.mem_pair.mp member with rfl | rfl
  · exact ⟨first, each.1⟩
  · exact ⟨second, each.2⟩

/-- A copy of a register or of an immediate is selected. -/
theorem MALInst.isSelectable_copy {inst : MALInst} {operand : MALOperand} {immediate : Bool}
    (shaped : operand.isShaped immediate = true) :
    MALInst.isSelectable { inst with opcode := .copy, operands := [operand] } = true := by
  refine List.any_eq_true.mpr ⟨[immediate], ?_, ?_⟩
  · cases immediate <;> simp [malShapes]
  · simp [shaped]

/-- The pass leaves every instruction selectable that is. -/
theorem malStockInst_selectable {inst : MALInst} (selectable : inst.isSelectable = true) :
    (malStockInst inst).isSelectable = true := by
  cases rewritten : malRewriteInst malPeepholeRules inst with
  | none => rwa [malStockInst, rewritten, Option.getD_none]
  | some inst' =>
    obtain ⟨rule, member, matched⟩ := List.exists_of_findSome?_eq_some rewritten
    obtain ⟨bindings, found, rfl⟩ := Option.map_eq_some_iff.mp matched
    rw [malStockInst, rewritten, Option.getD_some]
    have law := malPeepholeRules_lawful rule member
    -- Every rule leaves a copy of one of the operands.
    cases law with
    | rightVar name value _ _ _ =>
      obtain ⟨x, rfl, operands, rfl⟩ := malMrsMatchRule_right found
      obtain ⟨immediate, shaped⟩ :=
        MALInst.isSelectable_pair operands selectable x (by simp [operands])
      exact MALInst.isSelectable_copy shaped
    | leftVar name value _ _ _ =>
      obtain ⟨x, rfl, operands, rfl⟩ := malMrsMatchRule_left found
      obtain ⟨immediate, shaped⟩ :=
        MALInst.isSelectable_pair operands selectable x (by simp [operands])
      exact MALInst.isSelectable_copy shaped
    -- With an absorbing immediate the copy is of the immediate itself.
    | rightImm name value _ _ _ =>
      obtain ⟨x, rfl, operands, rfl⟩ := malMrsMatchRule_right found
      obtain ⟨immediate, shaped⟩ := MALInst.isSelectable_pair operands selectable
        (malOperandImmInt value .i32) (by simp [operands])
      exact MALInst.isSelectable_copy shaped
    | leftImm name value _ _ _ =>
      obtain ⟨x, rfl, operands, rfl⟩ := malMrsMatchRule_left found
      obtain ⟨immediate, shaped⟩ := MALInst.isSelectable_pair operands selectable
        (malOperandImmInt value .i32) (by simp [operands])
      exact MALInst.isSelectable_copy shaped

end Wirble
