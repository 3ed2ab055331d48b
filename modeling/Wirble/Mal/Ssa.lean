import Mathlib.Data.List.Induction
import Wirble.Mal.Cfg

/-! The single-assignment verifier against definitions on every control-flow path. -/

namespace Wirble

/-- The registers that a list of instructions defines, in order. -/
def malDefs (insts : List MALInst) : List Nat := insts.filterMap MALInst.defines

/-- Check one instruction against the registers defined so far, and mark its destination. -/
def malVerifyInst (limit : Nat) (defined : List Nat) (inst : MALInst) : Option (List Nat) :=
  if inst.reads.all fun reg => reg < limit && defined.contains reg then
    match inst.defines with
    | none => some defined
    | some dst => if dst < limit && !defined.contains dst then some (dst :: defined) else none
  else none

/-- One scan over all blocks, where only the parameters are defined at its start. -/
def malVerifySSA (fn : MALFunction) : Bool :=
  (fn.insts.foldlM (malVerifyInst fn.nextSSAReg)
    (List.range (min fn.paramCount fn.nextSSAReg))).isSome

/-- The blocks that control can enter from the end of a block: the targets of a branch, or the
next block where the block does not end in a terminator. -/
def malFlowTargets (blocks : List MALBlock) (index : Nat) : List Nat :=
  match (blocks[index]?.bind MALBlock.last).filter malInstIsTerminator with
  | none => if index + 1 < blocks.length then [index + 1] else []
  | some term =>
    match term.opcode with
    | .br | .cbr | .switch =>
      (term.operands.filterMap MALOperand.block?).filterMap (malBlockById blocks)
    | _ => []

/-- A control-flow path from the entry: the blocks it has left, and the block it is in. -/
inductive MALPath (blocks : List MALBlock) : List Nat → Nat → Prop where
  | entry : MALPath blocks [] 0
  | step {visited : List Nat} {index target : Nat} :
    MALPath blocks visited index → target ∈ malFlowTargets blocks index →
      MALPath blocks (visited ++ [index]) target

/-- The block at a position defines a register. -/
def DefinesAt (blocks : List MALBlock) (index reg : Nat) : Prop :=
  ∃ block, blocks[index]? = some block ∧ reg ∈ malDefs block.insts

/-- The block at a position reads a register. -/
def ReadsAt (blocks : List MALBlock) (index reg : Nat) : Prop :=
  ∃ block, blocks[index]? = some block ∧ ∃ inst ∈ block.insts, reg ∈ inst.reads

/-- On every path each register is a parameter or defined before any instruction that reads it. -/
def DefinedOnPaths (fn : MALFunction) : Prop :=
  ∀ visited index, MALPath fn.blocks visited index → ∀ block, fn.blocks[index]? = some block →
    ∀ before inst after, block.insts = before ++ inst :: after → ∀ reg ∈ inst.reads,
      reg < fn.paramCount ∨ (∃ earlier ∈ visited, DefinesAt fn.blocks earlier reg) ∨
        reg ∈ malDefs before

/-- Each register has one definition at most, and has it before any read on every path. -/
structure SSAForm (fn : MALFunction) : Prop where
  once : (malDefs fn.insts).Nodup
  paths : DefinedOnPaths fn

/-- Every register number is below the function's counter. -/
def RegistersBounded (fn : MALFunction) : Prop :=
  ∀ inst ∈ fn.insts, (∀ reg ∈ inst.reads, reg < fn.nextSSAReg) ∧
    ∀ reg, inst.defines = some reg → reg < fn.nextSSAReg

/-- Each definition precedes all uses of its register in block-list order. -/
def ListOrdered (fn : MALFunction) : Prop :=
  ∀ before inst after, fn.insts = before ++ inst :: after →
    ∀ reg ∈ inst.reads, reg ∉ malDefs (inst :: after)

/-- No instruction defines a parameter's register. -/
def ParamsKept (fn : MALFunction) : Prop := ∀ reg ∈ malDefs fn.insts, fn.paramCount ≤ reg

/-- Every register that some instruction reads is a parameter or defined somewhere. -/
def ReadsDefined (fn : MALFunction) : Prop :=
  ∀ inst ∈ fn.insts, ∀ reg ∈ inst.reads, reg < fn.paramCount ∨ reg ∈ malDefs fn.insts

/-- Blocks that control can enter from the entry without passing a definition of the register. -/
inductive EntersWithout (blocks : List MALBlock) (reg : Nat) : Nat → Prop where
  | entry : EntersWithout blocks reg 0
  | step {index target : Nat} : EntersWithout blocks reg index → ¬ DefinesAt blocks index reg →
      target ∈ malFlowTargets blocks index → EntersWithout blocks reg target

/-- No path goes around the definitions of a register into a block that only reads it. -/
def NoPathAround (fn : MALFunction) : Prop :=
  ∀ index reg, ReadsAt fn.blocks index reg → fn.paramCount ≤ reg →
    ¬ DefinesAt fn.blocks index reg → ¬ EntersWithout fn.blocks reg index

/-- The verifier decides the single-assignment form of a function. -/
def VerifierCorrect (fn : MALFunction) : Prop :=
  (malVerifySSA fn = true → SSAForm fn) ∧
    (SSAForm fn → RegistersBounded fn → ListOrdered fn → malVerifySSA fn = true)

/-- The definitions of a concatenation are those of its parts. -/
@[simp] theorem malDefs_append (insts insts' : List MALInst) :
    malDefs (insts ++ insts') = malDefs insts ++ malDefs insts' :=
  List.filterMap_append

/-- A register is defined if some instruction has it as its destination. -/
theorem mem_malDefs {insts : List MALInst} {reg : Nat} :
    reg ∈ malDefs insts ↔ ∃ inst ∈ insts, inst.defines = some reg :=
  List.mem_filterMap

/-- The first instruction's destination is the first definition. -/
@[simp] theorem malDefs_cons (inst : MALInst) (insts : List MALInst) :
    malDefs (inst :: insts) = inst.defines.toList ++ malDefs insts := by
  cases defines : inst.defines <;> simp [malDefs, defines]

/-- An instruction reads defined registers only, and defines a new one. -/
def InstPasses (limit : Nat) (defined : List Nat) (inst : MALInst) : Prop :=
  (∀ reg ∈ inst.reads, reg < limit ∧ reg ∈ defined) ∧
    ∀ reg, inst.defines = some reg → reg < limit ∧ reg ∉ defined

instance (limit : Nat) (defined : List Nat) (inst : MALInst) :
    Decidable (InstPasses limit defined inst) :=
  inferInstanceAs (Decidable (_ ∧ ∀ reg, inst.defines = some reg → _))

/-- Checking an instruction marks its destination if it passes. -/
theorem malVerifyInst_eq (limit : Nat) (defined : List Nat) (inst : MALInst) :
    malVerifyInst limit defined inst =
      if InstPasses limit defined inst then some (inst.defines.toList ++ defined) else none := by
  -- The verifier tests the reads and then the destination.
  have reads : (inst.reads.all fun reg => reg < limit && defined.contains reg) = true ↔
      ∀ reg ∈ inst.reads, reg < limit ∧ reg ∈ defined := by simp
  by_cases passes : InstPasses limit defined inst
  · rw [if_pos passes, malVerifyInst, if_pos (reads.mpr passes.1)]
    rcases defines : inst.defines with _ | dst
    · rfl
    · simp [passes.2 dst defines]
  · rw [if_neg passes, malVerifyInst]
    split
    · rename_i ok
      rcases defines : inst.defines with _ | dst
      · exact absurd ⟨reads.mp ok, by simp [defines]⟩ passes
      · -- The reads are fine, so the destination is what does not pass.
        have stale : ¬ (dst < limit ∧ dst ∉ defined) := by
          intro fresh
          refine passes ⟨reads.mp ok, fun reg same => ?_⟩
          rw [defines] at same
          exact Option.some.inj same ▸ fresh
        simpa using stale
    · rfl

/-- The order of the marked registers does not matter. -/
theorem InstPasses.congr {limit : Nat} {defined defined' : List Nat} {inst : MALInst}
    (same : ∀ reg, reg ∈ defined ↔ reg ∈ defined') :
    InstPasses limit defined inst ↔ InstPasses limit defined' inst := by
  simp only [InstPasses, same]

/-- The scan succeeds when every instruction passes against what comes before it. -/
theorem malVerifyInst_foldlM (limit : Nat) (insts : List MALInst) (defined : List Nat) :
    (insts.foldlM (malVerifyInst limit) defined).isSome = true ↔
      ∀ before inst after, insts = before ++ inst :: after →
        InstPasses limit (defined ++ malDefs before) inst := by
  induction insts generalizing defined with
  | nil => simp
  | cons first rest ih =>
    -- A position in the list is its head or a position in its tail.
    have positions : (∀ before inst after, first :: rest = before ++ inst :: after →
        InstPasses limit (defined ++ malDefs before) inst) ↔
        InstPasses limit defined first ∧
          ∀ before inst after, rest = before ++ inst :: after →
            InstPasses limit ((first.defines.toList ++ defined) ++ malDefs before) inst := by
      -- What is marked at the start of the tail includes what the head defines.
      have moved : ∀ before inst,
          InstPasses limit (defined ++ malDefs (first :: before)) inst ↔
            InstPasses limit ((first.defines.toList ++ defined) ++ malDefs before) inst := by
        intro before inst
        refine InstPasses.congr fun reg => ?_
        simp only [malDefs_cons, List.mem_append]
        tauto
      constructor
      · intro passes
        refine ⟨by simpa [malDefs] using passes [] first rest rfl, ?_⟩
        intro before inst after split
        rw [← moved]
        exact passes (first :: before) inst after (by rw [split, List.cons_append])
      · rintro ⟨head, tail⟩ before inst after split
        cases before with
        | nil =>
          obtain ⟨rfl, rfl⟩ := List.cons.inj split
          simpa [malDefs] using head
        | cons other before =>
          obtain ⟨rfl, within⟩ := List.cons.inj split
          rw [moved]
          exact tail before inst after within
    -- The head is verified first, and the scan goes on when it passes.
    rw [positions, List.foldlM_cons, malVerifyInst_eq]
    by_cases passes : InstPasses limit defined first
    · simp [passes, ih]
    · simp [passes]

/-- A list defines each register once when no instruction defines a register again. -/
theorem malDefs_nodup_iff (insts : List MALInst) :
    (malDefs insts).Nodup ↔ ∀ before inst after, insts = before ++ inst :: after →
      ∀ reg, inst.defines = some reg → reg ∉ malDefs before := by
  constructor
  · intro once before inst after split reg defines again
    rw [split, malDefs_append, malDefs_cons, defines] at once
    exact (List.nodup_append.mp once).2.2 reg again reg (by simp) rfl
  · intro fresh
    -- The definitions are collected from the end, so each is new against those before it.
    induction insts using List.reverseRecOn with
    | nil => exact List.nodup_nil
    | append_singleton insts inst ih =>
      -- The instructions in front define each register once.
      have front : (malDefs insts).Nodup := ih fun before other after split =>
        fresh before other (after ++ [inst]) (by rw [split]; simp)
      cases defines : inst.defines with
      | none => simpa [malDefs_append, defines, malDefs] using front
      | some reg =>
        have new := fresh insts inst [] rfl reg defines
        rw [malDefs_append, malDefs_cons, defines]
        refine List.nodup_append.mpr ⟨front, by simp [malDefs], ?_⟩
        -- The register at the end is none of those before.
        intro x member y other same
        simp only [Option.toList_some, malDefs, List.filterMap_nil, List.append_nil,
          List.mem_singleton] at other
        exact new (other ▸ same ▸ member)

/-- What the scan accepts: the list form of single assignment. -/
theorem malVerifySSA_iff (fn : MALFunction) :
    malVerifySSA fn = true ↔ (malDefs fn.insts).Nodup ∧ RegistersBounded fn ∧ ListOrdered fn ∧
      ParamsKept fn ∧ ReadsDefined fn := by
  rw [malVerifySSA, malVerifyInst_foldlM, malDefs_nodup_iff]
  have initial : ∀ reg, reg ∈ List.range (min fn.paramCount fn.nextSSAReg) ↔
      reg < fn.paramCount ∧ reg < fn.nextSSAReg := by
    intro reg
    rw [List.mem_range]
    omega
  simp only [InstPasses, List.mem_append, initial, not_or]
  constructor
  -- Each condition is read off the pass of the instruction that it concerns.
  · intro passes
    refine ⟨fun before inst after split reg defines =>
      ((passes before inst after split).2 reg defines).2.2, ?_, ?_, ?_, ?_⟩
    · intro inst member
      obtain ⟨before, after, split⟩ := List.append_of_mem member
      exact ⟨fun reg read => ((passes before inst after split).1 reg read).1,
        fun reg defines => ((passes before inst after split).2 reg defines).1⟩
    · intro before inst after split reg read later
      -- A definition from here on would find the register marked by the read.
      obtain ⟨other, member, defines⟩ := mem_malDefs.mp later
      obtain ⟨middle, rest, tail⟩ := List.append_of_mem member
      have position : fn.insts = (before ++ middle) ++ other :: rest := by
        rw [split, tail, List.append_assoc]
      have fresh := ((passes _ other rest position).2 reg defines).2
      rcases ((passes before inst after split).1 reg read).2 with param | earlier
      · exact fresh.1 ⟨param.1, param.2⟩
      · exact fresh.2 (by rw [malDefs_append]; exact List.mem_append_left _ earlier)
    · intro reg member
      obtain ⟨inst, place, defines⟩ := mem_malDefs.mp member
      obtain ⟨before, after, split⟩ := List.append_of_mem place
      obtain ⟨bound, unmarked, -⟩ := (passes before inst after split).2 reg defines
      exact Nat.le_of_not_lt fun param => unmarked ⟨param, bound⟩
    · intro inst member reg read
      obtain ⟨before, after, split⟩ := List.append_of_mem member
      rcases ((passes before inst after split).1 reg read).2 with param | earlier
      · exact .inl param.1
      · refine .inr ?_
        rw [split, malDefs_append]
        exact List.mem_append_left _ earlier
  -- The conditions together let every instruction pass at its position.
  · rintro ⟨once, bounded, ordered, params, defined⟩ before inst after split
    have member : inst ∈ fn.insts := by rw [split]; simp
    refine ⟨fun reg read => ?_, fun reg defines => ?_⟩
    · have bound := (bounded inst member).1 reg read
      refine ⟨bound, (defined inst member reg read).imp (fun param => ⟨param, bound⟩) ?_⟩
      intro somewhere
      rw [split, malDefs_append, List.mem_append] at somewhere
      exact somewhere.resolve_right (ordered before inst after split reg read)
    · have defs : reg ∈ malDefs fn.insts := mem_malDefs.mpr ⟨inst, member, defines⟩
      -- A parameter is not defined again.
      have kept := params reg defs
      refine ⟨(bounded inst member).2 reg defines, ?_, once before inst after split reg defines⟩
      omega

/-- A block entered without passing a definition ends a path that has passed none. -/
theorem EntersWithout.path {blocks : List MALBlock} {reg index : Nat}
    (enters : EntersWithout blocks reg index) :
    ∃ visited, MALPath blocks visited index ∧
      ∀ earlier ∈ visited, ¬ DefinesAt blocks earlier reg := by
  -- The path is extended by the block that was passed, which defines nothing.
  induction enters with
  | entry => exact ⟨[], .entry, by simp⟩
  | step _ clear edge ih =>
    obtain ⟨visited, path, none⟩ := ih
    refine ⟨_, path.step edge, fun earlier member => ?_⟩
    rcases List.mem_append.mp member with old | last
    · exact none earlier old
    · rw [List.mem_singleton.mp last]
      exact clear

/-- A path that has passed no definition enters its last block without passing one. -/
theorem MALPath.entersWithout {blocks : List MALBlock} {reg : Nat} {visited : List Nat}
    {index : Nat} (path : MALPath blocks visited index)
    (clear : ∀ earlier ∈ visited, ¬ DefinesAt blocks earlier reg) :
    EntersWithout blocks reg index := by
  induction path with
  | entry => exact .entry
  -- One more block has no definition either.
  | @step visited index target _ edge ih =>
    refine .step (ih fun earlier member => clear earlier (List.mem_append_left _ member)) ?_ edge
    exact clear index (List.mem_append_right _ List.mem_cons_self)

/-- An instruction of a block stands in the function with the same instructions around it. -/
theorem MALFunction.insts_split {fn : MALFunction} {index : Nat} {block : MALBlock}
    (found : fn.blocks[index]? = some block) :
    ∃ front back, fn.insts = front ++ block.insts ++ back := by
  -- The instructions in front and behind are those of the other blocks.
  obtain ⟨before, after, split⟩ := List.append_of_mem (List.mem_of_getElem? found)
  refine ⟨before.flatMap (·.insts), after.flatMap (·.insts), ?_⟩
  rw [MALFunction.insts, split]
  simp

/-- In list order a register is defined before its reads on all paths just when no path goes
around its definitions. -/
theorem definedOnPaths_iff {fn : MALFunction} (ordered : ListOrdered fn) :
    DefinedOnPaths fn ↔ NoPathAround fn := by
  constructor
  -- A path that enters around the definitions reaches the read.
  · rintro defined index reg ⟨block, found, inst, member, read⟩ notParam inside enters
    obtain ⟨visited, path, clear⟩ := enters.path
    obtain ⟨before, after, split⟩ := List.append_of_mem member
    rcases defined visited index path block found before inst after split reg read with
      param | ⟨earlier, passed, defines⟩ | here
    · omega
    · exact clear earlier passed defines
    · refine inside ⟨block, found, ?_⟩
      rw [split, malDefs_append]
      exact List.mem_append_left _ here
  · intro around visited index path block found before inst after split reg read
    by_contra missing
    simp only [not_or, not_exists, not_and] at missing
    -- A read without an earlier definition would show such a path.
    obtain ⟨notParam, clear, notHere⟩ := missing
    refine around index reg ⟨block, found, inst, by rw [split]; simp, read⟩ (by omega) ?_
      (path.entersWithout clear)
    -- A definition in the block itself comes before the read in list order.
    rintro ⟨same, found', defines⟩
    obtain rfl : block = same := Option.some.inj (found.symm.trans found')
    obtain ⟨front, back, whole⟩ := MALFunction.insts_split found
    have position : fn.insts = (front ++ before) ++ inst :: (after ++ back) := by
      rw [whole, split]
      simp
    -- A later definition is excluded by the order of the list.
    have later := ordered _ inst _ position reg read
    rw [split, malDefs_append, List.mem_append] at defines
    rcases defines with earlier | rest
    · exact notHere earlier
    · refine later ?_
      rw [malDefs_cons] at rest ⊢
      rw [malDefs_append]
      simp only [List.mem_append] at rest ⊢
      tauto

/-- The verifier decides single assignment for precisely these functions: where each register has
one definition, below the counter and before its uses in list order, the parameters are kept and
all reads defined somewhere just when no path goes around a definition. -/
theorem malVerifySSA_correct_iff (fn : MALFunction) :
    VerifierCorrect fn ↔
      ((malDefs fn.insts).Nodup → RegistersBounded fn → ListOrdered fn →
        (ParamsKept fn ∧ ReadsDefined fn ↔ NoPathAround fn)) := by
  -- Apart from its last two conditions the verdict says what single assignment says.
  rw [VerifierCorrect, malVerifySSA_iff]
  constructor
  -- On a function of the form the verdict comes down to its last two conditions.
  · rintro ⟨sound, complete⟩ once bounded ordered
    constructor
    · rintro ⟨params, defined⟩
      exact (definedOnPaths_iff ordered).mp
        (sound ⟨once, bounded, ordered, params, defined⟩).paths
    · intro around
      have form : SSAForm fn := ⟨once, (definedOnPaths_iff ordered).mpr around⟩
      obtain ⟨-, -, -, kept⟩ := complete form bounded ordered
      exact kept
  -- The conditions that are left give either direction.
  · intro decided
    constructor
    · rintro ⟨once, bounded, ordered, kept⟩
      exact ⟨once, (definedOnPaths_iff ordered).mpr ((decided once bounded ordered).mp kept)⟩
    · intro form bounded ordered
      exact ⟨form.once, bounded, ordered, (decided form.once bounded ordered).mpr
        ((definedOnPaths_iff ordered).mp form.paths)⟩

/-- The entry branches over the block that defines the register which the last block returns. -/
def malSkippedDefinition : MALFunction :=
  { malBlocksOnly
      [[malBranchTo 2], [⟨1, .copy, .i32, 0, [malOperandImmInt 1 .i32]⟩],
        [⟨2, .ret, .void, malInvalidReg, [malOperandReg 0 .i32]⟩]] with
    nextSSAReg := 1 }

/-- The scan accepts a function whose only path reads an undefined register. -/
theorem malVerifySSA_not_correct : ¬ ∀ fn : MALFunction, VerifierCorrect fn := by
  intro correct
  have form := (correct malSkippedDefinition).1 (by decide)
  have path : MALPath malSkippedDefinition.blocks [0] 2 :=
    MALPath.step .entry (by decide)
  rcases form.paths [0] 2 path _ rfl [] _ [] rfl 0 (by decide) with
    param | ⟨earlier, passed, block, found, defines⟩ | here
  · exact absurd param (by decide)
  · -- The path has left the entry only, which defines nothing.
    obtain rfl := List.mem_singleton.mp passed
    obtain rfl := Option.some.inj found
    exact absurd defines (by decide)
  · exact absurd here (by decide)

end Wirble
