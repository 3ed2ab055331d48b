import Mathlib.Data.List.Flatten
import Wirble.Mal.Cfg
import Wirble.Tos.Layout

/-! Which modules keep their block references when they are lowered into one list of blocks. -/

namespace Wirble

/-- A new block at the end of a function is numbered by the count of blocks, a number of 32 bits. -/
def malBlockCreate (fn : MALFunction) : MALFunction :=
  { fn with blocks := fn.blocks ++ [⟨fn.blocks.length % 2 ^ 32, [], [], []⟩] }

/-- The blocks of a function are numbered in the order in which they were created. -/
def MALFunction.Numbered (fn : MALFunction) : Prop :=
  ∀ index block, fn.blocks[index]? = some block → block.id = index % 2 ^ 32

/-- The module with the edges of all functions. -/
def malModuleCfg (module : MALModule) : MALModule :=
  { module with functions := module.functions.map malComputeCfg }

/-- The place of a function's block in the list of all blocks. -/
def malBlockPlace (module : MALModule) (fnIndex index : Nat) : Nat :=
  ((module.functions.take fnIndex).flatMap (·.blocks)).length + index

/-- The blocks of a program are told apart by their identifiers, the count of blocks holds them all,
and every successor of a block is found where the edge leads in the function of the block. -/
structure BlocksResolved (module : MALModule) (program : MDSProgram) : Prop where
  distinct : (program.blocks.map (·.id)).Nodup
  counted : program.blocks.length < 2 ^ 32
  found : ∀ fnIndex fn, module.functions[fnIndex]? = some fn → ∀ index < fn.blocks.length,
    ∃ block, (tosBuildFromMDS program).blocks[malBlockPlace module fnIndex index]? = some block ∧
      List.Forall₂ (fun id target =>
          tosFindBlockIndex (tosBuildFromMDS program).blocks id =
            some (malBlockPlace module fnIndex target))
        block.successors (malEdgeTargets fn.blocks index)

def MALFunction.hasBody (fn : MALFunction) : Bool := !fn.blocks.isEmpty

/-- At most one function has blocks, and fewer than there are identifiers. -/
structure OneBody (module : MALModule) : Prop where
  bodies : (module.functions.filter MALFunction.hasBody).length ≤ 1
  counted : (module.functions.flatMap (·.blocks)).length < 2 ^ 32

section Numbered

variable {fn : MALFunction}

/-- Creating a block numbers it. -/
theorem MALFunction.Numbered.create (numbered : fn.Numbered) : (malBlockCreate fn).Numbered := by
  -- The new block is the last one.
  intro index block found
  rw [malBlockCreate] at found
  rcases Nat.lt_trichotomy index fn.blocks.length with before | last | after
  · rw [List.getElem?_append_left before] at found
    exact numbered index block found
  · rw [last, List.getElem?_append_right (Nat.le_refl _), Nat.sub_self] at found
    rw [← Option.some.inj found, last]
  · rw [List.getElem?_eq_none] at found
    · cases found
    · rw [List.length_append, List.length_singleton]
      omega

/-- The edge pass keeps the numbers. -/
theorem MALFunction.Numbered.cfg (numbered : fn.Numbered) : (malComputeCfg fn).Numbered := by
  intro index block found
  -- The pass keeps the block at each index, with its number.
  have same := (malComputeCfg_sameCode fn).at_index index
  rw [found, Option.map_some] at same
  cases before : fn.blocks[index]? with
  | none =>
    rw [before] at same
    cases same
  | some old =>
    rw [before, Option.map_some] at same
    rw [(Prod.mk.inj (Option.some.inj same)).1]
    exact numbered index old before

/-- The numbers of fewer blocks than there are identifiers are distinct. -/
theorem MALFunction.Numbered.nodup (numbered : fn.Numbered)
    (few : fn.blocks.length < 2 ^ 32) : (fn.blocks.map (·.id)).Nodup := by
  -- Each block has its index for its number, and so few indices do not wrap.
  have range : fn.blocks.map (·.id) = List.range fn.blocks.length := by
    apply List.ext_getElem
    · rw [List.length_map, List.length_range]
    · intro index inside _
      rw [List.length_map] at inside
      rw [List.getElem_map, List.getElem_range,
        numbered index _ (List.getElem?_eq_getElem inside), Nat.mod_eq_of_lt (by omega)]
  rw [range]
  exact List.nodup_range

/-- A function has a body just when it has blocks. -/
theorem MALFunction.hasBody_iff : fn.hasBody = true ↔ fn.blocks ≠ [] := by
  rw [MALFunction.hasBody]
  cases fn.blocks with
  | nil => exact iff_of_false Bool.false_ne_true fun other => other rfl
  | cons first rest => exact iff_of_true rfl (List.cons_ne_nil first rest)

/-- A function with blocks has a first one. -/
theorem MALFunction.Numbered.zero_mem (numbered : fn.Numbered) (body : fn.hasBody = true) :
    0 ∈ fn.blocks.map (·.id) := by
  cases blocks : fn.blocks with
  | nil => exact absurd blocks (MALFunction.hasBody_iff.mp body)
  | cons first rest =>
    have id := numbered 0 first (by rw [blocks]; rfl)
    rw [List.map_cons, id]
    exact List.mem_cons_self

end Numbered

section Bodies

variable {functions : List MALFunction}

/-- Of functions at most one of which has blocks, a function with blocks has all of them. -/
theorem flatMap_of_one_body (bodies : (functions.filter MALFunction.hasBody).length ≤ 1)
    {fnIndex : Nat} {fn : MALFunction} (found : functions[fnIndex]? = some fn)
    (body : fn.blocks ≠ []) :
    (functions.take fnIndex).flatMap (·.blocks) = [] ∧ functions.flatMap (·.blocks) = fn.blocks := by
  obtain ⟨inside, same⟩ := List.getElem?_eq_some_iff.mp found
  have split : functions = functions.take fnIndex ++ fn :: functions.drop (fnIndex + 1) := by
    rw [← same, ← List.drop_eq_getElem_cons inside, List.take_append_drop]
  -- The functions on both sides have no blocks.
  rw [split, List.filter_append, List.filter_cons_of_pos (MALFunction.hasBody_iff.mpr body), List.length_append,
    List.length_cons] at bodies
  have empty : ∀ side : List MALFunction, (side.filter MALFunction.hasBody).length = 0 →
      side.flatMap (·.blocks) = [] := by
    intro side none_left
    rw [List.length_eq_zero_iff, List.filter_eq_nil_iff] at none_left
    rw [List.flatMap_eq_nil_iff]
    intro other member
    by_contra filled
    exact none_left other member (MALFunction.hasBody_iff.mpr filled)
  -- So the blocks are those of the function alone.
  have before := empty (functions.take fnIndex) (by omega)
  have after := empty (functions.drop (fnIndex + 1)) (by omega)
  refine ⟨before, ?_⟩
  rw [split, List.flatMap_append, List.flatMap_cons, before, after, List.append_nil,
    List.nil_append]

/-- Functions whose identifiers are all distinct have at most one body. -/
theorem one_body_of_nodup (numbered : ∀ fn ∈ functions, fn.Numbered)
    (distinct : ((functions.flatMap (·.blocks)).map (·.id)).Nodup) :
    (functions.filter MALFunction.hasBody).length ≤ 1 := by
  rw [List.map_flatMap, List.nodup_flatMap] at distinct
  -- Two bodies would both have an identifier of zero.
  have apart := distinct.2.filter MALFunction.hasBody
  have member : ∀ fn ∈ functions.filter MALFunction.hasBody,
      0 ∈ fn.blocks.map (·.id) := by
    intro fn inside
    obtain ⟨place, body⟩ := List.mem_filter.mp inside
    exact (numbered fn place).zero_mem body
  cases bodies : functions.filter MALFunction.hasBody with
  | nil => exact Nat.zero_le 1
  | cons first rest =>
    cases rest with
    | nil => exact Nat.le_refl 1
    | cons second more =>
      rw [bodies] at apart member
      -- The first two bodies share the identifier zero.
      have disjoint := (List.pairwise_cons.mp apart).1 second List.mem_cons_self
      exact absurd (member second (List.mem_cons_of_mem _ List.mem_cons_self))
        (disjoint (member first List.mem_cons_self))

end Bodies

section Lowered

variable {module : MALModule} {selector : Option MDSInstrSelector} {machine : MDSMachine}
  {program : MDSProgram}

/-- Lowered blocks have the identifiers and successors of their sources. -/
theorem mdsLowerFromMAL_blocks (lowered : mdsLowerFromMAL module selector machine = some program) :
    program.blocks.map (fun block => (block.id, block.successors)) =
      (module.functions.flatMap (·.blocks)).map fun block => (block.id, block.succs) := by
  obtain ⟨blocks, each, rfl⟩ := Option.map_eq_some_iff.mp lowered
  -- Each block of the module was lowered on its own, with its number and its edges.
  have related := Dag.mapM_eq_some_iff.mp each
  have same : List.Forall₂ (· = ·)
      ((module.functions.flatMap (·.blocks)).map fun block => (block.id, block.succs))
      (blocks.map fun block => (block.id, block.successors)) := by
    rw [List.forall₂_map_left_iff, List.forall₂_map_right_iff]
    apply related.imp
    intro block out lower
    obtain ⟨instructions, -, rfl⟩ := Option.map_eq_some_iff.mp lower
    rfl
  rw [List.forall₂_eq_eq_eq] at same
  exact same.symm

/-- Built blocks have the identifiers of the program. -/
theorem tosBuildFromMDS_ids (program : MDSProgram) :
    (tosBuildFromMDS program).blocks.map (·.id) = program.blocks.map (·.id) := by
  -- Building goes through the blocks one by one and keeps their numbers.
  have each : ∀ (blocks : List MDSBasicBlock) (layout first : Nat),
      (tosBuildBlocks blocks layout first).1.map (·.id) = blocks.map (·.id) := by
    intro blocks
    induction blocks with
    | nil => exact fun _ _ => rfl
    | cons block rest ih =>
      intro layout first
      rw [tosBuildBlocks, List.map_cons, ih, List.map_cons]
      rfl
  exact each _ _ _

/-- The edge pass gives bodies to no functions, and takes none away. -/
theorem malModuleCfg_filter (functions : List MALFunction) :
    ((functions.map malComputeCfg).filter MALFunction.hasBody).length =
      (functions.filter MALFunction.hasBody).length := by
  -- The edge pass keeps the number of blocks, so it keeps which functions have any.
  have same : MALFunction.hasBody ∘ malComputeCfg = MALFunction.hasBody := by
    funext fn
    rw [Function.comp_apply, Bool.eq_iff_iff, MALFunction.hasBody_iff, MALFunction.hasBody_iff,
      ne_eq, ne_eq, ← List.length_eq_zero_iff, ← List.length_eq_zero_iff,
      (malComputeCfg_sameCode fn).length]
  rw [List.filter_map, List.length_map, same]

/-- The program of a module with one body has the blocks of that body. -/
theorem lowered_of_body (bodies : OneBody module)
    (lowered : mdsLowerFromMAL (malModuleCfg module) selector machine = some program)
    {fnIndex : Nat} {fn : MALFunction} (place : module.functions[fnIndex]? = some fn)
    (body : fn.blocks ≠ []) :
    program.blocks.map (fun block => (block.id, block.successors)) =
      (malComputeCfg fn).blocks.map fun block => (block.id, block.succs) := by
  have found : (malModuleCfg module).functions[fnIndex]? = some (malComputeCfg fn) := by
    rw [malModuleCfg, List.getElem?_map, place, Option.map_some]
  have filled : (malComputeCfg fn).blocks ≠ [] := by
    rw [ne_eq, ← List.length_eq_zero_iff, (malComputeCfg_sameCode fn).length,
      List.length_eq_zero_iff]
    exact body
  -- The only body of the module is the one at this index.
  have single : ((malModuleCfg module).functions.filter MALFunction.hasBody).length ≤ 1 := by
    rw [malModuleCfg, malModuleCfg_filter]
    exact bodies.bodies
  obtain ⟨-, blocks⟩ := flatMap_of_one_body single found filled
  rw [mdsLowerFromMAL_blocks lowered, blocks]

/-- Its identifiers are those of the body. -/
theorem ids_of_body (bodies : OneBody module)
    (lowered : mdsLowerFromMAL (malModuleCfg module) selector machine = some program)
    {fnIndex : Nat} {fn : MALFunction} (place : module.functions[fnIndex]? = some fn)
    (body : fn.blocks ≠ []) : program.blocks.map (·.id) = fn.blocks.map (·.id) := by
  have pairs := congrArg (List.map Prod.fst) (lowered_of_body bodies lowered place body)
  have code := congrArg (List.map Prod.fst) (malComputeCfg_sameCode fn)
  rw [List.map_map, List.map_map] at pairs code
  exact pairs.trans code

/-- A block of a single body finds its successors. -/
theorem successors_found (bodies : OneBody module) (numbered : ∀ fn ∈ module.functions, fn.Numbered)
    (lowered : mdsLowerFromMAL (malModuleCfg module) selector machine = some program)
    {fnIndex : Nat} {fn : MALFunction} (place : module.functions[fnIndex]? = some fn) {index : Nat}
    (inside : index < fn.blocks.length) :
    ∃ block, (tosBuildFromMDS program).blocks[malBlockPlace module fnIndex index]? = some block ∧
      List.Forall₂ (fun id target =>
          tosFindBlockIndex (tosBuildFromMDS program).blocks id =
            some (malBlockPlace module fnIndex target))
        block.successors (malEdgeTargets fn.blocks index) := by
  have body : fn.blocks ≠ [] := by
    intro empty
    rw [empty] at inside
    exact absurd inside (Nat.not_lt_zero index)
  obtain ⟨front, all⟩ := flatMap_of_one_body bodies.bodies place body
  have offset : ∀ index, malBlockPlace module fnIndex index = index := by
    intro index
    rw [malBlockPlace, front, List.length_nil, Nat.zero_add]
  -- The program has the blocks of this function only.
  have blocks := lowered_of_body bodies lowered place body
  have length : program.blocks.length = fn.blocks.length := by
    have lengths := congrArg List.length blocks
    rw [List.length_map, List.length_map, (malComputeCfg_sameCode fn).length] at lengths
    exact lengths
  obtain ⟨block, found⟩ : ∃ block, program.blocks[index]? = some block :=
    ⟨_, List.getElem?_eq_getElem (by rw [length]; exact inside)⟩
  obtain ⟨first, built, -⟩ := tosBuildFromMDS_block found
  refine ⟨tosBuildBlock block (0 + index) first, by rw [offset]; exact built, ?_⟩
  -- The successors are the identifiers of the targets.
  have succs : block.successors = (malEdgeTargets fn.blocks index).map (malBlockIdAt fn.blocks) := by
    -- What is stored as successors is what the edges name.
    have pair := congrArg (·[index]?) blocks
    simp only [List.getElem?_map, found, Option.map_some] at pair
    rw [← malComputeCfg_succs fn inside, malSuccsAt]
    cases source : (malComputeCfg fn).blocks[index]? with
    | none =>
      rw [source] at pair
      cases pair
    | some old =>
      rw [source, Option.map_some] at pair
      exact (Prod.mk.inj (Option.some.inj pair)).2
  show List.Forall₂ _ block.successors _
  rw [succs, List.forall₂_map_left_iff, List.forall₂_same]
  intro target edge
  have small : fn.blocks.length < 2 ^ 32 := by
    rw [← all]
    exact bodies.counted
  have ids := (tosBuildFromMDS_ids program).trans (ids_of_body bodies lowered place body)
  -- The search by identifier finds the target in either list.
  have search := malBlockById_idAt ((numbered fn (List.mem_of_getElem? place)).nodup small)
    (malEdgeTargets_lt edge)
  have same := congrArg (List.findIdx? (· == malBlockIdAt fn.blocks target)) ids
  rw [List.findIdx?_map, List.findIdx?_map] at same
  rw [offset]
  exact same.trans search

/-- A module that is lowered keeps its block references exactly if it has one body at most. -/
theorem mdsLowerFromMAL_blocksResolved_iff
    (numbered : ∀ fn ∈ module.functions, fn.Numbered)
    (lowered : mdsLowerFromMAL (malModuleCfg module) selector machine = some program) :
    BlocksResolved module program ↔ OneBody module := by
  have total : program.blocks.length = (module.functions.flatMap (·.blocks)).length := by
    rw [length_mdsLowerFromMAL lowered, malModuleCfg, List.flatMap_map, List.length_flatMap,
      List.length_flatMap]
    have each : ∀ fn : MALFunction, (malComputeCfg fn).blocks.length = fn.blocks.length :=
      fun fn => (malComputeCfg_sameCode fn).length
    simp only [each]
  constructor
  · -- Two bodies give the identifier zero twice.
    intro resolved
    refine ⟨?_, total ▸ resolved.counted⟩
    have distinct := resolved.distinct
    have ids := congrArg (List.map Prod.fst) (mdsLowerFromMAL_blocks lowered)
    rw [List.map_map, List.map_map] at ids
    rw [show program.blocks.map (·.id) = _ from ids] at distinct
    have cfgNumbered : ∀ fn ∈ (malModuleCfg module).functions, fn.Numbered := by
      intro fn member
      obtain ⟨old, place, rfl⟩ := List.mem_map.mp member
      exact (numbered old place).cfg
    have single := one_body_of_nodup cfgNumbered distinct
    rw [malModuleCfg, malModuleCfg_filter] at single
    exact single
  · -- One body numbers its blocks by their places.
    intro bodies
    refine ⟨?_, total ▸ bodies.counted, ?_⟩
    · by_cases body : ∃ fn ∈ module.functions, fn.blocks ≠ []
      · obtain ⟨fn, member, filled⟩ := body
        obtain ⟨fnIndex, place⟩ := List.mem_iff_getElem?.mp member
        obtain ⟨-, all⟩ := flatMap_of_one_body bodies.bodies place filled
        rw [ids_of_body bodies lowered place filled]
        exact (numbered fn member).nodup (all ▸ bodies.counted)
      · -- Without bodies there are no blocks.
        have none_left : module.functions.flatMap (·.blocks) = [] := by
          rw [List.flatMap_eq_nil_iff]
          intro fn member
          by_contra filled
          exact body ⟨fn, member, filled⟩
        rw [none_left, List.length_nil, List.length_eq_zero_iff] at total
        rw [total]
        exact List.nodup_nil
    · intro fnIndex fn place index inside
      exact successors_found bodies numbered lowered place inside

end Lowered

/-- A function of so many blocks, each of which returns a register after copies of it. -/
def malReturns (blocks : List (List MALInst)) : MALFunction where
  name := "f"
  retType := .i32
  paramTypes := []
  paramCount := 0
  blocks := blocks.mapIdx fun index insts => ⟨index, insts, [], []⟩
  nextSSAReg := 1

def malCopyZero : MALInst := ⟨0, .copy, .i32, 1, [malOperandReg 0 .i32]⟩

def malReturnZero : MALInst := ⟨0, .ret, .i32, malInvalidReg, [malOperandReg 0 .i32]⟩

/-- Few blocks are numbered as they stand. -/
theorem malReturns_numbered {blocks : List (List MALInst)} (few : blocks.length < 2 ^ 32) :
    (malReturns blocks).Numbered := by
  intro index block found
  rw [malReturns, List.getElem?_mapIdx] at found
  obtain ⟨insts, place, rfl⟩ := Option.map_eq_some_iff.mp found
  obtain ⟨inside, -⟩ := List.getElem?_eq_some_iff.mp place
  exact (Nat.mod_eq_of_lt (show index < 2 ^ 32 by omega)).symm

/-- A block that falls through to the next one. -/
def malFallThrough : MALModule := ⟨[malReturns [[malCopyZero], [malReturnZero]]], none⟩

/-- Two functions of one block each. -/
def malTwoReturns : MALModule := ⟨[malReturns [[malReturnZero]], malReturns [[malReturnZero]]], none⟩

/-- One function keeps its edge. -/
theorem mdsLowerFromMAL_blocksResolved_fallThrough :
    ∃ program, mdsLowerFromMAL (malModuleCfg malFallThrough) none (mdsLoadMachine .generic) =
      some program ∧ BlocksResolved malFallThrough program := by
  have lowered : (mdsLowerFromMAL (malModuleCfg malFallThrough) none
      (mdsLoadMachine .generic)).isSome = true := by
    decide
  -- The module is lowered as it stands, and its only body is numbered by index.
  obtain ⟨program, some_⟩ := Option.isSome_iff_exists.mp lowered
  refine ⟨program, some_, (mdsLowerFromMAL_blocksResolved_iff ?_ some_).mpr ⟨?_, ?_⟩⟩
  · intro fn member
    rw [List.mem_singleton.mp member]
    exact malReturns_numbered (by decide)
  · decide
  · decide

/-- The blocks of two functions have the same identifier. -/
theorem mdsLowerFromMAL_not_blocksResolved :
    ¬ ∀ (module : MALModule) (selector : Option MDSInstrSelector) (machine : MDSMachine)
      (program : MDSProgram), (∀ fn ∈ module.functions, fn.Numbered) →
      mdsLowerFromMAL (malModuleCfg module) selector machine = some program →
      BlocksResolved module program := by
  -- Two functions of one block each are numbered from zero.
  intro claimed
  have lowered : (mdsLowerFromMAL (malModuleCfg malTwoReturns) none
      (mdsLoadMachine .generic)).isSome = true := by
    decide
  obtain ⟨program, some_⟩ := Option.isSome_iff_exists.mp lowered
  have resolved := claimed malTwoReturns none (mdsLoadMachine .generic) program ?_ some_
  -- The program lists the identifier zero twice.
  · have ids := congrArg (List.map Prod.fst) (mdsLowerFromMAL_blocks some_)
    rw [List.map_map, List.map_map] at ids
    have twice : program.blocks.map (·.id) = [0, 0] := ids.trans (by decide)
    have distinct := resolved.distinct
    rw [twice] at distinct
    exact absurd distinct (by decide)
  · intro fn member
    have same : fn = malReturns [[malReturnZero]] := by
      rcases List.mem_cons.mp member with first | later
      · exact first
      · exact List.mem_singleton.mp later
    rw [same]
    exact malReturns_numbered (by decide)

end Wirble
