import Mathlib.Data.List.Nodup
import Wirble.Mal.Ir

/-! Control-flow edges: what the edge pass stores, and when the stored edges are exact. -/

namespace Wirble

/-- The block identifiers that the edge pass reads from a terminator. -/
def malReadBlocks (term : MALInst) : List Nat :=
  match term.opcode, term.operands with
  | .br, operand :: _ => operand.block?.toList
  -- A conditional branch reads the union of both operands without looking at their kinds.
  | .cbr, _ :: first :: second :: _ => [first.blockBits, second.blockBits]
  | _, _ => []

/-- The positions of the blocks that the edge pass makes successors of a block. -/
def malEdgeTargets (blocks : List MALBlock) (index : Nat) : List Nat :=
  match blocks[index]?.bind MALBlock.last with
  | none => []
  | some term =>
    if malInstIsTerminator term then (malReadBlocks term).filterMap (malBlockById blocks)
    else if index + 1 < blocks.length then [index + 1] else []

/-- The identifier of the block at a position. -/
def malBlockIdAt (blocks : List MALBlock) (index : Nat) : Nat :=
  (blocks[index]?.map (·.id)).getD 0

/-- Record an edge in the successor list of one block and the predecessor list of the other. -/
def malBlockAddEdge (source : Nat) (blocks : List MALBlock) (target : Nat) : List MALBlock :=
  (blocks.modify source fun block =>
    { block with succs := block.succs ++ [malBlockIdAt blocks target] }).modify target fun block =>
    { block with preds := block.preds ++ [malBlockIdAt blocks source] }

/-- One round of the loop: clear both lists of a block, then add its outgoing edges. -/
def malCfgStep (blocks : List MALBlock) (index : Nat) : List MALBlock :=
  (malEdgeTargets blocks index).foldl (malBlockAddEdge index)
    (blocks.modify index fun block => { block with preds := [], succs := [] })

def malComputeCfg (fn : MALFunction) : MALFunction :=
  { fn with blocks := (List.range fn.blocks.length).foldl malCfgStep fn.blocks }

/-- Two block lists have the same identifiers and instructions, whatever their edges are. -/
def SameCode (blocks blocks' : List MALBlock) : Prop :=
  blocks'.map (fun block => (block.id, block.insts)) =
    blocks.map (fun block => (block.id, block.insts))

namespace SameCode

variable {blocks blocks' : List MALBlock}

/-- Blocks with the same code are as many. -/
theorem length (same : SameCode blocks blocks') : blocks'.length = blocks.length := by
  simpa using congrArg List.length same

/-- Blocks with the same code agree in numbers and instructions at each index. -/
theorem at_index (same : SameCode blocks blocks') (index : Nat) :
    (blocks'[index]?).map (fun block => (block.id, block.insts)) =
      (blocks[index]?).map (fun block => (block.id, block.insts)) := by
  rw [← List.getElem?_map, ← List.getElem?_map, same]

/-- The numbers by index agree. -/
theorem idAt (same : SameCode blocks blocks') : malBlockIdAt blocks' = malBlockIdAt blocks := by
  funext index
  have pair := same.at_index index
  unfold malBlockIdAt
  cases before : blocks[index]? <;> cases after : blocks'[index]? <;>
    simp_all

/-- The last instructions agree. -/
theorem last (same : SameCode blocks blocks') (index : Nat) :
    blocks'[index]?.bind MALBlock.last = blocks[index]?.bind MALBlock.last := by
  have pair := same.at_index index
  cases before : blocks[index]? <;> cases after : blocks'[index]? <;>
    simp_all [MALBlock.last]

/-- A number names the same block. -/
theorem blockById (same : SameCode blocks blocks') :
    malBlockById blocks' = malBlockById blocks := by
  -- The search reads identifiers only.
  have ids : blocks'.map (·.id) = blocks.map (·.id) := by
    have first := congrArg (List.map Prod.fst) same
    simpa [Function.comp_def] using first
  funext id
  have search : ∀ list : List MALBlock,
      malBlockById list id = (list.map (·.id)).findIdx? (· == id) := by
    intro list
    simp [malBlockById, List.findIdx?_map, Function.comp_def]
  rw [search, search, ids]

/-- The jump targets agree. -/
theorem edgeTargets (same : SameCode blocks blocks') :
    malEdgeTargets blocks' = malEdgeTargets blocks := by
  funext index
  simp only [malEdgeTargets, same.last, same.length, same.blockById]

end SameCode

/-- Adding an edge changes the successors of its source and the predecessors of its target. -/
theorem malBlockAddEdge_getElem? (source target : Nat) (blocks : List MALBlock) (index : Nat) :
    (malBlockAddEdge source blocks target)[index]? =
      (blocks[index]?).map fun block =>
        { block with
          succs := if source = index then block.succs ++ [malBlockIdAt blocks target]
            else block.succs
          preds := if target = index then block.preds ++ [malBlockIdAt blocks source]
            else block.preds } := by
  -- Both modifications keep the other fields of the block.
  simp only [malBlockAddEdge, List.getElem?_modify]
  cases blocks[index]? with
  | none => simp
  | some block =>
    simp only [Option.map_some, Option.map_eq_map, Option.some.injEq]
    split_ifs <;> rfl

/-- Adding an edge changes no identifier. -/
theorem malBlockIdAt_addEdge (source target : Nat) (blocks : List MALBlock) :
    malBlockIdAt (malBlockAddEdge source blocks target) = malBlockIdAt blocks := by
  funext index
  simp only [malBlockIdAt, malBlockAddEdge_getElem?, Option.map_map, Function.comp_def]

/-- Adding edges out of one block appends to its successors and to its targets' predecessors. -/
theorem malBlockAddEdge_foldl (source : Nat) (targets : List Nat) (blocks : List MALBlock)
    (index : Nat) :
    (targets.foldl (malBlockAddEdge source) blocks)[index]? =
      (blocks[index]?).map fun block =>
        { block with
          succs := if source = index then block.succs ++ targets.map (malBlockIdAt blocks)
            else block.succs
          preds := block.preds ++
            List.replicate (targets.count index) (malBlockIdAt blocks source) } := by
  induction targets generalizing blocks with
  | nil => simp
  | cons target targets ih =>
    rw [List.foldl_cons, ih, malBlockIdAt_addEdge, malBlockAddEdge_getElem?, Option.map_map]
    congr 1
    funext block
    -- The first edge comes before the edges that the induction describes.
    by_cases atSource : source = index <;> by_cases atTarget : target = index <;>
      simp [atSource, atTarget, List.replicate_succ]

/-- One round rebuilds the lists of its own block and extends the predecessors of the others. -/
theorem malCfgStep_getElem? (blocks : List MALBlock) (round index : Nat) :
    (malCfgStep blocks round)[index]? =
      (blocks[index]?).map fun block =>
        { block with
          succs := if round = index then
              (malEdgeTargets blocks round).map (malBlockIdAt blocks)
            else block.succs
          preds := (if round = index then [] else block.preds) ++
            List.replicate ((malEdgeTargets blocks round).count index)
              (malBlockIdAt blocks round) } := by
  -- Clearing the lists keeps the numbers of the blocks.
  have ids : malBlockIdAt
      (blocks.modify round fun block => { block with preds := [], succs := [] }) =
      malBlockIdAt blocks := by
    funext position
    simp only [malBlockIdAt, List.getElem?_modify]
    cases blocks[position]? with
    | none => rfl
    | some block => simp only [Option.map_some, Option.map_eq_map]; split_ifs <;> rfl
  -- The edges of the round are added to the cleared lists one by one.
  rw [malCfgStep, malBlockAddEdge_foldl, ids, List.getElem?_modify]
  cases blocks[index]? with
  | none => rfl
  | some block =>
    simp only [Option.map_some, Option.map_eq_map, Option.some.injEq]
    split_ifs <;> simp

/-- The predecessors that a run of rounds records for one block. -/
def malIncoming (blocks : List MALBlock) (index : Nat) (rounds : List Nat) : List Nat :=
  rounds.flatMap fun round =>
    List.replicate ((malEdgeTargets blocks round).count index) (malBlockIdAt blocks round)

/-- The rounds leave identifiers and instructions alone. -/
theorem malCfgStep_sameCode (blocks : List MALBlock) (round : Nat) :
    SameCode blocks (malCfgStep blocks round) := by
  refine List.ext_getElem? fun index => ?_
  rw [List.getElem?_map, List.getElem?_map, malCfgStep_getElem?, Option.map_map]
  rfl

/-- Having the same code is transitive. -/
theorem SameCode.trans {blocks blocks' blocks'' : List MALBlock} (first : SameCode blocks blocks')
    (second : SameCode blocks' blocks'') : SameCode blocks blocks'' :=
  Eq.trans second first

/-- Recomputing edges in any number of rounds leaves the code alone. -/
theorem malCfgRounds_sameCode (rounds : List Nat) (blocks : List MALBlock) :
    SameCode blocks (rounds.foldl malCfgStep blocks) := by
  induction rounds generalizing blocks with
  | nil => rfl
  | cons round rounds ih => exact (malCfgStep_sameCode blocks round).trans (ih _)

/-- What the lists of a block hold after the rounds before a count: a finished block has lost the
predecessors that earlier rounds recorded for it. -/
theorem malCfgRounds_getElem? (blocks : List MALBlock) (count index : Nat) :
    ((List.range count).foldl malCfgStep blocks)[index]? =
      (blocks[index]?).map fun block =>
        { block with
          succs := if index < count then (malEdgeTargets blocks index).map (malBlockIdAt blocks)
            else block.succs
          preds := if index < count then malIncoming blocks index (List.range' index (count - index))
            else block.preds ++ malIncoming blocks index (List.range count) } := by
  induction count with
  | zero => simp [malIncoming]
  | succ count ih =>
    have same := malCfgRounds_sameCode (List.range count) blocks
    rw [List.range_succ, List.foldl_append, List.foldl_cons, List.foldl_nil, malCfgStep_getElem?,
      same.edgeTargets, same.idAt, ih, Option.map_map]
    congr 1
    funext block
    -- The round of a block splits the rounds that it forgets from those that it keeps.
    rcases Nat.lt_trichotomy index count with before | rfl | after
    · have split : count + 1 - index = (count - index) + 1 := by omega
      have rounds : List.range' index (count + 1 - index) =
          List.range' index (count - index) ++ [count] := by
        rw [split, List.range'_concat]
        simp
        omega
      simp [before, Nat.lt_succ_of_lt before, Nat.ne_of_gt before, rounds, malIncoming]
    · simp [malIncoming]
    · have late : ¬ index < count := by omega
      have late' : ¬ index < count + 1 := by omega
      simp [late, late', Nat.ne_of_lt after, malIncoming]

/-- The successor identifiers stored for the block at a position. -/
def malSuccsAt (blocks : List MALBlock) (index : Nat) : List Nat :=
  (blocks[index]?.map (·.succs)).getD []

/-- The predecessor identifiers stored for the block at a position. -/
def malPredsAt (blocks : List MALBlock) (index : Nat) : List Nat :=
  (blocks[index]?.map (·.preds)).getD []

/-- The pass leaves identifiers and instructions alone. -/
theorem malComputeCfg_sameCode (fn : MALFunction) :
    SameCode fn.blocks (malComputeCfg fn).blocks :=
  malCfgRounds_sameCode _ _

/-- The successors stored by the pass are the targets it reads. -/
theorem malComputeCfg_succs (fn : MALFunction) {index : Nat} (inside : index < fn.blocks.length) :
    malSuccsAt (malComputeCfg fn).blocks index =
      (malEdgeTargets fn.blocks index).map (malBlockIdAt fn.blocks) := by
  simp [malSuccsAt, malComputeCfg, malCfgRounds_getElem?, inside]

/-- The predecessors stored by the pass come from the block itself and the blocks after it. -/
theorem malComputeCfg_preds (fn : MALFunction) {index : Nat} (inside : index < fn.blocks.length) :
    malPredsAt (malComputeCfg fn).blocks index =
      malIncoming fn.blocks index (List.range' index (fn.blocks.length - index)) := by
  simp [malPredsAt, malComputeCfg, malCfgRounds_getElem?, inside]

/-- A second run of the pass stores what the first one did. -/
theorem malComputeCfg_idempotent (fn : MALFunction) :
    malComputeCfg (malComputeCfg fn) = malComputeCfg fn := by
  have same := malComputeCfg_sameCode fn
  have blocks : (malComputeCfg (malComputeCfg fn)).blocks = (malComputeCfg fn).blocks := by
    refine List.ext_getElem? fun index => ?_
    have length : (malComputeCfg fn).blocks.length = fn.blocks.length := same.length
    rcases Nat.lt_or_ge index fn.blocks.length with inside | outside
    · have first := malCfgRounds_getElem? fn.blocks fn.blocks.length index
      have second := malCfgRounds_getElem? (malComputeCfg fn).blocks fn.blocks.length index
      -- Both runs finish the block, so neither result depends on the lists it started from.
      simp only [inside, if_true, malIncoming, same.edgeTargets, same.idAt] at first second
      have run : (malComputeCfg (malComputeCfg fn)).blocks =
          (List.range fn.blocks.length).foldl malCfgStep (malComputeCfg fn).blocks := by
        rw [malComputeCfg, length]
      have start : (malComputeCfg fn).blocks =
          (List.range fn.blocks.length).foldl malCfgStep fn.blocks := rfl
      rw [run, second, start, first, Option.map_map]
      rfl
    · have after : (malComputeCfg (malComputeCfg fn)).blocks.length = fn.blocks.length := by
        rw [(malComputeCfg_sameCode (malComputeCfg fn)).length, length]
      rw [List.getElem?_eq_none (by omega), List.getElem?_eq_none (by omega)]
  exact congrArg (fun blocks => { malComputeCfg fn with blocks := blocks }) blocks

/-- The edges from one block to another that the code of the first one has: one for each block
operand of its terminator that names the other, or its fall-through. -/
def malNamedEdges (blocks : List MALBlock) (source target : Nat) : Nat :=
  match (blocks[source]?.bind MALBlock.last).filter malInstIsTerminator with
  | some term => (term.operands.filterMap MALOperand.block?).count (malBlockIdAt blocks target)
  | none => if target = source + 1 then 1 else 0

/-- Every edge of the code is stored once at either end, and nothing else is stored. -/
structure CfgExact (blocks : List MALBlock) : Prop where
  named : ∀ source target, source < blocks.length → target < blocks.length →
    (malSuccsAt blocks source).count (malBlockIdAt blocks target) =
      malNamedEdges blocks source target
  mirrored : ∀ source target, source < blocks.length → target < blocks.length →
    (malSuccsAt blocks source).count (malBlockIdAt blocks target) =
      (malPredsAt blocks target).count (malBlockIdAt blocks source)

/-- The blocks that the edge pass handles: control leaves each of them through a terminator to
itself or an earlier block, and the operands that the pass reads are those that name blocks. -/
structure BackwardCfg (blocks : List MALBlock) : Prop where
  terminated : ∀ index, index + 1 < blocks.length →
    ∃ term, blocks[index]?.bind MALBlock.last = some term ∧ malInstIsTerminator term = true
  read : ∀ (index : Nat) (term : MALInst), blocks[index]?.bind MALBlock.last = some term →
    malInstIsTerminator term = true → ∀ target, target < blocks.length →
      (malReadBlocks term).count (malBlockIdAt blocks target) =
        (term.operands.filterMap MALOperand.block?).count (malBlockIdAt blocks target)
  backward : ∀ (index : Nat) (term : MALInst), blocks[index]?.bind MALBlock.last = some term →
    malInstIsTerminator term = true → ∀ target, target < blocks.length →
      malBlockIdAt blocks target ∈ malReadBlocks term → target ≤ index

section Distinct

variable {blocks : List MALBlock}

/-- The number at an index inside the list is the one of the block there. -/
theorem malBlockIdAt_eq {index : Nat} (inside : index < blocks.length) :
    malBlockIdAt blocks index = (blocks.map (·.id)).get ⟨index, by simpa using inside⟩ := by
  simp [malBlockIdAt, inside]

/-- Distinct identifiers tell positions apart. -/
theorem malBlockIdAt_inj (distinct : (blocks.map (·.id)).Nodup) {index index' : Nat}
    (inside : index < blocks.length) (inside' : index' < blocks.length) :
    malBlockIdAt blocks index = malBlockIdAt blocks index' ↔ index = index' := by
  rw [malBlockIdAt_eq inside, malBlockIdAt_eq inside']
  exact distinct.get_inj_iff.trans (by simp)

/-- A search by identifier finds a position inside the list that has this identifier. -/
theorem malBlockById_some {id index : Nat} (found : malBlockById blocks id = some index) :
    index < blocks.length ∧ malBlockIdAt blocks index = id := by
  obtain ⟨inside, holds, -⟩ := List.findIdx?_eq_some_iff_getElem.mp found
  refine ⟨inside, ?_⟩
  simpa [malBlockIdAt, inside] using holds

/-- With distinct identifiers the search for a block's identifier finds the block. -/
theorem malBlockById_idAt (distinct : (blocks.map (·.id)).Nodup) {index : Nat}
    (inside : index < blocks.length) :
    malBlockById blocks (malBlockIdAt blocks index) = some index := by
  -- The block itself is there to be found, and no other has its number.
  cases found : malBlockById blocks (malBlockIdAt blocks index) with
  | none =>
    have missing := List.findIdx?_eq_none_iff.mp found blocks[index] (List.getElem_mem inside)
    simp [malBlockIdAt, inside] at missing
  | some index' =>
    obtain ⟨inside', same⟩ := malBlockById_some found
    rw [(malBlockIdAt_inj distinct inside' inside).mp same]

/-- Jump targets are indices of blocks. -/
theorem malEdgeTargets_lt {index target : Nat} (edge : target ∈ malEdgeTargets blocks index) :
    target < blocks.length := by
  unfold malEdgeTargets at edge
  split at edge
  · simp at edge
  -- A terminator names its targets, and a fall-through leads to the next block.
  · split at edge
    · obtain ⟨id, -, found⟩ := List.mem_filterMap.mp edge
      exact (malBlockById_some found).1
    · split at edge <;> simp_all

/-- With distinct identifiers an identifier is stored as often as its position is a target. -/
theorem count_map_idAt (distinct : (blocks.map (·.id)).Nodup) {targets : List Nat}
    (inside : ∀ target ∈ targets, target < blocks.length) {index : Nat}
    (bound : index < blocks.length) :
    (targets.map (malBlockIdAt blocks)).count (malBlockIdAt blocks index) =
      targets.count index := by
  induction targets with
  | nil => rfl
  | cons target targets ih =>
    -- Two positions with one number are the same position.
    have rest := ih fun other member => inside other (List.mem_cons_of_mem _ member)
    have same := malBlockIdAt_inj distinct (inside target List.mem_cons_self) bound
    simp [List.count_cons, rest, same]

/-- The positions found for the read identifiers repeat as often as the identifiers do. -/
theorem count_filterMap_byId (distinct : (blocks.map (·.id)).Nodup) (ids : List Nat) {index : Nat}
    (bound : index < blocks.length) :
    (ids.filterMap (malBlockById blocks)).count index = ids.count (malBlockIdAt blocks index) := by
  induction ids with
  | nil => rfl
  | cons id ids ih =>
    cases found : malBlockById blocks id with
    | none =>
      -- An identifier that names no block is not the identifier of a block.
      have other : id ≠ malBlockIdAt blocks index := by
        rintro rfl
        rw [malBlockById_idAt distinct bound] at found
        cases found
      simp [found, ih, other]
    | some target =>
      obtain ⟨inside, same⟩ := malBlockById_some found
      have positions : target = index ↔ id = malBlockIdAt blocks index := by
        rw [← same, malBlockIdAt_inj distinct inside bound]
      simp [found, ih, List.count_cons, positions]

/-- A list of distinct rounds records a block once for each target if its round is among them. -/
theorem malIncoming_count (distinct : (blocks.map (·.id)).Nodup) {index source : Nat}
    (bound : source < blocks.length) {rounds : List Nat} (once : rounds.Nodup)
    (inside : ∀ round ∈ rounds, round < blocks.length) :
    (malIncoming blocks index rounds).count (malBlockIdAt blocks source) =
      if source ∈ rounds then (malEdgeTargets blocks source).count index else 0 := by
  -- The induction is on the rounds, of which one at most is that of the source.
  induction rounds with
  | nil => rfl
  | cons round rounds ih =>
    obtain ⟨fresh, once⟩ := List.nodup_cons.mp once
    have rest := ih once fun other member => inside other (List.mem_cons_of_mem _ member)
    have same := malBlockIdAt_inj distinct (inside round List.mem_cons_self) bound
    have cons : malIncoming blocks index (round :: rounds) =
        List.replicate ((malEdgeTargets blocks round).count index) (malBlockIdAt blocks round) ++
          malIncoming blocks index rounds := by
      simp [malIncoming]
    -- The first round adds its own targets, and the others count as before.
    rw [cons, List.count_append, rest, List.count_replicate]
    by_cases here : round = source
    · subst here
      simp [fresh]
    · have apart : ¬ malBlockIdAt blocks round = malBlockIdAt blocks source := mt same.mp here
      simp [apart, Ne.symm here]

end Distinct

/-- Blocks with the same code have the same edges by name. -/
theorem SameCode.namedEdges {blocks blocks' : List MALBlock} (same : SameCode blocks blocks') :
    malNamedEdges blocks' = malNamedEdges blocks := by
  funext source target
  simp only [malNamedEdges, same.last, same.idAt]

/-- The pass stores each of its targets once as a successor. -/
theorem malComputeCfg_succs_count {fn : MALFunction} (distinct : (fn.blocks.map (·.id)).Nodup)
    {source target : Nat} (inside : source < fn.blocks.length)
    (bound : target < fn.blocks.length) :
    (malSuccsAt (malComputeCfg fn).blocks source).count (malBlockIdAt fn.blocks target) =
      (malEdgeTargets fn.blocks source).count target := by
  rw [malComputeCfg_succs fn inside]
  exact count_map_idAt distinct (fun other edge => malEdgeTargets_lt edge) bound

/-- The pass keeps a predecessor unless it comes before the block. -/
theorem malComputeCfg_preds_count {fn : MALFunction} (distinct : (fn.blocks.map (·.id)).Nodup)
    {source target : Nat} (inside : source < fn.blocks.length)
    (bound : target < fn.blocks.length) :
    (malPredsAt (malComputeCfg fn).blocks target).count (malBlockIdAt fn.blocks source) =
      if target ≤ source then (malEdgeTargets fn.blocks source).count target else 0 := by
  -- The rounds from the target on are those that clear nothing afterwards.
  have kept : source ∈ List.range' target (fn.blocks.length - target) ↔ target ≤ source := by
    rw [List.mem_range'_1]
    omega
  rw [malComputeCfg_preds fn bound,
    malIncoming_count distinct inside List.nodup_range' fun round member => by
      rw [List.mem_range'_1] at member
      omega]
  simp only [kept]

/-- The stored edges are exact for precisely the functions whose edges all go backward. -/
theorem malComputeCfg_exact_iff (fn : MALFunction) (distinct : (fn.blocks.map (·.id)).Nodup) :
    CfgExact (malComputeCfg fn).blocks ∧ malComputeCfg (malComputeCfg fn) = malComputeCfg fn ↔
      BackwardCfg fn.blocks := by
  have same := malComputeCfg_sameCode fn
  constructor
  -- Exact edges make the recorded targets those that the code names.
  · rintro ⟨⟨named, mirrored⟩, -⟩
    simp only [same.length, same.idAt, same.namedEdges] at named mirrored
    have targets : ∀ source target, source < fn.blocks.length → target < fn.blocks.length →
        (malEdgeTargets fn.blocks source).count target =
          malNamedEdges fn.blocks source target := by
      intro source target inside bound
      rw [← named source target inside bound, malComputeCfg_succs_count distinct inside bound]
    -- No edge goes forward, since the later block would not list the earlier one.
    have forward : ∀ source target, source < target → target < fn.blocks.length →
        (malEdgeTargets fn.blocks source).count target = 0 := by
      intro source target before bound
      have inside : source < fn.blocks.length := by omega
      have mirror := mirrored source target inside bound
      rw [malComputeCfg_succs_count distinct inside bound,
        malComputeCfg_preds_count distinct inside bound, if_neg (by omega)] at mirror
      exact mirror
    constructor
    · intro index next
      -- A fall-through is promised to the next block, which loses it.
      have promised := targets index (index + 1) (by omega) next
      rw [forward index (index + 1) (by omega) next] at promised
      cases last : fn.blocks[index]?.bind MALBlock.last with
      | none => simp [malNamedEdges, last] at promised
      | some term =>
        refine ⟨term, rfl, ?_⟩
        cases ends : malInstIsTerminator term with
        | true => rfl
        | false => simp [malNamedEdges, last, Option.filter, ends] at promised
    · intro index term last ends target bound
      have inside : index < fn.blocks.length := by
        rcases Nat.lt_or_ge index fn.blocks.length with inside | outside
        · exact inside
        · simp [List.getElem?_eq_none outside] at last
      -- A terminator is read by the same ids in both lists.
      have promised := targets index target inside bound
      simpa [malEdgeTargets, malNamedEdges, last, ends, Option.filter,
        count_filterMap_byId distinct _ bound] using promised
    · intro index term last ends target bound read
      rcases Nat.lt_or_ge index target with before | after
      · have lost := forward index target before bound
        simp only [malEdgeTargets, last, ends, if_true,
          count_filterMap_byId distinct _ bound] at lost
        exact absurd read (List.count_eq_zero.mp lost)
      · exact after
  · rintro ⟨terminated, read, backward⟩
    -- In a backward function every recorded target is named, and none lies ahead.
    have targets : ∀ source target, source < fn.blocks.length → target < fn.blocks.length →
        (malEdgeTargets fn.blocks source).count target =
            malNamedEdges fn.blocks source target ∧
          (source < target → (malEdgeTargets fn.blocks source).count target = 0) := by
      intro source target inside bound
      rcases Nat.lt_or_ge (source + 1) fn.blocks.length with next | final
      · obtain ⟨term, last, ends⟩ := terminated source next
        simp only [malEdgeTargets, malNamedEdges, last, ends, Option.filter, if_true,
          count_filterMap_byId distinct _ bound]
        refine ⟨read source term last ends target bound, fun before => ?_⟩
        exact List.count_eq_zero.mpr fun named =>
          absurd (backward source term last ends target bound named) (by omega)
      · -- The last block has no block after it to fall into.
        have here : ¬ source + 1 < fn.blocks.length := by omega
        have notNext : ¬ target = source + 1 := by omega
        refine ⟨?_, fun before => by omega⟩
        cases last : fn.blocks[source]?.bind MALBlock.last with
        | none => simp [malEdgeTargets, malNamedEdges, last, notNext]
        | some term =>
          cases ends : malInstIsTerminator term with
          | true =>
            simp only [malEdgeTargets, malNamedEdges, last, ends, Option.filter, if_true,
              count_filterMap_byId distinct _ bound]
            exact read source term last ends target bound
          | false =>
            simp [malEdgeTargets, malNamedEdges, last, ends, Option.filter, here, notNext]
    -- Both ends have these counts.
    refine ⟨⟨?_, ?_⟩, malComputeCfg_idempotent fn⟩
    · intro source target inside bound
      rw [same.length] at inside bound
      rw [same.idAt, same.namedEdges, malComputeCfg_succs_count distinct inside bound]
      exact (targets source target inside bound).1
    · intro source target inside bound
      rw [same.length] at inside bound
      rw [same.idAt, malComputeCfg_succs_count distinct inside bound,
        malComputeCfg_preds_count distinct inside bound]
      split_ifs with after
      · rfl
      · exact (targets source target inside bound).2 (by omega)

/-- An unconditional branch to the block with the given identifier. -/
def malBranchTo (target : Nat) : MALInst := ⟨0, .br, .void, malInvalidReg, [malOperandBlock target]⟩

/-- A return without a value. -/
def malReturnVoid : MALInst := ⟨0, .ret, .void, malInvalidReg, []⟩

/-- A function of blocks without parameters and registers. -/
def malBlocksOnly (blocks : List (List MALInst)) : MALFunction where
  name := "blocks"
  retType := .void
  paramTypes := []
  paramCount := 0
  -- Blocks are created with the count of the blocks before them as identifier.
  blocks := blocks.mapIdx fun index insts => ⟨index, insts, [], []⟩
  nextSSAReg := 0

/-- A conditional branch on the first register. -/
def malBranchEither (whenTrue whenFalse : Nat) : MALInst :=
  ⟨0, .cbr, .void, malInvalidReg,
    [malOperandReg 0 .i1, malOperandBlock whenTrue, malOperandBlock whenFalse]⟩

/-- A return, a branch back to it, and a loop that is left backward. -/
def malBackward : MALFunction :=
  malBlocksOnly [[malReturnVoid], [malBranchTo 0], [malBranchEither 1 2]]

/-- All edges of the branches are at both ends. -/
theorem malComputeCfg_exact_backward :
    CfgExact (malComputeCfg malBackward).blocks ∧
      malComputeCfg (malComputeCfg malBackward) = malComputeCfg malBackward := by
  have lasts : ∀ index < 3, ∀ term ∈ malBackward.blocks[index]?.bind MALBlock.last,
      malInstIsTerminator term = true ∧ ∀ target < 3,
        (malReadBlocks term).count (malBlockIdAt malBackward.blocks target) =
            (term.operands.filterMap MALOperand.block?).count
              (malBlockIdAt malBackward.blocks target) ∧
          (malBlockIdAt malBackward.blocks target ∈ malReadBlocks term → target ≤ index) := by
    decide
  -- Only three positions have a block.
  have inside : ∀ (index : Nat) (term : MALInst),
      malBackward.blocks[index]?.bind MALBlock.last = some term → index < 3 := by
    intro index term last
    obtain ⟨block, found, -⟩ := Option.bind_eq_some_iff.mp last
    exact (List.getElem?_eq_some_iff.mp found).1
  refine (malComputeCfg_exact_iff _ (by decide)).mpr ⟨?_, ?_, ?_⟩
  -- Every position but the last ends in a terminator.
  · intro index next
    have filled : ∀ index < 3, (malBackward.blocks[index]?.bind MALBlock.last).isSome = true := by
      decide
    have bound : index < 3 := Nat.lt_of_succ_lt next
    obtain ⟨term, last⟩ := Option.isSome_iff_exists.mp (filled index bound)
    exact ⟨term, last, (lasts index bound term last).1⟩
  · intro index term last _ target bound
    exact ((lasts index (inside index term last) term last).2 target bound).1
  · intro index term last _ target bound
    exact ((lasts index (inside index term last) term last).2 target bound).2

/-- A branch to the next block is missing from the predecessors of that block. -/
theorem malComputeCfg_not_exact :
    ¬ ∀ fn : MALFunction, (fn.blocks.map (·.id)).Nodup →
      CfgExact (malComputeCfg fn).blocks ∧ malComputeCfg (malComputeCfg fn) = malComputeCfg fn := by
  intro exact
  -- The second block would have to list the first one.
  have mirrored := (exact (malBlocksOnly [[malBranchTo 1], [malReturnVoid]])
    (by decide)).1.mirrored 0 1 (by decide) (by decide)
  revert mirrored
  decide

end Wirble
