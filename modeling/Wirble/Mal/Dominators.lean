import Wirble.Library.Dominance
import Wirble.Mal.Cfg

/-! The dominator fields of blocks, and the functions for which they hold the dominator tree. -/

namespace Wirble

/-- The identifier that stands for no block. -/
def malInvalidBlock : Nat := 2 ^ 32 - 1

/-- The two fields of a block that hold its place in the dominator tree. -/
structure MALDomLinks where
  domParent : Nat
  domChildren : List Nat
  deriving DecidableEq, Repr

/-- A function with the dominator fields of each of its blocks. -/
structure MALDomFunction where
  fn : MALFunction
  links : List MALDomLinks
  aligned : links.length = fn.blocks.length

/-- The edge pass leaves the dominator fields alone. -/
def MALDomFunction.computeCfg (function : MALDomFunction) : MALDomFunction where
  fn := malComputeCfg function.fn
  links := function.links
  aligned := function.aligned.trans (malComputeCfg_sameCode function.fn).length.symm

/-- One round of the loop: reset the fields of a block, then add it to the children of the block
before it in list order. -/
def malDominatorStep (blocks : List MALBlock) (links : List MALDomLinks) (index : Nat) :
    List MALDomLinks :=
  match index with
  | 0 => links.modify 0 fun _ => { domParent := malInvalidBlock, domChildren := [] }
  | prev + 1 =>
    (links.modify (prev + 1) fun _ =>
      { domParent := malBlockIdAt blocks prev, domChildren := [] }).modify prev fun field =>
        { field with domChildren := field.domChildren ++ [malBlockIdAt blocks (prev + 1)] }

/-- A step of the iteration keeps the number of links. -/
theorem malDominatorStep_length (blocks : List MALBlock) (links : List MALDomLinks) (index : Nat) :
    (malDominatorStep blocks links index).length = links.length := by
  cases index <;> simp [malDominatorStep]

/-- The iteration keeps the number of links. -/
theorem malDominatorRounds_length (blocks : List MALBlock) (rounds : List Nat)
    (links : List MALDomLinks) :
    (rounds.foldl (malDominatorStep blocks) links).length = links.length := by
  induction rounds generalizing links with
  | nil => rfl
  | cons round rounds ih => rw [List.foldl_cons, ih, malDominatorStep_length]

def malComputeDominators (function : MALDomFunction) : MALDomFunction where
  fn := function.fn
  links := (List.range function.fn.blocks.length).foldl (malDominatorStep function.fn.blocks)
    function.links
  aligned := (malDominatorRounds_length _ _ _).trans function.aligned

/-- The dominator fields of the block at a position after some rounds of the loop. -/
def malDomLinksAfter (blocks : List MALBlock) (count index : Nat) : MALDomLinks where
  domParent := if index = 0 then malInvalidBlock else malBlockIdAt blocks (index - 1)
  domChildren := if index + 1 < count then [malBlockIdAt blocks (index + 1)] else []

/-- A finished block has its predecessor in the list as parent and its successor as only child. -/
theorem malDominatorRounds_getElem? (blocks : List MALBlock) (links : List MALDomLinks)
    (count index : Nat) :
    ((List.range count).foldl (malDominatorStep blocks) links)[index]? =
      (links[index]?).map fun field =>
        if index < count then malDomLinksAfter blocks count index else field := by
  induction count with
  | zero => simp
  | succ count ih =>
    rw [List.range_succ, List.foldl_append, List.foldl_cons, List.foldl_nil]
    cases count with
    | zero =>
      -- The first round touches the entry only.
      cases index <;> simp [malDominatorStep, malDomLinksAfter]
    | succ prev =>
      rw [malDominatorStep, List.getElem?_modify, List.getElem?_modify, ih]
      cases links[index]? with
      | none => simp
      | some field =>
        -- A later round resets its own block and extends the children of the one before it.
        rcases Nat.lt_trichotomy index prev with before | same | after
        · have own : prev + 1 ≠ index := by omega
          have previous : prev ≠ index := by omega
          have inside : index < prev + 1 := by omega
          have insideNext : index < prev + 1 + 1 := by omega
          have child : index + 1 < prev + 1 := by omega
          have childNext : index + 1 < prev + 1 + 1 := by omega
          simp [own, previous, inside, insideNext, malDomLinksAfter, child, childNext]
        · subst same
          have child : ¬ index + 1 + 1 ≤ index := by omega
          simp [malDomLinksAfter, child]
        -- The round's own block, and the one behind it, are not finished before.
        · have previous : prev ≠ index := by omega
          by_cases own : prev + 1 = index
          · subst own
            simp [malDomLinksAfter]
          · have outside : ¬ index < prev + 1 := by omega
            have outsideNext : ¬ index < prev + 1 + 1 := by omega
            simp [own, previous, outside, outsideNext]

/-- The parent stored for the block at a position. -/
def MALDomFunction.parentAt (function : MALDomFunction) (index : Nat) : Nat :=
  (function.links[index]?.map (·.domParent)).getD malInvalidBlock

/-- The children stored for the block at a position. -/
def MALDomFunction.childrenAt (function : MALDomFunction) (index : Nat) : List Nat :=
  (function.links[index]?.map (·.domChildren)).getD []

/-- The parent that is stored for a block after the entry is the block before it. -/
theorem malComputeDominators_parentAt (function : MALDomFunction) {index : Nat}
    (inside : index + 1 < function.fn.blocks.length) :
    (malComputeDominators function).parentAt (index + 1) =
      malBlockIdAt function.fn.blocks index := by
  have field : index + 1 < function.links.length := by rw [function.aligned]; exact inside
  simp [MALDomFunction.parentAt, malComputeDominators, malDominatorRounds_getElem?, inside, field,
    malDomLinksAfter]

/-- The only child that is stored for a block is the block after it. -/
theorem malComputeDominators_childrenAt (function : MALDomFunction) (index : Nat) :
    (malComputeDominators function).childrenAt index =
      if index + 1 < function.fn.blocks.length then
        [malBlockIdAt function.fn.blocks (index + 1)] else [] := by
  by_cases inside : index < function.fn.blocks.length
  · have field : index < function.links.length := by rw [function.aligned]; exact inside
    -- The block after this one has it as its immediate dominator.
    simp [MALDomFunction.childrenAt, malComputeDominators, malDominatorRounds_getElem?, inside,
      field, malDomLinksAfter]
  -- A field past the end holds nothing, and there is no block to come.
  · have field : function.links.length ≤ index := by rw [function.aligned]; omega
    have last : ¬ index + 1 < function.fn.blocks.length := by omega
    simp [MALDomFunction.childrenAt, malComputeDominators, malDominatorRounds_getElem?, field,
      last]

/-- The edges that the stored successor lists describe, each resolved by a search for its block. -/
def malStoredEdge (blocks : List MALBlock) (source target : Nat) : Prop :=
  ∃ id ∈ malSuccsAt blocks source, malBlockById blocks id = some target

/-- The edges that the edge pass reads from the instructions. -/
def malFlowEdge (blocks : List MALBlock) (source target : Nat) : Prop :=
  ∃ found ∈ malEdgeTargets blocks source,
    malBlockById blocks (malBlockIdAt blocks found) = some target

/-- After the edge pass the stored edges are those of the instructions. -/
theorem malStoredEdge_computeCfg (fn : MALFunction) :
    malStoredEdge (malComputeCfg fn).blocks = malFlowEdge fn.blocks := by
  have same := malComputeCfg_sameCode fn
  funext source target
  apply propext
  unfold malStoredEdge malFlowEdge
  rw [same.blockById]
  by_cases inside : source < fn.blocks.length
  · rw [malComputeCfg_succs fn inside]
    simp
  · -- A position outside the list has no successors and no terminator.
    have after : (malComputeCfg fn).blocks.length ≤ source := by rw [same.length]; omega
    have before : fn.blocks[source]? = none := List.getElem?_eq_none (by omega)
    simp [malSuccsAt, malEdgeTargets, after, before]

/-- An edge ends in the block that the search for its identifier finds. -/
theorem malFlowEdge_found {blocks : List MALBlock} {source target : Nat}
    (edge : malFlowEdge blocks source target) :
    target < blocks.length ∧ malBlockById blocks (malBlockIdAt blocks target) = some target := by
  obtain ⟨read, -, found⟩ := edge
  -- The search returns the first block of the identifier.
  obtain ⟨inside, same⟩ := malBlockById_some found
  rw [same]
  exact ⟨inside, found⟩

/-- A block that is reached and is not the entry is the first one with its identifier. -/
theorem malFlowEdge_reaches {blocks : List MALBlock} {index : Nat} (later : index ≠ 0)
    (reaches : Dominance.Reaches (malFlowEdge blocks) 0 index) :
    index < blocks.length ∧ malBlockById blocks (malBlockIdAt blocks index) = some index := by
  obtain ⟨visited, path⟩ := reaches
  -- A path to another block ends in an edge.
  cases path with
  | start => exact absurd rfl later
  | step path edge => exact malFlowEdge_found edge

/-- The search for the identifier of the entry finds the entry. -/
theorem malBlockById_entry {blocks : List MALBlock} (inside : 0 < blocks.length) :
    malBlockById blocks (malBlockIdAt blocks 0) = some 0 := by
  cases blocks with
  | nil => simp at inside
  | cons entry rest => simp [malBlockById, malBlockIdAt, List.findIdx?_cons]

/-- The dominator fields hold the dominator tree of the stored edges: the parent of a reachable
block is its immediate dominator, which alone lists the block, once, among its children. -/
def MALDomFunction.DominatorsExact (function : MALDomFunction) : Prop :=
  ∀ block, block ≠ 0 → Dominance.Reaches (malStoredEdge function.fn.blocks) 0 block →
    ∃ dominator, malBlockById function.fn.blocks (function.parentAt block) = some dominator ∧
      Dominance.Immediate (malStoredEdge function.fn.blocks) 0 dominator block ∧
      (function.childrenAt dominator).count (malBlockIdAt function.fn.blocks block) = 1 ∧
      ∀ other, other < function.fn.blocks.length → other ≠ dominator →
        malBlockIdAt function.fn.blocks block ∉ function.childrenAt other

/-- The blocks whose list order is their dominator tree: no edge out of a reachable block jumps
forward over a block, and no reachable block shares its identifier with one after the entry. -/
structure DominatedInOrder (blocks : List MALBlock) : Prop where
  climbs : Dominance.ClimbsByOne (malFlowEdge blocks)
  alone : ∀ block other, block ≠ 0 → Dominance.Reaches (malFlowEdge blocks) 0 block →
    other ≠ 0 → other < blocks.length →
    malBlockIdAt blocks other = malBlockIdAt blocks block → other = block

section Passes

variable (function : MALDomFunction)

/-- What the two passes must store, in terms of the blocks that they start from. -/
theorem dominatorsExact_passes :
    (malComputeDominators function.computeCfg).DominatorsExact ↔
      ∀ block, Dominance.Reaches (malFlowEdge function.fn.blocks) 0 (block + 1) →
        ∃ dominator, malBlockById function.fn.blocks
            (malBlockIdAt function.fn.blocks block) = some dominator ∧
          Dominance.Immediate (malFlowEdge function.fn.blocks) 0 dominator (block + 1) ∧
          ((malComputeDominators function.computeCfg).childrenAt dominator).count
            (malBlockIdAt function.fn.blocks (block + 1)) = 1 ∧
          ∀ other, other < function.fn.blocks.length → other ≠ dominator →
            malBlockIdAt function.fn.blocks (block + 1) ∉
              (malComputeDominators function.computeCfg).childrenAt other := by
  have same := malComputeCfg_sameCode function.fn
  have edges := malStoredEdge_computeCfg function.fn
  have code : (malComputeDominators function.computeCfg).fn = malComputeCfg function.fn := rfl
  -- Each block but the first has the one in front as parent.
  have parent : ∀ block, block + 1 < function.fn.blocks.length →
      (malComputeDominators function.computeCfg).parentAt (block + 1) =
        malBlockIdAt function.fn.blocks block := by
    intro block inside
    rw [malComputeDominators_parentAt]
    · show malBlockIdAt (malComputeCfg function.fn).blocks block = _
      rw [same.idAt]
    · show block + 1 < (malComputeCfg function.fn).blocks.length
      rw [same.length]
      exact inside
  unfold MALDomFunction.DominatorsExact
  rw [code, edges, same.blockById, same.idAt, same.length]
  -- A block other than the entry has a block before it.
  constructor
  · intro exact block reaches
    have stored := exact (block + 1) (by omega) reaches
    rw [parent block (malFlowEdge_reaches (by omega) reaches).1] at stored
    exact stored
  · intro stored block later reaches
    obtain ⟨previous, position⟩ : ∃ previous, block = previous + 1 := ⟨block - 1, by omega⟩
    rw [position] at reaches ⊢
    rw [parent previous (malFlowEdge_reaches (by omega) reaches).1]
    exact stored previous reaches

/-- The children after both passes, in terms of the blocks that they start from. -/
theorem childrenAt_passes (index : Nat) :
    (malComputeDominators function.computeCfg).childrenAt index =
      if index + 1 < function.fn.blocks.length then
        [malBlockIdAt function.fn.blocks (index + 1)] else [] := by
  -- Computing the edges keeps the blocks and their identifiers.
  have same := malComputeCfg_sameCode function.fn
  rw [malComputeDominators_childrenAt]
  show (if index + 1 < (malComputeCfg function.fn).blocks.length then
    [malBlockIdAt (malComputeCfg function.fn).blocks (index + 1)] else []) = _
  rw [same.length, same.idAt]

/-- If the fields are exact, the search for the parent finds the block before. -/
theorem dominator_eq {block dominator : Nat} (inside : block + 1 < function.fn.blocks.length)
    (alone : ∀ other, other < function.fn.blocks.length → other ≠ dominator →
      malBlockIdAt function.fn.blocks (block + 1) ∉
        (malComputeDominators function.computeCfg).childrenAt other) :
    dominator = block := by
  -- The block before lists the block as its child, whatever the search finds.
  apply Classical.byContradiction
  intro different
  apply alone block (by omega) (Ne.symm different)
  rw [childrenAt_passes, if_pos inside]
  exact List.mem_singleton.mpr rfl

/-- The dominator fields are right exactly for blocks that are dominated in list order. -/
theorem malComputeDominators_exact_iff :
    (malComputeDominators function.computeCfg).DominatorsExact ↔
      DominatedInOrder function.fn.blocks := by
  rw [dominatorsExact_passes]
  constructor
  · intro exact
    refine ⟨?_, ?_⟩
    · -- The parents form the chain of the list order, which bounds the edges.
      apply Dominance.immediate_previous_iff.mp
      intro block reaches
      obtain ⟨inside, -⟩ := malFlowEdge_reaches (by omega) reaches
      obtain ⟨dominator, -, immediate, -, alone⟩ := exact block reaches
      rw [dominator_eq function inside alone] at immediate
      exact immediate
    · intro block other later reaches otherLater otherInside shared
      obtain ⟨previous, position⟩ : ∃ previous, block = previous + 1 := ⟨block - 1, by omega⟩
      obtain ⟨before, place⟩ : ∃ before, other = before + 1 := ⟨other - 1, by omega⟩
      rw [position] at reaches shared ⊢
      rw [place] at otherInside shared ⊢
      -- A block of the chain has the one in front as dominator.
      obtain ⟨inside, -⟩ := malFlowEdge_reaches (by omega) reaches
      obtain ⟨dominator, -, -, -, alone⟩ := exact previous reaches
      have chain := dominator_eq function inside alone
      -- Another block with this identifier makes the block before it a second parent.
      apply Classical.byContradiction
      intro different
      apply alone before (by omega) (by omega)
      rw [childrenAt_passes, if_pos otherInside, shared]
      exact List.mem_singleton.mpr rfl
  · intro ordered block reaches
    obtain ⟨inside, -⟩ := malFlowEdge_reaches (by omega) reaches
    have immediate := ordered.climbs.immediate reaches
    refine ⟨block, ?_, immediate, ?_, ?_⟩
    · -- The block before is the entry or is reached itself, so the search finds it.
      by_cases entry : block = 0
      · rw [entry]
        exact malBlockById_entry (by omega)
      · exact (malFlowEdge_reaches entry (immediate.dominates.reaches reaches)).2
    · rw [childrenAt_passes, if_pos inside]
      simp
    -- No other block has it as child, since its own place in the chain is different.
    · intro other otherInside different
      rw [childrenAt_passes]
      split
      · rename_i childInside
        intro member
        have shared := List.mem_singleton.mp member
        have position := ordered.alone (block + 1) (other + 1) (by omega) reaches (by omega)
          childInside shared.symm
        omega
      · exact List.not_mem_nil

end Passes

/-- A branch over a block: the entry goes to the second block or to the third one. -/
def malSkippingFunction : MALDomFunction where
  fn :=
    { name := "f"
      retType := .void
      paramTypes := []
      paramCount := 0
      blocks :=
        [{ id := 0
           insts := [⟨0, .cbr, .void, malInvalidReg,
             [malOperandReg 0 .i1, malOperandBlock 1, malOperandBlock 2]⟩]
           preds := []
           succs := [] },
         { id := 1, insts := [⟨1, .ret, .void, malInvalidReg, []⟩], preds := [], succs := [] },
         { id := 2, insts := [⟨2, .ret, .void, malInvalidReg, []⟩], preds := [], succs := [] }]
      nextSSAReg := 1 }
  links := List.replicate 3 ⟨malInvalidBlock, []⟩
  aligned := rfl

/-- The third block gets the second one as parent, which the branch goes around. -/
theorem malComputeDominators_not_exact :
    ¬ (malComputeDominators malSkippingFunction.computeCfg).DominatorsExact := by
  intro exact
  -- The edge from the entry to the third block is a path of its own.
  have edge : malStoredEdge
      (malComputeDominators malSkippingFunction.computeCfg).fn.blocks 0 2 :=
    ⟨2, by decide, by decide⟩
  have path : Dominance.Path _ 0 [2, 0] 2 := .step .start edge
  obtain ⟨dominator, found, immediate, -⟩ := exact 2 (by omega) ⟨_, path⟩
  have second : malBlockById (malComputeDominators malSkippingFunction.computeCfg).fn.blocks
      ((malComputeDominators malSkippingFunction.computeCfg).parentAt 2) = some 1 := by decide
  rw [second] at found
  cases found
  have visited := immediate.dominates _ path
  simp at visited

end Wirble
