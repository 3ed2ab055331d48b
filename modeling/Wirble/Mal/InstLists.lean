import Wirble.Mal.InstList
import Wirble.Mal.Replacement

/-! The instruction lists of all blocks under any sequence of edits and peephole steps. -/

namespace Wirble

open Linked

/-- What the allocator answers to the builder of a replacement: nothing, or the address of the
instruction together with the answers to the enlargements of its operand array. -/
abbrev MALAnswer := Option (Nat × (Nat → Bool))

/-- Try the rules on one instruction, where a replacement that gets no memory is passed over. -/
def malTryRules (inst : MALInst) :
    List MALRewriteRule → List MALAnswer → Option (Nat × MALInst) × List MALAnswer
  | [], answers => (none, answers)
  | rule :: rest, answers =>
    match malMrsMatchRule rule inst with
    | none => malTryRules inst rest answers
    | some bindings =>
      match answers with
      | [] => (none, [])
      | none :: later => malTryRules inst rest later
      | some (address, granted) :: later =>
        match malBuildReplacementIn bindings granted true rule inst with
        | none => malTryRules inst rest later
        | some replacement => (some (address, replacement), later)

/-- The instructions in memory and the pointers of the blocks, in list order. -/
structure MALMemory where
  insts : MALInstHeap
  blocks : List MALBlockEnds

/-- The inner loop of the peephole step, which follows the links from an instruction on.
The bound on its rounds is not in the source. -/
def malSearchBlock (rules : List MALRewriteRule) (heap : MALInstHeap) :
    Nat → Option Nat → List MALAnswer → Option (Option (Nat × Nat × MALInst) × List MALAnswer)
  | _, none, answers => some (none, answers)
  | 0, some _, _ => none
  | rounds + 1, some inst, answers => do
    let cell ← heap inst
    match malTryRules cell.value rules answers with
    | (some (address, replacement), later) => some (some (inst, address, replacement), later)
    | (none, later) => malSearchBlock rules heap rounds cell.next later

/-- The outer loop, over the blocks of the function. -/
def malSearchBlocks (rules : List MALRewriteRule) (heap : MALInstHeap) (rounds : Nat) :
    List MALBlockEnds → List MALAnswer → Option (Option (Nat × Nat × Nat × MALInst))
  | [], _ => some none
  | block :: rest, answers => do
    match ← malSearchBlock rules heap rounds block.first answers with
    | (some found, _) => some (some (0, found))
    | (none, later) =>
      let found ← malSearchBlocks rules heap rounds rest later
      return found.map fun (index, found) => (index + 1, found)

/-- `malApplyOnePeephole` on the memory, which returns nothing if it has replaced nothing. -/
def malApplyOnePeepholeIn (rules : List MALRewriteRule) (rounds : Nat) (answers : List MALAnswer)
    (mem : MALMemory) : Option (Option MALMemory) := do
  match ← malSearchBlocks rules mem.insts rounds mem.blocks answers with
  | none => return none
  | some (index, oldInst, newInst, replacement) =>
    let block ← mem.blocks[index]?
    let heap := mem.insts.store newInst ⟨replacement, none, none⟩
    let (heap, block) ← malReplaceInst heap block oldInst newInst
    return some ⟨heap, mem.blocks.set index block⟩

/-- The calls that edit instruction lists. -/
inductive MALListCall where
  /-- `mal_inst_create` and the operands, into zeroed memory at the address. -/
  | create (address : Nat) (inst : MALInst)
  | insertEnd (block address : Nat)
  | remove (block address : Nat)
  | peephole (rules : List MALRewriteRule) (rounds : Nat) (answers : List MALAnswer)

namespace MALListCall

/-- Perform an edit of one block. -/
def onBlock (mem : MALMemory) (index : Nat)
    (edit : MALInstHeap → MALBlockEnds → Option (MALInstHeap × MALBlockEnds)) :
    Option MALMemory := do
  let block ← mem.blocks[index]?
  let (heap, block) ← edit mem.insts block
  return ⟨heap, mem.blocks.set index block⟩

/-- Perform a call, where a peephole call has to replace something. -/
def run (mem : MALMemory) : MALListCall → Option MALMemory
  | create address inst => some { mem with insts := mem.insts.store address ⟨inst, none, none⟩ }
  | insertEnd block address => onBlock mem block (malBlockInsertEnd · · address)
  | remove block address => onBlock mem block (malInstRemove · · address)
  | peephole rules rounds answers => do ← malApplyOnePeepholeIn rules rounds answers mem

/-- Perform calls one after the other. -/
def runAll : MALMemory → List MALListCall → Option MALMemory
  | mem, [] => some mem
  | mem, call :: rest => do runAll (← call.run mem) rest

end MALListCall

/-! The lists that the memory stands for. -/

/-- The instructions of the blocks in order, and the instructions that are in no block yet. -/
structure MALLists where
  blocks : List (List (Nat × MALInst))
  detached : List (Nat × MALInst)

namespace MALLists

/-- Every instruction there is. -/
def all (lists : MALLists) : List (Nat × MALInst) := lists.blocks.flatten ++ lists.detached

/-- The first instruction of a list that a rule replaces. -/
def searchList (rules : List MALRewriteRule) :
    List (Nat × MALInst) → List MALAnswer → Option (Nat × Nat × MALInst) × List MALAnswer
  | [], answers => (none, answers)
  | (inst, value) :: rest, answers =>
    match malTryRules value rules answers with
    | (some (address, replacement), later) => (some (inst, address, replacement), later)
    | (none, later) => searchList rules rest later

/-- The first instruction of all lists that a rule replaces, with the position of its list. -/
def search (rules : List MALRewriteRule) :
    List (List (Nat × MALInst)) → List MALAnswer → Option (Nat × Nat × Nat × MALInst)
  | [], _ => none
  | list :: rest, answers =>
    match searchList rules list answers with
    | (some found, _) => some (0, found)
    | (none, later) => (search rules rest later).map fun (index, found) => (index + 1, found)

/-- Another instruction in the place of the one at an address. -/
def substitute (oldInst newInst : Nat) (replacement : MALInst) (list : List (Nat × MALInst)) :
    List (Nat × MALInst) :=
  list.map fun cell => if cell.1 = oldInst then (newInst, replacement) else cell

/-- What a call does to the lists: appending, deleting or substituting in place. -/
def apply (lists : MALLists) : MALListCall → MALLists
  | .create address inst => { lists with detached := (address, inst) :: lists.detached }
  | .insertEnd block address =>
    { blocks := lists.blocks.modify block (· ++ lists.detached.filter (·.1 == address))
      detached := lists.detached.eraseP (·.1 == address) }
  | .remove block address =>
    { lists with blocks := lists.blocks.modify block (·.eraseP (·.1 == address)) }
  | .peephole rules _ answers =>
    match search rules lists.blocks answers with
    | none => lists
    | some (block, oldInst, newInst, replacement) =>
      { lists with blocks := lists.blocks.modify block (substitute oldInst newInst replacement) }

/-- The calls that a program may make: memory that is not in use is allocated, instructions in no
block are appended, members are removed, and a peephole call has something to replace. -/
def Admits (lists : MALLists) : MALListCall → Prop
  | .create address _ => address ∉ addresses lists.all
  | .insertEnd block address =>
    block < lists.blocks.length ∧ address ∈ addresses lists.detached
  | .remove block address => ∃ list, lists.blocks[block]? = some list ∧ address ∈ addresses list
  | .peephole rules rounds answers =>
    (∀ list ∈ lists.blocks, list.length ≤ rounds) ∧
      (∀ address granted, some (address, granted) ∈ answers → address ∉ addresses lists.all) ∧
      (search rules lists.blocks answers).isSome

/-- Perform calls one after the other. -/
def applyAll (lists : MALLists) (calls : List MALListCall) : MALLists := calls.foldl apply lists

/-- Every call may be made when its turn comes. -/
def AdmitsAll : MALLists → List MALListCall → Prop
  | _, [] => True
  | lists, call :: rest => lists.Admits call ∧ AdmitsAll (lists.apply call) rest

end MALLists

/-- The memory holds exactly the lists: every block's pointers and links form its list, no
instruction is in two places, and nothing else is allocated. -/
structure MALMemory.Holds (mem : MALMemory) (lists : MALLists) : Prop where
  blocks : List.Forall₂ (Represents mem.insts) mem.blocks lists.blocks
  detached : ∀ cell ∈ lists.detached, mem.insts cell.1 = some ⟨cell.2, none, none⟩
  distinct : (addresses lists.all).Nodup
  live : ∀ address cell, mem.insts address = some cell → address ∈ addresses lists.all

/-! The search of the peephole step. -/

section Search

variable {rules : List MALRewriteRule}

/-- The replacement of an instruction by a rule of the list, at an address that was offered. -/
structure ReplacedBy (rules : List MALRewriteRule) (answers : List MALAnswer) (inst : MALInst)
    (address : Nat) (replacement : MALInst) : Prop where
  rule : ∃ rule ∈ rules, ∃ bindings granted, malMrsMatchRule rule inst = some bindings ∧
    malBuildReplacementIn bindings granted true rule inst = some replacement
  offered : ∃ granted, some (address, granted) ∈ answers

/-- A replacement keeps the identifier, the type and the destination. -/
theorem ReplacedBy.keeps {answers : List MALAnswer} {inst replacement : MALInst} {address : Nat}
    (replaced : ReplacedBy rules answers inst address replacement) :
    replacement.id = inst.id ∧ replacement.type = inst.type ∧ replacement.dst = inst.dst := by
  obtain ⟨rule, -, bindings, granted, -, built⟩ := replaced.rule
  obtain rfl := Option.some.inj built
  exact ⟨rfl, rfl, rfl⟩

/-- A replacement stays one when rules and answers are added. -/
theorem ReplacedBy.mono {few more : List MALRewriteRule} {early answers : List MALAnswer}
    {inst replacement : MALInst} {address : Nat}
    (replaced : ReplacedBy few early inst address replacement) (rules : few ⊆ more)
    (subset : early ⊆ answers) : ReplacedBy more answers inst address replacement := by
  obtain ⟨⟨rule, member, fired⟩, granted, offered⟩ := replaced
  exact ⟨⟨rule, rules member, fired⟩, granted, subset offered⟩

/-- Trying the rules gives the replacement of one of them and takes answers from the front. -/
theorem malTryRules_spec (inst : MALInst) (rules : List MALRewriteRule)
    (answers : List MALAnswer) :
    (malTryRules inst rules answers).2 ⊆ answers ∧
      ∀ address replacement, (malTryRules inst rules answers).1 = some (address, replacement) →
        ReplacedBy rules answers inst address replacement := by
  induction rules generalizing answers with
  | nil => exact ⟨List.Subset.refl _, fun _ _ found => by cases found⟩
  | cons rule rest ih =>
    -- A rule that gives no replacement leaves the answers to the rules behind it.
    have skipped : ∀ early : List MALAnswer, early ⊆ answers →
        (malTryRules inst rest early).2 ⊆ answers ∧
          ∀ address replacement, (malTryRules inst rest early).1 = some (address, replacement) →
            ReplacedBy (rule :: rest) answers inst address replacement := by
      intro early subset
      obtain ⟨left, found⟩ := ih early
      exact ⟨List.Subset.trans left subset, fun address replacement some_found =>
        (found address replacement some_found).mono (List.subset_cons_self _ _) subset⟩
    rw [malTryRules]
    cases matched : malMrsMatchRule rule inst with
    | none => exact skipped answers (List.Subset.refl _)
    | some bindings =>
      -- A rule that matches asks for memory, and the answer decides.
      cases answers with
      | nil => exact ⟨List.Subset.refl _, fun _ _ found => by cases found⟩
      | cons answer later =>
        cases answer with
        | none => exact skipped later (List.subset_cons_self _ _)
        | some offer =>
          obtain ⟨address, granted⟩ := offer
          cases built : malBuildReplacementIn bindings granted true rule inst with
          | none => exact absurd built (by simp [malBuildReplacementIn])
          | some replacement =>
            simp only [built]
            refine ⟨List.subset_cons_self _ _, fun other result found => ?_⟩
            obtain ⟨rfl, rfl⟩ := Prod.mk.inj (Option.some.inj found)
            exact ⟨⟨rule, by simp, bindings, granted, matched, built⟩, granted, by simp⟩

/-- Following the links searches the list that they form. -/
theorem malSearchBlock_eq {heap : MALInstHeap} {before : Option Nat} {list : List (Nat × MALInst)}
    (cells : Segment heap before list none) {rounds : Nat} (enough : list.length ≤ rounds)
    (answers : List MALAnswer) :
    malSearchBlock rules heap rounds (headOr list none) answers =
      some (MALLists.searchList rules list answers) := by
  induction list generalizing before rounds answers with
  | nil => cases rounds <;> rfl
  | cons cell rest ih =>
    obtain ⟨rounds, rfl⟩ : ∃ less, rounds = less + 1 := ⟨rounds - 1, by
      rw [List.length_cons] at enough; omega⟩
    -- As many rounds are left as there are cells.
    have shorter : rest.length ≤ rounds := by rw [List.length_cons] at enough; omega
    rw [headOr, malSearchBlock, MALLists.searchList, cells.1]
    simp only [Option.bind_eq_bind, Option.bind_some]
    -- A rule may match here, or the next cell is looked at.
    cases tried : malTryRules cell.2 rules answers with
    | mk found later =>
      cases found with
      | some found => rfl
      | none => exact ih cells.2 shorter later

/-- The search through the heap finds what the search through the lists finds. -/
theorem malSearchBlocks_eq {heap : MALInstHeap} {blocks : List MALBlockEnds}
    {lists : List (List (Nat × MALInst))} (linked : List.Forall₂ (Represents heap) blocks lists)
    {rounds : Nat} (enough : ∀ list ∈ lists, list.length ≤ rounds) (answers : List MALAnswer) :
    malSearchBlocks rules heap rounds blocks answers =
      some (MALLists.search rules lists answers) := by
  induction linked generalizing answers with
  | nil => rfl
  | @cons block list blocks lists rep _ ih =>
    rw [malSearchBlocks, MALLists.search, rep.first,
      malSearchBlock_eq rep.cells (enough list (by simp)) answers]
    simp only [Option.bind_eq_bind, Option.bind_some]
    -- The instruction is found in this block, or in a later one.
    cases searched : MALLists.searchList rules list answers with
    | mk found later =>
      cases found with
      | some found => rfl
      | none =>
        simp only
        rw [ih fun other member => enough other (by simp [member])]
        rfl

/-- A successful search of a list splits it at the instruction that is replaced. -/
theorem searchList_some (rules : List MALRewriteRule) (list : List (Nat × MALInst)) (answers : List MALAnswer) :
    (MALLists.searchList rules list answers).2 ⊆ answers ∧
      ∀ oldInst newInst replacement,
        (MALLists.searchList rules list answers).1 = some (oldInst, newInst, replacement) →
        ∃ front inst back, list = front ++ (oldInst, inst) :: back ∧
          ReplacedBy rules answers inst newInst replacement := by
  -- The answers that one instruction leaves are those that the next is tried with.
  induction list generalizing answers with
  | nil => exact ⟨List.Subset.refl _, fun _ _ _ found => by cases found⟩
  | cons cell rest ih =>
    obtain ⟨subset, replaced⟩ := malTryRules_spec cell.2 rules answers
    rw [MALLists.searchList]
    -- The first instruction is replaced, or the search goes on with what is left of the answers.
    cases tried : malTryRules cell.2 rules answers with
    | mk found later =>
      rw [tried] at subset replaced
      cases found with
      | some found =>
        refine ⟨subset, fun oldInst newInst replacement equal => ?_⟩
        obtain ⟨rfl, rest_equal⟩ := Prod.mk.inj (Option.some.inj equal)
        obtain ⟨rfl, rfl⟩ := Prod.mk.inj rest_equal
        exact ⟨[], cell.2, rest, rfl, replaced _ _ rfl⟩
      | none =>
        obtain ⟨left, behind⟩ := ih later
        refine ⟨List.Subset.trans left subset, fun oldInst newInst replacement equal => ?_⟩
        obtain ⟨front, inst, back, rfl, by_rule⟩ := behind oldInst newInst replacement equal
        exact ⟨cell :: front, inst, back, rfl, by_rule.mono (List.Subset.refl _) subset⟩

/-- A successful search splits the lists at the instruction that is replaced. -/
theorem search_some {lists : List (List (Nat × MALInst))} {answers : List MALAnswer}
    {block oldInst newInst : Nat} {replacement : MALInst}
    (found : MALLists.search rules lists answers = some (block, oldInst, newInst, replacement)) :
    ∃ before after front inst back,
      lists = before ++ (front ++ (oldInst, inst) :: back) :: after ∧ before.length = block ∧
      ReplacedBy rules answers inst newInst replacement := by
  -- The answers that one block leaves are those that the next is searched with.
  induction lists generalizing answers block with
  | nil => cases found
  | cons list rest ih =>
    obtain ⟨subset, replaced⟩ := searchList_some rules list answers
    rw [MALLists.search] at found
    -- The block is searched, or the ones behind it are.
    cases searched : MALLists.searchList rules list answers with
    | mk inside later =>
      rw [searched] at found subset replaced
      cases inside with
      | some inside =>
        simp only [Option.some.injEq, Prod.mk.injEq] at found
        obtain ⟨rfl, rfl⟩ := found
        obtain ⟨front, inst, back, rfl, by_rule⟩ := replaced _ _ _ rfl
        exact ⟨[], rest, front, inst, back, rfl, rfl, by_rule⟩
      | none =>
        obtain ⟨⟨index, place⟩, later_found, equal⟩ := Option.map_eq_some_iff.mp found
        simp only [Prod.mk.injEq] at equal
        obtain ⟨rfl, rfl⟩ := equal
        obtain ⟨before, after, front, inst, back, rfl, rfl, by_rule⟩ := ih later_found
        exact ⟨list :: before, after, front, inst, back, rfl, rfl,
          by_rule.mono (List.Subset.refl _) subset⟩

end Search

/-! One block among the others. -/

section Splice

/-- Related lists split alike. -/
theorem forall₂_split {α β : Type} {R : α → β → Prop} {left : List α} {before after : List β}
    {middle : β} (related : List.Forall₂ R left (before ++ middle :: after)) :
    ∃ front value back, left = front ++ value :: back ∧ front.length = before.length ∧
      List.Forall₂ R front before ∧ R value middle ∧ List.Forall₂ R back after := by
  induction before generalizing left with
  | nil =>
    cases related with
    | cons head tail => exact ⟨[], _, _, rfl, rfl, .nil, head, tail⟩
  | cons entry before ih =>
    cases related with
    | cons head tail =>
      -- The first entries correspond, and the rest splits by induction.
      obtain ⟨front, value, back, rfl, length, fronts, here, backs⟩ := ih tail
      exact ⟨_ :: front, value, back, rfl, by simp [length], .cons head fronts, here, backs⟩

/-- Lists whose cells are not written are represented as before. -/
theorem represents_frame {heap heap' : MALInstHeap} {blocks : List MALBlockEnds}
    {lists : List (List (Nat × MALInst))} (linked : List.Forall₂ (Represents heap) blocks lists)
    (same : ∀ address ∈ addresses lists.flatten, heap' address = heap address) :
    List.Forall₂ (Represents heap') blocks lists := by
  induction linked with
  | nil => exact .nil
  | cons rep _ ih =>
    refine .cons ⟨rep.first, rep.last, rep.cells.frame fun address member => ?_⟩
      (ih fun address member => ?_)
    -- The addresses of one list are among those of all.
    · exact same address (by simp only [List.flatten_cons, addresses, List.map_append] at *
                             exact List.mem_append_left _ member)
    · exact same address (by simp only [List.flatten_cons, addresses, List.map_append] at *
                             exact List.mem_append_right _ member)

/-- The instructions outside a list. -/
def MALLists.others (before after : List (List (Nat × MALInst))) (detached : List (Nat × MALInst)) :
    List (Nat × MALInst) := before.flatten ++ (after.flatten ++ detached)

/-- The instructions are those of one list and the others. -/
theorem MALLists.all_perm (before after : List (List (Nat × MALInst)))
    (list detached : List (Nat × MALInst)) :
    List.Perm (addresses (MALLists.all ⟨before ++ list :: after, detached⟩))
      (addresses (list ++ MALLists.others before after detached)) := by
  refine List.Perm.map _ ?_
  -- The blocks around the list change places with it.
  simp only [MALLists.all, MALLists.others, List.flatten_append, List.flatten_cons,
    List.append_assoc]
  exact List.perm_append_comm_assoc _ _ _

/-- An edit of one block that writes no cell of the others keeps the memory exact. -/
theorem MALMemory.Holds.splice {mem : MALMemory} {before after : List (List (Nat × MALInst))}
    {list detached : List (Nat × MALInst)}
    (holds : mem.Holds ⟨before ++ list :: after, detached⟩)
    (list' detached' : List (Nat × MALInst)) (subset : detached' ⊆ detached)
    (edit : MALInstHeap → MALBlockEnds → Option (MALInstHeap × MALBlockEnds))
    (edits : ∀ block, Represents mem.insts block list → ∃ heap' block',
      edit mem.insts block = some (heap', block') ∧ Represents heap' block' list' ∧
      (∀ other ∈ addresses (MALLists.others before after detached'),
        heap' other = mem.insts other) ∧
      ∀ other cell, heap' other = some cell →
        other ∈ addresses (list' ++ MALLists.others before after detached'))
    (distinct : (addresses (list' ++ MALLists.others before after detached')).Nodup) :
    ∃ mem', MALListCall.onBlock mem before.length edit = some mem' ∧
      mem'.Holds ⟨before ++ list' :: after, detached'⟩ := by
  -- The block that is edited stands between those in front of it and those behind it.
  obtain ⟨front, block, back, split, length, fronts, here, backs⟩ := forall₂_split holds.blocks
  obtain ⟨heap', block', edited, rep, same, live⟩ := edits block here
  have found : mem.blocks[before.length]? = some block := by
    rw [split, ← length]
    simp
  have stored : mem.blocks.set before.length block' = front ++ block' :: back := by
    rw [split, ← length]
    simp
  -- The other blocks and the detached cells are not part of the edit.
  have others : addresses (MALLists.others before after detached') =
      addresses before.flatten ++ (addresses after.flatten ++ addresses detached') := by
    simp [MALLists.others, addresses]
  rw [others] at same
  refine ⟨⟨heap', mem.blocks.set before.length block'⟩, ?_, ⟨?_, ?_, ?_, ?_⟩⟩
  · rw [MALListCall.onBlock, found]
    simp only [Option.bind_eq_bind, Option.bind_some, edited]
    rfl
  · -- The other blocks find their cells as they were.
    rw [stored]
    refine List.rel_append (represents_frame fronts fun address member => ?_)
      (.cons rep (represents_frame backs fun address member => ?_))
    · exact same address (List.mem_append_left _ member)
    · exact same address (List.mem_append_right _ (List.mem_append_left _ member))
  · intro cell member
    have address : cell.1 ∈ addresses detached' := List.mem_map_of_mem member
    refine (same cell.1 ?_).trans (holds.detached cell (subset member))
    exact List.mem_append_right _ (List.mem_append_right _ address)
  · exact (MALLists.all_perm before after list' detached').nodup_iff.mpr distinct
  · intro address cell used
    exact (MALLists.all_perm before after list' detached').mem_iff.mpr (live address cell used)

end Splice

/-! What each call does. -/

section Calls

/-- An edit of the list behind a number of lists. -/
theorem modify_split {α : Type} (before after : List α) (middle : α) (edit : α → α) :
    (before ++ middle :: after).modify before.length edit = before ++ edit middle :: after := by
  induction before with
  | nil => rfl
  | cons entry before ih => exact congrArg (entry :: ·) ih

/-- The entry at a position splits a list. -/
theorem split_of_getElem? {α : Type} {list : List α} {index : Nat} {entry : α}
    (found : list[index]? = some entry) :
    ∃ before after, list = before ++ entry :: after ∧ before.length = index := by
  obtain ⟨inside, rfl⟩ := List.getElem?_eq_some_iff.mp found
  refine ⟨list.take index, list.drop (index + 1), ?_, by simp; omega⟩
  rw [← List.drop_eq_getElem_cons inside, List.take_append_drop]

/-- An address of a list splits it at its cell. -/
theorem split_of_address {list : List (Nat × MALInst)} {address : Nat}
    (member : address ∈ addresses list) :
    ∃ front inst back, list = front ++ (address, inst) :: back := by
  obtain ⟨⟨_, inst⟩, place, rfl⟩ := List.mem_map.mp member
  obtain ⟨front, back, rfl⟩ := List.append_of_mem place
  exact ⟨front, inst, back, rfl⟩

section Distinct

variable {front back : List (Nat × MALInst)} {address : Nat} {inst : MALInst}
  (distinct : (addresses (front ++ (address, inst) :: back)).Nodup)

include distinct

/-- No other cell has the address. -/
theorem others_ne : ∀ cell, cell ∈ front ∨ cell ∈ back → cell.1 ≠ address := by
  intro cell place equal
  have member : cell.1 ∈ addresses (front ++ back) :=
    List.mem_map_of_mem (List.mem_append.mpr place)
  exact (nodup_around distinct).2 (equal ▸ member)

/-- Removing by address removes the instruction there. -/
theorem eraseP_address :
    (front ++ (address, inst) :: back).eraseP (·.1 == address) = front ++ back := by
  rw [List.eraseP_append_right, List.eraseP_cons_of_pos (by simp)]
  intro cell place
  simpa using others_ne distinct cell (.inl place)

/-- One instruction stands at an address. -/
theorem filter_address :
    (front ++ (address, inst) :: back).filter (·.1 == address) = [(address, inst)] := by
  -- An address occurs once, so all other cells are filtered out.
  have none_left : ∀ part : List (Nat × MALInst), (∀ cell ∈ part, cell.1 ≠ address) →
      part.filter (·.1 == address) = [] := by
    intro part apart
    exact List.filter_eq_nil_iff.mpr fun cell place => by simpa using apart cell place
  rw [List.filter_append, List.filter_cons_of_pos (by simp),
    none_left front fun cell place => others_ne distinct cell (.inl place),
    none_left back fun cell place => others_ne distinct cell (.inr place)]
  rfl

/-- Substituting by address substitutes the instruction there. -/
theorem substitute_address (newInst : Nat) (replacement : MALInst) :
    MALLists.substitute address newInst replacement (front ++ (address, inst) :: back) =
      front ++ (newInst, replacement) :: back := by
  -- The other cells have other addresses, so they are kept as they are.
  have kept : ∀ part : List (Nat × MALInst), (∀ cell ∈ part, cell.1 ≠ address) →
      MALLists.substitute address newInst replacement part = part := by
    intro part apart
    have same : ∀ cell ∈ part,
        (if cell.1 = address then (newInst, replacement) else cell) = id cell :=
      fun cell place => if_neg (apart cell place)
    rw [MALLists.substitute, List.map_congr_left same, List.map_id]
  have frontKept := kept front fun cell place => others_ne distinct cell (.inl place)
  have backKept := kept back fun cell place => others_ne distinct cell (.inr place)
  unfold MALLists.substitute at frontKept backKept ⊢
  rw [List.map_append, List.map_cons, frontKept, backKept, if_pos rfl]

end Distinct

variable {mem : MALMemory} {lists : MALLists}

/-- A created instruction is detached. -/
theorem MALMemory.Holds.create (holds : mem.Holds lists) {address : Nat} (inst : MALInst)
    (free : address ∉ addresses lists.all) :
    MALMemory.Holds { mem with insts := mem.insts.store address ⟨inst, none, none⟩ }
      (lists.apply (.create address inst)) := by
  -- The address was free, so that all cells in use stay as they are.
  have kept : ∀ other ∈ addresses lists.all,
      mem.insts.store address ⟨inst, none, none⟩ other = mem.insts other :=
    fun other member => store_other _ fun equal => free (equal ▸ member)
  have perm : List.Perm (addresses (lists.apply (.create address inst)).all)
      (address :: addresses lists.all) := by
    show List.Perm (List.map Prod.fst _) (List.map Prod.fst ((address, inst) :: lists.all))
    exact List.perm_middle.map Prod.fst
  have inBlocks : ∀ other ∈ addresses lists.blocks.flatten, other ∈ addresses lists.all := by
    intro other member
    rw [MALLists.all, addresses, List.map_append]
    exact List.mem_append_left _ member
  have inDetached : ∀ cell ∈ lists.detached, cell.1 ∈ addresses lists.all := by
    intro cell member
    exact List.mem_map_of_mem (List.mem_append_right _ member)
  refine ⟨represents_frame holds.blocks fun other member => kept other (inBlocks other member),
    ?_, ?_, ?_⟩
  -- The new cell is detached, and so are the earlier ones.
  · intro cell member
    rcases List.mem_cons.mp member with rfl | earlier
    · exact store_same _ _
    · exact (kept cell.1 (inDetached cell earlier)).trans (holds.detached cell earlier)
  · exact perm.nodup_iff.mpr (List.nodup_cons.mpr ⟨free, holds.distinct⟩)
  -- Every cell in use was in use before, or is the new one.
  · intro other cell used
    refine perm.mem_iff.mpr ?_
    by_cases same : other = address
    · exact same ▸ List.mem_cons_self
    · have earlier : mem.insts other = some cell := (store_other _ same).symm.trans used
      exact List.mem_cons_of_mem _ (holds.live other cell earlier)

/-- Addresses of one list and of the others make up all addresses. -/
theorem MALMemory.Holds.around {before after : List (List (Nat × MALInst))}
    {list detached : List (Nat × MALInst)}
    (holds : mem.Holds ⟨before ++ list :: after, detached⟩) :
    (addresses (list ++ MALLists.others before after detached)).Nodup ∧
      ∀ address cell, mem.insts address = some cell →
        address ∈ addresses (list ++ MALLists.others before after detached) :=
  ⟨(MALLists.all_perm before after list detached).nodup_iff.mp holds.distinct,
    fun address cell used =>
      (MALLists.all_perm before after list detached).mem_iff.mp (holds.live address cell used)⟩

/-- A part of a list without repeated addresses shares none with the other part. -/
theorem apart_of_nodup {list others : List (Nat × MALInst)}
    (distinct : (addresses (list ++ others)).Nodup) :
    (addresses list).Nodup ∧ ∀ address ∈ addresses others, address ∉ addresses list := by
  rw [addresses, List.map_append, List.nodup_append] at distinct
  exact ⟨distinct.1, fun address other member => distinct.2.2 address member address other rfl⟩

/-- The addresses of a concatenation are those of its parts. -/
theorem mem_addresses_append {list others : List (Nat × MALInst)} {address : Nat} :
    address ∈ addresses (list ++ others) ↔
      address ∈ addresses list ∨ address ∈ addresses others := by
  rw [addresses, List.map_append, List.mem_append]
  rfl

/-- A detached instruction moves to the end of a block. -/
theorem MALMemory.Holds.insertEnd (holds : mem.Holds lists) {block address : Nat}
    (admits : lists.Admits (.insertEnd block address)) :
    ∃ mem', MALListCall.run mem (.insertEnd block address) = some mem' ∧
      mem'.Holds (lists.apply (.insertEnd block address)) := by
  obtain ⟨blocks, detached⟩ := lists
  obtain ⟨inside, member⟩ := admits
  obtain ⟨list, found⟩ : ∃ list, blocks[block]? = some list := ⟨_, List.getElem?_eq_getElem inside⟩
  obtain ⟨before, after, rfl, rfl⟩ := split_of_getElem? found
  obtain ⟨front, inst, back, rfl⟩ := split_of_address member
  -- The instruction is moved from the detached ones behind the list.
  have moved : List.Perm
      (addresses (list ++ MALLists.others before after (front ++ (address, inst) :: back)))
      (addresses ((list ++ [(address, inst)]) ++ MALLists.others before after (front ++ back))) := by
    refine List.Perm.map _ ?_
    simp only [MALLists.others, List.append_assoc, List.cons_append, List.nil_append]
    refine List.Perm.append_left list ?_
    simp only [← List.append_assoc]
    exact List.perm_middle
  obtain ⟨distinct, live⟩ := holds.around
  have distinct' := moved.nodup_iff.mp distinct
  obtain ⟨listDistinct, apart⟩ := apart_of_nodup distinct'
  have detachedDistinct : (addresses (front ++ (address, inst) :: back)).Nodup :=
    ((List.sublist_append_right _ _).map _).nodup holds.distinct
  have applied : MALLists.apply ⟨before ++ list :: after, front ++ (address, inst) :: back⟩
      (.insertEnd before.length address) =
        ⟨before ++ (list ++ [(address, inst)]) :: after, front ++ back⟩ := by
    rw [MALLists.apply, modify_split, filter_address detachedDistinct,
      eraseP_address detachedDistinct]
  rw [applied]
  have fresh := holds.detached (address, inst) (by simp)
  refine holds.splice (list ++ [(address, inst)]) (front ++ back) ?_
    (fun heap ends => malBlockInsertEnd heap ends address) ?_ distinct'
  -- What is detached then was detached before.
  · intro cell place
    rcases List.mem_append.mp place with left | right
    · exact List.mem_append_left _ left
    · exact List.mem_append_right _ (List.mem_cons_of_mem _ right)
  -- The end of the block is written, and nothing else.
  · intro ends rep
    obtain ⟨heap', ends', edited, rep', same⟩ :=
      malBlockInsertEnd_represents rep fresh listDistinct
    refine ⟨heap', ends', edited, rep', fun other member => same other (apart other member), ?_⟩
    intro other cell used
    by_cases here : other ∈ addresses (list ++ [(address, inst)])
    · exact mem_addresses_append.mpr (.inl here)
    · exact moved.mem_iff.mp (live other cell (same other here ▸ used))

/-- A member leaves its block. -/
theorem MALMemory.Holds.remove (holds : mem.Holds lists) {block address : Nat}
    (admits : lists.Admits (.remove block address)) :
    ∃ mem', MALListCall.run mem (.remove block address) = some mem' ∧
      mem'.Holds (lists.apply (.remove block address)) := by
  obtain ⟨blocks, detached⟩ := lists
  obtain ⟨list, found, member⟩ := admits
  obtain ⟨before, after, rfl, rfl⟩ := split_of_getElem? found
  obtain ⟨front, inst, back, rfl⟩ := split_of_address member
  obtain ⟨distinct, live⟩ := holds.around
  obtain ⟨listDistinct, apart⟩ := apart_of_nodup distinct
  -- The list is split at the member that leaves.
  have applied : MALLists.apply ⟨before ++ (front ++ (address, inst) :: back) :: after, detached⟩
      (.remove before.length address) = ⟨before ++ (front ++ back) :: after, detached⟩ := by
    rw [MALLists.apply, modify_split, eraseP_address listDistinct]
  rw [applied]
  have fewer : List.Sublist (addresses ((front ++ back) ++ MALLists.others before after detached))
      (addresses ((front ++ (address, inst) :: back) ++ MALLists.others before after detached)) := by
    refine List.Sublist.map _ (List.Sublist.append_right ?_ _)
    exact (List.sublist_cons_self _ _).append_left front
  refine holds.splice (front ++ back) detached (List.Subset.refl _)
    (fun heap ends => malInstRemove heap ends address) ?_ (fewer.nodup distinct)
  -- The member is given back, and its neighbours are joined.
  intro ends rep
  obtain ⟨heap', ends', edited, rep', freed, same⟩ := malInstRemove_represents rep listDistinct
  refine ⟨heap', ends', edited, rep', fun other place => same other (apart other place), ?_⟩
  intro other cell used
  have different : other ≠ address := by
    intro equal
    rw [equal, freed] at used
    cases used
  by_cases here : other ∈ addresses (front ++ (address, inst) :: back)
  · -- A member other than the removed one is still a member.
    refine mem_addresses_append.mpr (.inl (mem_addresses_append.mpr ?_))
    rcases mem_addresses_append.mp here with left | right
    · exact .inl left
    · exact .inr ((List.mem_cons.mp right).resolve_left different)
  · have earlier := live other cell (same other here ▸ used)
    exact mem_addresses_append.mpr (.inr ((mem_addresses_append.mp earlier).resolve_left here))

/-- One instruction of one list is replaced by a rule, and everything else stays. -/
structure OneReplaced (rules : List MALRewriteRule) (answers : List MALAnswer)
    (lists lists' : MALLists) : Prop where
  detached : lists'.detached = lists.detached
  replaced : ∃ before after front back oldInst newInst inst replacement,
    lists.blocks = before ++ (front ++ (oldInst, inst) :: back) :: after ∧
      lists'.blocks = before ++ (front ++ (newInst, replacement) :: back) :: after ∧
      ReplacedBy rules answers inst newInst replacement ∧
      replacement.id = inst.id ∧ replacement.type = inst.type ∧ replacement.dst = inst.dst

/-- Substitution at the place that the search has found. -/
theorem MALLists.apply_peephole {rules : List MALRewriteRule} {rounds : Nat}
    {answers : List MALAnswer} {before after : List (List (Nat × MALInst))}
    {front back detached : List (Nat × MALInst)} {oldInst newInst : Nat}
    {inst replacement : MALInst}
    (distinct : (addresses (front ++ (oldInst, inst) :: back)).Nodup)
    (found : MALLists.search rules (before ++ (front ++ (oldInst, inst) :: back) :: after) answers =
      some (before.length, oldInst, newInst, replacement)) :
    MALLists.apply ⟨before ++ (front ++ (oldInst, inst) :: back) :: after, detached⟩
        (.peephole rules rounds answers) =
      ⟨before ++ (front ++ (newInst, replacement) :: back) :: after, detached⟩ := by
  -- The search has found this block and this address.
  rw [MALLists.apply, found]
  simp only [modify_split, substitute_address distinct]

/-- A successful peephole step replaces one instruction. -/
theorem MALLists.apply_oneReplaced (distinct : (addresses lists.all).Nodup)
    {rules : List MALRewriteRule} {rounds : Nat} {answers : List MALAnswer}
    (admits : lists.Admits (.peephole rules rounds answers)) :
    OneReplaced rules answers lists (lists.apply (.peephole rules rounds answers)) := by
  obtain ⟨blocks, detached⟩ := lists
  obtain ⟨⟨block, oldInst, newInst, replacement⟩, found⟩ := Option.isSome_iff_exists.mp admits.2.2
  -- The search fixes the block and the place in it.
  obtain ⟨before, after, front, inst, back, rfl, rfl, by_rule⟩ := search_some found
  have around := (MALLists.all_perm before after _ detached).nodup_iff.mp distinct
  rw [MALLists.apply_peephole (apart_of_nodup around).1 found]
  exact ⟨rfl, before, after, front, back, oldInst, newInst, inst, replacement, rfl, rfl, by_rule,
    by_rule.keeps⟩

/-- A member is replaced by an instruction at an address that was not in use. -/
theorem MALMemory.Holds.peephole (holds : mem.Holds lists) {rules : List MALRewriteRule}
    {rounds : Nat} {answers : List MALAnswer}
    (admits : lists.Admits (.peephole rules rounds answers)) :
    ∃ mem', MALListCall.run mem (.peephole rules rounds answers) = some mem' ∧
      mem'.Holds (lists.apply (.peephole rules rounds answers)) := by
  obtain ⟨blocks, detached⟩ := lists
  obtain ⟨enough, unused, succeeds⟩ := admits
  obtain ⟨⟨block, oldInst, newInst, replacement⟩, found⟩ := Option.isSome_iff_exists.mp succeeds
  obtain ⟨before, after, front, inst, back, rfl, rfl, by_rule⟩ := search_some found
  obtain ⟨granted, offered⟩ := by_rule.offered
  have free := unused newInst granted offered
  rw [MALLists.apply_peephole (apart_of_nodup holds.around.1).1 found]
  -- The new instruction is created among the detached ones and does not stay there.
  have created := holds.create replacement free
  obtain ⟨distinct, live⟩ := created.around
  obtain ⟨listDistinct, apart⟩ := apart_of_nodup distinct
  have fresh := created.detached (newInst, replacement) (List.mem_cons_self)
  have newApart : newInst ∉ addresses (front ++ (oldInst, inst) :: back) :=
    apart newInst (mem_addresses_append.mpr (.inr (mem_addresses_append.mpr
      (.inr List.mem_cons_self))))
  have moved : List.Perm
      (addresses ((front ++ (oldInst, inst) :: back) ++
        MALLists.others before after ((newInst, replacement) :: detached)))
      (oldInst :: addresses ((front ++ (newInst, replacement) :: back) ++
        MALLists.others before after detached)) := by
    show List.Perm (List.map Prod.fst _) (List.map Prod.fst ((oldInst, inst) ::
      ((front ++ (newInst, replacement) :: back) ++ MALLists.others before after detached)))
    refine List.Perm.map _ ?_
    simp only [MALLists.others, List.append_assoc, List.cons_append]
    refine List.perm_middle.trans (.cons _ (.append_left front ?_))
    simp only [← List.append_assoc]
    exact List.perm_middle
  -- The old instruction is not in use any more.
  obtain ⟨oldApart, distinct'⟩ := List.nodup_cons.mp (moved.nodup_iff.mp distinct)
  obtain ⟨-, apart'⟩ := apart_of_nodup distinct'
  obtain ⟨mem', edited, holds'⟩ := created.splice (front ++ (newInst, replacement) :: back)
    detached (List.subset_cons_self _ _)
    (fun heap ends => malReplaceInst heap ends oldInst newInst) (by
      intro ends rep
      obtain ⟨heap', ends', replaced, rep', freed, same⟩ :=
        malReplaceInst_represents rep fresh listDistinct newApart
      refine ⟨heap', ends', replaced, rep', fun other member => same other ?_, ?_⟩
      · -- The others are neither in the list nor the new instruction.
        intro written
        rcases List.mem_cons.mp written with isNew | inList
        · refine apart' other member (mem_addresses_append.mpr (.inr ?_))
          exact isNew ▸ List.mem_cons_self
        · refine apart other ?_ inList
          simp only [MALLists.others, mem_addresses_append] at member ⊢
          exact member.imp_right (Or.imp_right (List.mem_cons_of_mem _))
      · intro other cell used
        have before_edit : other ∈ addresses ((front ++ (oldInst, inst) :: back) ++
            MALLists.others before after ((newInst, replacement) :: detached)) := by
          by_cases written : other ∈ newInst :: addresses (front ++ (oldInst, inst) :: back)
          · rcases List.mem_cons.mp written with isNew | inList
            · refine mem_addresses_append.mpr (.inr (mem_addresses_append.mpr (.inr ?_)))
              exact mem_addresses_append.mpr (.inr (isNew ▸ List.mem_cons_self))
            · exact mem_addresses_append.mpr (.inl inList)
          · exact live other cell (same other written ▸ used)
        rcases List.mem_cons.mp (moved.mem_iff.mp before_edit) with isOld | stays
        · rw [isOld, freed] at used
          cases used
        · exact stays) distinct'
  -- The call does these edits one after the other.
  refine ⟨mem', ?_, holds'⟩
  rw [MALListCall.run, malApplyOnePeepholeIn, malSearchBlocks_eq holds.blocks enough answers,
    found]
  simp only [MALListCall.onBlock, Option.bind_eq_bind] at edited ⊢
  obtain ⟨ends, foundEnds, rest⟩ := Option.bind_eq_some_iff.mp edited
  obtain ⟨⟨heap', ends'⟩, replaced, equal⟩ := Option.bind_eq_some_iff.mp rest
  simp only [Option.bind_some, foundEnds, replaced]
  exact equal

/-- Every call that may be made keeps the memory exact. -/
theorem MALMemory.Holds.call (holds : mem.Holds lists) (call : MALListCall)
    (admits : lists.Admits call) :
    ∃ mem', call.run mem = some mem' ∧ mem'.Holds (lists.apply call) := by
  cases call with
  | create address inst => exact ⟨_, rfl, holds.create inst admits⟩
  | insertEnd block address => exact holds.insertEnd admits
  | remove block address => exact holds.remove admits
  | peephole rules rounds answers => exact holds.peephole admits

/-- So does every sequence of calls. -/
theorem MALMemory.Holds.calls (holds : mem.Holds lists) (calls : List MALListCall)
    (admits : lists.AdmitsAll calls) :
    ∃ mem', MALListCall.runAll mem calls = some mem' ∧ mem'.Holds (lists.applyAll calls) := by
  induction calls generalizing mem lists with
  | nil => exact ⟨mem, rfl, holds⟩
  | cons call rest ih =>
    -- The first call is made on memory that represents the lists.
    obtain ⟨middle, first, holds'⟩ := holds.call call admits.1
    obtain ⟨mem', later, final⟩ := ih holds' admits.2
    refine ⟨mem', ?_, final⟩
    rw [MALListCall.runAll, first]
    exact later

end Calls

/-! Without refusals the step is the one of the rewriter. -/

section Granted

variable {rules : List MALRewriteRule}

/-- An offer of memory that is never refused. -/
def grantedAt (address : Nat) : MALAnswer := some (address, fun _ => true)

/-- With memory granted, the rules give the replacement that the rule set gives. -/
theorem malTryRules_granted (inst : MALInst) (rules : List MALRewriteRule) (address : Nat)
    (later : List MALAnswer) :
    malTryRules inst rules (grantedAt address :: later) =
      match malRewriteInst rules inst with
      | some replacement => (some (address, replacement), later)
      | none => (none, grantedAt address :: later) := by
  induction rules with
  | nil => rfl
  | cons rule rest ih =>
    rw [malTryRules, malRewriteInst, List.findSome?_cons]
    -- With memory, the first rule that matches decides.
    cases matched : malMrsMatchRule rule inst with
    | none => exact ih
    | some bindings =>
      simp only [grantedAt, malBuildReplacementIn_granted]
      rfl

/-- The instructions of a list, without their addresses. -/
def valuesOf (list : List (Nat × MALInst)) : List MALInst := list.map Prod.snd

/-- With memory granted, the search ends at the first instruction that a rule matches, or has none.
-/
theorem searchList_granted {list : List (Nat × MALInst)} (distinct : (addresses list).Nodup)
    (address : Nat) (later : List MALAnswer) :
    (∃ oldInst replacement,
      MALLists.searchList rules list (grantedAt address :: later) =
        (some (oldInst, address, replacement), later) ∧
      Search.replaceFirst (malRewriteInst rules) (valuesOf list) =
        some (valuesOf (MALLists.substitute oldInst address replacement list))) ∨
    (MALLists.searchList rules list (grantedAt address :: later) =
        (none, grantedAt address :: later) ∧
      Search.replaceFirst (malRewriteInst rules) (valuesOf list) = none) := by
  induction list with
  | nil => exact .inr ⟨rfl, rfl⟩
  | cons cell rest ih =>
    obtain ⟨apart, restDistinct⟩ := List.nodup_cons.mp distinct
    show (∃ oldInst replacement, MALLists.searchList rules (cell :: rest) _ = _ ∧
      Search.replaceFirst (malRewriteInst rules) (cell.2 :: valuesOf rest) = _) ∨ _ ∧
      Search.replaceFirst (malRewriteInst rules) (cell.2 :: valuesOf rest) = none
    rw [MALLists.searchList, malTryRules_granted, Search.replaceFirst]
    -- The first instruction is rewritten, or the rest is searched.
    cases rewritten : malRewriteInst rules cell.2 with
    | some replacement =>
      refine .inl ⟨cell.1, replacement, rfl, ?_⟩
      have split : MALLists.substitute cell.1 address replacement ([] ++ (cell.1, cell.2) :: rest) =
          [] ++ (address, replacement) :: rest :=
        substitute_address distinct address replacement
      rw [List.nil_append, List.nil_append] at split
      rw [split]
      rfl
    | none =>
      rcases ih restDistinct with ⟨oldInst, replacement, found, replaced⟩ | ⟨nothing, stuck⟩
      · refine .inl ⟨oldInst, replacement, found, ?_⟩
        obtain ⟨front, inst, back, split, -⟩ :=
          (searchList_some rules rest _).2 oldInst address replacement (by rw [found])
        -- The instruction that is replaced is behind the first one.
        have different : cell.1 ≠ oldInst := by
          intro equal
          exact apart (by simp [split, equal])
        have kept : MALLists.substitute oldInst address replacement (cell :: rest) =
            cell :: MALLists.substitute oldInst address replacement rest := by
          rw [MALLists.substitute, List.map_cons, if_neg different]
          rfl
        rw [kept, replaced]
        rfl
      · refine .inr ⟨nothing, ?_⟩
        simp only [stuck, Option.map_none]

/-- The search of all blocks is the step of the rewriter. -/
theorem search_granted {blocks : List (List (Nat × MALInst))}
    (distinct : ∀ list ∈ blocks, (addresses list).Nodup) (address : Nat)
    (later : List MALAnswer) :
    Search.replaceFirst (Search.replaceFirst (malRewriteInst rules)) (blocks.map valuesOf) =
      (MALLists.search rules blocks (grantedAt address :: later)).map
        fun (block, oldInst, newInst, replacement) =>
          (blocks.modify block (MALLists.substitute oldInst newInst replacement)).map valuesOf := by
  induction blocks with
  | nil => rfl
  | cons list rest ih =>
    have restDistinct := ih fun other member => distinct other (by simp [member])
    rw [List.map_cons, Search.replaceFirst, MALLists.search]
    -- The block has something to replace, or the search goes on.
    rcases @searchList_granted rules list (distinct list (by simp)) address later with
      ⟨oldInst, replacement, found, replaced⟩ | ⟨nothing, stuck⟩
    · rw [found, replaced]
      rfl
    · rw [nothing, stuck]
      simp only [restDistinct, Option.map_map]
      rfl

/-- A function in memory is rewritten as the rewriter says, when memory is granted. -/
theorem MALLists.apply_granted {lists : MALLists} (distinct : (addresses lists.all).Nodup)
    {fn fn' : MALFunction} (same : lists.blocks.map valuesOf = fn.blocks.map (·.insts))
    (rewritten : malApplyOnePeephole rules fn = some fn') (rounds address : Nat) :
    (lists.apply (.peephole rules rounds [grantedAt address])).blocks.map valuesOf =
      fn'.blocks.map (·.insts) := by
  have blockDistinct : ∀ list ∈ lists.blocks, (addresses list).Nodup := by
    intro list member
    obtain ⟨before, after, split⟩ := List.append_of_mem member
    have around : (addresses (MALLists.all ⟨before ++ list :: after, lists.detached⟩)).Nodup := by
      rw [← split]
      exact distinct
    exact (apart_of_nodup ((MALLists.all_perm before after list _).nodup_iff.mp around)).1
  obtain ⟨blocks, replaced, rfl⟩ := Option.map_eq_some_iff.mp rewritten
  -- A block is rewritten in its instructions.
  have parts := Search.replaceFirst_map (g := Search.replaceFirst (malRewriteInst rules))
    MALBlock.insts (f := malRewriteBlock rules) (by
      intro block
      rw [malRewriteBlock]
      cases Search.replaceFirst (malRewriteInst rules) block.insts <;> rfl) fn.blocks
  rw [replaced, ← same, search_granted blockDistinct address []] at parts
  obtain ⟨place, found, equal⟩ := Option.map_eq_some_iff.mp parts.symm
  rw [MALLists.apply, found]
  exact equal

end Granted

/-- No instruction is allocated, and every block is empty. -/
theorem holds_empty (count : Nat) :
    MALMemory.Holds ⟨fun _ => none, List.replicate count ⟨none, none⟩⟩
      ⟨List.replicate count [], []⟩ := by
  refine ⟨?_, by simp, ?_, by simp⟩
  -- Every block begins and ends nowhere.
  · induction count with
    | zero => exact .nil
    | succ count ih => exact .cons ⟨rfl, rfl, trivial⟩ ih
  · rw [MALLists.all, List.flatten_replicate_nil]
    exact List.nodup_nil

/--
The instruction lists of all blocks stay well formed under every sequence of calls.
No call touches memory that is not in use, the memory holds exactly the lists that appending,
deleting and substituting in place give, and a peephole step changes one instruction.
-/
theorem malInstLists_wellFormed (mem : MALMemory) (lists : MALLists) (holds : mem.Holds lists)
    (calls : List MALListCall) (admits : lists.AdmitsAll calls) :
    (∃ mem', MALListCall.runAll mem calls = some mem' ∧ mem'.Holds (lists.applyAll calls)) ∧
      ∀ rules rounds answers, (lists.applyAll calls).Admits (.peephole rules rounds answers) →
        OneReplaced rules answers (lists.applyAll calls)
          ((lists.applyAll calls).apply (.peephole rules rounds answers)) := by
  obtain ⟨mem', run, final⟩ := holds.calls calls admits
  exact ⟨⟨mem', run, final⟩, fun _ _ _ step => MALLists.apply_oneReplaced final.distinct step⟩

/-- Two sums in the second block, of which the first is removed and the second one replaced. -/
def spliceCalls : List MALListCall :=
  [.create 5 ⟨0, .add, .i32, 2, [malOperandReg 0 .i32, malOperandReg 1 .i32]⟩, .insertEnd 1 5,
    .create 3 ⟨1, .add, .i32, 3, [malOperandReg 2 .i32, malOperandReg 1 .i32]⟩, .insertEnd 1 3,
    .remove 1 5, .peephole eqxAssocRules 1 [grantedAt 5]]

/-- The block is left with the replacement, in memory that the removed instruction had. -/
theorem malInstLists_wellFormed_splices :
    ∃ mem', MALListCall.runAll ⟨fun _ => none, [⟨none, none⟩, ⟨none, none⟩]⟩ spliceCalls =
        some mem' ∧
      mem'.Holds ⟨[[], [(5, ⟨1, .add, .i32, 3, [malOperandReg 1 .i32, malOperandReg 2 .i32]⟩)]],
        []⟩ :=
  (malInstLists_wellFormed _ ⟨[[], []], []⟩ (holds_empty 2) spliceCalls
    ⟨(by decide : _ ∉ _), ⟨by decide, by decide⟩, (by decide : _ ∉ _), ⟨by decide, by decide⟩,
      ⟨_, rfl, by decide⟩,
      -- The only address that is offered is the one that was freed.
      ⟨by decide, fun address granted offered => by
        have five : address = 5 ∧ granted = fun _ => true := by simpa [grantedAt] using offered
        rw [five.1]
        decide, by decide⟩, trivial⟩).1

end Wirble
