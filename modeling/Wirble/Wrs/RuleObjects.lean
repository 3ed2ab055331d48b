import Wirble.Wrs.Guards

/-! The table of a rewrite system as it lies in memory. Its entries point to rule objects that the
caller made, so that one object may stand in several places. -/

namespace Wirble

/-- A rewrite system, and the rule objects that were made in its context. -/
structure WRSStore where
  /-- The objects in the order in which they were made. None of them is ever freed. -/
  objects : List WILRewriteRule
  /-- The pointers in the table, as positions among the objects. -/
  table : List Nat
  inside : ∀ ref ∈ table, ref < objects.length
  ctx : WILContext
  strategy : WILRewriteStrategy
  stats : WILRewriteStats

namespace WRSStore

/-- A store with the system from `wilRewriteSystemCreate`, before any rule is made. -/
def create (ctx : WILContext) : WRSStore :=
  { objects := [], table := [], inside := fun _ member => absurd member List.not_mem_nil, ctx,
    strategy := .innermost, stats := .zero }

/-- The system that calls of the engine see through the pointers. -/
def system (store : WRSStore) : WILRewriteSystem where
  ctx := store.ctx
  rules := store.table.filterMap (store.objects[·]?)
  strategy := store.strategy
  stats := store.stats

/-- What a call of the engine writes: it never writes the table or the objects. -/
def write (store : WRSStore) (sys : WILRewriteSystem) : WRSStore :=
  { store with ctx := sys.ctx, strategy := sys.strategy, stats := sys.stats }

/-- Make a rule object, enabled and not counted yet. -/
def createRule (store : WRSStore) (rule : WILRewriteRule) : WRSStore :=
  { store with
    objects := store.objects ++ [{ rule with enabled := true, statsIndex := 0 }]
    inside := fun ref member => by
      rw [List.length_append]
      exact Nat.lt_add_right 1 (store.inside ref member) }

/-- Write one object. -/
def modify (store : WRSStore) (ref : Nat) (edit : WILRewriteRule → WILRewriteRule) : WRSStore :=
  { store with
    objects := store.objects.modify ref edit
    inside := fun other member => by
      rw [List.length_modify]
      exact store.inside other member }

/-- `wilRewriteSystemAddRule`, where a pointer to no object is null. The counter of the object
becomes its new position or the last one. -/
def addRule (store : WRSStore) (ref : Nat) : WRSStore :=
  if known : ref < store.objects.length then
    let statsIndex := if store.table.length < 256 then store.table.length else 255
    { store.modify ref ({ · with statsIndex }) with
      table := store.table ++ [ref]
      inside := fun other member => by
        rw [modify, List.length_modify]
        rcases List.mem_append.mp member with old | new
        · exact store.inside other old
        · rw [List.mem_singleton.mp new]
          exact known }
  else store

/-- `wrsFileApplyToSystem` with the objects of a loaded file. -/
def addFile (store : WRSStore) (rules : List Nat) (strategy : WILRewriteStrategy) : WRSStore :=
  rules.foldl addRule { store with strategy }

/-- The object has the name. -/
def named (objects : List WILRewriteRule) (name : String) (ref : Nat) : Bool :=
  (objects[ref]?).any (·.name == name)

/-- `wilRewriteSystemFindRule`, the first pointer to an object of the name. -/
def findRule (store : WRSStore) (name : String) : Option Nat :=
  store.table.find? (named store.objects name)

/-- `wilRewriteSystemRemoveRule`, which takes the first pointer to an object of the name out. -/
def removeRule (store : WRSStore) (ruleName : String) : WRSStore :=
  { store with
    table := store.table.eraseP (named store.objects ruleName)
    inside := fun ref member => store.inside ref (List.mem_of_mem_eraseP member) }

/-- `wilRewriteSystemClearRules`. -/
def clearRules (store : WRSStore) : WRSStore :=
  { store with table := [], inside := fun _ member => absurd member List.not_mem_nil }

/-- `wilRewriteSystemEnableRule` and `wilRewriteSystemDisableRule`, which write the object that is
found under the name. -/
def switchRule (store : WRSStore) (name : String) (enabled : Bool) : WRSStore :=
  match store.findRule name with
  | some ref => store.modify ref ({ · with enabled })
  | none => store

def enableRule (store : WRSStore) (name : String) : WRSStore := store.switchRule name true

def disableRule (store : WRSStore) (name : String) : WRSStore := store.switchRule name false

/-- `wilRewriteSystemIsRuleEnabled`. -/
def isRuleEnabled (store : WRSStore) (name : String) : Bool :=
  (store.findRule name).any fun ref => (store.objects[ref]?).any (·.enabled)

def setStrategy (store : WRSStore) (strategy : WILRewriteStrategy) : WRSStore :=
  { store with strategy }

def resetStats (store : WRSStore) : WRSStore := { store with stats := .zero }

/-! What the engine sees. -/

section System

variable {store : WRSStore}

/-- The engine sees as many rules as the table has pointers. -/
theorem system_length (store : WRSStore) : store.system.rules.length = store.table.length := by
  have counted : ∀ refs : List Nat, (∀ ref ∈ refs, ref < store.objects.length) →
      (refs.filterMap (store.objects[·]?)).length = refs.length := by
    intro refs inside
    induction refs with
    | nil => rfl
    | cons ref rest next =>
      -- Every pointer leads to an object.
      obtain ⟨first, others⟩ := List.forall_mem_cons.mp inside
      rw [List.filterMap_cons_some (List.getElem?_eq_getElem first), List.length_cons,
        List.length_cons, next others]
  exact counted store.table store.inside

/-- A rule that the engine sees is one of the objects. -/
theorem mem_of_mem_system {rule : WILRewriteRule} (member : rule ∈ store.system.rules) :
    rule ∈ store.objects := by
  obtain ⟨ref, -, read⟩ := List.mem_filterMap.mp member
  exact List.mem_of_getElem? read

/-- An object that no pointer leads to can be written without the engine seeing it. -/
theorem filterMap_modify (objects : List WILRewriteRule) {refs : List Nat} {ref : Nat}
    (edit : WILRewriteRule → WILRewriteRule) (absent : ref ∉ refs) :
    refs.filterMap ((objects.modify ref edit)[·]?) = refs.filterMap (objects[·]?) := by
  refine List.filterMap_congr fun other member => ?_
  rw [List.getElem?_modify_ne]
  rintro rfl
  exact absent member

/-- Adding an object for the first time appends its rule to the ones that the engine sees. -/
theorem system_addRule {ref : Nat} {rule : WILRewriteRule}
    (found : store.objects[ref]? = some rule) (fresh : ref ∉ store.table) :
    (store.addRule ref).system = wilRewriteSystemAddRule store.system rule := by
  have known : ref < store.objects.length := (List.getElem?_eq_some_iff.mp found).1
  rw [addRule, dif_pos known, wilRewriteSystemAddRule, system_length]
  -- The other pointers lead to the same objects as before.
  have others := fun edit => filterMap_modify store.objects edit fresh
  simp only [system, modify, List.filterMap_append, others, List.filterMap_cons,
    List.getElem?_modify_eq, found, List.filterMap_nil]
  rfl

/-- A name leads the engine to the object that is found under it. -/
theorem findRule_system (store : WRSStore) (name : String) :
    wilRewriteSystemFindRule store.system name =
      (store.findRule name).bind (store.objects[·]?) :=
  List.find?_filterMap

end System

end WRSStore

end Wirble
