import Wirble.Library.Chains
import Mathlib.Data.Finset.Card

/-! The string pool: a hash table with chained entries that grows by relinking its chains. -/

namespace Wirble

open Chains

/-- An entry on the heap, with the byte that ends its text. -/
structure WirbleStrpoolEntry where
  next : Option Nat
  length : Nat
  text : List UInt8
  deriving DecidableEq, Repr

/-- A string pool, whose entries are never freed while it lives. -/
structure WirbleStrpool where
  /-- The allocations in their order, where a pointer to an entry is its position. -/
  entries : List WirbleStrpoolEntry
  buckets : List (Option Nat)
  size : Nat
  deriving DecidableEq, Repr

namespace WirbleStrpool

def bucketCount (pool : WirbleStrpool) : Nat := pool.buckets.length

end WirbleStrpool

/-- `wirble_strpool_init`. -/
def wirbleStrpoolInit : WirbleStrpool := { entries := [], buckets := [], size := 0 }

/-- `WIRBLE_STRPOOL_DEFAULT_BUCKETS`. -/
def wirbleStrpoolDefaultBuckets : Nat := 128

/-- The hash of some bytes, in the unsigned arithmetic of 64 bits. -/
def wirbleStrpoolHashBytes (value : List UInt8) : UInt64 :=
  value.foldl (fun hash byte => (hash ^^^ byte.toUInt64) * 1099511628211) 1469598103934665603

namespace WirbleStrpoolEntry

/-- The bytes of an entry, without the one that ends its text. -/
def bytes (entry : WirbleStrpoolEntry) : List UInt8 := entry.text.take entry.length

/-- The bucket of an entry in a table of some buckets. -/
def slot (count : Nat) (entry : WirbleStrpoolEntry) : Nat :=
  (wirbleStrpoolHashBytes entry.bytes).toNat % count

end WirbleStrpoolEntry

/-- The inner loop of `wirble_strpool_grow`: push every entry of a chain on its new bucket. Nothing
when the chain is longer than the fuel. -/
def relinkChain : Nat → List WirbleStrpoolEntry → List (Option Nat) → Option Nat →
    Option (List WirbleStrpoolEntry × List (Option Nat))
  | _, entries, buckets, none => some (entries, buckets)
  | 0, _, _, some _ => none
  | fuel + 1, entries, buckets, some id =>
    match entries[id]? with
    | none => none
    | some entry =>
      let slot := entry.slot buckets.length
      relinkChain fuel
        (entries.modify id fun stored => { stored with next := (buckets[slot]?).join })
        (buckets.set slot (some id)) entry.next

/-- The outer loop of `wirble_strpool_grow`, over the old buckets. -/
def relinkBuckets : List (Option Nat) → List WirbleStrpoolEntry → List (Option Nat) →
    Option (List WirbleStrpoolEntry × List (Option Nat))
  | [], entries, buckets => some (entries, buckets)
  | head :: rest, entries, buckets =>
    match relinkChain entries.length entries buckets head with
    | none => none
    | some (entries, buckets) => relinkBuckets rest entries buckets

/-- `wirble_strpool_grow`, whose allocation succeeds. -/
def wirbleStrpoolGrow (pool : WirbleStrpool) (bucketCount : Nat) : Option WirbleStrpool :=
  (relinkBuckets pool.buckets pool.entries (List.replicate bucketCount none)).map
    fun (entries, buckets) => { pool with entries, buckets }

/-- The search loop: the first entry of the chain with the length and the bytes. The inner nothing
is the end of the chain, and the outer one a chain that is longer than the fuel. -/
def findEntry (entries : List WirbleStrpoolEntry) (value : List UInt8) :
    Nat → Option Nat → Option (Option Nat)
  | _, none => some none
  | 0, some _ => none
  | fuel + 1, some id =>
    match entries[id]? with
    | none => none
    | some entry =>
      if entry.length = value.length ∧ entry.text.take value.length = value then some (some id)
      else findEntry entries value fuel entry.next

/-- The allocation of a new entry, pushed on the bucket of its hash. -/
def addEntry (pool : WirbleStrpool) (value : List UInt8) (slot : Nat) : WirbleStrpool × Nat :=
  ({ entries := pool.entries ++
      [{ next := (pool.buckets[slot]?).join, length := value.length, text := value ++ [0] }]
     buckets := pool.buckets.set slot (some pool.entries.length)
     size := pool.size + 1 },
    pool.entries.length)

/-- The growth at the start of an insertion: the first buckets, and twice as many for a full pool.
-/
def prepare (pool : WirbleStrpool) : Option WirbleStrpool :=
  (if pool.bucketCount = 0 then wirbleStrpoolGrow pool wirbleStrpoolDefaultBuckets
    else some pool).bind fun pool =>
  if pool.size ≥ pool.bucketCount then wirbleStrpoolGrow pool (pool.bucketCount * 2) else some pool

/-- `wirble_strpool_intern_with_length`, given the bytes at the value up to the length. -/
def wirbleStrpoolInternWithLength (pool : WirbleStrpool) (value : List UInt8) :
    Option (WirbleStrpool × Nat) := do
  let pool ← prepare pool
  let slot := (wirbleStrpoolHashBytes value).toNat % pool.bucketCount
  match ← findEntry pool.entries value pool.entries.length (pool.buckets[slot]?).join with
  | some id => some (pool, id)
  | none => some (addEntry pool value slot)

/-- Interns one value after the other, with the pointers that the calls return. -/
def internAll : WirbleStrpool → List (List UInt8) → Option (WirbleStrpool × List Nat)
  | pool, [] => some (pool, [])
  | pool, value :: values => do
    let (pool, pointer) ← wirbleStrpoolInternWithLength pool value
    let (pool, pointers) ← internAll pool values
    some (pool, pointer :: pointers)

/-! What a pool holds. -/

namespace WirbleStrpool

/-- The links between the entries. -/
def next (entries : List WirbleStrpoolEntry) (id : Nat) : Option Nat := (entries[id]?).bind (·.next)

/-- The bytes behind a pointer, nothing where no entry was allocated. -/
def contents (pool : WirbleStrpool) (pointer : Nat) : Option (List UInt8) :=
  (pool.entries[pointer]?).map (·.bytes)

/-- The entry is in the chain of a bucket. -/
def InBucket (pool : WirbleStrpool) (slot pointer : Nat) : Prop :=
  ∃ head ids, pool.buckets[slot]? = some head ∧ Chain (next pool.entries) head ids ∧ pointer ∈ ids

end WirbleStrpool

open WirbleStrpool

/-- The bucket of the entry behind a pointer. -/
def slotOf (entries : List WirbleStrpoolEntry) (count id : Nat) : Nat :=
  (entries[id]?).elim 0 (·.slot count)

/-- The chains of a table hold each of the entries once, in the bucket of its hash. -/
structure PoolLinked (entries : List WirbleStrpoolEntry) (buckets : List (Option Nat))
    (chains : List (List Nat)) (ids : List Nat) : Prop where
  table : Table (next entries) buckets chains
  all : chains.flatten.Perm ids
  placed : Placed (slotOf entries buckets.length) chains

/-- The representation invariant of a pool. -/
structure StrpoolInvariant (pool : WirbleStrpool) : Prop where
  linked : ∃ chains, PoolLinked pool.entries pool.buckets chains (List.range pool.entries.length)
  ended : ∀ entry ∈ pool.entries, ∃ value : List UInt8,
    entry.length = value.length ∧ entry.text = value ++ [0]
  distinct : (pool.entries.map (·.bytes)).Nodup
  size : pool.size = pool.entries.length

/-! Relinking. -/

/-- The parts of the entries that links do not touch. -/
def texts (entries : List WirbleStrpoolEntry) : List (Nat × List UInt8) :=
  entries.map fun entry => (entry.length, entry.text)

section Relink

variable {entries entries' : List WirbleStrpoolEntry} {buckets : List (Option Nat)}
  {chains : List (List Nat)} {done : List Nat}

/-- Entries of equal texts have equal bytes. -/
theorem bytes_of_texts (same : texts entries' = texts entries) (id : Nat) :
    (entries'[id]?).map (·.bytes) = (entries[id]?).map (·.bytes) := by
  have read := congrArg (fun list => (list[id]?).map fun text => text.2.take text.1) same
  simp only [texts, List.getElem?_map, Option.map_map] at read
  exact read

/-- Strings with the same texts are as many. -/
theorem length_of_texts (same : texts entries' = texts entries) :
    entries'.length = entries.length := by
  simpa only [texts, List.length_map] using congrArg List.length same

/-- The bucket of an entry depends on its bytes. -/
theorem slotOf_of_texts (same : texts entries' = texts entries) (count : Nat) :
    slotOf entries' count = slotOf entries count := by
  funext id
  have read := bytes_of_texts same id
  rw [slotOf, slotOf]
  -- The same entries are there, with the same bytes, and the hash is that of the bytes.
  cases left : entries'[id]? with
  | none =>
    rw [left] at read
    rw [Option.map_eq_none_iff.mp read.symm]
  | some entry =>
    rw [left] at read
    obtain ⟨other, found, bytes⟩ := Option.map_eq_some_iff.mp read.symm
    simp only [found, Option.elim_some, WirbleStrpoolEntry.slot, bytes]

/-- Writing one link updates one link. -/
theorem next_modify {id : Nat} (valid : id < entries.length) (head : Option Nat) :
    next (entries.modify id fun stored => { stored with next := head }) =
      Function.update (next entries) id head := by
  funext other
  simp only [next, List.getElem?_modify]
  -- The link that is written is read back, and the others are as before.
  by_cases same : other = id
  · subst same
    rw [Function.update_self, List.getElem?_eq_getElem valid]
    simp
  · rw [Function.update_of_ne same]
    have apart : ¬ id = other := fun equal => same equal.symm
    show _ = (entries[other]?).bind (·.next)
    cases entries[other]? <;> simp [apart]

/-- Writing one link touches no text. -/
theorem texts_modify (id : Nat) (head : Option Nat) :
    texts (entries.modify id fun stored => { stored with next := head }) = texts entries := by
  refine List.ext_getElem? fun other => ?_
  simp only [texts, List.getElem?_map, List.getElem?_modify]
  -- The modified entry has its text and length still.
  cases entries[other]? with
  | none => rfl
  | some entry =>
    simp only [Option.map_eq_map, Option.map_some, Option.some.injEq]
    split <;> rfl

/-- One round of the inner loop pushes one entry on the bucket of its hash. -/
theorem PoolLinked.push (linked : PoolLinked entries buckets chains done) {id : Nat}
    {entry : WirbleStrpoolEntry} (stored : entries[id]? = some entry) (fresh : id ∉ done)
    (positive : 0 < buckets.length) :
    let slot := entry.slot buckets.length
    PoolLinked (entries.modify id fun stored => { stored with next := (buckets[slot]?).join })
      (buckets.set slot (some id)) (pushAt slot id chains) (id :: done) := by
  intro slot
  have bounded : slot < buckets.length := Nat.mod_lt _ positive
  have own : slotOf entries buckets.length id = slot := by simp [slotOf, stored, slot]
  have valid := (List.getElem?_eq_some_iff.mp stored).1
  refine ⟨?_, ?_, ?_⟩
  · -- The link of the entry is the old head, and the new head is the entry.
    rw [next_modify valid, List.getElem?_eq_getElem bounded, Option.join_some]
    exact linked.table.push (List.getElem?_eq_getElem bounded) fun member =>
      fresh (linked.all.mem_iff.mp member)
  · have slots : slot < chains.length := linked.table.length ▸ bounded
    exact (flatten_pushAt slots).trans (linked.all.cons id)
  · rw [List.length_set, slotOf_of_texts (texts_modify id _), ← own]
    exact linked.placed.push id

/-- The inner loop moves a whole chain, and leaves the links of all other entries. -/
theorem relinkChain_spec {ids : List Nat} {fuel : Nat} {pointer : Option Nat}
    (linked : PoolLinked entries buckets chains done) (chain : Chain (next entries) pointer ids)
    (nodup : ids.Nodup) (fresh : ∀ id ∈ ids, id < entries.length ∧ id ∉ done)
    (positive : 0 < buckets.length) (enough : ids.length ≤ fuel) :
    ∃ entries' buckets' chains' done', relinkChain fuel entries buckets pointer =
        some (entries', buckets') ∧
      PoolLinked entries' buckets' chains' done' ∧ done'.Perm (ids ++ done) ∧
      texts entries' = texts entries ∧ buckets'.length = buckets.length ∧
      ∀ id, id ∉ ids → next entries' id = next entries id := by
  -- Induction along the chain, which the loop follows by the links read before each write.
  induction ids generalizing fuel entries buckets chains done pointer with
  | nil =>
    have null : pointer = none := chain
    subst null
    exact ⟨entries, buckets, chains, done, by rw [relinkChain], linked, .refl _, rfl, rfl,
      fun _ _ => rfl⟩
  | cons id rest ih =>
    obtain ⟨rfl, later⟩ := chain
    obtain ⟨valid, unseen⟩ := fresh id (.head _)
    obtain ⟨absent, nodup⟩ := List.nodup_cons.mp nodup
    cases fuel with
    | zero => cases enough
    | succ fuel =>
      -- The entry is stored and pushed on its new chain.
      have stored : entries[id]? = some entries[id] := List.getElem?_eq_getElem valid
      have pushed := linked.push stored unseen positive
      have link : next entries id = entries[id].next := by simp [next, stored]
      rw [link] at later
      -- The rest of the chain does not pass through the entry that was moved.
      have same : ∀ other ∈ rest, next (entries.modify id fun stored =>
          { stored with next := (buckets[entries[id].slot buckets.length]?).join }) other =
            next entries other := by
        intro other member
        rw [next_modify valid, Function.update_of_ne]
        rintro rfl
        exact absent member
      have chain' := later.frame same
      -- What is left of the chain is moved in the same way.
      obtain ⟨entries', buckets', chains', done', run, linked', perm, same, count, frame⟩ :=
        ih pushed chain' nodup (by
          intro other member
          obtain ⟨inside, outside⟩ := fresh other (.tail _ member)
          rw [List.length_modify]
          refine ⟨inside, fun either => ?_⟩
          rcases List.mem_cons.mp either with rfl | old
          · exact absent member
          · exact outside old) (by rwa [List.length_set]) (Nat.le_of_succ_le_succ enough)
      refine ⟨entries', buckets', chains', done', ?_, linked',
        perm.trans List.perm_middle, same.trans (texts_modify id _),
        count.trans List.length_set, ?_⟩
      · rw [relinkChain, stored]
        exact run
      -- An entry outside the chain keeps its link at both steps.
      · intro other outside
        simp only [List.mem_cons, not_or] at outside
        rw [frame other outside.2, next_modify valid, Function.update_of_ne outside.1]

/-- The outer loop moves all chains. -/
theorem relinkBuckets_spec {heads : List (Option Nat)} {old : List (List Nat)}
    (linked : PoolLinked entries buckets chains done) (table : Table (next entries) heads old)
    (nodup : old.flatten.Nodup) (fresh : ∀ id ∈ old.flatten, id < entries.length ∧ id ∉ done)
    (positive : 0 < buckets.length) :
    ∃ entries' buckets' chains' done', relinkBuckets heads entries buckets =
        some (entries', buckets') ∧
      PoolLinked entries' buckets' chains' done' ∧ done'.Perm (old.flatten ++ done) ∧
      texts entries' = texts entries ∧ buckets'.length = buckets.length := by
  induction heads generalizing entries buckets chains done old with
  | nil =>
    cases table
    exact ⟨entries, buckets, chains, done, rfl, linked, .refl _, rfl, rfl⟩
  | cons head heads ih =>
    cases table with
    | @cons _ ids _ old chain table =>
      simp only [List.flatten_cons, List.mem_append] at fresh
      obtain ⟨nodup, nodupRest, apart⟩ := List.nodup_append.mp nodup
      -- A chain without repetitions is no longer than the heap.
      have short : ids.length ≤ entries.length := by
        have bounded : ids ⊆ List.range entries.length := fun id member =>
          List.mem_range.mpr (fresh id (.inl member)).1
        simpa using (List.subperm_of_subset nodup bounded).length_le
      obtain ⟨entries₁, buckets₁, chains₁, done₁, run, linked₁, perm, same, count, frame⟩ :=
        relinkChain_spec linked chain nodup (fun id member => fresh id (.inl member)) positive short
      -- The chains still to be moved keep their links.
      have rest : Table (next entries₁) _ _ := Table.frame table fun id member =>
        frame id fun early => apart id early id member rfl
      -- The other chains are moved by the induction.
      obtain ⟨entries₂, buckets₂, chains₂, done₂, runRest, linked₂, permRest, sameRest, countRest⟩ :=
        ih linked₁ rest nodupRest (by
          intro id member
          obtain ⟨inside, outside⟩ := fresh id (.inr member)
          rw [length_of_texts same, perm.mem_iff, List.mem_append]
          exact ⟨inside, fun either => either.elim (fun early => apart id early id member rfl)
            outside⟩) (count ▸ positive)
      refine ⟨entries₂, buckets₂, chains₂, done₂, ?_, linked₂, ?_, sameRest.trans same,
        countRest.trans count⟩
      · rw [relinkBuckets, run]
        exact runRest
      · rw [List.flatten_cons, List.append_assoc]
        refine permRest.trans ((perm.append_left old.flatten).trans ?_)
        rw [← List.append_assoc, ← List.append_assoc]
        exact List.perm_append_comm.append_right done

end Relink

/-- Growth rehashes all entries into a table of the new size. -/
theorem wirbleStrpoolGrow_spec {pool : WirbleStrpool} (invariant : StrpoolInvariant pool)
    {count : Nat} (positive : 0 < count) :
    ∃ grown, wirbleStrpoolGrow pool count = some grown ∧ StrpoolInvariant grown ∧
      grown.entries.map (·.bytes) = pool.entries.map (·.bytes) ∧ grown.bucketCount = count := by
  obtain ⟨chains, linked⟩ := invariant.linked
  -- The new table starts empty.
  have empty : PoolLinked pool.entries (List.replicate count none) (List.replicate count []) [] :=
    ⟨table_empty _ count, by simp, placed_empty _ count⟩
  -- All chains are moved, since together they hold every entry once.
  obtain ⟨entries, buckets, chains', done, run, linked', perm, same, length⟩ :=
    relinkBuckets_spec empty linked.table (linked.all.nodup_iff.mpr List.nodup_range)
      (fun id member => ⟨List.mem_range.mp (linked.all.mem_iff.mp member), nofun⟩)
      (by simpa using positive)
  rw [List.append_nil] at perm
  have bytes : entries.map (·.bytes) = pool.entries.map (·.bytes) := by
    refine List.ext_getElem? fun id => ?_
    rw [List.getElem?_map, List.getElem?_map, bytes_of_texts same]
  refine ⟨{ pool with entries, buckets }, by rw [wirbleStrpoolGrow, run]; rfl, ?_, bytes,
    by simpa [bucketCount] using length⟩
  refine ⟨⟨chains', linked'.table, ?_, linked'.placed⟩, ?_, ?_, ?_⟩
  · rw [length_of_texts same]
    exact linked'.all.trans (perm.trans linked.all)
  · -- The texts are the old ones.
    intro entry member
    have text : (entry.length, entry.text) ∈ texts pool.entries :=
      same ▸ List.mem_map_of_mem member
    obtain ⟨old, inside, equal⟩ := List.mem_map.mp text
    obtain ⟨value, size, ended⟩ := invariant.ended old inside
    have lengths : old.length = entry.length := congrArg Prod.fst equal
    have read : old.text = entry.text := congrArg Prod.snd equal
    exact ⟨value, lengths ▸ size, read ▸ ended⟩
  · rw [bytes]
    exact invariant.distinct
  · rw [length_of_texts same]
    exact invariant.size

/-! Searching and adding. -/

/-- The search returns the first entry of the chain that holds the value. -/
theorem findEntry_spec {entries : List WirbleStrpoolEntry} (value : List UInt8)
    (ended : ∀ entry ∈ entries, ∃ text : List UInt8,
      entry.length = text.length ∧ entry.text = text ++ [0])
    {ids : List Nat} {fuel : Nat} {pointer : Option Nat} (chain : Chain (next entries) pointer ids)
    (inside : ∀ id ∈ ids, id < entries.length) (enough : ids.length ≤ fuel) :
    findEntry entries value fuel pointer =
      some (ids.find? fun id => (entries[id]?).map (·.bytes) == some value) := by
  induction ids generalizing fuel pointer with
  | nil =>
    have null : pointer = none := chain
    subst null
    rw [findEntry]
    rfl
  -- A chain that is not empty starts at a stored entry.
  | cons id rest ih =>
    obtain ⟨rfl, later⟩ := chain
    cases fuel with
    | zero => cases enough
    | succ fuel =>
      have valid := inside id (.head _)
      have stored : entries[id]? = some entries[id] := List.getElem?_eq_getElem valid
      have link : next entries id = entries[id].next := by simp [next, stored]
      rw [link] at later
      have tail := ih later (fun other member => inside other (.tail _ member))
        (Nat.le_of_succ_le_succ enough)
      -- The comparison of the source holds exactly for equal bytes.
      obtain ⟨text, size, read⟩ := ended _ (List.getElem_mem valid)
      have bytes : entries[id].bytes = text := by
        rw [WirbleStrpoolEntry.bytes, read, size, List.take_left]
      have compared : (entries[id].length = value.length ∧
          entries[id].text.take value.length = value) ↔ text = value := by
        rw [size, read]
        constructor
        · rintro ⟨lengths, taken⟩
          rwa [← lengths, List.take_left] at taken
        · rintro rfl
          exact ⟨rfl, List.take_left⟩
      rw [findEntry, List.find?_cons]
      simp only [stored, Option.map_some, bytes]
      -- The first entry is found, or the search goes on behind it.
      by_cases same : text = value
      · simp [compared.mpr same, same]
      · have differs : (some text == some value) = false := by simpa using same
        rw [differs, if_neg fun both => same (compared.mp both)]
        exact tail

/-- A chain of the table holds all entries of its bucket. -/
theorem PoolLinked.mem_slot {entries : List WirbleStrpoolEntry} {buckets : List (Option Nat)}
    {chains : List (List Nat)} {done : List Nat} (linked : PoolLinked entries buckets chains done)
    {slot : Nat} {ids : List Nat} (found : chains[slot]? = some ids) (id : Nat) :
    id ∈ ids ↔ id ∈ done ∧ slotOf entries buckets.length id = slot := by
  constructor
  · intro member
    refine ⟨linked.all.mem_iff.mp ?_, linked.placed slot ids found id member⟩
    exact List.mem_flatten.mpr ⟨ids, List.mem_of_getElem? found, member⟩
  · rintro ⟨held, own⟩
    -- The entry is in some chain, and only its own bucket has it.
    obtain ⟨other, inChains, member⟩ := List.mem_flatten.mp (linked.all.mem_iff.mpr held)
    obtain ⟨index, read⟩ := List.getElem?_of_mem inChains
    have here := linked.placed index other read id member
    rw [own] at here
    subst here
    rw [found] at read
    cases read
    exact member

/-- Looking up a value in a pool with buckets finds its entry, wherever it is. -/
theorem StrpoolInvariant.search {pool : WirbleStrpool} (invariant : StrpoolInvariant pool)
    (positive : 0 < pool.bucketCount) (value : List UInt8) :
    ∃ found, findEntry pool.entries value pool.entries.length
        (pool.buckets[(wirbleStrpoolHashBytes value).toNat % pool.bucketCount]?).join =
        some found ∧
      (∀ id, found = some id → pool.contents id = some value) ∧
      (found = none → value ∉ pool.entries.map (·.bytes)) := by
  obtain ⟨chains, linked⟩ := invariant.linked
  have bounded : (wirbleStrpoolHashBytes value).toNat % pool.bucketCount < pool.buckets.length :=
    Nat.mod_lt _ positive
  have head := List.getElem?_eq_getElem bounded
  -- The bucket of the hash has a chain, which is no longer than the pool.
  obtain ⟨ids, slot, chain⟩ := linked.table.slot head
  have held : ∀ id ∈ ids, id < pool.entries.length := fun id member =>
    List.mem_range.mp ((linked.mem_slot slot id).mp member).1
  have nodup : ids.Nodup := (List.nodup_flatten.mp
    (linked.all.nodup_iff.mpr List.nodup_range)).1 ids (List.mem_of_getElem? slot)
  have short : ids.length ≤ pool.entries.length := by
    have range : ids ⊆ List.range pool.entries.length := fun id member =>
      List.mem_range.mpr (held id member)
    simpa using (List.subperm_of_subset nodup range).length_le
  have run := findEntry_spec value invariant.ended chain held short
  refine ⟨_, by rw [head, Option.join_some]; exact run, ?_, ?_⟩
  -- The entry that was found holds the value, and one that is held would be found.
  · intro id found
    simpa [contents] using List.find?_some found
  · intro absent member
    -- An entry with these bytes would be in the bucket that was searched.
    obtain ⟨entry, inside, bytes⟩ := List.mem_map.mp member
    obtain ⟨id, valid, stored⟩ := List.getElem_of_mem inside
    have read : pool.entries[id]? = some entry := by
      rw [List.getElem?_eq_getElem valid, stored]
    have here : id ∈ ids := (linked.mem_slot slot id).mpr
      ⟨List.mem_range.mpr valid, by simp [slotOf, read, WirbleStrpoolEntry.slot, bytes, bucketCount]⟩
    have missed := List.find?_eq_none.mp absent id here
    simp [read, bytes] at missed

/-- A new entry is linked into the bucket of its hash. -/
theorem addEntry_spec {pool : WirbleStrpool} (invariant : StrpoolInvariant pool)
    (positive : 0 < pool.bucketCount) {value : List UInt8}
    (absent : value ∉ pool.entries.map (·.bytes)) :
    let added := (addEntry pool value
      ((wirbleStrpoolHashBytes value).toNat % pool.bucketCount)).1
    StrpoolInvariant added ∧
      added.entries.map (·.bytes) = pool.entries.map (·.bytes) ++ [value] := by
  intro added
  obtain ⟨chains, linked⟩ := invariant.linked
  have bounded : (wirbleStrpoolHashBytes value).toNat % pool.bucketCount < pool.buckets.length :=
    Nat.mod_lt _ positive
  have head := List.getElem?_eq_getElem bounded
  -- The new entry holds the value, and all others are as before.
  have bytes : added.entries.map (·.bytes) = pool.entries.map (·.bytes) ++ [value] := by
    simp [added, addEntry, WirbleStrpoolEntry.bytes]
  have old : ∀ id < pool.entries.length, added.entries[id]? = pool.entries[id]? := fun id inside =>
    List.getElem?_append_left inside
  have own : added.entries[pool.entries.length]? = some
      { next := (pool.buckets[(wirbleStrpoolHashBytes value).toNat % pool.bucketCount]?).join,
        length := value.length, text := value ++ [0] } := by
    simp [added, addEntry]
  have links : next added.entries = Function.update (next pool.entries) pool.entries.length
      (pool.buckets[(wirbleStrpoolHashBytes value).toNat % pool.bucketCount]?).join := by
    funext id
    by_cases fresh : id = pool.entries.length
    · subst fresh
      rw [Function.update_self, next, own]
      rfl
    · rw [Function.update_of_ne fresh]
      rcases Nat.lt_or_gt_of_ne fresh with inside | outside
      · rw [next, next, old id inside]
      · rw [next, next, List.getElem?_eq_none (Nat.le_of_lt outside), List.getElem?_eq_none]
        simp only [added, addEntry, List.length_append, List.length_singleton]
        omega
  -- Old entries stay in their slots, and the new one lies in that of its hash.
  have slots : ∀ id < pool.entries.length,
      slotOf added.entries pool.buckets.length id = slotOf pool.entries pool.buckets.length id :=
    fun id inside => by rw [slotOf, slotOf, old id inside]
  have ownSlot : slotOf added.entries pool.buckets.length pool.entries.length =
      (wirbleStrpoolHashBytes value).toNat % pool.bucketCount := by
    simp [slotOf, own, WirbleStrpoolEntry.slot, WirbleStrpoolEntry.bytes, bucketCount]
  have unheld : pool.entries.length ∉ chains.flatten := fun member =>
    Nat.lt_irrefl _ (List.mem_range.mp (linked.all.mem_iff.mp member))
  -- The new identifier goes to the front of the chain of its slot.
  refine ⟨⟨⟨pushAt ((wirbleStrpoolHashBytes value).toNat % pool.bucketCount) pool.entries.length
    chains, ?_, ?_, ?_⟩, ?_, ?_, ?_⟩, bytes⟩
  · rw [links, head, Option.join_some]
    exact linked.table.push head unheld
  · -- The allocations are numbered in their order.
    have count : added.entries.length = pool.entries.length + 1 := by simp [added, addEntry]
    rw [count, List.range_succ]
    refine (flatten_pushAt (linked.table.length ▸ bounded)).trans ?_
    exact (linked.all.cons _).trans (List.perm_append_singleton _ _).symm
  -- What is pushed lies in its own slot.
  · have placed : Placed (slotOf added.entries pool.buckets.length) chains := by
      intro slot ids found id member
      have inside : id < pool.entries.length :=
        List.mem_range.mp ((linked.mem_slot found id).mp member).1
      rw [slots id inside]
      exact linked.placed slot ids found id member
    have pushed := placed.push pool.entries.length
    rw [ownSlot] at pushed
    simpa [added, addEntry] using pushed
  · intro entry member
    rcases List.mem_append.mp member with earlier | new
    · exact invariant.ended entry earlier
    · rw [List.mem_singleton.mp new]
      exact ⟨value, rfl, rfl⟩
  -- The value was absent, so no text occurs twice.
  · rw [bytes]
    refine List.nodup_append.mpr ⟨invariant.distinct, List.nodup_singleton _, ?_⟩
    rintro text inside other single rfl
    exact absent (List.mem_singleton.mp single ▸ inside)
  · simp [added, addEntry, invariant.size]

/-! What one call does, and what a sequence of calls does. -/

/-- Add a text unless it is there: what interning means for the set of strings. -/
def addText (texts : List (List UInt8)) (value : List UInt8) : List (List UInt8) :=
  if value ∈ texts then texts else texts ++ [value]

/-- A text added to a list is one of it. -/
theorem mem_addText {texts : List (List UInt8)} {value other : List UInt8} :
    other ∈ addText texts value ↔ other ∈ texts ∨ other = value := by
  unfold addText
  split
  -- A text that is present is not added again.
  · rename_i present
    exact ⟨.inl, fun either => either.elim id fun equal => equal ▸ present⟩
  · rw [List.mem_append, List.mem_singleton]

/-- Texts added one by one are texts of the result. -/
theorem mem_foldl_addText {values texts : List (List UInt8)} {other : List UInt8} :
    other ∈ values.foldl addText texts ↔ other ∈ texts ∨ other ∈ values := by
  induction values generalizing texts with
  | nil => simp
  | cons value rest ih => rw [List.foldl_cons, ih, mem_addText, List.mem_cons, or_assoc]

/-- Texts are only appended. -/
theorem prefix_foldl_addText (values texts : List (List UInt8)) :
    texts <+: values.foldl addText texts := by
  induction values generalizing texts with
  | nil => exact List.prefix_refl _
  | cons value rest ih =>
    refine List.IsPrefix.trans ?_ (ih _)
    -- A text is added at the end, or is there already.
    unfold addText
    split
    · exact List.prefix_refl _
    · exact List.prefix_append _ _

/-- A pool is ready for an insertion when it has a bucket, and growth changes no text. -/
theorem prepare_spec {pool : WirbleStrpool} (invariant : StrpoolInvariant pool) :
    ∃ ready, prepare pool = some ready ∧ StrpoolInvariant ready ∧
      ready.entries.map (·.bytes) = pool.entries.map (·.bytes) ∧ 0 < ready.bucketCount := by
  -- The first buckets of an empty pool.
  have first : ∃ started, (if pool.bucketCount = 0 then
      wirbleStrpoolGrow pool wirbleStrpoolDefaultBuckets else some pool) = some started ∧
      StrpoolInvariant started ∧
      started.entries.map (·.bytes) = pool.entries.map (·.bytes) ∧ 0 < started.bucketCount := by
    by_cases unbuilt : pool.bucketCount = 0
    · obtain ⟨grown, run, kept, same, count⟩ :=
        wirbleStrpoolGrow_spec invariant (show 0 < wirbleStrpoolDefaultBuckets by decide)
      exact ⟨grown, by rw [if_pos unbuilt, run], kept, same, by rw [count]; decide⟩
    · exact ⟨pool, if_neg unbuilt, invariant, rfl, Nat.pos_of_ne_zero unbuilt⟩
  obtain ⟨started, run, kept, same, positive⟩ := first
  rw [prepare, run, Option.bind_some]
  -- A full pool is doubled, which leaves it more than one bucket.
  by_cases full : started.size ≥ started.bucketCount
  · obtain ⟨grown, runGrown, keptGrown, sameGrown, count⟩ :=
      wirbleStrpoolGrow_spec kept (show 0 < started.bucketCount * 2 by omega)
    exact ⟨grown, by rw [if_pos full, runGrown], keptGrown, sameGrown.trans same, by omega⟩
  · exact ⟨started, if_neg full, kept, same, positive⟩

/-- One call returns a pointer to the value, and adds the value to the texts of the pool. -/
theorem wirbleStrpoolInternWithLength_spec {pool : WirbleStrpool}
    (invariant : StrpoolInvariant pool) (value : List UInt8) :
    ∃ after pointer, wirbleStrpoolInternWithLength pool value = some (after, pointer) ∧
      StrpoolInvariant after ∧ after.contents pointer = some value ∧
      after.entries.map (·.bytes) = addText (pool.entries.map (·.bytes)) value := by
  obtain ⟨ready, prepared, kept, same, positive⟩ := prepare_spec invariant
  obtain ⟨found, searched, hit, miss⟩ := kept.search positive value
  rw [wirbleStrpoolInternWithLength, prepared, ← same]
  simp only [Option.bind_eq_bind, Option.bind_some, searched]
  cases found with
  | some id =>
    -- The entry is there already.
    have read := hit id rfl
    refine ⟨ready, id, rfl, kept, read, ?_⟩
    obtain ⟨entry, stored, bytes⟩ := Option.map_eq_some_iff.mp read
    have present : value ∈ ready.entries.map (·.bytes) :=
      bytes ▸ List.mem_map_of_mem (List.mem_of_getElem? stored)
    rw [addText, if_pos present]
  | none =>
    have absent := miss rfl
    obtain ⟨added, bytes⟩ := addEntry_spec kept positive absent
    refine ⟨_, _, rfl, added, ?_, ?_⟩
    · simp [contents, WirbleStrpoolEntry.bytes]
    · rw [addText, if_neg absent]
      exact bytes

/-- The contents of a pool are its texts, read by position. -/
theorem contents_eq (pool : WirbleStrpool) (pointer : Nat) :
    pool.contents pointer = (pool.entries.map (·.bytes))[pointer]? := by
  rw [contents, List.getElem?_map]

/-- A sequence of calls returns pointers to all values, which stay valid until its end. -/
theorem internAll_spec {pool : WirbleStrpool} (invariant : StrpoolInvariant pool)
    (values : List (List UInt8)) :
    ∃ after pointers, internAll pool values = some (after, pointers) ∧ StrpoolInvariant after ∧
      after.entries.map (·.bytes) = values.foldl addText (pool.entries.map (·.bytes)) ∧
      pointers.map after.contents = values.map some := by
  -- Induction on the calls, each of which starts from a pool that keeps the invariant.
  induction values generalizing pool with
  | nil => exact ⟨pool, [], rfl, invariant, rfl, rfl⟩
  | cons value rest ih =>
    obtain ⟨middle, pointer, run, kept, read, texts⟩ :=
      wirbleStrpoolInternWithLength_spec invariant value
    obtain ⟨after, pointers, runRest, keptRest, textsRest, reads⟩ := ih kept
    refine ⟨after, pointer :: pointers, ?_, keptRest, ?_, ?_⟩
    · rw [internAll, run]
      simp only [Option.bind_eq_bind, Option.bind_some, runRest]
    · rw [textsRest, texts, List.foldl_cons]
    · -- Later calls append texts, so the first pointer still reads its value.
      have later : after.contents pointer = some value := by
        rw [contents_eq] at read ⊢
        rw [textsRest]
        obtain ⟨more, split⟩ := prefix_foldl_addText rest (middle.entries.map (·.bytes))
        have inside := (List.getElem?_eq_some_iff.mp read).1
        rw [← split, List.getElem?_append_left inside, read]
      rw [List.map_cons, List.map_cons, later, reads]

/-- The empty pool is well formed. -/
theorem strpoolInvariant_init : StrpoolInvariant wirbleStrpoolInit where
  linked := ⟨[], .nil, .refl _, nofun⟩
  ended := nofun
  distinct := .nil
  size := rfl

/-- The chain of a bucket holds exactly the entries of its hash. -/
theorem StrpoolInvariant.inBucket_iff {pool : WirbleStrpool} (invariant : StrpoolInvariant pool)
    (slot pointer : Nat) :
    pool.InBucket slot pointer ↔ ∃ value, pool.contents pointer = some value ∧
      slot = (wirbleStrpoolHashBytes value).toNat % pool.bucketCount := by
  obtain ⟨chains, linked⟩ := invariant.linked
  constructor
  · rintro ⟨head, ids, found, chain, member⟩
    -- The chain is the one of the invariant.
    obtain ⟨ids', slot', chain'⟩ := linked.table.slot found
    rw [chain.unique chain'] at member
    obtain ⟨held, own⟩ := (linked.mem_slot slot' pointer).mp member
    have inside := List.mem_range.mp held
    have stored := List.getElem?_eq_getElem inside
    refine ⟨pool.entries[pointer].bytes, by rw [contents, stored]; rfl, ?_⟩
    simpa [slotOf, stored, WirbleStrpoolEntry.slot, bucketCount] using own.symm
  · rintro ⟨value, read, rfl⟩
    obtain ⟨entry, stored, rfl⟩ := Option.map_eq_some_iff.mp read
    have held : pointer ∈ List.range pool.entries.length :=
      List.mem_range.mpr (List.getElem?_eq_some_iff.mp stored).1
    -- The entry is in some chain, so there are buckets.
    obtain ⟨ids, inChains, -⟩ := List.mem_flatten.mp (linked.all.mem_iff.mpr held)
    have positive : 0 < pool.buckets.length := by
      rw [linked.table.length]
      exact List.length_pos_of_mem inChains
    have bounded : (wirbleStrpoolHashBytes entry.bytes).toNat % pool.bucketCount <
        pool.buckets.length := Nat.mod_lt _ positive
    have found := List.getElem?_eq_getElem bounded
    obtain ⟨ids, slot, chain⟩ := linked.table.slot found
    refine ⟨_, ids, found, chain, (linked.mem_slot slot pointer).mpr ⟨held, ?_⟩⟩
    simp [slotOf, stored, WirbleStrpoolEntry.slot, bucketCount]

/-- Pointers to equal contents are equal. -/
theorem StrpoolInvariant.contents_injective {pool : WirbleStrpool}
    (invariant : StrpoolInvariant pool) {left right : Nat} {value : List UInt8}
    (readLeft : pool.contents left = some value) (readRight : pool.contents right = some value) :
    left = right := by
  rw [contents_eq] at readLeft readRight
  -- Both positions hold the same text, and texts are distinct.
  obtain ⟨insideLeft, equalLeft⟩ := List.getElem?_eq_some_iff.mp readLeft
  obtain ⟨insideRight, equalRight⟩ := List.getElem?_eq_some_iff.mp readRight
  exact (invariant.distinct.getElem_inj_iff).mp (equalLeft.trans equalRight.symm)

/-- Interning is canonical: over any sequence of calls on one pool, equal pointers mean equal bytes,
every pointer reads the bytes it was returned for, the size counts the distinct strings, and every
entry is in the bucket of its hash and in no other. -/
theorem wirbleStrpoolIntern_canonical (values : List (List UInt8)) :
    ∃ pool pointers, internAll wirbleStrpoolInit values = some (pool, pointers) ∧
      pointers.length = values.length ∧
      (∀ i < values.length, ∀ j < values.length,
        (pointers[i]? = pointers[j]? ↔ values[i]? = values[j]?)) ∧
      (∀ i < values.length, ∃ pointer, pointers[i]? = some pointer ∧
        pool.contents pointer = values[i]?) ∧
      pool.size = values.toFinset.card ∧
      ∀ slot pointer, pool.InBucket slot pointer ↔
        ∃ value, pool.contents pointer = some value ∧
          slot = (wirbleStrpoolHashBytes value).toNat % pool.bucketCount := by
  obtain ⟨pool, pointers, run, invariant, texts, reads⟩ :=
    internAll_spec strpoolInvariant_init values
  have lengths : pointers.length = values.length := by
    simpa using congrArg List.length reads
  -- Every call returned a pointer that reads its value.
  have read : ∀ i < values.length, ∃ pointer, pointers[i]? = some pointer ∧
      pool.contents pointer = values[i]? := by
    intro i inside
    have valid : i < pointers.length := lengths ▸ inside
    refine ⟨pointers[i], List.getElem?_eq_getElem valid, ?_⟩
    have equal := congrArg (·[i]?) reads
    simpa [List.getElem?_eq_getElem valid, List.getElem?_eq_getElem inside] using equal
  refine ⟨pool, pointers, run, lengths, ?_, read, ?_, invariant.inBucket_iff⟩
  -- Two pointers are the same just when their contents are.
  · intro i insideI j insideJ
    obtain ⟨left, foundLeft, readLeft⟩ := read i insideI
    obtain ⟨right, foundRight, readRight⟩ := read j insideJ
    rw [foundLeft, foundRight, Option.some.injEq]
    constructor
    · rintro rfl
      exact readLeft.symm.trans readRight
    · intro same
      rw [List.getElem?_eq_getElem insideI] at readLeft same
      exact invariant.contents_injective readLeft (readRight.trans same.symm)
  · -- The texts of the pool are the distinct values.
    have members : (pool.entries.map (·.bytes)).toFinset = values.toFinset := by
      ext value
      rw [List.mem_toFinset, List.mem_toFinset, texts, mem_foldl_addText]
      exact ⟨fun either => either.elim nofun id, .inr⟩
    rw [invariant.size, ← members, List.toFinset_card_of_nodup invariant.distinct, List.length_map]

-- A string with a NUL byte is another string than its prefix.
example : (internAll wirbleStrpoolInit [[97], [97, 0], [97], []]).map (·.2) = some [0, 1, 0, 2] := by
  decide +kernel

end Wirble
