import PmDebugger.Library.KeyedSet
import PmDebugger.Regions

/-!
# The store tracker

The state of `struct pmem_ops` and the operations of `pmc_main.c` that enter stores
into it. Stores live in an array that is divided into snippets; what a fence leaves
over moves to an ordered set, the tree. The array has `maxArrayNum` slots, a
parameter here, and the snippet table is unbounded.

Memory from `VG_(malloc)` is not initialised, so the slots of a new array hold
arbitrary records. The recorded execution context of an event is an argument.

The flag `exited` says that the process is gone: a full register of events made it leave
through `VG_(exit)`, an assertion failed, a report ran into a null context, or a record was
released while it was linked in the tree.
-/

namespace PmDebugger

open OrderedSet OrderedSet.OSet

/-- `MAX_MULT_OVERWRITES`. The register of overwritten stores is full with as many entries, and
the next one ends the process. -/
def maxMultOverwrites : Nat := 10000

/-- `MAX_FLUSH_ERROR_EVENTS`. Redundant and superfluous flushes have a register of this size
each. -/
def maxFlushErrorEvents : Nat := 10000

/-- `MAX_REDUNDANT_FENCE`. The size of the register of redundant fences, which no write to it
checks. -/
def maxRedundantFence : Nat := 10000

/-- The command line options that the modelled operations read, with the capacity of
the array and with `is_ip_memset_memcpy`, which asks the symbol table of the client. -/
structure Options where
  trackMultipleStores : Bool
  storeSbIndiff : Nat
  treeReorganization : Bool
  checkFlush : Bool
  forceFlushAlign : Bool
  epochDurabilityFence : Bool
  printBugDetail : Bool
  orderGuarantee : Bool
  lackOrderingTrand : Bool
  maxArrayNum : Nat
  isIpMemsetMemcpy : Nat → Bool

/-- The options of a tool that was started with none, with the `MAX_ARRAY_NUM` of the
source. -/
def defaultOptions (isIpMemsetMemcpy : Nat → Bool) : Options where
  trackMultipleStores := false
  storeSbIndiff := 0
  treeReorganization := false
  checkFlush := false
  forceFlushAlign := false
  epochDurabilityFence := false
  printBugDetail := false
  orderGuarantee := false
  lackOrderingTrand := false
  maxArrayNum := 100000000
  isIpMemsetMemcpy := isIpMemsetMemcpy

/-- `struct pmem_ops`. `slots` is the store array, `snippetInfo` the table of its
snippets and `snippetInfoIndex` the current snippet. The event registers are lists,
so their counters are lengths. `sblocks` and `dbPmemStoreIndex` are globals of the
source. -/
structure PmemOps where
  opts : Options
  pmemStores : OSet PmemSt
  minAddPmemStore : Nat
  maxAddPmemStore : Nat
  notPmemNum : Nat
  slots : Nat → PmemSt
  snippetInfoIndex : Nat
  snippetInfo : Nat → ArrSnippet
  debugMemoryMerge : Option (OSet PmemSt)
  pmemMappings : OSet PmemSt
  minAddPmemMappings : Nat
  maxAddPmemMappings : Nat
  multipleStores : List PmemSt
  redundantFlushes : List PmemSt
  superfluousFlushes : List PmemSt
  flushAlignSize : Nat
  epoch : Bool
  epochFence : Nat
  redundantFence : List (Option ExeContext)
  epochDurabilityReg : Nat
  pmemTimeRecords : OSet PmemStOrder
  globalTimeStamp : Nat
  pmemOrderRecords : OSet OrderRecord
  orderGuaranteeReg : Nat
  globalTimeRecordsIndex : Nat
  lackOrderingTrandReg : Nat
  dbPmemStoreIndex : Nat
  sblocks : Nat
  exited : Bool

/-- An empty snippet that starts at a slot: the box is minus one on both sides. That marks a
box as unset, and a flush compares with it all the same. -/
def emptySnippet (start : Nat) : ArrSnippet where
  index := start
  minAdd := Word64.minusOne
  maxAdd := Word64.minusOne
  startIndex := start
  flushedNum := .noFlushed

/-- `pmc_post_clo_init`, with the uninitialised array as an argument. Nothing clears the slots,
so that their marks and contexts are those of whatever memory held. -/
def initPmem (opts : Options) (cacheLineSize : Nat) (slots : Nat → PmemSt) : PmemOps where
  opts := opts
  pmemStores := create
  minAddPmemStore := Word64.minusOne
  maxAddPmemStore := Word64.minusOne
  notPmemNum := 0
  slots := slots
  snippetInfoIndex := 0
  snippetInfo := fun _ => emptySnippet 0
  debugMemoryMerge := none
  pmemMappings := create
  minAddPmemMappings := Word64.minusOne
  maxAddPmemMappings := Word64.minusOne
  multipleStores := []
  redundantFlushes := []
  superfluousFlushes := []
  flushAlignSize := cacheLineSize
  epoch := false
  epochFence := 0
  redundantFence := []
  epochDurabilityReg := 0
  pmemTimeRecords := create
  globalTimeStamp := 0
  pmemOrderRecords := create
  orderGuaranteeReg := 0
  globalTimeRecordsIndex := 0
  lackOrderingTrandReg := 0
  dbPmemStoreIndex := 0
  sblocks := 0
  exited := false

/-- `add_warning_event`: the register with the event, or unchanged with a demand to
exit if it is full. -/
def addWarningEvent (limit : Nat) (event : PmemSt) (register : List PmemSt) : List PmemSt × Bool :=
  if register.length = limit then (register, true) else (register ++ [event], false)

/-- `cmp_exe_context`: equal up to a leading `memcpy` or `memset`. Two contexts of which one is
missing are never equal, not even if both are. -/
def cmpExeContext (isIpMemsetMemcpy : Nat → Bool) : Option ExeContext → Option ExeContext → Bool
  | some lhs, some rhs =>
      if lhs = rhs then true
      else
        match lhs.ips, rhs.ips with
        | first :: rest, first' :: rest' =>
            decide (rest = rest') &&
              (decide (first = first') || isIpMemsetMemcpy first && isIpMemsetMemcpy first')
        | _, _ => false
  | _, _ => false

/-- `is_store_mergeable`. Two records may be merged if they have the same state and come from
the same place; whether they touch is not asked here. -/
def isStoreMergeable (isIpMemsetMemcpy : Nat → Bool) (lhs rhs : PmemSt) : Bool :=
  decide (lhs.state = rhs.state) && cmpExeContext isIpMemsetMemcpy lhs.context rhs.context

/-- `merge_stores`. The first record grows to the least range with both of them and keeps
everything else. -/
def mergeStores (toMerge toBeMerged : PmemSt) : PmemSt :=
  let maxAddr := max toMerge.maxAddr toBeMerged.maxAddr
  let addr := min toMerge.addr toBeMerged.addr
  { toMerge with addr := addr, size := Word64.sub maxAddr addr }

/-- The mask `(1 << (size * 8 + 1)) - 1`. The shift is made in 32 bits, where the
machine takes the count modulo 32. -/
def valueMask (size : Nat) : Nat := 2 ^ ((size * 8 + 1) % 32) - 1

/-- A right shift of a word by a count that the machine takes modulo 64. The callers pass a
number of bytes as the count. -/
def shiftValue (value count : Nat) : Nat := value >>> (count % 64)

/-- What `split_stores` makes of the old store: what is left of it in place, the
piece that is inserted behind the new store, and the overlap that goes to the
callback. -/
structure SplitResult where
  kept : Option PmemSt
  after : Option PmemSt
  overlap : PmemSt

/-- The case analysis of `split_stores`. The piece behind the cut gets `dbIndex`. No
result is the failing assertion at its end. -/
def splitStores (old new : PmemSt) (dbIndex : Nat) : Option SplitResult :=
  let newMax := new.maxAddr
  let oldMax := old.maxAddr
  if old.addr ≥ new.addr ∧ oldMax ≤ newMax then
    some { kept := none, after := none, overlap := old }
  else if old.addr < new.addr then
    let front := { old with
      value := shiftValue old.value (Word64.sub oldMax new.addr)
      size := Word64.sub new.addr old.addr }
    if oldMax > newMax then
      let size := Word64.sub oldMax newMax
      some {
        kept := some front
        after := some { old with
          index := dbIndex
          addr := newMax
          size := size
          value := old.value &&& valueMask size }
        overlap := { new with context := old.context } }
    else
      some {
        kept := some front
        after := none
        overlap := { old with addr := new.addr, size := Word64.sub oldMax new.addr } }
  else if oldMax > newMax then
    let size := Word64.sub oldMax newMax
    some {
      kept := some { old with addr := newMax, size := size, value := old.value &&& valueMask size }
      after := none
      overlap := { old with size := Word64.sub old.size size } }
  else none

/-- The loop of `add_and_merge_store` over the elements that overlap the region. Each turn
looks one of them up and leaves what sticks out of the region. The callback frees nothing here. -/
def cutOverlaps (region : PmemSt) : Nat → OSet PmemSt → Nat → OSet PmemSt × Nat
  | 0, set, dbIndex => (set, dbIndex)
  | fuel + 1, set, dbIndex =>
      match set.lookup (cmpPmemSt region) with
      | none => (set, dbIndex)
      | some old =>
          match splitStores old region dbIndex with
          | none => (set, dbIndex)
          | some result =>
              match result.kept, result.after with
              | none, _ =>
                  cutOverlaps region fuel
                    ((set.remove cmpPmemSt (cmpPmemSt old)).resetIterAt (cmpPmemSt old)) dbIndex
              | some kept, none =>
                  cutOverlaps region fuel (set.update (cmpPmemSt region) (fun _ => kept)) dbIndex
              | some kept, some after =>
                  let cut := set.update (cmpPmemSt region) (fun _ => kept)
                  cutOverlaps region fuel
                    ((cut.insert (cmpPmemSt after) after).resetIterAt (cmpPmemSt kept))
                      (dbIndex + 1)

/-- One pass of the loop that merges a neighbour: the region grows by the found
element, which leaves the set. -/
def mergeNeighbour (isIpMemsetMemcpy : Nat → Bool) (search : PmemSt)
    (region : PmemSt) (set : OSet PmemSt) : PmemSt × OSet PmemSt :=
  match set.lookup (cmpPmemSt search) with
  | none => (region, set)
  | some old =>
      if isStoreMergeable isIpMemsetMemcpy region old then
        (mergeStores region old, set.remove cmpPmemSt (cmpPmemSt search))
      else (region, set)

/-- The common part of `add_and_merge_store` and `db_add_and_merge_store`: make room
for the region in the set and merge it with its neighbours on both sides. -/
def makeRoom (isIpMemsetMemcpy : Nat → Bool) (region : PmemSt) (set : OSet PmemSt) (dbIndex : Nat) :
    PmemSt × OSet PmemSt × Nat :=
  let (cut, index) := cutOverlaps region (set.size + 1) set dbIndex
  let left := { region with addr := Word64.sub region.addr 1 }
  let right := { left with addr := Word64.add left.addr 2 }
  let (merged, rest) := mergeNeighbour isIpMemsetMemcpy left region cut
  let (merged, rest) := mergeNeighbour isIpMemsetMemcpy right merged rest
  (merged, rest, index)

namespace PmemOps

/-- The current snippet, to which new stores are appended. All snippets before it are closed. -/
def current (pmem : PmemOps) : ArrSnippet := pmem.snippetInfo pmem.snippetInfoIndex

/-- Write an array slot. The other slots stay as they are. -/
def setSlot (index : Nat) (store : PmemSt) (pmem : PmemOps) : PmemOps :=
  { pmem with slots := fun tested => if tested = index then store else pmem.slots tested }

/-- Write an entry of the snippet table. The other entries stay as they are. -/
def setSnippet (index : Nat) (snippet : ArrSnippet) (pmem : PmemOps) : PmemOps :=
  { pmem with snippetInfo := fun tested =>
      if tested = index then snippet else pmem.snippetInfo tested }

/-- One slot is set. -/
@[simp] theorem setSlot_slots (index tested : Nat) (store : PmemSt) (pmem : PmemOps) :
    (pmem.setSlot index store).slots tested = if tested = index then store else pmem.slots tested :=
  rfl

/-- The table is not. -/
@[simp] theorem setSlot_snippetInfo (index : Nat) (store : PmemSt) (pmem : PmemOps) :
    (pmem.setSlot index store).snippetInfo = pmem.snippetInfo := rfl

/-- Nor is the current snippet. -/
@[simp] theorem setSlot_current (index : Nat) (store : PmemSt) (pmem : PmemOps) :
    (pmem.setSlot index store).current = pmem.current := rfl

/-- The slots stay where a snippet is set. -/
@[simp] theorem setSnippet_slots (index : Nat) (snippet : ArrSnippet) (pmem : PmemOps) :
    (pmem.setSnippet index snippet).slots = pmem.slots := rfl

/-- One snippet is set. -/
@[simp] theorem setSnippet_snippetInfo (index tested : Nat) (snippet : ArrSnippet)
    (pmem : PmemOps) : (pmem.setSnippet index snippet).snippetInfo tested =
      if tested = index then snippet else pmem.snippetInfo tested := rfl

/-- The comparison that orders the tree, chosen in `pmc_post_clo_init`. With reorganisation the
tree is a set of disjoint ranges; without it, a list of records in the order of their
insertion. -/
def treeCmp (opts : Options) : PmemSt → PmemSt → Ordering :=
  if opts.treeReorganization then cmpPmemSt else cmpPmemOwnSt

/-- `init_snippet_info`. The next snippet starts where the current one ends. Nothing checks
that the table has an entry for it. -/
def initSnippetInfo (pmem : PmemOps) : PmemOps :=
  { pmem.setSnippet (pmem.snippetInfoIndex + 1) (emptySnippet pmem.current.index) with
    snippetInfoIndex := pmem.snippetInfoIndex + 1 }

/-- `is_pmem_access`. The bounds of all mappings are asked first, and the mappings only for an
access that touches them. -/
def isPmemAccess (addr size : Nat) (pmem : PmemOps) : Bool :=
  if addr > pmem.maxAddPmemMappings ∨ Word64.add addr size < pmem.minAddPmemMappings then false
  else pmem.pmemMappings.contains (cmpPmemSt (PmemSt.range addr size))

/-- `add_and_merge_store`: the new state and the region as merged, which is the node that was
inserted. The records that the region overrides are cut, and two neighbours at most are merged
into it. -/
def addAndMergeStore (region : PmemSt) (pmem : PmemOps) : PmemOps × PmemSt :=
  let (merged, rest, index) :=
    makeRoom pmem.opts.isIpMemsetMemcpy region pmem.pmemStores pmem.dbPmemStoreIndex
  ({ pmem with pmemStores := rest.insert (cmpPmemSt merged) merged, dbPmemStoreIndex := index },
    merged)

/-- Enter a store into the tree, with or without reorganisation. Without it nothing is cut, and
records in the tree may overlap. -/
def insertStore (store : PmemSt) (pmem : PmemOps) : PmemOps × PmemSt :=
  if pmem.opts.treeReorganization then pmem.addAndMergeStore store
  else ({ pmem with pmemStores := pmem.pmemStores.insert (cmpPmemOwnSt store) store }, store)

/-- Entering a store changes only the tree and the index counter. -/
theorem insertStore_frame (store : PmemSt) (pmem : PmemOps) :
    (pmem.insertStore store).1 = { pmem with
      pmemStores := (pmem.insertStore store).1.pmemStores
      dbPmemStoreIndex := (pmem.insertStore store).1.dbPmemStoreIndex } := by
  unfold insertStore addAndMergeStore
  split <;> rfl

/-- The box of a snippet, or the bounds of the tree, after a store. Minus one on both sides
stands for no box, and then the store alone is the box. -/
def widen (store : PmemSt) (minAdd maxAdd : Nat) : Nat × Nat :=
  if maxAdd = Word64.minusOne ∧ minAdd = Word64.minusOne then (store.addr, store.maxAddr)
  else (min minAdd store.addr, max maxAdd store.maxAddr)

/-- `update_pmem_stores_head_minandmax`. The box of the current snippet grows by the store; no
box ever shrinks. -/
def updatePmemStoresHeadMinandmax (store : PmemSt) (pmem : PmemOps) : PmemOps :=
  let (minAdd, maxAdd) := widen store pmem.current.minAdd pmem.current.maxAdd
  pmem.setSnippet pmem.snippetInfoIndex { pmem.current with minAdd := minAdd, maxAdd := maxAdd }

/-- `update_Oset_pmem_stores_minandmax`. The bounds of the tree grow by the record, and only a
fence sets them anew. -/
def updateOsetPmemStoresMinandmax (store : PmemSt) (pmem : PmemOps) : PmemOps :=
  let (minAdd, maxAdd) := widen store pmem.minAddPmemStore pmem.maxAddPmemStore
  { pmem with minAddPmemStore := minAdd, maxAddPmemStore := maxAdd }

/-- `cmp_with_arr_minandmax` answers minus one: the range misses the box. A range that ends
where the box begins does not miss it. -/
def missesBox (store : PmemSt) (snippet : ArrSnippet) : Bool :=
  decide (store.addr > snippet.maxAdd ∨ store.maxAddr < snippet.minAdd)

/-- `add_mult_overwrite_warn`. The copy that is registered takes a fresh index. A full register
ends the process. -/
def addMultOverwriteWarn (store : PmemSt) (pmem : PmemOps) : PmemOps :=
  let (multipleStores, exits) := addWarningEvent maxMultOverwrites
    { store with index := pmem.dbPmemStoreIndex } pmem.multipleStores
  { pmem with
    multipleStores := multipleStores
    dbPmemStoreIndex := pmem.dbPmemStoreIndex + 1
    exited := pmem.exited || exits }

/-- A rewrite of the same value within the indifference window. The window counts superblocks
between the two stores, modulo the word. -/
def isSameWrite (store existing : PmemSt) (pmem : PmemOps) : Bool :=
  decide (Word64.sub store.blockNum existing.blockNum < pmem.opts.storeSbIndiff ∧
    existing.addr = store.addr ∧ existing.size = store.size ∧ existing.value = store.value)

/-- The body of the array loop of `handle_with_mult_stores`. A deleted slot and one that the
store misses are passed over. A rewrite of the same value is dropped in silence, and any other
record that the store meets is cut and warned about. -/
def overwriteSlot (store : PmemSt) (pmem : PmemOps) (index : Nat) : PmemOps :=
  let existing := pmem.slots index
  if existing.isDelete ∨ cmpPmemSt existing store ≠ .eq then pmem
  else if pmem.isSameWrite store existing then
    pmem.setSlot index { existing with isDelete := true }
  else
    match splitStores existing store pmem.dbPmemStoreIndex with
    | none => { pmem with exited := true }
    | some result =>
        match result.kept, result.after with
        | none, _ =>
            (pmem.setSlot index { existing with isDelete := true }).addMultOverwriteWarn
              { existing with isDelete := true }
        | some kept, none => (pmem.setSlot index kept).addMultOverwriteWarn result.overlap
        | some kept, some after =>
            let cut := pmem.setSlot index kept
            { cut with
              pmemStores := (cut.pmemStores.insert (treeCmp cut.opts after) after).resetIterAt
                (treeCmp cut.opts kept)
              dbPmemStoreIndex := cut.dbPmemStoreIndex + 1 }.addMultOverwriteWarn result.overlap

/-- The same-value branch of the tree loop of `handle_with_mult_stores`: it removes what
compares equal to the new store, releases the record that the walk met and resumes the walk at
the store. If the two are not one and the same, the released record is still linked in the
tree. The allocator overwrites its link, the walk follows it and stops at the check of the
magic number, which is `exited` here. -/
def dropRewritten (store : PmemSt) (position : Nat) (walked : OSet PmemSt) (pmem : PmemOps) :
    PmemOps :=
  let cmp := treeCmp pmem.opts
  let rest := walked.remove cmp (cmp store)
  if (walked.locate (cmp store)).map Prod.fst = some position then
    { pmem with pmemStores := rest.resetIterAt (cmp store) }
  else { pmem with pmemStores := { rest with iter := none }, exited := true }

/-- The tree loop of `handle_with_mult_stores`. A record within the new store is released
before the warning about it is allocated, so that the warning takes over its node, cleared:
the registered copy has neither an address nor a size. -/
def overwriteTree (store : PmemSt) : Nat → PmemOps → PmemOps
  | 0, pmem => pmem
  | fuel + 1, pmem =>
      match pmem.pmemStores.next with
      | none => pmem
      | some (position, existing, walked) =>
          let cmp := treeCmp pmem.opts
          if cmpPmemSt existing store ≠ .eq then
            overwriteTree store fuel { pmem with pmemStores := walked }
          else if pmem.isSameWrite store existing then
            overwriteTree store fuel (pmem.dropRewritten store position walked)
          else
            match splitStores existing store pmem.dbPmemStoreIndex with
            | none => { pmem with exited := true }
            | some result =>
                match result.kept, result.after with
                | none, _ =>
                    overwriteTree store fuel ({ pmem with
                      pmemStores := (walked.remove cmp (cmp existing)).resetIterAt
                        (cmp existing) }.addMultOverwriteWarn PmemSt.zero)
                | some kept, none =>
                    overwriteTree store fuel ({ pmem with
                      pmemStores := walked.modifyAt position (fun _ => kept)
                      }.addMultOverwriteWarn result.overlap)
                | some kept, some after =>
                    let cut := walked.modifyAt position (fun _ => kept)
                    overwriteTree store fuel ({ pmem with
                      pmemStores := (cut.insert (cmp after) after).resetIterAt (cmp kept)
                      dbPmemStoreIndex := pmem.dbPmemStoreIndex + 1
                      }.addMultOverwriteWarn result.overlap)

/-- The slots of a snippet in the order of the loops over it. A snippet that ends before it
starts has none. -/
def slotRange (snippet : ArrSnippet) : List Nat :=
  List.range' snippet.startIndex (snippet.index - snippet.startIndex)

/-- The array loop of `handle_with_mult_stores` in one snippet, which is skipped if the store
misses its box. -/
def overwriteSnippet (store : PmemSt) (pmem : PmemOps) (sIndex : Nat) : PmemOps :=
  let snippet := pmem.snippetInfo sIndex
  if missesBox store snippet then pmem
  else (slotRange snippet).foldl (overwriteSlot store) pmem

/-- `handle_with_mult_stores`. The array comes first, then the tree, unless the store misses
its bounds. A node of the tree may be cut into three and met again, which the fuel allows for. -/
def handleWithMultStores (store : PmemSt) (pmem : PmemOps) : PmemOps :=
  let overwritten := (List.range (pmem.snippetInfoIndex + 1)).foldl (overwriteSnippet store) pmem
  if store.addr > overwritten.maxAddPmemStore ∨ store.maxAddr < overwritten.minAddPmemStore then
    overwritten
  else
    overwriteTree store (4 * overwritten.pmemStores.size + 1)
      { overwritten with pmemStores := overwritten.pmemStores.resetIter }

/-- A store restarts the clock of every ordered range that it overlaps. The end is set to minus
one, that is, to not yet. -/
def restartTime (store : PmemSt) (pmem : PmemOps) (record : PmemStOrder) : PmemStOrder :=
  let search : PmemStOrder := { record with addr := store.addr, size := store.size }
  if cmpPmemStOrder search record = .eq then
    { record with
      timestampBegin := pmem.globalTimeStamp
      timestampEnd := Word64.minusOne
      context := if pmem.opts.treeReorganization ∨ pmem.opts.printBugDetail then store.context
        else record.context }
  else record

/-- The record that `trace_pmem_store` writes over what its slot or node held. Outside
an epoch it leaves the epoch mark as it was. -/
def writeStore (addr size value : Nat) (context : Option ExeContext) (pmem : PmemOps)
    (held : PmemSt) : PmemSt :=
  { held with
    inEpoch := if pmem.epoch then true else held.inEpoch
    addr := addr
    size := size
    state := .dirty
    blockNum := pmem.sblocks
    value := value
    isDelete := false
    context := if pmem.opts.treeReorganization ∨ pmem.opts.printBugDetail then context
      else held.context }

/-- The checks of `trace_pmem_store` that follow the write of the record: overwritten stores
and the times of ordered ranges. The record itself is not in the current snippet yet, so that
it is not compared with itself. -/
def checkStore (store : PmemSt) (pmem : PmemOps) : PmemOps :=
  let overwritten := if pmem.opts.trackMultipleStores then pmem.handleWithMultStores store else pmem
  if pmem.opts.orderGuarantee then
    { overwritten with
      pmemTimeRecords := overwritten.pmemTimeRecords.map (restartTime store overwritten) }
  else overwritten

/-- `trace_pmem_store` up to the call of `handle_tx_store`, for an access to
registered memory: the new state and the store that is handed on. -/
def trackStore (addr size value : Nat) (context : Option ExeContext) (pmem : PmemOps) :
    PmemOps × PmemSt :=
  let oldIndex := pmem.current.index
  if oldIndex < pmem.opts.maxArrayNum then
    let store := pmem.writeStore addr size value context (pmem.slots oldIndex)
    let checked := (pmem.setSlot oldIndex store).checkStore store
    let grown := checked.setSnippet checked.snippetInfoIndex
      { checked.current with index := checked.current.index + 1 }
    (grown.updatePmemStoresHeadMinandmax store, store)
  else
    let store := pmem.writeStore addr size value context
      { PmemSt.zero with index := pmem.dbPmemStoreIndex }
    let checked := { pmem with dbPmemStoreIndex := pmem.dbPmemStoreIndex + 1 }.checkStore store
    let (inserted, entered) := checked.insertStore store
    (inserted.updateOsetPmemStoresMinandmax entered, entered)

end PmemOps

end PmDebugger
