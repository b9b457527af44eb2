import PmDebugger.Client
import PmDebugger.ClientPrograms

/-!
# The plain checker

`pmemcheck` is the tool from which this one was derived, and stands beside it in the repository. It
instruments programs in the same way, but it keeps every pending store in one set that is ordered by
address: there is no array, there are no snippets and no bounds. Each flush walks over the whole set
and each fence does it again.

The records of this tool have no index, no delete mark and no mark of an epoch, so these fields stay
zero. Of the options it has those for multiple stores, for the checks of flushes and for the
alignment of flushes. Its transaction code is that of the other tool without the register for
redundant logging. Output is left out, but for what the reports list. -/

namespace PmDebugger

open OrderedSet OrderedSet.OSet Vex

/-- `struct pmem_ops` of the plain checker, with `sblocks`, the transactions, and a mark that a full
register or a failed assertion has ended the process. -/
structure Pmemcheck where
  opts : Options
  pmemStores : OSet PmemSt
  pmemMappings : OSet PmemSt
  multipleStores : List PmemSt
  redundantFlushes : List PmemSt
  superfluousFlushes : List PmemSt
  flushAlignSize : Nat
  sblocks : Nat
  trans : TransactionOps
  halted : Bool

namespace Pmemcheck

/-- `pmc_post_clo_init`. There are no stores and no mappings, and nothing is registered. -/
def init (opts : Options) (transactionsOnly : Bool) (cacheLineSize : Nat) : Pmemcheck where
  opts := opts
  pmemStores := create
  pmemMappings := create
  multipleStores := []
  redundantFlushes := []
  superfluousFlushes := []
  flushAlignSize := cacheLineSize
  sblocks := 0
  trans := initTransactions transactionsOnly false
  halted := false

/-! ## Mappings -/

/-- The loop of `add_region`, which takes an element out by the key for which it searches. The
key stays that of the original region, while the entry grows. -/
def absorb (search : PmemSt) : Nat → PmemSt → OSet PmemSt → PmemSt × OSet PmemSt
  | 0, entry, set => (entry, set)
  | fuel + 1, entry, set =>
      match set.lookup (cmpPmemSt search) with
      | none => (entry, set)
      | some oldEntry =>
          let maxAddr := max entry.maxAddr oldEntry.maxAddr
          let addr := min entry.addr oldEntry.addr
          absorb search fuel { entry with addr := addr, size := Word64.sub maxAddr addr }
            (set.remove cmpPmemSt (cmpPmemSt search))

/-- `add_region`. The search reaches one byte further than the region on either side, so that
regions which touch are merged. -/
def addRegion (region : PmemSt) (set : OSet PmemSt) : OSet PmemSt :=
  let entry := { region with state := .clean }
  let (merged, rest) := absorb (searchEntry entry) (set.size + 1) entry set
  rest.insert (cmpPmemSt merged) merged

/-- `remove_region`, which the other tool has as `remove_region_mapping`. It serves for
mappings and for stores here. -/
def removeRegion (region : PmemSt) (set : OSet PmemSt) : OSet PmemSt :=
  removeRegionMapping region set

/-- `is_pmem_access`. This tool keeps no bounds of the mappings and looks every access up in
their set. -/
def isPmemAccess (addr size : Nat) (check : Pmemcheck) : Bool :=
  check.pmemMappings.contains (cmpPmemSt (PmemSt.range addr size))

/-! ## Stores -/

/-- `add_mult_overwrite_warn`. A full register ends the process. -/
def addMultOverwriteWarn (store : PmemSt) (check : Pmemcheck) : Pmemcheck :=
  let (multipleStores, exits) := addWarningEvent maxMultOverwrites store check.multipleStores
  { check with multipleStores := multipleStores, halted := check.halted || exits }

/-- `split_stores` in the set, with the part of the old store that goes to the callback. No result
is the failing assertion at its end. -/
def splitStore (old new : PmemSt) (set : OSet PmemSt) : Option (OSet PmemSt × PmemSt) :=
  match splitStores old new 0 with
  | none => none
  | some result =>
      match result.kept, result.after with
      | none, _ => some (set.remove cmpPmemSt (cmpPmemSt old), result.overlap)
      | some kept, none => some (set.update (cmpPmemSt new) (fun _ => kept), result.overlap)
      | some kept, some after =>
          let cut := set.update (cmpPmemSt new) (fun _ => kept)
          some (cut.insert (cmpPmemSt after) after, result.overlap)

/-- The loop of `add_and_merge_store` over the elements that overlap the region. What is cut
out of them is dropped. -/
def cutStores (region : PmemSt) : Nat → OSet PmemSt → OSet PmemSt
  | 0, set => set
  | fuel + 1, set =>
      match set.lookup (cmpPmemSt region) with
      | none => set
      | some old =>
          match splitStore old region set with
          | none => set
          | some (rest, _) => cutStores region fuel rest

/-- `add_and_merge_store`: the set and the region as merged, which is the node that was
inserted. Two neighbours at most are merged into it. -/
def addAndMergeStore (isIpMemsetMemcpy : Nat → Bool) (region : PmemSt) (set : OSet PmemSt) :
    OSet PmemSt × PmemSt :=
  let cut := cutStores region (set.size + 1) set
  let left := { region with addr := Word64.sub region.addr 1 }
  let right := { left with addr := Word64.add left.addr 2 }
  let (merged, rest) := mergeNeighbour isIpMemsetMemcpy left region cut
  let (merged, rest) := mergeNeighbour isIpMemsetMemcpy right merged rest
  (rest.insert (cmpPmemSt merged) merged, merged)

/-- A rewrite of the same value within the indifference window. The window counts superblocks,
modulo the word. -/
def isSameWrite (store existing : PmemSt) (check : Pmemcheck) : Bool :=
  decide (Word64.sub store.blockNum existing.blockNum < check.opts.storeSbIndiff ∧
    existing.addr = store.addr ∧ existing.size = store.size ∧ existing.value = store.value)

/-- The loop of `handle_with_mult_stores` over the elements that overlap the store. Each of
them is dropped in silence or cut and warned about. -/
def overwriteStores (store : PmemSt) : Nat → Pmemcheck → Pmemcheck
  | 0, check => check
  | fuel + 1, check =>
      match check.pmemStores.lookup (cmpPmemSt store) with
      | none => check
      | some existing =>
          if check.isSameWrite store existing then
            overwriteStores store fuel
              { check with pmemStores := check.pmemStores.remove cmpPmemSt (cmpPmemSt store) }
          else
            match splitStore existing store check.pmemStores with
            | none => { check with halted := true }
            | some (rest, overlap) =>
                overwriteStores store fuel
                  ({ check with pmemStores := rest }.addMultOverwriteWarn overlap)

/-- `handle_with_mult_stores`. The store is inserted once nothing overlaps it, and is not
merged. -/
def handleWithMultStores (store : PmemSt) (check : Pmemcheck) : Pmemcheck :=
  let overwritten := overwriteStores store (check.pmemStores.size + 1) check
  { overwritten with pmemStores := overwritten.pmemStores.insert (cmpPmemSt store) store }

/-- The record of a store. It is dirty, and its block is the number of superblocks entered so
far. -/
def newStore (addr size value : Nat) (context : Option ExeContext) (check : Pmemcheck) : PmemSt :=
  { PmemSt.zero with
    addr := addr
    size := size
    state := .dirty
    blockNum := check.sblocks
    value := value
    context := context }

/-- `trace_pmem_store` up to the call of `handle_tx_store`: the new state and the store that is
handed on. -/
def trackStore (store : PmemSt) (check : Pmemcheck) : Pmemcheck × PmemSt :=
  if check.opts.trackMultipleStores then (check.handleWithMultStores store, store)
  else
    let (stores, merged) := addAndMergeStore check.opts.isIpMemsetMemcpy store check.pmemStores
    ({ check with pmemStores := stores }, merged)

/-- `trace_pmem_store`. A store to memory that is not registered is ignored. The store as it
was entered goes on to the transactions. -/
def tracePmemStore (threadId : Nat) (context : Option ExeContext) (addr size value : Nat)
    (check : Pmemcheck) : Pmemcheck :=
  if check.isPmemAccess addr size then
    let (tracked, store) := check.trackStore (check.newStore addr size value context)
    { tracked with trans := tracked.trans.handleTxStore threadId store }
  else check

/-! ## Flushes and fences -/

/-- Register the flush of a record that is not dirty. Without the check of flushes nothing is
registered. -/
def warnRedundantFlush (being : PmemSt) (check : Pmemcheck) : Pmemcheck :=
  if check.opts.checkFlush then
    let (redundantFlushes, exits) :=
      addWarningEvent maxFlushErrorEvents being check.redundantFlushes
    { check with redundantFlushes := redundantFlushes, halted := check.halted || exits }
  else check

/-- Put two parts of a record in its place and resume the walk at a key. Both insertions
discard the walk. -/
def reinsert (being split cut resume : PmemSt) (set : OSet PmemSt) : OSet PmemSt :=
  (((set.remove cmpPmemSt (cmpPmemSt being)).insert (cmpPmemSt split) split).insert (cmpPmemSt cut)
    cut).resetIterAt (cmpPmemSt resume)

/-- Cut off the part of a record before the flushed range. The walk resumes at the rest of the
record, which it meets a second time. -/
def splitFront (flush being : PmemSt) (set : OSet PmemSt) : OSet PmemSt × PmemSt :=
  if being.addr < flush.addr then
    let cut := PmemOps.cutFront flush being
    (reinsert being (PmemOps.frontSplit flush being) cut cut set, cut)
  else (set, being)

/-- Cut off the part of a record behind the flushed range, where the walk resumes. The part is
met once more and left alone. -/
def splitBack (flush being : PmemSt) (set : OSet PmemSt) : OSet PmemSt :=
  if being.maxAddr > flush.maxAddr then
    let split := PmemOps.backSplit flush being
    reinsert being split (PmemOps.cutBack flush being) split set
  else set

/-- The loop of `do_flush`. The flag tells whether the flush met a record. A dirty record that
it meets is marked, cut in front and at the back, and the walk goes on at what it has cut. -/
def flushStores (flush : PmemSt) : Nat → Pmemcheck → Bool → Pmemcheck × Bool
  | 0, check, valid => (check, valid)
  | fuel + 1, check, valid =>
      match check.pmemStores.next with
      | none => (check, valid)
      | some (position, being, walked) =>
          let next := { check with pmemStores := walked }
          if cmpPmemSt flush being ≠ .eq then flushStores flush fuel next valid
          else if being.state ≠ .dirty then
            flushStores flush fuel (next.warnRedundantFlush being) true
          else
            let flushed := { being with state := .flushed }
            let (front, cut) := splitFront flush flushed
                (walked.modifyAt position (fun _ => flushed))
            flushStores flush fuel { check with pmemStores := splitBack flush cut front } true

/-- Register a flush that met no record, if flushes are checked. The flush itself is stored,
with the context of the instruction. -/
def warnSuperfluousFlush (flush : PmemSt) (context : Option ExeContext) (valid : Bool)
    (check : Pmemcheck) : Pmemcheck :=
  if valid = false ∧ check.opts.checkFlush then
    let (superfluousFlushes, exits) := addWarningEvent maxFlushErrorEvents
      { flush with context := context } check.superfluousFlushes
    { check with superfluousFlushes := superfluousFlushes, halted := check.halted || exits }
  else check

/-- `do_flush`. Each record is met at most three times: as found, once more after its front was cut
off, and as the part behind the flushed range. -/
def doFlush (base size : Nat) (context : Option ExeContext) (check : Pmemcheck) : Pmemcheck :=
  let flush := PmemOps.flushInfo check.opts check.flushAlignSize base size
  let (walked, valid) := flushStores flush (3 * check.pmemStores.size + 1)
    { check with pmemStores := check.pmemStores.resetIter } false
  walked.warnSuperfluousFlush flush context valid

/-- The loop of `do_fence`. A flushed record is removed, which discards the walk, and the walk
resumes behind it. -/
def fenceStores : Nat → OSet PmemSt → OSet PmemSt
  | 0, set => set
  | fuel + 1, set =>
      match set.next with
      | none => set
      | some (_, being, walked) =>
          if being.state = .flushed then
            fenceStores fuel
              ((walked.remove cmpPmemSt (cmpPmemSt being)).resetIterAt (cmpPmemSt being))
          else fenceStores fuel walked

/-- `do_fence`. What is flushed is dropped and everything else stays, with its state. -/
def doFence (check : Pmemcheck) : Pmemcheck :=
  { check with
    pmemStores := fenceStores (check.pmemStores.size + 1) check.pmemStores.resetIter }

/-! ## Requests -/

/-- `pmc_handle_client_request`: the answer, where the request has one, and the new state. Requests
that only the other tool knows are refused and change nothing. -/
def handleClientRequest (check : Pmemcheck) : ClientRequest → Option Nat × Pmemcheck
  | .access (.store threadId context addr size value) =>
      (none, check.tracePmemStore threadId context addr size value)
  | .access (.flush context base size) => (none, check.doFlush base size context)
  | .access .fence => (none, check.doFence)
  | .access (.registerMapping base size) =>
      (none, { check with
        pmemMappings := addRegion (PmemSt.range base size) check.pmemMappings })
  | .access _ => (none, check)
  | .enterBlock => (none, { check with sblocks := check.sblocks + 1 })
  | .removeMapping base size =>
      (none, { check with
        pmemMappings := removeRegion (PmemSt.range base size) check.pmemMappings })
  | .checkIsPmemMapping base size =>
      (some (isInMappingSet (PmemSt.range base size) check.pmemMappings), check)
  | .writeStats => (none, check)
  | .setClean base size =>
      (none, { check with pmemStores := removeRegion (PmemSt.range base size) check.pmemStores })
  | .startTx threadId context txId =>
      (none, { check with trans := check.trans.registerNewTx threadId context txId })
  | .endTx _ _ txId =>
      let (answer, trans) := check.trans.removeTx txId
      (some answer, { check with trans := trans })
  | .addToTx threadId context txId base size =>
      let (answer, trans) := check.trans.addObjToTx threadId context txId base size
      (some answer, { check with trans := trans })
  | .removeFromTx threadId txId base size =>
      let (answer, trans) := check.trans.removeObjFromTx threadId txId base size
      (some answer, { check with trans := trans })
  | .addThreadToTx threadId txId | .removeThreadFromTx threadId txId =>
      let (answer, trans) := check.trans.removeObjFromTx threadId txId 0 0
      (some answer, { check with trans := trans })
  | .addToGlobalTxIgnore base size =>
      (none, { check with trans := check.trans.addToGlobalExcludes (PmemSt.range base size) })

/-- The process is gone. The checker and its transactions end it each for themselves. -/
def exited (check : Pmemcheck) : Bool := check.halted || check.trans.exited

/-- The checker after a request, if the process is still there. A process that is gone changes
nothing. -/
def serve (check : Pmemcheck) (request : ClientRequest) : Pmemcheck :=
  if check.exited then check else (check.handleClientRequest request).2

/-- A signal at the checker. The helpers take their arguments as words, and `trace_pmem_flush`
flushes as many bytes as a cache line has. -/
def receive (check : Pmemcheck) : Signal → Pmemcheck
  | .helper threadId context (.tracePmemStore, [addr, size, value]) =>
      check.serve (.access (.store threadId context (addr % 2 ^ 64) (size % 2 ^ 64)
        (value % 2 ^ 64)))
  | .helper _ context (.tracePmemFlush, [addr]) =>
      check.serve (.access (.flush context (addr % 2 ^ 64) check.flushAlignSize))
  | .helper _ _ (.doFence, []) => check.serve (.access .fence)
  | .helper _ _ (.addOneSBEntered, []) => check.serve .enterBlock
  | .helper _ _ _ => check
  | .request request => check.serve request

/-- `print_store_stats`: the stores that are listed as not made persistent. Every record has a
context here, since the parts of a record keep it. -/
def printStoreStats (check : Pmemcheck) : List PmemSt := check.pmemStores.toList

end Pmemcheck

end PmDebugger
