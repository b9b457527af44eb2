import PmDebugger.FlushFence
import PmDebugger.Transactions

/-!
# Reports, epochs, strands and requests

The two reports of pending stores, the checks at the end of an epoch and at exit, and
the dispatch of the requests that reach the tracker. Printed text is left out; what a
report lists is returned as the list of its records.

With `--tree-reorganization` or `--print-debug-detail` a report prints the recorded context
of each event in front of its line, and `VG_(pp_ExeContext)` reads through the pointer it is
given. An event without a context therefore ends the process: the report lists what comes
before it and nothing else.

A new strand saves the tracker, gives the client a fresh array and tree, and keeps
the registers, the mappings and the ordering requests. The running thread, recorded
contexts, uninitialised memory and the size of a cache line come with the request.
-/

namespace PmDebugger

open OrderedSet OrderedSet.OSet

/-- The set `debug_memory_merge` of the detailed report, in its order. Without that report
there is no such set, and nothing is listed. -/
def reported (pmem : PmemOps) : List PmemSt := (pmem.debugMemoryMerge.getD create).toList

/-- The reports print where an event was recorded. Either of the two options is enough. -/
def Options.printsContexts (opts : Options) : Bool := opts.treeReorganization || opts.printBugDetail

/-- Printing the event ends the process: its context is printed, and there is none. The
function that prints a context reads through its argument without a test. -/
def Options.diesAt (opts : Options) (context : Option ExeContext) : Bool :=
  opts.printsContexts && context.isNone

/-- The records of a listing that are printed: those in front of the first one at which the
process dies. -/
def printedRecords (opts : Options) (listed : List PmemSt) : List PmemSt :=
  listed.takeWhile (fun store => !opts.diesAt store.context)

/-- The process dies while the listing is printed. One record without a context is enough,
wherever it stands. -/
def listingDies (opts : Options) (listed : List PmemSt) : Bool :=
  listed.any (fun store => opts.diesAt store.context)

/-- The contexts that `print_tx_summary` prints: those of the stores outside of transactions, of
the two registers of overlapping regions and of the open transactions. -/
def TransactionOps.summaryContexts (trans : TransactionOps) : List (Option ExeContext) :=
  trans.ootStores.map PmemSt.context ++
    trans.crossTxEvs.flatMap (fun event => [event.duplicate.context, event.original.context]) ++
    trans.redundantLoggingTxEvs.flatMap
      (fun event => [event.duplicate.context, event.original.context]) ++
    trans.transactions.toList.map TxInfo.context

namespace PmemOps

/-- `db_add_and_merge_store` on the set of the detailed report: the region as the call
leaves it, the set and the index counter. The inserted node is a copy. -/
def dbAddAndMergeStore (isIpMemsetMemcpy : Nat → Bool) (region : PmemSt) (set : OSet PmemSt)
    (dbIndex : Nat) : PmemSt × OSet PmemSt × Nat :=
  let (merged, rest, index) := makeRoom isIpMemsetMemcpy region set dbIndex
  let entry := { merged with index := index }
  (merged, rest.insert (cmpPmemSt entry) entry, index + 1)

/-- The state of a record as the reports first bring it up to date with the tag of its
snippet. -/
def settle (tag : FlushedState) (store : PmemSt) : PmemSt :=
  if tag = .allFlushed then { store with state := .flushed } else store

/-- Enter one record into the detailed report. What the record overrides is cut, and what it
touches is merged, so that the report is a set of disjoint ranges. -/
def reportStore (store : PmemSt) (pmem : PmemOps) : PmemOps × PmemSt :=
  let (merged, set, index) := dbAddAndMergeStore pmem.opts.isIpMemsetMemcpy store
    (pmem.debugMemoryMerge.getD create) pmem.dbPmemStoreIndex
  ({ pmem with debugMemoryMerge := some set, dbPmemStoreIndex := index }, merged)

/-- Enter the record of a slot. The record itself is the region that the call merges, so that
the slot holds the merged range afterwards. -/
def reportSlot (tag : FlushedState) (pmem : PmemOps) (index : Nat) : PmemOps :=
  let store := pmem.slots index
  if store.isDelete then pmem
  else
    let (reported, merged) := pmem.reportStore (settle tag store)
    reported.setSlot index merged

/-- Enter the records of a snippet, from its first slot on. Later records override earlier
ones. -/
def reportSnippet (pmem : PmemOps) (sIndex : Nat) : PmemOps :=
  let snippet := pmem.snippetInfo sIndex
  (slotRange snippet).foldl (reportSlot snippet.flushedNum) pmem

/-- Enter the records of the tree, in the order of the walk. They come after the array and
override it. A node holds the merged range afterwards. -/
def reportTree : Nat → PmemOps → PmemOps
  | 0, pmem => pmem
  | fuel + 1, pmem =>
      match pmem.pmemStores.next with
      | none => pmem
      | some (position, store, walked) =>
          let (reported, merged) := { pmem with pmemStores := walked }.reportStore store
          reportTree fuel { reported with
            pmemStores := walked.modifyAt position (fun _ => merged) }

/-- `print_store_stats_detail`. What it prints is the set `debug_memory_merge`, up to the first
entry without a context; the number of entries is written once all of them are printed. -/
def printStoreStatsDetail (pmem : PmemOps) : PmemOps :=
  let array := (List.range (pmem.snippetInfoIndex + 1)).foldl reportSnippet
    { pmem with debugMemoryMerge := some create, notPmemNum := 0 }
  let entered := reportTree (array.pmemStores.size + 1)
    { array with pmemStores := array.pmemStores.resetIter }
  let dies := listingDies pmem.opts (reported entered)
  { entered with
    notPmemNum := if dies then 0 else (reported entered).length
    exited := entered.exited || dies }

/-- Update the records of a snippet for the plain report. In a snippet that is tagged as
flushed, each record is written flushed. -/
def settleSnippet (pmem : PmemOps) (sIndex : Nat) : PmemOps :=
  let snippet := pmem.snippetInfo sIndex
  (slotRange snippet).foldl
    (fun state index => state.setSlot index (settle snippet.flushedNum (state.slots index))) pmem

/-- All slots in use, snippet by snippet. Deleted records are among them, since a deletion only
sets a mark. -/
def usedSlots (pmem : PmemOps) : List Nat :=
  (List.range (pmem.snippetInfoIndex + 1)).flatMap (fun sIndex =>
    slotRange (pmem.snippetInfo sIndex))

/-- The records that `print_store_stats` goes through, deleted ones included, and the state in
which their snippets have been updated. -/
def plainListing (pmem : PmemOps) : List PmemSt × PmemOps :=
  let settled := (List.range (pmem.snippetInfoIndex + 1)).foldl settleSnippet pmem
  (settled.usedSlots.map settled.slots ++ settled.pmemStores.toList, settled)

/-- `print_store_stats`: the printed records and the new state. The number of stores is written
once all of them are printed. -/
def printStoreStats (pmem : PmemOps) : List PmemSt × PmemOps :=
  let (listed, settled) := pmem.plainListing
  let dies := listingDies pmem.opts listed
  (printedRecords pmem.opts listed, { settled with
    notPmemNum := if dies then settled.notPmemNum else listed.length
    exited := settled.exited || dies })

/-- The contexts of the registered events that `print_pmem_stats` prints. Overwritten stores
are among them only where they are tracked. -/
def eventContexts (pmem : PmemOps) : List (Option ExeContext) :=
  pmem.redundantFence ++ (pmem.redundantFlushes ++ pmem.superfluousFlushes ++
    if pmem.opts.trackMultipleStores then pmem.multipleStores else []).map PmemSt.context

/-- `print_pmem_stats`: the pending stores that it prints and the new state. The process may
die in the list of the stores, in the summary of the transactions, whose contexts are an
argument, or in the lists of the events. -/
def printPmemStats (summary : List (Option ExeContext)) (pmem : PmemOps) :
    List PmemSt × PmemOps :=
  let (printed, stats) :=
    if pmem.opts.printBugDetail then
      let detailed := pmem.printStoreStatsDetail
      (printedRecords pmem.opts (reported detailed), detailed)
    else pmem.printStoreStats
  (printed, { stats with
    exited := stats.exited || (summary ++ stats.eventContexts).any pmem.opts.diesAt })

/-- The order check of one request: `a` must have ended before `b` began. An `a` that has not
ended has minus one for its end, which is before nothing. -/
def violatesOrder (pmem : PmemOps) (record : OrderRecord) : Bool :=
  pmem.pmemTimeRecords.toList.any (fun first => pmem.pmemTimeRecords.toList.any (fun second =>
    decide (first.index = record.a ∧ second.index = record.b ∧
      ¬ first.timestampEnd < second.timestampBegin)))

/-- The request names a range without a context, where contexts are printed. A range has one
once it has been stored to. -/
def diesAtOrder (pmem : PmemOps) (record : OrderRecord) : Bool :=
  pmem.pmemTimeRecords.toList.any (fun range =>
    decide (range.index = record.a ∨ range.index = record.b) && pmem.opts.diesAt range.context)

/-- `check_pmem_order`: the violated requests and the new state. A range that was never stored to
has no context, and a violated request that names one ends the process where contexts are
printed. -/
def checkPmemOrder (pmem : PmemOps) : List OrderRecord × PmemOps :=
  let violated := pmem.pmemOrderRecords.toList.filter pmem.violatesOrder
  (violated, { pmem with
    orderGuaranteeReg := pmem.orderGuaranteeReg + violated.length
    exited := pmem.exited || violated.any pmem.diesAtOrder })

/-- A time record as `ORDER_GUARANTEE` allocates it. Both times are zero, so that a range that
nobody stores to has ended before everything but the first stores. -/
def newTimeRecord (index addr size : Nat) : PmemStOrder where
  index := index
  timestampBegin := 0
  timestampEnd := 0
  context := none
  addr := addr
  size := size

/-- `VG_USERREQ__PMC_ORDER_GUARANTEE`. Two time records and an order between them are
allocated, under three numbers in a row. -/
def orderGuarantee (addrA sizeA addrB sizeB : Nat) (pmem : PmemOps) : PmemOps :=
  let index := pmem.globalTimeRecordsIndex
  let a := newTimeRecord index addrA sizeA
  let b := newTimeRecord (index + 1) addrB sizeB
  { pmem with
    pmemTimeRecords := (pmem.pmemTimeRecords.insert (byKey PmemStOrder.index a.index) a).insert
      (byKey PmemStOrder.index b.index) b
    pmemOrderRecords := pmem.pmemOrderRecords.insert (byKey OrderRecord.index (index + 2))
      { index := index + 2, a := index, b := index + 1 }
    globalTimeRecordsIndex := index + 3 }

/-- `mark_epoch_fence`. Fences are counted within the epoch, and each but the first is
registered. What is bounded is the count of the epoch, and not the register, which goes on from
epoch to epoch. -/
def markEpochFence (context : Option ExeContext) (pmem : PmemOps) : PmemOps :=
  if pmem.epoch then
    let counted := { pmem with epochFence := pmem.epochFence + 1 }
    if counted.epochFence > maxRedundantFence - 1 then counted
    else if counted.epochFence > 1 then
      { counted with redundantFence := counted.redundantFence ++ [context] }
    else counted
  else pmem

/-- `epoch_begin`. Stores are marked from here on. The count of fences is left as it was. -/
def epochBegin (pmem : PmemOps) : PmemOps := { pmem with epoch := true }

/-- A record that the end of an epoch reports: a marked one that is not deleted. -/
def reportsSlot (pmem : PmemOps) (index : Nat) : Bool :=
  (pmem.slots index).inEpoch && !(pmem.slots index).isDelete

/-- Take the epoch mark off a slot that is reported. A deleted slot keeps its mark, which a
later record in the slot may take over. -/
def unmarkSlot (pmem : PmemOps) (index : Nat) : PmemOps :=
  if pmem.reportsSlot index then
    pmem.setSlot index { pmem.slots index with inEpoch := false }
  else pmem

/-- `epoch_end`: the reported records and the new state. `nested` is the answer of
`is_nest_trans`. The tree is listed in front of the array, and the marks are taken off both. -/
def epochEnd (nested : Bool) (pmem : PmemOps) : List PmemSt × PmemOps :=
  if pmem.epoch then
    let reported := pmem.pmemStores.toList.filter PmemSt.inEpoch ++
      (pmem.usedSlots.filter pmem.reportsSlot).map pmem.slots
    (reported, pmem.usedSlots.foldl unmarkSlot { pmem with
      epoch := pmem.epoch && nested
      epochFence := 0
      pmemStores := pmem.pmemStores.map (fun store => { store with inEpoch := false })
      epochDurabilityReg := pmem.epochDurabilityReg + reported.length })
  else ([], pmem)

/-- The tracker of a new strand. The array is a fresh piece of memory, and the bounds of the
tree are those of the old strand. -/
def newStrand (cacheLineSize : Nat) (slots : Nat → PmemSt) (pmem : PmemOps) : PmemOps :=
  { pmem with
    epoch := false
    epochFence := 0
    notPmemNum := 0
    debugMemoryMerge := if pmem.opts.printBugDetail then none else pmem.debugMemoryMerge
    pmemStores := create
    slots := slots
    snippetInfoIndex := 0
    snippetInfo := fun _ => emptySnippet 0
    flushAlignSize := cacheLineSize }

end PmemOps

/-- A saved strand: its id and its tracker. Nothing of the source reads it again. -/
structure StrandPmem where
  strandId : Nat
  pmem : PmemOps

/-- The whole tool: the tracker of the current strand, its id, the saved strands and
the transactions. -/
structure Tool where
  pmem : PmemOps
  strandId : Nat
  strands : List StrandPmem
  trans : TransactionOps

/-- The tool after `pmc_post_clo_init`. The first strand has the id zero and is not saved
before the next one starts. -/
def initTool (opts : Options) (transactionsOnly redundantLogging : Bool) (cacheLineSize : Nat)
    (slots : Nat → PmemSt) : Tool where
  pmem := initPmem opts cacheLineSize slots
  strandId := 0
  strands := []
  trans := initTransactions transactionsOnly redundantLogging

/-- The events of a client that reach the tracker. What the source asks its environment for
comes with the event: the running thread, the recorded context, and for a new strand the line
size and the memory of the array. -/
inductive PmemRequest where
  | store (threadId : Nat) (context : Option ExeContext) (addr size value : Nat)
  | flush (context : Option ExeContext) (base size : Nat)
  | fence
  | registerMapping (base size : Nat)
  | orderGuarantee (addrA sizeA addrB sizeB : Nat)
  | fenceMark (context : Option ExeContext)
  | epochBegin
  | epochEnd (threadId : Nat)
  | newStrand (cacheLineSize : Nat) (slots : Nat → PmemSt)

/-- The request starts a new strand. All others stay in the current one. -/
def IsNewStrand : PmemRequest → Prop
  | .newStrand _ _ => True
  | _ => False

instance : (request : PmemRequest) → Decidable (IsNewStrand request)
  | .newStrand _ _ => .isTrue trivial
  | .store _ _ _ _ _ | .flush _ _ _ | .fence | .registerMapping _ _ | .orderGuarantee _ _ _ _
  | .fenceMark _ | .epochBegin | .epochEnd _ => .isFalse id

namespace Tool

/-- The process is gone. The tracker and the transactions call `VG_(exit)` each for themselves. -/
def exited (tool : Tool) : Bool := tool.pmem.exited || tool.trans.exited

/-- `trace_pmem_store`. A store to memory that is not registered is ignored. One that is
tracked is then handed to the transactions as it was entered. -/
def tracePmemStore (threadId : Nat) (context : Option ExeContext) (addr size value : Nat)
    (tool : Tool) : Tool :=
  if tool.pmem.isPmemAccess addr size then
    let (pmem, store) := tool.pmem.trackStore addr size value context
    { tool with pmem := pmem, trans := tool.trans.handleTxStore threadId store }
  else tool

/-- `VG_USERREQ__PMC_REGISTER_PMEM_MAPPING`. The bounds of the mappings grow by the range, and
the mappings absorb what it meets or touches. -/
def registerMapping (base size : Nat) (tool : Tool) : Tool :=
  let region := PmemSt.range base size
  let (minAdd, maxAdd) := PmemOps.widen region tool.pmem.minAddPmemMappings
    tool.pmem.maxAddPmemMappings
  { tool with pmem := { tool.pmem with
    minAddPmemMappings := minAdd
    maxAddPmemMappings := maxAdd
    pmemMappings := addRegion region tool.pmem.pmemMappings } }

/-- `VG_USERREQ__PMC_EPOCH_END`. Without the check for epochs the request is ignored. Whether
the transaction is nested is asked for the id of the running thread. -/
def epochEnd (threadId : Nat) (tool : Tool) : List PmemSt × Tool :=
  if tool.pmem.opts.epochDurabilityFence then
    let (reported, pmem) := tool.pmem.epochEnd (tool.trans.isNestTrans threadId)
    (reported, { tool with pmem := pmem })
  else ([], tool)

/-- `VG_USERREQ__PMC_NEW_STRAND`. The id of the old strand is raised too, so that the saved
strand and the new one have the same. -/
def newStrand (cacheLineSize : Nat) (slots : Nat → PmemSt) (tool : Tool) : Tool where
  pmem := tool.pmem.newStrand cacheLineSize slots
  strandId := tool.strandId + 1
  strands := { strandId := tool.strandId + 1, pmem := tool.pmem } :: tool.strands
  trans := tool.trans

/-- Dispatch of one request. It goes on after the process has gone; `serveAccess` is the run of
a process that ends. -/
def step (tool : Tool) : PmemRequest → Tool
  | .store threadId context addr size value =>
      tool.tracePmemStore threadId context addr size value
  | .flush context base size =>
      { tool with pmem := tool.pmem.doFlush base size context tool.strandId }
  | .fence => { tool with pmem := tool.pmem.doFence }
  | .registerMapping base size => tool.registerMapping base size
  | .orderGuarantee addrA sizeA addrB sizeB =>
      { tool with pmem := tool.pmem.orderGuarantee addrA sizeA addrB sizeB }
  | .fenceMark context => { tool with pmem := tool.pmem.markEpochFence context }
  | .epochBegin =>
      if tool.pmem.opts.epochDurabilityFence then { tool with pmem := tool.pmem.epochBegin }
      else tool
  | .epochEnd threadId => (tool.epochEnd threadId).2
  | .newStrand cacheLineSize slots => tool.newStrand cacheLineSize slots

/-- `pmc_fini`: the order violations and the pending stores that it reports. Nothing is
reported once the process is gone. -/
def fini (tool : Tool) : List OrderRecord × List PmemSt :=
  let (violations, checked) :=
    if tool.pmem.opts.orderGuarantee then tool.pmem.checkPmemOrder else ([], tool.pmem)
  (violations,
    if checked.exited || tool.trans.exited then []
    else (checked.printPmemStats tool.trans.summaryContexts).1)

end Tool

end PmDebugger
