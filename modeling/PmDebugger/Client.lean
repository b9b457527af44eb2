import PmDebugger.Library.Runs
import PmDebugger.Tool

/-!
# Client requests

The dispatch of `pmc_handle_client_request` over the whole tool: the accesses to
persistent memory, the mappings, the reports, the clearing of ranges and the
transaction requests. The running thread and the recorded context come with each
request, and `START_TX` and its kin are the numbered requests with the number of the
running thread as id.

The transaction code draws from the same index counter as the tracker, so a request
that removes a region passes the counter through. Once the process is gone, because a full
register made the source call `VG_(exit)` or because a report ran into a null context, `serve`
changes nothing any more.
-/

namespace PmDebugger

open OrderedSet OrderedSet.OSet

/-- What `remove_region_mapping` puts back for an element that it took out. The cases are those
of the source: within the region, cut in the middle, cut in front, cut at the back, and the
same range. -/
def mappingRemainders (region entry : PmemSt) : List PmemSt :=
  if entry.addr > region.addr ∧ entry.maxAddr < region.maxAddr then []
  else if entry.addr < region.addr ∧ entry.maxAddr > region.maxAddr then
    [{ entry with size := Word64.sub region.addr entry.addr },
      PmemSt.range region.maxAddr (Word64.sub entry.maxAddr region.maxAddr)]
  else if entry.addr ≥ region.addr ∧ entry.maxAddr > region.maxAddr then
    [{ entry with
      size := Word64.sub entry.size (Word64.sub region.maxAddr entry.addr)
      addr := region.maxAddr }]
  else if entry.maxAddr ≤ region.maxAddr ∧ region.addr > entry.addr then
    [{ entry with size := Word64.sub region.addr entry.addr }]
  else []

/-- The loop of `remove_region_mapping`: take out a match and put back what is left of it. The
set is searched anew in every turn. -/
def removeRegionMappingLoop (region : PmemSt) : Nat → OSet PmemSt → OSet PmemSt
  | 0, set => set
  | fuel + 1, set =>
      match set.lookup (cmpPmemSt region) with
      | none => set
      | some entry =>
          removeRegionMappingLoop region fuel ((mappingRemainders region entry).foldl
            (fun rest piece => rest.insert (cmpPmemSt piece) piece)
            (set.remove cmpPmemSt (cmpPmemSt region)))

/-- `remove_region_mapping`. What is put back misses the region, so each element is
taken out at most once. -/
def removeRegionMapping (region : PmemSt) (set : OSet PmemSt) : OSet PmemSt :=
  removeRegionMappingLoop region (set.size + 1) set

namespace PmemOps

/-- The bounds of the mappings after the start of one was removed. Only a range that starts at
the lower bound moves it. -/
def lowerMappings (region : PmemSt) (pmem : PmemOps) : PmemOps :=
  if region.addr = pmem.minAddPmemMappings then
    match pmem.pmemMappings.toList.head? with
    | none => { pmem with
        minAddPmemMappings := Word64.minusOne
        maxAddPmemMappings := Word64.minusOne }
    | some first => { pmem with minAddPmemMappings := first.addr }
  else pmem

/-- The bounds of the mappings after the end of one was removed. Only a range that ends at the
upper bound moves it. -/
def raiseMappings (region : PmemSt) (pmem : PmemOps) : PmemOps :=
  if region.maxAddr = pmem.maxAddPmemMappings then
    match pmem.pmemMappings.toList.getLast? with
    | none => { pmem with
        minAddPmemMappings := Word64.minusOne
        maxAddPmemMappings := Word64.minusOne }
    | some last => { pmem with maxAddPmemMappings := last.maxAddr }
  else pmem

/-- `VG_USERREQ__PMC_REMOVE_PMEM_MAPPING`. The stores that were made in the range stay tracked. -/
def removeMapping (base size : Nat) (pmem : PmemOps) : PmemOps :=
  let region := PmemSt.range base size
  let removed := { pmem with pmemMappings := removeRegionMapping region pmem.pmemMappings }
  (removed.lowerMappings region).raiseMappings region

/-- The piece behind a cleared range. It takes the next free slot of the current
snippet, where it overwrites the address and the size and nothing else, or a fresh
node of the tree when the array is full. -/
def appendUncleaned (addr size : Nat) (pmem : PmemOps) : PmemOps :=
  let snippet := pmem.current
  if snippet.index < pmem.opts.maxArrayNum then
    (pmem.setSlot snippet.index { pmem.slots snippet.index with
      addr := addr, size := size }).setSnippet pmem.snippetInfoIndex
        { snippet with index := snippet.index + 1 }
  else
    ({ pmem with dbPmemStoreIndex := pmem.dbPmemStoreIndex + 1 }.insertStore
      { PmemSt.range addr size with index := pmem.dbPmemStoreIndex }).1

/-- The body of the array loop of `SET_CLEAN` at one slot. A record within the range is
deleted, and one that sticks out of it is shortened. One that sticks out on both sides leaves
its tail to another slot. -/
def cleanSlot (region : PmemSt) (index : Nat) (pmem : PmemOps) : PmemOps :=
  let entry := pmem.slots index
  if entry.isDelete ∨ cmpPmemSt region entry ≠ .eq then pmem
  else if entry.addr > region.addr ∧ entry.maxAddr < region.maxAddr then
    pmem.setSlot index { entry with isDelete := true }
  else if entry.addr < region.addr ∧ entry.maxAddr > region.maxAddr then
    (pmem.setSlot index { entry with size := Word64.sub region.addr entry.addr }).appendUncleaned
      region.maxAddr (Word64.sub entry.maxAddr region.maxAddr)
  else if entry.addr ≥ region.addr ∧ entry.maxAddr > region.maxAddr then
    pmem.setSlot index { entry with
      size := Word64.sub entry.size (Word64.sub region.maxAddr entry.addr)
      addr := region.maxAddr }
  else if entry.maxAddr ≤ region.maxAddr ∧ region.addr > entry.addr then
    pmem.setSlot index { entry with size := Word64.sub region.addr entry.addr }
  else pmem.setSlot index { entry with isDelete := true }

/-- The array loop of `SET_CLEAN` in one snippet. Its bound is read again in every turn, since
a tail may lengthen the snippet. -/
def cleanSlots (region : PmemSt) (sIndex : Nat) : Nat → Nat → PmemOps → PmemOps
  | 0, _, pmem => pmem
  | fuel + 1, index, pmem =>
      if index < (pmem.snippetInfo sIndex).index then
        cleanSlots region sIndex fuel (index + 1) (pmem.cleanSlot region index)
      else pmem

/-- The loop of `SET_CLEAN` over the snippets. Each record of the snippet is met once,
and so is the piece that may be cut off it. -/
def cleanSnippet (region : PmemSt) (pmem : PmemOps) (sIndex : Nat) : PmemOps :=
  let snippet := pmem.snippetInfo sIndex
  if missesBox region snippet then pmem
  else
    cleanSlots region sIndex (2 * (snippet.index - snippet.startIndex) + 1) snippet.startIndex pmem

/-- `VG_USERREQ__PMC_SET_CLEAN`. The range is taken out of the array, snippet by snippet, and
then out of the tree. The boxes of the snippets stay as they are. -/
def setClean (base size : Nat) (pmem : PmemOps) : PmemOps :=
  let region := PmemSt.range base size
  let cleaned := (List.range (pmem.snippetInfoIndex + 1)).foldl (cleanSnippet region) pmem
  let (rest, index) := removeRegion (treeCmp cleaned.opts) region cleaned.pmemStores
    cleaned.dbPmemStoreIndex
  { cleaned with pmemStores := rest, dbPmemStoreIndex := index }

end PmemOps

/-- What a client can ask of the tool, together with the accesses and the entry into a
superblock that the instrumentation reports. -/
inductive ClientRequest where
  | access (request : PmemRequest)
  | enterBlock
  | removeMapping (base size : Nat)
  | checkIsPmemMapping (base size : Nat)
  | writeStats
  | setClean (base size : Nat)
  | startTx (threadId : Nat) (context : Option ExeContext) (txId : Nat)
  | endTx (threadId : Nat) (context : Option ExeContext) (txId : Nat)
  | addToTx (threadId : Nat) (context : Option ExeContext) (txId base size : Nat)
  | removeFromTx (threadId txId base size : Nat)
  | addThreadToTx (threadId txId : Nat)
  | removeThreadFromTx (threadId txId : Nat)
  | addToGlobalTxIgnore (base size : Nat)

namespace Tool

/-- A call into the transaction code, which shares the index counter of the tracker. The
counter is one variable of the source and two fields here. -/
def callTx (call : TransactionOps → Nat × TransactionOps) (tool : Tool) : Nat × Tool :=
  let (answer, trans) := call { tool.trans with dbPmemStoreIndex := tool.pmem.dbPmemStoreIndex }
  (answer, { tool with
    pmem := { tool.pmem with dbPmemStoreIndex := trans.dbPmemStoreIndex }
    trans := trans })

/-- `VG_USERREQ__PMC_START_TX_N`. Where epochs are checked, an outermost start begins one. -/
def startTx (threadId : Nat) (context : Option ExeContext) (txId : Nat) (tool : Tool) : Tool :=
  let registered := { tool with trans := tool.trans.registerNewTx threadId context txId }
  if registered.pmem.opts.epochDurabilityFence ∧ registered.trans.isNestTrans txId = false then
    { registered with pmem := registered.pmem.epochBegin }
  else registered

/-- `VG_USERREQ__PMC_END_TX_N`: the answer, what the end of an epoch reports, and the new
state. Where epochs are checked, the last end marks a fence and ends the epoch, whatever other
transactions are open. -/
def endTx (context : Option ExeContext) (txId : Nat) (tool : Tool) : Nat × List PmemSt × Tool :=
  let (answer, trans) := tool.trans.removeTx txId
  if tool.pmem.opts.epochDurabilityFence ∧ tool.trans.isNestTrans txId = false then
    let (reported, pmem) := (tool.pmem.markEpochFence context).epochEnd (trans.isNestTrans txId)
    (answer, reported, { tool with pmem := pmem, trans := trans })
  else (answer, [], { tool with trans := trans })

/-- `pmc_handle_client_request`: the answer, where the request has one, and the new
state. The two thread requests are sent where `REMOVE_FROM_TX_N` is sent, and their
macros pass zeros behind the id. -/
def handleClientRequest (tool : Tool) : ClientRequest → Option Nat × Tool
  | .access request => (none, tool.step request)
  | .enterBlock =>
      (none, { tool with pmem := { tool.pmem with sblocks := tool.pmem.sblocks + 1 } })
  | .removeMapping base size => (none, { tool with pmem := tool.pmem.removeMapping base size })
  | .checkIsPmemMapping base size =>
      (some (isInMappingSet (PmemSt.range base size) tool.pmem.pmemMappings), tool)
  | .writeStats =>
      (none, { tool with pmem := (tool.pmem.printPmemStats tool.trans.summaryContexts).2 })
  | .setClean base size => (none, { tool with pmem := tool.pmem.setClean base size })
  | .startTx threadId context txId => (none, tool.startTx threadId context txId)
  | .endTx _ context txId =>
      let (answer, _, ended) := tool.endTx context txId
      (some answer, ended)
  | .addToTx threadId context txId base size =>
      let (answer, added) := tool.callTx
        (TransactionOps.addObjToTx threadId context txId base size)
      (some answer, added)
  | .removeFromTx threadId txId base size =>
      let (answer, removed) := tool.callTx (TransactionOps.removeObjFromTx threadId txId base size)
      (some answer, removed)
  | .addThreadToTx threadId txId =>
      let (answer, removed) := tool.callTx (TransactionOps.removeObjFromTx threadId txId 0 0)
      (some answer, removed)
  | .removeThreadFromTx threadId txId =>
      let (answer, removed) := tool.callTx (TransactionOps.removeObjFromTx threadId txId 0 0)
      (some answer, removed)
  | .addToGlobalTxIgnore base size =>
      (none, { tool with trans := tool.trans.addToGlobalExcludes (PmemSt.range base size) })

/-- The tool after a request, without its answer. -/
def respond (tool : Tool) (request : ClientRequest) : Tool := (tool.handleClientRequest request).2

/-- The tool after a request, if the process is still there. A process that is gone answers
nothing and changes nothing. -/
def serve (tool : Tool) (request : ClientRequest) : Tool :=
  if tool.exited then tool else tool.respond request

/-- The tool after an access, if the process is still there. It is `serve` on the requests that
`step` knows. -/
def serveAccess (tool : Tool) (request : PmemRequest) : Tool := tool.serve (.access request)

/-- Serving requests is a run that halts when the process is gone. -/
theorem serve_eq : serve = Runs.halting exited respond := rfl

/-- Serving accesses is such a run as well. -/
theorem serveAccess_eq : serveAccess = Runs.halting exited step := rfl

/-- A start registers the transaction, whatever becomes of the epoch. -/
theorem startTx_trans (threadId : Nat) (context : Option ExeContext) (txId : Nat) (tool : Tool) :
    (tool.startTx threadId context txId).trans =
      tool.trans.registerNewTx threadId context txId := by
  simp only [startTx]
  split <;> rfl

/-- An end removes the transaction, whatever becomes of the epoch. -/
theorem endTx_trans (context : Option ExeContext) (txId : Nat) (tool : Tool) :
    (tool.endTx context txId).2.2.trans = (tool.trans.removeTx txId).2 := by
  simp only [endTx]
  split <;> rfl

end Tool

end PmDebugger
