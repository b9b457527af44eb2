import PmDebugger.Accesses
import PmDebugger.Client
import PmDebugger.Ordering

/-!
# Orders within one strand

With `--lack-ordering-in-strand` a flush in any strand but the first counts a violation for each
order whose second range it meets. The check reads the id of the strand and the second range. It
does not ask where, when or whether the first range was made durable, so an order that is kept
within a later strand is counted as one that is broken across strands.

The byte-level machine watches one order. It starts over with each strand and notes whether all
bytes of the first range were stored in the strand and durable at the last store to the second.
-/

namespace PmDebugger

open OrderedSet OrderedSet.OSet PmemOps Persistency Runs

/-- What the current strand did: the pending bytes, the ranges that it stored, and whether the
first range of the order was persisted at the last store to the second. -/
structure StrandWatch where
  flushAlignSize : Nat
  bytes : Memory Nat
  written : List PmemSt
  kept : Bool

namespace StrandWatch

/-- Nothing has happened in the strand. What was stored in the strands before it is forgotten. -/
def start (flushAlignSize : Nat) : StrandWatch := ⟨flushAlignSize, Memory.clean, [], false⟩

/-- Each byte of the range was stored in the strand and is durable. A byte that was never
stored in it does not count. -/
def Persisted (range : PmemSt) (watch : StrandWatch) : Prop :=
  ∀ byte ∈ List.range' range.addr range.size,
    (∃ store ∈ watch.written, store.Covers byte) ∧ ¬ watch.bytes.Unpersisted byte

/-- Whether a range is persisted is a question about its finitely many bytes. -/
instance (range : PmemSt) (watch : StrandWatch) : Decidable (watch.Persisted range) :=
  inferInstanceAs (Decidable (∀ byte ∈ _, (∃ store ∈ watch.written, _) ∧ _))

/-- Stores, flushes and fences take effect in the current strand. A store to the second range
records whether the first range is persisted at that time. -/
def step (first second : PmemSt) (opts : Options) (watch : StrandWatch) :
    ClientRequest → StrandWatch
  | .access (.newStrand cacheLineSize _) => start cacheLineSize
  | .access (.store threadId context addr size value) => { watch with
      bytes := referenceStep opts watch.flushAlignSize watch.bytes
        (.store threadId context addr size value)
      written := PmemSt.range addr size :: watch.written
      kept := if Meets (PmemSt.range addr size) second then decide (watch.Persisted first)
        else watch.kept }
  | .access request =>
      { watch with bytes := referenceStep opts watch.flushAlignSize watch.bytes request }
  | _ => watch

end StrandWatch

/-! ## The records of an order -/

/-- The time and order records stay, up to the times. No record is added or dropped, and none
gets another number or range. -/
structure OrdersKept (before after : PmemOps) : Prop where
  opts : after.opts = before.opts
  orders : after.pmemOrderRecords = before.pmemOrderRecords
  next : after.globalTimeRecordsIndex = before.globalTimeRecordsIndex
  times : ∃ edit : PmemStOrder → PmemStOrder,
    (∀ record, (edit record).index = record.index ∧ (edit record).addr = record.addr ∧
      (edit record).size = record.size) ∧
    after.pmemTimeRecords.toList = before.pmemTimeRecords.toList.map edit

namespace OrdersKept

variable {before middle after : PmemOps}

/-- A part of the tracker that does not touch the records. -/
theorem of_same (opts : after.opts = before.opts)
    (times : after.pmemTimeRecords = before.pmemTimeRecords)
    (orders : after.pmemOrderRecords = before.pmemOrderRecords)
    (next : after.globalTimeRecordsIndex = before.globalTimeRecordsIndex) :
      OrdersKept before after :=
  ⟨opts, orders, next, id, fun _ => ⟨rfl, rfl, rfl⟩, by rw [times, List.map_id]⟩

/-- Nothing happens, and the records stay. -/
theorem refl (pmem : PmemOps) : OrdersKept pmem pmem := of_same rfl rfl rfl rfl

/-- Two steps that keep the records keep them together, and the edits of the times are
composed. -/
theorem trans (first : OrdersKept before middle) (second : OrdersKept middle after) :
    OrdersKept before after := by
  obtain ⟨edit, fixed, edited⟩ := first.times
  obtain ⟨edit', fixed', edited'⟩ := second.times
  refine ⟨second.opts.trans first.opts, second.orders.trans first.orders,
    second.next.trans first.next, edit' ∘ edit, fun record => ?_, ?_⟩
  · obtain ⟨index, addr, size⟩ := fixed record
    obtain ⟨index', addr', size'⟩ := fixed' (edit record)
    exact ⟨index'.trans index, addr'.trans addr, size'.trans size⟩
  · rw [edited', edited, List.map_map]

/-- A loop keeps the records if each of its turns does. -/
theorem foldl {ι : Type} {step : PmemOps → ι → PmemOps}
    (turn : ∀ state input, OrdersKept state (step state input)) (inputs : List ι) (pmem : PmemOps) :
    OrdersKept pmem (inputs.foldl step pmem) := by
  induction inputs generalizing pmem with
  | nil => exact refl pmem
  | cons input rest inductionHypothesis => exact (turn pmem input).trans (inductionHypothesis _)

end OrdersKept

section Frames

variable (pmem : PmemOps)

/-- The check for overwritten stores reads neither orders nor times. It is a loop over the
slots and a walk over the tree, and each turn of them leaves the records alone. -/
theorem handleWithMultStores_orders (store : PmemSt) :
    OrdersKept pmem (pmem.handleWithMultStores store) := by
  have turn (state : PmemOps) (sIndex : Nat) :
      OrdersKept state (state.overwriteSnippet store sIndex) := by
    simp only [overwriteSnippet]
    split
    · exact OrdersKept.refl state
    · apply OrdersKept.foldl
      intro state slot
      rw [(overwriteSlot_frame store state slot).1]
      exact OrdersKept.of_same rfl rfl rfl rfl
  have array := OrdersKept.foldl turn (List.range (pmem.snippetInfoIndex + 1)) pmem
  simp only [handleWithMultStores]
  split
  · exact array
  · apply array.trans
    rw [overwriteTree_frame]
    exact OrdersKept.of_same rfl rfl rfl rfl

/-- With or without `--mult-stores`, the check leaves the orders alone. -/
theorem checkStore_orders (store : PmemSt) : OrdersKept pmem (pmem.checkStore store) := by
  simp only [checkStore]
  have overwritten : OrdersKept pmem
      (if pmem.opts.trackMultipleStores then pmem.handleWithMultStores store else pmem) := by
    split
    · exact handleWithMultStores_orders pmem store
    · exact OrdersKept.refl pmem
  split
  · apply overwritten.trans
    exact ⟨rfl, rfl, rfl, _, restartTime_fixed store _, toList_map _ _⟩
  · exact overwritten

/-- A store is tracked in the array or in the tree, and no order hears of it. -/
theorem trackStore_orders (addr size value : Nat) (context : Option ExeContext) :
    OrdersKept pmem (pmem.trackStore addr size value context).1 := by
  simp only [trackStore]
  split
  · have written (store : PmemSt) : OrdersKept pmem (pmem.setSlot pmem.current.index store) :=
      OrdersKept.of_same rfl rfl rfl rfl
    apply ((written _).trans (checkStore_orders _ _)).trans
    exact OrdersKept.of_same rfl rfl rfl rfl
  · have counted : OrdersKept pmem { pmem with dbPmemStoreIndex := pmem.dbPmemStoreIndex + 1 } :=
      OrdersKept.of_same rfl rfl rfl rfl
    apply (counted.trans (checkStore_orders _ _)).trans
    simp only [updateOsetPmemStoresMinandmax]
    rw [insertStore_frame]
    exact OrdersKept.of_same rfl rfl rfl rfl

/-- Behind its check a flush changes neither the records nor the counter. -/
theorem doFlush_frame (base size : Nat) (context : Option ExeContext) (strandId : Nat) :
    OrdersKept pmem (pmem.doFlush base size context strandId) ∧
      (pmem.doFlush base size context strandId).lackOrderingTrandReg =
        (pmem.checkStrandOrder (flushInfo pmem.opts pmem.flushAlignSize base size)
          strandId).lackOrderingTrandReg := by
  simp only [doFlush]
  generalize flushInfo pmem.opts pmem.flushAlignSize base size = flush
  rw [closeSnippet_frame, warnSuperfluousFlush_frame]
  have tree (state : PmemOps) (valid : Bool) : OrdersKept state (state.flushStores flush valid).1 ∧
      (state.flushStores flush valid).1.lackOrderingTrandReg = state.lackOrderingTrandReg := by
    simp only [flushStores]
    split
    · exact ⟨OrdersKept.refl state, rfl⟩
    · rw [flushTree_unchanged]
      exact ⟨OrdersKept.of_same rfl rfl rfl rfl, rfl⟩
  have array (state : PmemOps) : OrdersKept state (flushArray flush state).1 ∧
      (flushArray flush state).1.lackOrderingTrandReg = state.lackOrderingTrandReg := by
    rw [flushArray_changed flush state]
    exact ⟨OrdersKept.of_same rfl rfl rfl rfl, rfl⟩
  have checked : OrdersKept pmem (pmem.checkStrandOrder flush strandId) := by
    rw [checkStrandOrder_frame]
    exact OrdersKept.of_same rfl rfl rfl rfl
  obtain ⟨arrayKept, arrayCounter⟩ := array (pmem.checkStrandOrder flush strandId)
  obtain ⟨treeKept, treeCounter⟩ := tree (flushArray flush (pmem.checkStrandOrder flush strandId)).1
    (flushArray flush (pmem.checkStrandOrder flush strandId)).2
  constructor
  · apply ((checked.trans arrayKept).trans treeKept).trans
    exact OrdersKept.of_same rfl rfl rfl rfl
  · exact treeCounter.trans arrayCounter

/-- A fence ends times and starts none, so that every order keeps its two records. -/
theorem doFence_orders : OrdersKept pmem pmem.doFence := by
  have timed : OrdersKept pmem { pmem.fenceTimes with
      minAddPmemStore := Word64.minusOne
      maxAddPmemStore := Word64.minusOne
      pmemStores := pmem.fenceTimes.pmemStores.resetIter } := by
    simp only [fenceTimes]
    split
    · exact ⟨rfl, rfl, rfl, _, endTime_fixed pmem, toList_map _ _⟩
    · exact OrdersKept.of_same rfl rfl rfl rfl
  have walked (fuel : Nat) (state : PmemOps) : OrdersKept state (fenceTree fuel state) := by
    rw [fenceTree_frame]
    exact OrdersKept.of_same rfl rfl rfl rfl
  have moved (state : PmemOps) (sIndex : Nat) : OrdersKept state (state.fenceSnippet sIndex) := by
    simp only [fenceSnippet]
    split
    · exact OrdersKept.refl state
    · apply OrdersKept.foldl
      intro state slot
      rw [fenceSlot_frame]
      exact OrdersKept.of_same rfl rfl rfl rfl
  have fenced (snippets : List Nat) :=
    (timed.trans (walked (pmem.fenceTimes.pmemStores.size + 1) _)).trans
      (OrdersKept.foldl moved snippets _)
  simp only [doFence]
  split
  · exact (fenced _).trans (OrdersKept.of_same rfl rfl rfl rfl)
  · exact (fenced _).trans (OrdersKept.of_same rfl rfl rfl rfl)

/-- To set a region clean changes slots and tree only. -/
theorem setClean_orders (base size : Nat) : OrdersKept pmem (pmem.setClean base size) := by
  have append (addr size : Nat) (state : PmemOps) :
      OrdersKept state (state.appendUncleaned addr size) := by
    simp only [appendUncleaned]
    split
    · exact OrdersKept.of_same rfl rfl rfl rfl
    · rw [insertStore_frame]
      exact OrdersKept.of_same rfl rfl rfl rfl
  have slot (region : PmemSt) (index : Nat) (state : PmemOps) :
      OrdersKept state (state.cleanSlot region index) := by
    have written (record : PmemSt) : OrdersKept state (state.setSlot index record) :=
      OrdersKept.of_same rfl rfl rfl rfl
    simp only [cleanSlot]
    split
    · exact OrdersKept.refl state
    · split
      · exact written _
      · split
        · exact (written _).trans (append _ _ _)
        · split
          · exact written _
          · split <;> exact written _
  have slots (region : PmemSt) (sIndex fuel index : Nat) (state : PmemOps) :
      OrdersKept state (cleanSlots region sIndex fuel index state) := by
    induction fuel generalizing index state with
    | zero => exact OrdersKept.refl state
    | succ fuel inductionHypothesis =>
      simp only [cleanSlots]
      split
      · exact (slot region index state).trans (inductionHypothesis _ _)
      · exact OrdersKept.refl state
  have snippet (state : PmemOps) (sIndex : Nat) :
      OrdersKept state (state.cleanSnippet (PmemSt.range base size) sIndex) := by
    simp only [cleanSnippet]
    split
    · exact OrdersKept.refl state
    · exact slots _ _ _ _ _
  apply (OrdersKept.foldl snippet (List.range (pmem.snippetInfoIndex + 1)) pmem).trans
  exact OrdersKept.of_same rfl rfl rfl rfl

/-- The detailed report sorts the records into the tree and leaves the orders alone. -/
theorem printStoreStatsDetail_orders : OrdersKept pmem pmem.printStoreStatsDetail := by
  have slot (tag : FlushedState) (state : PmemOps) (index : Nat) :
      OrdersKept state (state.reportSlot tag index) := by
    simp only [reportSlot]
    split
    · exact OrdersKept.refl state
    · exact OrdersKept.of_same rfl rfl rfl rfl
  have snippet (state : PmemOps) (sIndex : Nat) : OrdersKept state (state.reportSnippet sIndex) :=
    OrdersKept.foldl (slot _) _ state
  have tree (fuel : Nat) (state : PmemOps) : OrdersKept state (reportTree fuel state) := by
    induction fuel generalizing state with
    | zero => exact OrdersKept.refl state
    | succ fuel inductionHypothesis =>
      simp only [reportTree]
      split
      · exact OrdersKept.refl state
      · apply OrdersKept.trans _ (inductionHypothesis _)
        exact OrdersKept.of_same rfl rfl rfl rfl
  have started : OrdersKept pmem { pmem with
      debugMemoryMerge := some create, notPmemNum := 0 } := OrdersKept.of_same rfl rfl rfl rfl
  have array := started.trans
    (OrdersKept.foldl snippet (List.range (pmem.snippetInfoIndex + 1)) _)
  have reset (state : PmemOps) (stores : OSet PmemSt) :
      OrdersKept state { state with pmemStores := stores } := OrdersKept.of_same rfl rfl rfl rfl
  exact (array.trans ((reset _ _).trans (tree _ _))).trans (OrdersKept.of_same rfl rfl rfl rfl)

/-- Either form of the report leaves the orders alone. -/
theorem printStoreStats_orders : OrdersKept pmem pmem.printStoreStats.2 := by
  have written (state : PmemOps) (index : Nat) (record : PmemSt) :
      OrdersKept state (state.setSlot index record) := OrdersKept.of_same rfl rfl rfl rfl
  have snippet (state : PmemOps) (sIndex : Nat) : OrdersKept state (state.settleSnippet sIndex) :=
    OrdersKept.foldl (fun inner index => written inner index _) _ state
  exact (OrdersKept.foldl snippet (List.range (pmem.snippetInfoIndex + 1)) pmem).trans
    (OrdersKept.of_same rfl rfl rfl rfl)

/-- The report of the run prints the orders and keeps them. -/
theorem printPmemStats_orders (summary : List (Option ExeContext)) :
    OrdersKept pmem (pmem.printPmemStats summary).2 := by
  simp only [printPmemStats]
  split
  · exact (printStoreStatsDetail_orders pmem).trans (OrdersKept.of_same rfl rfl rfl rfl)
  · exact (printStoreStats_orders pmem).trans (OrdersKept.of_same rfl rfl rfl rfl)

/-- The removal of a mapping leaves the orders alone, even those of ranges inside it. -/
theorem removeMapping_orders (base size : Nat) :
    OrdersKept pmem (pmem.removeMapping base size) := by
  have lower (region : PmemSt) (state : PmemOps) :
      OrdersKept state (state.lowerMappings region) := by
    simp only [lowerMappings]
    split
    · split <;> exact OrdersKept.of_same rfl rfl rfl rfl
    · exact OrdersKept.refl state
  have raise (region : PmemSt) (state : PmemOps) :
      OrdersKept state (state.raiseMappings region) := by
    simp only [raiseMappings]
    split
    · split <;> exact OrdersKept.of_same rfl rfl rfl rfl
    · exact OrdersKept.refl state
  have removed : OrdersKept pmem { pmem with
      pmemMappings := removeRegionMapping (PmemSt.range base size) pmem.pmemMappings } :=
    OrdersKept.of_same rfl rfl rfl rfl
  exact (removed.trans (lower _ _)).trans (raise _ _)

/-- The mark of a fence counts it for the epoch and touches no order. -/
theorem markEpochFence_orders (context : Option ExeContext) :
    OrdersKept pmem (pmem.markEpochFence context) := by
  simp only [markEpochFence]
  split
  · split
    · exact OrdersKept.of_same rfl rfl rfl rfl
    · split <;> exact OrdersKept.of_same rfl rfl rfl rfl
  · exact OrdersKept.refl pmem

/-- The end of an epoch takes the marks off the slots and touches no order. -/
theorem epochEnd_orders (nested : Bool) : OrdersKept pmem (pmem.epochEnd nested).2 := by
  have slot (state : PmemOps) (index : Nat) : OrdersKept state (state.unmarkSlot index) := by
    simp only [unmarkSlot]
    split
    · exact OrdersKept.of_same rfl rfl rfl rfl
    · exact OrdersKept.refl state
  simp only [epochEnd]
  split
  · apply OrdersKept.trans _ (OrdersKept.foldl slot pmem.usedSlots _)
    exact OrdersKept.of_same rfl rfl rfl rfl
  · exact OrdersKept.refl pmem

end Frames

/-! ## Requests -/

/-- The request starts a new strand. The array and the tree start empty there, and the order
records are those of the strands before. -/
def StartsStrand : ClientRequest → Prop
  | .access request => IsNewStrand request
  | _ => False

section Requests

variable (tool : Tool)

/-- Only an order request adds to the records. -/
theorem step_orders (request : PmemRequest) :
    OrdersKept tool.pmem (tool.step request).pmem ∨ ∃ addrA sizeA addrB sizeB,
      request = .orderGuarantee addrA sizeA addrB sizeB ∧
        (tool.step request).pmem = tool.pmem.orderGuarantee addrA sizeA addrB sizeB := by
  cases request with
  | store threadId context addr size value =>
    left
    simp only [Tool.step, Tool.tracePmemStore]
    split
    · exact trackStore_orders tool.pmem addr size value context
    · exact OrdersKept.refl _
  | flush context base size => exact .inl (doFlush_frame tool.pmem base size context _).1
  | fence => exact .inl (doFence_orders tool.pmem)
  | registerMapping base size => exact .inl (OrdersKept.of_same rfl rfl rfl rfl)
  | orderGuarantee addrA sizeA addrB sizeB => exact .inr ⟨addrA, sizeA, addrB, sizeB, rfl, rfl⟩
  | fenceMark context => exact .inl (markEpochFence_orders tool.pmem context)
  | epochBegin =>
    left
    simp only [Tool.step]
    split
    · exact OrdersKept.of_same rfl rfl rfl rfl
    · exact OrdersKept.refl _
  | epochEnd threadId =>
    left
    simp only [Tool.step, Tool.epochEnd]
    split
    · exact epochEnd_orders tool.pmem _
    · exact OrdersKept.refl _
  | newStrand cacheLineSize slots => exact .inl (OrdersKept.of_same rfl rfl rfl rfl)

/-- Every request of the client keeps the orders, up to the times, except the one that asks for
a new order.

Proof: the requests are taken one by one, and each is a composition of the steps above. A flush
and a fence edit the times of the records in place, which `OrdersKept` allows for. -/
theorem serve_orders (request : ClientRequest) :
    OrdersKept tool.pmem (tool.serve request).pmem ∨ ∃ addrA sizeA addrB sizeB,
      request = .access (.orderGuarantee addrA sizeA addrB sizeB) ∧
        (tool.serve request).pmem = tool.pmem.orderGuarantee addrA sizeA addrB sizeB := by
  unfold Tool.serve
  split
  · exact .inl (OrdersKept.refl _)
  · cases request with
    | access request =>
      rcases step_orders tool request with kept | ⟨addrA, sizeA, addrB, sizeB, rfl, added⟩
      · exact .inl kept
      · exact .inr ⟨addrA, sizeA, addrB, sizeB, rfl, added⟩
    | enterBlock => exact .inl (OrdersKept.of_same rfl rfl rfl rfl)
    | removeMapping base size => exact .inl (removeMapping_orders tool.pmem base size)
    | checkIsPmemMapping base size => exact .inl (OrdersKept.refl _)
    | writeStats => exact .inl (printPmemStats_orders tool.pmem tool.trans.summaryContexts)
    | setClean base size => exact .inl (setClean_orders tool.pmem base size)
    | startTx threadId context txId =>
      left
      simp only [Tool.respond, Tool.handleClientRequest, Tool.startTx]
      split
      · exact OrdersKept.of_same rfl rfl rfl rfl
      · exact OrdersKept.refl _
    | endTx threadId context txId =>
      left
      simp only [Tool.respond, Tool.handleClientRequest, Tool.endTx]
      split
      · exact (markEpochFence_orders tool.pmem context).trans (epochEnd_orders _ _)
      · exact OrdersKept.refl _
    | addToTx | removeFromTx | addThreadToTx | removeThreadFromTx | addToGlobalTxIgnore =>
      exact .inl (OrdersKept.of_same rfl rfl rfl rfl)

/-- Only a new strand changes the id, which it raises. -/
theorem serve_strandId (request : ClientRequest) :
    tool.strandId ≤ (tool.serve request).strandId ∧
      (¬ StartsStrand request → (tool.serve request).strandId = tool.strandId) := by
  unfold Tool.serve
  split
  · exact ⟨Nat.le_refl _, fun _ => rfl⟩
  · cases request with
    | access request =>
      cases request with
      | newStrand cacheLineSize slots =>
        exact ⟨Nat.le_succ _, fun stays => (stays trivial).elim⟩
      | store threadId context addr size value =>
        simp only [Tool.respond, Tool.handleClientRequest, Tool.step, Tool.tracePmemStore]
        split <;> exact ⟨Nat.le_refl _, fun _ => rfl⟩
      | epochBegin =>
        simp only [Tool.respond, Tool.handleClientRequest, Tool.step]
        split <;> exact ⟨Nat.le_refl _, fun _ => rfl⟩
      | epochEnd threadId =>
        simp only [Tool.respond, Tool.handleClientRequest, Tool.step, Tool.epochEnd]
        split <;> exact ⟨Nat.le_refl _, fun _ => rfl⟩
      | flush | fence | registerMapping | orderGuarantee | fenceMark =>
        exact ⟨Nat.le_refl _, fun _ => rfl⟩
    | startTx threadId context txId =>
      simp only [Tool.respond, Tool.handleClientRequest, Tool.startTx]
      split <;> exact ⟨Nat.le_refl _, fun _ => rfl⟩
    | endTx threadId context txId =>
      simp only [Tool.respond, Tool.handleClientRequest, Tool.endTx]
      split <;> exact ⟨Nat.le_refl _, fun _ => rfl⟩
    | enterBlock | removeMapping | checkIsPmemMapping | writeStats | setClean | addToTx
    | removeFromTx | addThreadToTx | removeThreadFromTx | addToGlobalTxIgnore =>
      exact ⟨Nat.le_refl _, fun _ => rfl⟩

end Requests

/-! ## Runs -/

/-- The time and order records have numbers below the next one, so that a new record never
replaces an old one. -/
structure Numbered (pmem : PmemOps) : Prop where
  times : ∀ record ∈ pmem.pmemTimeRecords.toList, record.index < pmem.globalTimeRecordsIndex
  orders : ∀ record ∈ pmem.pmemOrderRecords.toList, record.index < pmem.globalTimeRecordsIndex

/-- There is an order record for the two ranges, whose numbers lead to a time record for each. -/
def OrderRecorded (first second : PmemSt) (pmem : PmemOps) : Prop :=
  ∃ record ∈ pmem.pmemOrderRecords.toList,
    Timed pmem.pmemTimeRecords.toList record.a first (fun _ => True) ∧
      Timed pmem.pmemTimeRecords.toList record.b second (fun _ => True)

section Runs

variable {before after : PmemOps} {first second : PmemSt}

/-- The numbers stay below the next one, since no number is given or changed. -/
theorem OrdersKept.numbered (kept : OrdersKept before after) (numbered : Numbered before) :
    Numbered after := by
  obtain ⟨edit, fixed, edited⟩ := kept.times
  constructor
  · rw [edited, kept.next]
    intro record member
    obtain ⟨old, isOld, rfl⟩ := List.mem_map.mp member
    rw [(fixed old).1]
    exact numbered.times old isOld
  · rw [kept.orders, kept.next]
    exact numbered.orders

/-- An order that is recorded stays recorded, with the two ranges it was recorded for. -/
theorem OrdersKept.recorded (kept : OrdersKept before after)
    (recorded : OrderRecorded first second before) : OrderRecorded first second after := by
  obtain ⟨edit, fixed, edited⟩ := kept.times
  obtain ⟨record, member, begins, ends⟩ := recorded
  refine ⟨record, kept.orders ▸ member, ?_, ?_⟩
  · rw [edited]
    exact begins.map fixed (fun _ _ _ => id)
  · rw [edited]
    exact ends.map fixed (fun _ _ _ => id)

/-- An order request keeps the older orders and adds its own. -/
theorem orderGuarantee_recorded (numbered : Numbered before) (addrA sizeA addrB sizeB : Nat) :
    Numbered (before.orderGuarantee addrA sizeA addrB sizeB) ∧
      OrderRecorded (PmemSt.range addrA sizeA) (PmemSt.range addrB sizeB)
        (before.orderGuarantee addrA sizeA addrB sizeB) ∧
      (OrderRecorded first second before →
        OrderRecorded first second (before.orderGuarantee addrA sizeA addrB sizeB)) := by
  obtain ⟨times, orders⟩ :=
    orderGuarantee_exact numbered.times numbered.orders addrA sizeA addrB sizeB
  have next : (before.orderGuarantee addrA sizeA addrB sizeB).globalTimeRecordsIndex =
    before.globalTimeRecordsIndex + 3 := rfl
  refine ⟨⟨?_, ?_⟩, ?_, ?_⟩
  · intro record member
    rw [times, List.mem_append] at member
    rw [next]
    rcases member with old | new
    · exact Nat.lt_add_right 3 (numbered.times record old)
    · simp only [List.mem_cons, List.not_mem_nil, or_false] at new
      rcases new with rfl | rfl <;> simp [newTimeRecord]
  · intro record member
    rw [orders, List.mem_append, List.mem_singleton] at member
    rw [next]
    rcases member with old | rfl
    · exact Nat.lt_add_right 3 (numbered.orders record old)
    · simp
  · refine ⟨_, by rw [orders]; exact List.mem_append_right _ List.mem_cons_self, ?_, ?_⟩
    · rw [times]
      exact ⟨_, List.mem_append_right _ List.mem_cons_self, rfl, rfl, rfl, trivial⟩
    · rw [times]
      exact ⟨_, List.mem_append_right _ (List.mem_cons_of_mem _ List.mem_cons_self), rfl, rfl, rfl,
        trivial⟩
  · rintro ⟨record, member, begins, ends⟩
    have still {index : Nat} {range : PmemSt}
        (timed : Timed before.pmemTimeRecords.toList index range (fun _ => True)) :
        Timed (before.orderGuarantee addrA sizeA addrB sizeB).pmemTimeRecords.toList index range
          (fun _ => True) := by
      obtain ⟨time, isTime, rest⟩ := timed
      rw [times]
      exact ⟨time, List.mem_append_left _ isTime, rest⟩
    refine ⟨record, ?_, still begins, still ends⟩
    rw [orders]
    exact List.mem_append_left _ member

/-- One request keeps the numbering and the orders recorded so far. Either it keeps all
records, or it adds an order behind them. -/
theorem serve_numbered (tool : Tool) (request : ClientRequest) (numbered : Numbered tool.pmem) :
    Numbered (tool.serve request).pmem ∧
      (OrderRecorded first second tool.pmem →
        OrderRecorded first second (tool.serve request).pmem) := by
  rcases serve_orders tool request with kept | ⟨addrA, sizeA, addrB, sizeB, rfl, added⟩
  · exact ⟨kept.numbered numbered, kept.recorded⟩
  · rw [added]
    obtain ⟨still, _, recorded⟩ := orderGuarantee_recorded numbered addrA sizeA addrB sizeB
    exact ⟨still, recorded⟩

/-- No request changes the options of the tool. -/
theorem serve_opts (tool : Tool) (request : ClientRequest) :
    (tool.serve request).pmem.opts = tool.pmem.opts := by
  rcases serve_orders tool request with kept | ⟨addrA, sizeA, addrB, sizeB, rfl, added⟩
  · exact kept.opts
  · rw [added]
    rfl

/-- A tool that is there at the end of a run was there before, since one that has exited serves
no more requests. -/
theorem alive_before {tool : Tool} {made later : List ClientRequest}
    (alive : ((made ++ later).foldl Tool.serve tool).exited = false) :
    (made.foldl Tool.serve tool).exited = false := by
  rw [Tool.serve_eq] at alive ⊢
  exact running_before alive

variable {tool : Tool} {requests : List ClientRequest}

/-- While the tool is there, every order request of the run has its record. -/
theorem run_recorded (numbered : Numbered tool.pmem)
    (alive : (requests.foldl Tool.serve tool).exited = false)
    (asked : .access (.orderGuarantee first.addr first.size second.addr second.size) ∈ requests) :
    OrderRecorded first second (requests.foldl Tool.serve tool).pmem := by
  obtain ⟨made, later, rfl⟩ := List.append_of_mem asked
  have everyStep (state : Tool) (inputs : List ClientRequest) :
      AllSteps Tool.serve (fun _ _ => True) state inputs :=
    allSteps_of_forall state (fun _ _ => trivial)
  have numbers (state : Tool) (request : ClientRequest) (held : Numbered state.pmem) (_ : True) :
      Numbered (state.serve request).pmem := (@serve_numbered first second state request held).1
  have made_numbered := invariant numbers tool made numbered (everyStep _ _)
  have made_alive := alive_before alive
  rw [List.foldl_append, List.foldl_cons]
  generalize made.foldl Tool.serve tool = reached at *
  have served : (reached.serve (.access (.orderGuarantee first.addr first.size second.addr
      second.size))).pmem =
      reached.pmem.orderGuarantee first.addr first.size second.addr second.size := by
    unfold Tool.serve
    rw [made_alive]
    rfl
  obtain ⟨still, recorded, _⟩ := @orderGuarantee_recorded _ first second made_numbered first.addr
    first.size second.addr second.size
  have records (state : Tool) (request : ClientRequest)
      (held : Numbered state.pmem ∧ OrderRecorded first second state.pmem) (_ : True) :
      Numbered (state.serve request).pmem ∧
        OrderRecorded first second (state.serve request).pmem := by
    obtain ⟨numberedNext, recordedNext⟩ := @serve_numbered first second state request held.1
    exact ⟨numberedNext, recordedNext held.2⟩
  refine (invariant records _ later ?_ (everyStep _ _)).2
  rw [served]
  exact ⟨still, recorded⟩

/-- While the tool is there, the first strand is the current one iff no request started another. -/
theorem run_strandId (began : tool.strandId = 0)
    (alive : (requests.foldl Tool.serve tool).exited = false) :
    (requests.foldl Tool.serve tool).strandId = 0 ↔
      ∀ request ∈ requests, ¬ StartsStrand request := by
  constructor
  · intro still request member starts
    obtain ⟨made, later, rfl⟩ := List.append_of_mem member
    have made_alive := alive_before alive
    rw [List.foldl_append, List.foldl_cons] at still
    generalize made.foldl Tool.serve tool = reached at *
    have raised : 1 ≤ (reached.serve request).strandId := by
      unfold Tool.serve
      rw [made_alive]
      cases request with
      | access request =>
        cases request with
        | newStrand cacheLineSize slots => exact Nat.le_add_left 1 _
        | _ => exact absurd starts id
      | _ => exact absurd starts id
    have grows (state : Tool) (request : ClientRequest) (held : 1 ≤ state.strandId) (_ : True) :
        1 ≤ (state.serve request).strandId :=
      Nat.le_trans held (serve_strandId state request).1
    have final := invariant grows _ later raised (allSteps_of_forall _ (fun _ _ => trivial))
    omega
  · intro stays
    have keeps (state : Tool) (request : ClientRequest) (held : state.strandId = 0)
        (stays : ¬ StartsStrand request) : (state.serve request).strandId = 0 :=
      ((serve_strandId state request).2 stays).trans held
    exact invariant keeps tool requests began (allSteps_of_forall tool stays)

end Runs

/-! ## The check -/

/-- In a later strand the flush counts the orders whose second range it meets, in the first one
none. -/
theorem doFlush_counts {pmem : PmemOps} (lack : pmem.opts.lackOrderingTrand = true)
    {first second : PmemSt} (recorded : OrderRecorded first second pmem) (base size : Nat)
    (context : Option ExeContext) (strandId : Nat)
    (overlaps : cmpPmemSt (flushInfo pmem.opts pmem.flushAlignSize base size) second = .eq) :
    (pmem.doFlush base size context strandId).lackOrderingTrandReg = pmem.lackOrderingTrandReg ↔
      strandId = 0 := by
  rw [(doFlush_frame pmem base size context strandId).2]
  generalize flushInfo pmem.opts pmem.flushAlignSize base size = flush at *
  simp only [checkStrandOrder]
  constructor
  · intro uncounted
    by_contra later
    rw [if_pos ⟨lack, Nat.pos_of_ne_zero later⟩] at uncounted
    obtain ⟨record, member, _, time, isTime, index, addr, size, _⟩ := recorded
    have meets : cmpPmemStOrder { time with addr := flush.addr, size := flush.size } time =
        .eq := by
      rw [← overlaps]
      simp only [cmpPmemStOrder, cmpPmemSt, PmemSt.maxAddr, addr, size]
      rfl
    have none := List.countP_eq_zero.mp (Nat.add_eq_left.mp uncounted) record member
    apply none
    apply List.any_eq_true.mpr
    exact ⟨time, isTime, decide_eq_true (And.intro index meets)⟩
  · intro isFirst
    rw [if_neg (fun later => by omega)]

/-- After a run that asked for an order and kept it in the current strand, a flush that meets
the second range leaves the counter of violations across strands if and only if the run started
no strand.

Proof: the order that was asked for is still recorded, since nothing takes a record away, and
the flush meets its second range. The check of the source then looks at nothing but the number
of the strand, which counts the strands started. That the order was kept plays no part in the
answer. -/
theorem kept_orders_uncounted_iff {opts : Options} (lack : opts.lackOrderingTrand = true)
    (transactionsOnly redundantLogging : Bool) (cacheLineSize : Nat) (slots : Nat → PmemSt)
    (requests : List ClientRequest) (first second : PmemSt)
    (asked : .access (.orderGuarantee first.addr first.size second.addr second.size) ∈ requests)
    (alive : (requests.foldl Tool.serve
      (initTool opts transactionsOnly redundantLogging cacheLineSize slots)).exited = false)
    (base size : Nat) (context : Option ExeContext) :
    let tool := requests.foldl Tool.serve
      (initTool opts transactionsOnly redundantLogging cacheLineSize slots)
    let watch := requests.foldl (StrandWatch.step first second opts)
        (StrandWatch.start cacheLineSize)
    watch.kept = true → cmpPmemSt (flushRange tool base size) second = .eq →
      ((tool.serve (.access (.flush context base size))).pmem.lackOrderingTrandReg =
        tool.pmem.lackOrderingTrandReg ↔ ∀ request ∈ requests, ¬ StartsStrand request) := by
  intro tool watch _ overlaps
  have numbered : Numbered (initTool opts transactionsOnly redundantLogging cacheLineSize
      slots).pmem :=
    ⟨fun _ member => absurd member List.not_mem_nil, fun _ member => absurd member List.not_mem_nil⟩
  have recorded : OrderRecorded first second tool.pmem := run_recorded numbered alive asked
  have sameOpts (state : Tool) (request : ClientRequest) (same : state.pmem.opts = opts)
      (_ : True) : (state.serve request).pmem.opts = opts := (serve_opts state request).trans same
  have isOpts : tool.pmem.opts = opts :=
    invariant sameOpts _ requests rfl (allSteps_of_forall _ (fun _ _ => trivial))
  have served : tool.serve (.access (.flush context base size)) =
      { tool with pmem := tool.pmem.doFlush base size context tool.strandId } := by
    unfold Tool.serve
    rw [show tool.exited = false from alive]
    rfl
  rw [served, ← run_strandId rfl alive]
  exact doFlush_counts (isOpts ▸ lack) recorded base size context tool.strandId overlaps

/-- The options `--order-guarantee` and `--lack-ordering-in-strand`. -/
def strandOptions : Options :=
  { defaultOptions (fun _ => false) with orderGuarantee := true, lackOrderingTrand := true }

/-- An order is kept: the first range is stored, flushed and fenced before the second is stored. -/
def keptOrder : List ClientRequest :=
  [.access (.registerMapping 64 1024), .access (.orderGuarantee 100 8 200 8),
    .access (.store 0 none 100 8 1), .access (.flush none 100 8), .access .fence,
    .access (.store 0 none 200 8 2)]

/-- What the tool makes of the requests, from the start of the process with these options. -/
def strandRun (requests : List ClientRequest) : Tool :=
  requests.foldl Tool.serve (initTool strandOptions false false 64 (fun _ => PmemSt.zero))

/-- What the byte-level machine makes of them, for the ranges [100, 108) and [200, 208). -/
def strandWatch (requests : List ClientRequest) : StrandWatch :=
  requests.foldl (StrandWatch.step (PmemSt.range 100 8) (PmemSt.range 200 8) strandOptions)
    (StrandWatch.start 64)

/-- In the first strand the flush of the second range is not counted. -/
theorem kept_orders_uncounted_first :
    (strandWatch keptOrder).kept = true ∧
      ((strandRun keptOrder).serve (.access (.flush none 200 8))).pmem.lackOrderingTrandReg =
        (strandRun keptOrder).pmem.lackOrderingTrandReg := by
  have kept : (strandWatch keptOrder).kept = true := by decide +kernel
  have asked : .access (.orderGuarantee 100 8 200 8) ∈ keptOrder :=
    List.mem_cons_of_mem _ List.mem_cons_self
  have alive : (strandRun keptOrder).exited = false := by decide +kernel
  have overlaps : cmpPmemSt (flushRange (strandRun keptOrder) 200 8) (PmemSt.range 200 8) =
      .eq := by
    decide +kernel
  have stays : ∀ request ∈ keptOrder, ¬ StartsStrand request := by
    intro request member
    simp only [keptOrder, List.mem_cons, List.not_mem_nil, or_false] at member
    rcases member with rfl | rfl | rfl | rfl | rfl | rfl <;> exact id
  have lack : strandOptions.lackOrderingTrand = true := rfl
  have exactly := kept_orders_uncounted_iff lack false false 64 (fun _ => PmemSt.zero) keptOrder
    (PmemSt.range 100 8) (PmemSt.range 200 8) asked alive 200 8 none kept overlaps
  exact ⟨kept, exactly.mpr stays⟩

/-- In a second strand the same requests are counted as a violation across strands. -/
theorem kept_orders_uncounted_fails :
    let requests := .access (.newStrand 64 (fun _ => PmemSt.zero)) :: keptOrder
    (strandWatch requests).kept = true ∧
      cmpPmemSt (flushRange (strandRun requests) 200 8) (PmemSt.range 200 8) = .eq ∧
      (strandRun requests).pmem.lackOrderingTrandReg = 0 ∧
      ((strandRun requests).serve (.access (.flush none 200 8))).pmem.lackOrderingTrandReg = 1 := by
  decide +kernel

end PmDebugger
