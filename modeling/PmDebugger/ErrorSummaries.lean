import PmDebugger.ComparedTools

/-!
# The last line of the report

`print_general_summary` adds up the counters of all registers and prints the number of errors. With
the options of the start every register stays empty, whatever the program does, and no full register
can end the process. What is counted then are the stores that were not made persistent, so the tool
announces no errors exactly when a crash can lose nothing.
-/

namespace PmDebugger

open Vex OrderedSet OrderedSet.OSet PmemOps Persistency

/-- `get_tx_all_err`: the number of events in the three registers of the transactions. -/
def TransactionOps.getTxAllErr (trans : TransactionOps) : Nat :=
  trans.ootStores.length + trans.crossTxEvs.length + trans.transactions.size +
    trans.redundantLoggingTxEvs.length

/-- `print_general_summary`, with the number of errors in the transactions. The number
announced is the sum of all registers and of the stores left. -/
def PmemOps.printGeneralSummary (txErrors : Nat) (pmem : PmemOps) : Nat :=
  pmem.redundantFlushes.length + pmem.superfluousFlushes.length + pmem.multipleStores.length +
    pmem.notPmemNum + pmem.redundantFence.length + pmem.epochDurabilityReg +
    pmem.orderGuaranteeReg + pmem.lackOrderingTrandReg + txErrors

/-- The number of errors that `pmc_fini` announces, if the process is there at that point. -/
def Tool.errorSummary (tool : Tool) : Option Nat :=
  let checked := if tool.pmem.opts.orderGuarantee then tool.pmem.checkPmemOrder.2 else tool.pmem
  let stats := (checked.printPmemStats tool.trans.summaryContexts).2
  if stats.exited || tool.trans.exited then none
  else some (stats.printGeneralSummary tool.trans.getTxAllErr)

/-- What the summary counts besides the stores, what decides whether it is counted, and whether the
process is gone. -/
structure Counters where
  opts : Options
  multipleStores : List PmemSt
  redundantFlushes : List PmemSt
  superfluousFlushes : List PmemSt
  redundantFence : List (Option ExeContext)
  epochDurabilityReg : Nat
  orderGuaranteeReg : Nat
  lackOrderingTrandReg : Nat
  exited : Bool

/-- The counters of a tracker. Nothing but these is read by the summary. -/
def PmemOps.counters (pmem : PmemOps) : Counters where
  opts := pmem.opts
  multipleStores := pmem.multipleStores
  redundantFlushes := pmem.redundantFlushes
  superfluousFlushes := pmem.superfluousFlushes
  redundantFence := pmem.redundantFence
  epochDurabilityReg := pmem.epochDurabilityReg
  orderGuaranteeReg := pmem.orderGuaranteeReg
  lackOrderingTrandReg := pmem.lackOrderingTrandReg
  exited := pmem.exited

/-- The options under which no register is written and no context is printed. Those of the
start are among them. -/
structure SilentOptions (opts : Options) : Prop where
  reports : PlainReports opts
  checkFlush : opts.checkFlush = false
  orderGuarantee : opts.orderGuarantee = false
  lackOrderingTrand : opts.lackOrderingTrand = false

namespace PmemOps

/-! ## What counts nothing -/

/-- A loop whose turns count nothing counts nothing. -/
theorem foldl_counters {ι : Type} {start : Counters} {step : PmemOps → ι → PmemOps}
    (turn : ∀ state input, state.counters = start → (step state input).counters = start)
    (inputs : List ι) {pmem : PmemOps} (same : pmem.counters = start) :
    (inputs.foldl step pmem).counters = start := by
  induction inputs generalizing pmem with
  | nil => exact same
  | cons input rest inductionHypothesis => exact inductionHypothesis (turn pmem input same)

section Silence

variable {start : Counters} {pmem : PmemOps}

/-- The insertion of a record counts nothing. -/
theorem insertStore_counters (store : PmemSt) (pmem : PmemOps) :
    (pmem.insertStore store).1.counters = pmem.counters := by
  rw [insertStore_frame]
  rfl

/-- A remainder counts nothing, wherever it goes. -/
theorem appendSplit_counters (split : PmemSt) (pmem : PmemOps) :
    (pmem.appendSplit split).counters = pmem.counters := by
  simp only [appendSplit]
  split
  · rfl
  · exact insertStore_counters _ _

/-- Nor does the part that is cut off in front. -/
theorem splitFront_counters (flush : PmemSt) (index : Nat) (pmem : PmemOps) :
    (pmem.splitFront flush index).counters = pmem.counters := by
  simp only [splitFront]
  split
  · exact appendSplit_counters _ _
  · rfl

/-- Nor does the part that is cut off behind. -/
theorem splitBack_counters (flush : PmemSt) (index : Nat) (pmem : PmemOps) :
    (pmem.splitBack flush index).counters = pmem.counters := by
  simp only [splitBack]
  split
  · exact appendSplit_counters _ _
  · rfl

/-- Nor do the parts of a record of the tree. -/
theorem splitTree_counters (flush being : PmemSt) (position : Nat) (pmem : PmemOps) :
    ((pmem.splitFrontTree flush being position).1.splitBackTree flush
      (pmem.splitFrontTree flush being position).2).counters = pmem.counters := by
  simp only [splitFrontTree, splitBackTree]
  split <;> split <;> rfl

/-- Without the check of flushes nothing is registered. -/
theorem warnRedundantFlush_silent (being : PmemSt) (unchecked : pmem.opts.checkFlush = false) :
    pmem.warnRedundantFlush being = pmem := by
  simp only [warnRedundantFlush, unchecked, Bool.false_eq_true, if_false]

/-- Where flushes are not checked, the flush of a slot counts nothing. -/
theorem flushSlot_counters (flush : PmemSt) (sIndex index : Nat) (valid : Bool)
    (unchecked : start.opts.checkFlush = false) (same : pmem.counters = start) :
    (pmem.flushSlot flush sIndex index valid).1.counters = start := by
  have quiet : pmem.opts.checkFlush = false := by
    rw [← same] at unchecked
    exact unchecked
  simp only [flushSlot]
  split
  · exact same
  · split
    · exact same
    · split
      · rw [warnRedundantFlush_silent _ quiet]
        exact same
      · rw [splitBack_counters, splitFront_counters]
        exact same

/-- The inner loop of the flush, by induction on its fuel. -/
theorem flushSlots_counters (flush : PmemSt) (sIndex fuel index : Nat) (valid : Bool)
    (unchecked : start.opts.checkFlush = false) (same : pmem.counters = start) :
    (flushSlots flush sIndex fuel index pmem valid).1.counters = start := by
  induction fuel generalizing index pmem valid with
  | zero => exact same
  | succ fuel inductionHypothesis =>
      simp only [flushSlots]
      split
      · exact inductionHypothesis _ _ (flushSlot_counters flush sIndex index valid unchecked same)
      · exact same

/-- The outer loop of the flush. -/
theorem flushArray_counters (flush : PmemSt) (unchecked : start.opts.checkFlush = false)
    (same : pmem.counters = start) : (pmem.flushArray flush).1.counters = start := by
  have loop (snippets : List Nat) (state : PmemOps × Bool) (kept : state.1.counters = start) :
      (snippets.foldl (flushSnippet flush) state).1.counters = start := by
    induction snippets generalizing state with
    | nil => exact kept
    | cons sIndex rest inductionHypothesis =>
        apply inductionHypothesis
        simp only [flushSnippet]
        split
        · exact kept
        · split
          · exact kept
          · exact flushSlots_counters flush sIndex _ _ _ unchecked kept
  exact loop _ (pmem, false) same

/-- The walk of the flush over the tree, by induction on its fuel. -/
theorem flushTree_counters (flush : PmemSt) (fuel : Nat) (valid : Bool)
    (unchecked : start.opts.checkFlush = false) (same : pmem.counters = start) :
    (flushTree flush fuel pmem valid).1.counters = start := by
  induction fuel generalizing pmem valid with
  | zero => exact same
  | succ fuel inductionHypothesis =>
      have quiet : pmem.opts.checkFlush = false := by
        rw [← same] at unchecked
        exact unchecked
      simp only [flushTree]
      split
      · exact same
      · split
        · exact inductionHypothesis valid same
        · split
          · rw [warnRedundantFlush_silent]
            · exact inductionHypothesis true same
            · exact quiet
          · apply inductionHypothesis true
            rw [splitTree_counters]
            exact same

/-- Where neither flushes nor strands are checked, a flush counts nothing. -/
theorem doFlush_counters (base size : Nat) (context : Option ExeContext) (strandId : Nat)
    (silent : SilentOptions start.opts) (same : pmem.counters = start) :
    (pmem.doFlush base size context strandId).counters = start := by
  have options : SilentOptions pmem.opts := by
    rw [← same] at silent
    exact silent
  have ordered (flush : PmemSt) : pmem.checkStrandOrder flush strandId = pmem := by
    simp [checkStrandOrder, options.lackOrderingTrand]
  have tree (flush : PmemSt) (state : PmemOps) (valid : Bool) (kept : state.counters = start) :
      (state.flushStores flush valid).1.counters = start := by
    simp only [flushStores]
    split
    · exact kept
    · exact flushTree_counters flush _ _ silent.checkFlush kept
  have warned (flush : PmemSt) (state : PmemOps) (valid : Bool) (kept : state.counters = start) :
      (state.warnSuperfluousFlush flush context valid).counters = start := by
    have quiet : state.opts.checkFlush = false := by
      have unchecked := silent.checkFlush
      rw [← kept] at unchecked
      exact unchecked
    simp only [warnSuperfluousFlush, quiet, Bool.false_eq_true, and_false, if_false]
    exact kept
  have closed (state : PmemOps) (kept : state.counters = start) :
      state.closeSnippet.counters = start := by
    rw [closeSnippet_frame]
    exact kept
  simp only [doFlush, ordered]
  exact closed _ (warned _ _ _ (tree _ _ _ (flushArray_counters _ silent.checkFlush same)))

/-- A fence counts nothing. -/
theorem doFence_counters (pmem : PmemOps) : pmem.doFence.counters = pmem.counters := by
  have snippet (state : PmemOps) (sIndex : Nat) (kept : state.counters = pmem.counters) :
      (state.fenceSnippet sIndex).counters = pmem.counters := by
    simp only [fenceSnippet]
    split
    · exact kept
    · apply foldl_counters _ _ kept
      intro inner index same
      rw [fenceSlot_frame]
      exact same
  have timed : pmem.fenceTimes.counters = pmem.counters := by
    rw [fenceTimes_frame]
    rfl
  have tree (fuel : Nat) (state : PmemOps) (kept : state.counters = pmem.counters) :
      (fenceTree fuel state).counters = pmem.counters := by
    rw [fenceTree_frame]
    exact kept
  have array (state : PmemOps) (kept : state.counters = pmem.counters) :
      ((List.range (state.snippetInfoIndex + 1)).foldl fenceSnippet state).clearArray.counters =
        pmem.counters :=
    foldl_counters snippet (List.range (state.snippetInfoIndex + 1)) kept
  have moved := array _ (tree (pmem.fenceTimes.pmemStores.size + 1) { pmem.fenceTimes with
    minAddPmemStore := Word64.minusOne
    maxAddPmemStore := Word64.minusOne
    pmemStores := pmem.fenceTimes.pmemStores.resetIter } timed)
  simp only [doFence]
  split
  · exact moved
  · exact moved

/-- A store counts nothing when overwritten stores are not tracked. -/
theorem trackStore_counters (addr size value : Nat) (context : Option ExeContext)
    (silent : SilentOptions start.opts) (same : pmem.counters = start) :
    (pmem.trackStore addr size value context).1.counters = start := by
  have unchecked (store : PmemSt) (state : PmemOps) (kept : state.counters = start) :
      state.checkStore store = state := by
    have options : SilentOptions state.opts := by
      rw [← kept] at silent
      exact silent
    simp [checkStore, options.reports.tracking.single, options.orderGuarantee]
  simp only [trackStore]
  split
  · rw [unchecked]
    · exact same
    · exact same
  · rw [unchecked]
    · show ((_ : PmemOps).insertStore _).1.counters = start
      rw [insertStore_counters]
      exact same
    · exact same

/-- Nor do the listings. The process survives them where no contexts are printed. -/
theorem printStoreStatsDetail_counters (pmem : PmemOps)
    (silent : pmem.opts.printsContexts = false) :
    pmem.printStoreStatsDetail.counters = pmem.counters := by
  have slot (tag : FlushedState) (state : PmemOps) (index : Nat)
      (kept : state.counters = pmem.counters) :
      (state.reportSlot tag index).counters = pmem.counters := by
    simp only [reportSlot]
    split
    · exact kept
    · exact kept
  have tree (fuel : Nat) (state : PmemOps) (kept : state.counters = pmem.counters) :
      (reportTree fuel state).counters = pmem.counters := by
    induction fuel generalizing state with
    | zero => exact kept
    | succ fuel inductionHypothesis =>
        simp only [reportTree]
        split
        · exact kept
        · exact inductionHypothesis _ kept
  have array : ((List.range (pmem.snippetInfoIndex + 1)).foldl reportSnippet
      { pmem with debugMemoryMerge := some create, notPmemNum := 0 }).counters = pmem.counters := by
    apply foldl_counters
    · intro state sIndex kept
      exact foldl_counters (slot _) _ kept
    · rfl
  have survives (listed : List PmemSt) : listingDies pmem.opts listed = false := by
    rw [listingDies_iff, silent]
    simp
  simp only [printStoreStatsDetail, survives, Bool.or_false]
  exact tree _ _ array

/-- A report that prints no context leaves the counters, and the process goes on after it. -/
theorem printStoreStats_counters (pmem : PmemOps) (silent : pmem.opts.printsContexts = false) :
    pmem.printStoreStats.2.counters = pmem.counters := by
  obtain ⟨slots, _, _, frame⟩ := plainListing_exact pmem
  have survives (listed : List PmemSt) : listingDies pmem.opts listed = false := by
    rw [listingDies_iff, silent]
    simp
  simp only [printStoreStats, survives, Bool.or_false, frame]
  rfl

/-- Nor does the whole report. -/
theorem printPmemStats_counters (pmem : PmemOps) (silent : pmem.opts.printsContexts = false)
    (summary : List (Option ExeContext)) :
    (pmem.printPmemStats summary).2.counters = pmem.counters := by
  have survives (contexts : List (Option ExeContext)) :
      contexts.any pmem.opts.diesAt = false := by
    simp [Options.diesAt, silent]
  by_cases detail : pmem.opts.printBugDetail = true
  · simp only [printPmemStats, if_pos detail, survives, Bool.or_false]
    exact printStoreStatsDetail_counters pmem silent
  · simp only [printPmemStats, if_neg detail, survives, Bool.or_false]
    exact printStoreStats_counters pmem silent

end Silence

end PmemOps

/-! ## Runs that count nothing -/

/-- The tool has counted nothing and no transaction is known. It stays so over everything that
a program without transactions does. -/
structure Quiet (opts : Options) (redundantLogging : Bool) (tool : Tool) : Prop where
  counters : tool.pmem.counters = ⟨opts, [], [], [], [], 0, 0, 0, false⟩
  trans : tool.trans = initTransactions false redundantLogging

/-- Stores, flushes, fences and the registration of memory. No register is written by these
under silent options. -/
def PlainAccess : PmemRequest → Prop
  | .store _ _ _ _ _ | .flush _ _ _ | .fence | .registerMapping _ _ => True
  | _ => False

/-- What the helpers report, and requests for such an access. The programs that are followed
give no other signals. -/
def Plain : Signal → Prop
  | .helper _ _ _ => True
  | .request (.access access) => PlainAccess access
  | .request _ => False

section Runs

variable {opts : Options} {redundantLogging : Bool} {tool : Tool}

/-- A quiet tool has not exited. -/
theorem Quiet.running (quiet : Quiet opts redundantLogging tool) : tool.exited = false := by
  have running : tool.pmem.exited = false := congrArg Counters.exited quiet.counters
  rw [Tool.exited, running, quiet.trans]
  rfl

/-- A quiet tool has no errors of transactions to announce. -/
theorem Quiet.unregistered (quiet : Quiet opts redundantLogging tool) :
    tool.trans.getTxAllErr = 0 := by
  rw [quiet.trans]
  rfl

/-- An access counts nothing. -/
theorem Quiet.step (silent : SilentOptions opts) {access : PmemRequest} (plain : PlainAccess access)
    (quiet : Quiet opts redundantLogging tool) :
      Quiet opts redundantLogging (tool.step access) := by
  obtain ⟨counters, trans⟩ := quiet
  match access, plain with
  | .store threadId context addr size value, _ =>
      simp only [Tool.step, Tool.tracePmemStore]
      split
      · constructor
        · exact trackStore_counters addr size value context silent counters
        · rw [trans]
          rfl
      · exact ⟨counters, trans⟩
  | .flush context base size, _ =>
      constructor
      · exact doFlush_counters base size context tool.strandId silent counters
      · exact trans
  | .fence, _ =>
      constructor
      · exact (doFence_counters tool.pmem).trans counters
      · exact trans
  | .registerMapping base size, _ => exact ⟨counters, trans⟩

/-- The process is still there, so the request is answered. -/
theorem Quiet.serve (quiet : Quiet opts redundantLogging tool) (request : ClientRequest) :
    tool.serve request = tool.respond request := by
  rw [Tool.serve, quiet.running]
  rfl

/-- A tool stays quiet over stores, flushes, fences and registrations of memory. -/
theorem Quiet.serveAccess (silent : SilentOptions opts) {access : PmemRequest}
    (plain : PlainAccess access) (quiet : Quiet opts redundantLogging tool) :
    Quiet opts redundantLogging (tool.serve (.access access)) := by
  rw [quiet.serve]
  exact quiet.step silent plain

/-- A plain signal counts nothing. -/
theorem Quiet.receive (silent : SilentOptions opts) {signal : Signal} (plain : Plain signal)
    (quiet : Quiet opts redundantLogging tool) :
    Quiet opts redundantLogging (tool.receive signal) := by
  unfold Tool.receive
  split
  · exact quiet.serveAccess silent trivial
  · exact quiet.serveAccess silent trivial
  · exact quiet.serveAccess silent trivial
  · rw [quiet.serve]
    exact ⟨quiet.counters, quiet.trans⟩
  · exact quiet
  · rename_i request
    match request, plain with
    | .access access, plain => exact quiet.serveAccess silent plain

/-- A tool stays quiet over a run of them, and of what the helpers report. -/
theorem Quiet.run (silent : SilentOptions opts) {heard : List Signal}
    (plain : ∀ signal ∈ heard, Plain signal) (quiet : Quiet opts redundantLogging tool) :
    Quiet opts redundantLogging (heard.foldl Tool.receive tool) := by
  induction heard generalizing tool with
  | nil => exact quiet
  | cons signal rest inductionHypothesis =>
      apply inductionHypothesis
      · intro later member
        exact plain later (List.mem_cons_of_mem _ member)
      · exact quiet.receive silent (plain signal List.mem_cons_self)

/-- A new tool is quiet. -/
theorem initTool_quiet (lineSize : Nat) (slots : Nat → PmemSt) :
    Quiet opts redundantLogging (initTool opts false redundantLogging lineSize slots) := ⟨rfl, rfl⟩

/-- A request that the tool can follow is plain. -/
theorem Shaped.plain {lineSize : Nat} {hardware : Hardware} {request : ClientRequest}
    (shaped : Shaped opts lineSize hardware (.request request)) : Plain (.request request) := by
  cases request with
  | access access =>
      cases access with
      | store | flush | fence | registerMapping => trivial
      | _ => exact shaped
  | _ => exact shaped

/-- A program that the tool can follow makes no other requests. -/
theorem relays_plain {isa : IsaOptions} {lineSize : Nat} {seen : List Occurrence}
    {heard : List Signal} (relays : Relays isa 64 seen heard) {hardware : Hardware}
    (shaped : Runs.AllSteps (Hardware.step opts isa lineSize) (Shaped opts lineSize)
      hardware seen) :
    ∀ signal ∈ heard, Plain signal := by
  induction relays generalizing hardware with
  | nil => simp
  | @block _ told _ _ threadId contexts _ _ inductionHypothesis =>
      intro signal member
      rcases List.mem_append.mp member with inBlock | later
      · simp only [blockSignals, List.mem_mapIdx] at inBlock
        obtain ⟨index, bound, rfl⟩ := inBlock
        trivial
      · exact inductionHypothesis (Runs.allSteps_append.mp shaped).2 signal later
  | request request _ inductionHypothesis =>
      intro signal member
      rcases List.mem_cons.mp member with rfl | later
      · exact shaped.1.plain
      · exact inductionHypothesis shaped.2 signal later

/-! ## What is counted at the end -/

/-- The plain report counts what it lists, if it is printed to the end. -/
theorem printPmemStats_counted {pmem : PmemOps} (undetailed : pmem.opts.printBugDetail = false)
    (lives : listingDies pmem.opts pmem.plainListing.1 = false)
    (summary : List (Option ExeContext)) :
    (pmem.printPmemStats summary).2.notPmemNum = pmem.plainListing.1.length := by
  simp [printPmemStats, undetailed, printStoreStats, lives]

/-- The tool prints its report at exit in the plain form and to the end. -/
theorem Quiet.fini (silent : SilentOptions opts) (quiet : Quiet opts redundantLogging tool) :
    tool.fini.2 = tool.pmem.plainListing.1 := by
  have same : tool.pmem.opts = opts := congrArg Counters.opts quiet.counters
  have printsNone : tool.pmem.opts.printsContexts = false := by
    rw [same]
    exact silent.reports.silent
  rw [fini_silent quiet.running printsNone, same, silent.orderGuarantee]
  simp [statsListing, same, silent.reports.undetailed]

/-- A quiet tool announces as many errors as it lists stores. -/
theorem Quiet.errorSummary (silent : SilentOptions opts)
    (quiet : Quiet opts redundantLogging tool) : tool.errorSummary = some tool.fini.2.length := by
  have same : tool.pmem.opts = opts := congrArg Counters.opts quiet.counters
  have printsNone : tool.pmem.opts.printsContexts = false := by
    rw [same]
    exact silent.reports.silent
  have lives : listingDies tool.pmem.opts tool.pmem.plainListing.1 = false := by
    rw [listingDies_iff, printsNone]
    simp
  have undetailed : tool.pmem.opts.printBugDetail = false := by
    rw [same]
    exact silent.reports.undetailed
  have counted := printPmemStats_counted undetailed lives tool.trans.summaryContexts
  have counters := (printPmemStats_counters tool.pmem printsNone
    tool.trans.summaryContexts).trans quiet.counters
  have running : tool.trans.exited = false := by
    rw [quiet.trans]
    rfl
  simp only [Tool.errorSummary, same, silent.orderGuarantee, Bool.false_eq_true, if_false,
    quiet.fini silent]
  generalize (tool.pmem.printPmemStats tool.trans.summaryContexts).2 = stats at *
  have alive := congrArg Counters.exited counters
  have multiple := congrArg Counters.multipleStores counters
  have redundant := congrArg Counters.redundantFlushes counters
  have superfluous := congrArg Counters.superfluousFlushes counters
  have fences := congrArg Counters.redundantFence counters
  have epochs := congrArg Counters.epochDurabilityReg counters
  have orders := congrArg Counters.orderGuaranteeReg counters
  have strands := congrArg Counters.lackOrderingTrandReg counters
  simp only [PmemOps.counters] at alive multiple redundant superfluous fences epochs orders strands
  simp [printGeneralSummary, quiet.unregistered, counted, alive, running, multiple, redundant,
    superfluous, fences, epochs, orders, strands]

/-- What is listed has bytes. -/
theorem plainListing_proper {pmem : PmemOps} (well : WellFormed pmem) :
    ∀ store ∈ pmem.plainListing.1, store.Proper := by
  intro store listed
  obtain ⟨slots, same, isListing, _⟩ := plainListing_exact pmem
  rw [isListing] at listed
  rcases List.mem_append.mp listed with inArray | inTree
  · obtain ⟨slot, inUse, rfl⟩ := List.mem_map.mp inArray
    obtain ⟨sIndex, bound, inSlot⟩ := List.mem_flatMap.mp inUse
    have isUsed : sIndex ≤ pmem.snippetInfoIndex := Nat.lt_succ_iff.mp (List.mem_range.mp bound)
    have proper := (well.slots sIndex isUsed slot (mem_slotRange.mp inSlot)).proper
    rw [proper_iff] at proper ⊢
    rwa [(same slot).1, (same slot).2.1]
  · exact (well.stores store inTree).proper

/-- So nothing is listed exactly when no byte is. -/
theorem fini_empty (silent : SilentOptions opts) (quiet : Quiet opts redundantLogging tool)
    (well : WellFormed tool.pmem) :
    tool.fini.2.length = 0 ↔ ∀ byte, ¬ Tracks tool.fini.2 byte := by
  rw [List.length_eq_zero_iff, quiet.fini silent]
  constructor
  · intro empty byte
    rw [empty]
    exact tracks_nil byte
  · intro untracked
    by_contra listed
    obtain ⟨store, member⟩ := List.exists_mem_of_ne_nil _ listed
    have proper := plainListing_proper well store member
    apply untracked store.addr
    exact ⟨store, member, Nat.le_refl _, Nat.lt_add_of_pos_right proper.nonempty⟩

end Runs

end PmDebugger
