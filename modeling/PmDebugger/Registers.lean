import PmDebugger.Client
import PmDebugger.Library.Runs

/-!
# The registers of events

Seven registers are allocated with a fixed capacity. Six of them are written behind a
comparison of their own counter with the capacity, and a full one ends the process.
The register of redundant fences is written behind a comparison of another counter,
the fences of the current epoch, which starts over with each epoch.

`RegistersKept` says what every operation other than a fence mark does to the
registers of the tracker; it composes along the loops. The runs are judged by the
number of fence marks that write.
-/

namespace PmDebugger

open OrderedSet OrderedSet.OSet

/-- The guarded registers of the tracker hold no more than they were allocated for. The
register of redundant fences has no guard and is not among them. -/
structure EventsFit (pmem : PmemOps) : Prop where
  multipleStores : pmem.multipleStores.length ≤ maxMultOverwrites
  redundantFlushes : pmem.redundantFlushes.length ≤ maxFlushErrorEvents
  superfluousFlushes : pmem.superfluousFlushes.length ≤ maxFlushErrorEvents

/-- The registers of the transaction code hold no more than they were allocated for. All three
of them are guarded. -/
structure TxEventsFit (trans : TransactionOps) : Prop where
  ootStores : trans.ootStores.length ≤ maxOotStores
  crossTxEvs : trans.crossTxEvs.length ≤ maxCrossEvs
  redundantLoggingTxEvs : trans.redundantLoggingTxEvs.length ≤ maxCrossEvs

/-- No register holds more than it was allocated for. A register grows by one at each
write, so this is to say that every write so far had an index below the capacity. -/
structure RegistersFit (tool : Tool) : Prop where
  events : EventsFit tool.pmem
  txEvents : TxEventsFit tool.trans
  redundantFence : tool.pmem.redundantFence.length ≤ maxRedundantFence

/-- What an operation that marks no fence leaves of the registers, the epoch and the
options. -/
structure RegistersKept (before after : PmemOps) : Prop where
  opts : after.opts = before.opts
  epoch : after.epoch = before.epoch
  epochFence : after.epochFence = before.epochFence
  redundantFence : after.redundantFence = before.redundantFence
  events : EventsFit before → EventsFit after

namespace RegistersKept

variable {before middle after : PmemOps}

/-- Nothing happens, and the registers stay as they are. -/
theorem refl (pmem : PmemOps) : RegistersKept pmem pmem := ⟨rfl, rfl, rfl, rfl, id⟩

/-- Two steps that keep the registers keep them together: a bound that the first keeps is what
the second starts from. -/
theorem trans (first : RegistersKept before middle) (second : RegistersKept middle after) :
    RegistersKept before after where
  opts := second.opts.trans first.opts
  epoch := second.epoch.trans first.epoch
  epochFence := second.epochFence.trans first.epochFence
  redundantFence := second.redundantFence.trans first.redundantFence
  events := fun fit => second.events (first.events fit)

/-- An operation that writes no register and neither options nor epoch. -/
theorem of_same (opts : after.opts = before.opts) (epoch : after.epoch = before.epoch)
    (epochFence : after.epochFence = before.epochFence)
    (redundantFence : after.redundantFence = before.redundantFence)
    (multipleStores : after.multipleStores = before.multipleStores)
    (redundantFlushes : after.redundantFlushes = before.redundantFlushes)
    (superfluousFlushes : after.superfluousFlushes = before.superfluousFlushes) :
    RegistersKept before after where
  opts := opts
  epoch := epoch
  epochFence := epochFence
  redundantFence := redundantFence
  events := fun fit => {
    multipleStores := multipleStores ▸ fit.multipleStores
    redundantFlushes := redundantFlushes ▸ fit.redundantFlushes
    superfluousFlushes := superfluousFlushes ▸ fit.superfluousFlushes }

/-- A loop whose body keeps the registers keeps them. -/
theorem foldl {ι : Type} {step : PmemOps → ι → PmemOps}
    (kept : ∀ pmem input, RegistersKept pmem (step pmem input)) (inputs : List ι)
    (pmem : PmemOps) : RegistersKept pmem (inputs.foldl step pmem) := by
  induction inputs generalizing pmem with
  | nil => exact refl pmem
  | cons input rest inductionHypothesis =>
    exact (kept pmem input).trans (inductionHypothesis (step pmem input))

end RegistersKept

/-- A guarded write leaves the register within its limit. -/
theorem addWarningEvent_length {limit : Nat} (event : PmemSt) {register : List PmemSt}
    (fits : register.length ≤ limit) :
    (addWarningEvent limit event register).1.length ≤ limit := by
  unfold addWarningEvent
  split
  · exact fits
  · next notFull =>
    have room : register.length + 1 ≤ limit := by omega
    simpa using room

namespace PmemOps

/-! ## Stores -/

/-- A slot is no register. -/
theorem setSlot_registers (index : Nat) (store : PmemSt) (pmem : PmemOps) :
    RegistersKept pmem (pmem.setSlot index store) := by
  apply RegistersKept.of_same <;> rfl

/-- A snippet is no register either. -/
theorem setSnippet_registers (index : Nat) (snippet : ArrSnippet) (pmem : PmemOps) :
    RegistersKept pmem (pmem.setSnippet index snippet) := by
  apply RegistersKept.of_same <;> rfl

/-- A change of the tree and of the index counter. -/
theorem withTree_registers (stores : OSet PmemSt) (index : Nat) (pmem : PmemOps) :
    RegistersKept pmem { pmem with pmemStores := stores, dbPmemStoreIndex := index } := by
  apply RegistersKept.of_same <;> rfl

/-- The insertion of a record touches the tree and the counter of records only, whether or not
it merges its neighbours. -/
theorem insertStore_registers (store : PmemSt) (pmem : PmemOps) :
    RegistersKept pmem (pmem.insertStore store).1 := by
  rw [insertStore_frame]
  apply withTree_registers

/-- The bounds of the tree are no registers. -/
theorem updateOset_registers (store : PmemSt) (pmem : PmemOps) :
    RegistersKept pmem (pmem.updateOsetPmemStoresMinandmax store) := by
  apply RegistersKept.of_same <;> rfl

/-- The box of the current snippet is no register. -/
theorem updateHead_registers (store : PmemSt) (pmem : PmemOps) :
    RegistersKept pmem (pmem.updatePmemStoresHeadMinandmax store) := by
  apply setSnippet_registers

/-- A warning about an overwritten store is written only below the limit: at the limit the tool
stops instead, so the register fits afterwards as well. -/
theorem addMultOverwriteWarn_registers (store : PmemSt) (pmem : PmemOps) :
    RegistersKept pmem (pmem.addMultOverwriteWarn store) where
  opts := rfl
  epoch := rfl
  epochFence := rfl
  redundantFence := rfl
  events := fun fit => {
    multipleStores := addWarningEvent_length _ fit.multipleStores
    redundantFlushes := fit.redundantFlushes
    superfluousFlushes := fit.superfluousFlushes }

/-- A slot that the store overwrites is warned about at most once, and the rest is work on
slots and on the tree. -/
theorem overwriteSlot_registers (store : PmemSt) (pmem : PmemOps) (index : Nat) :
    RegistersKept pmem (pmem.overwriteSlot store index) := by
  simp only [overwriteSlot]
  split
  · exact RegistersKept.refl pmem
  · split
    · apply setSlot_registers
    · split
      · apply RegistersKept.of_same <;> rfl
      · split
        · exact (setSlot_registers index _ pmem).trans (addMultOverwriteWarn_registers _ _)
        · exact (setSlot_registers index _ pmem).trans (addMultOverwriteWarn_registers _ _)
        · exact ((setSlot_registers index _ pmem).trans (withTree_registers _ _ _)).trans
            (addMultOverwriteWarn_registers _ _)

/-- A rewritten record leaves the tree without a warning. -/
theorem dropRewritten_registers (store : PmemSt) (position : Nat) (walked : OSet PmemSt)
    (pmem : PmemOps) : RegistersKept pmem (pmem.dropRewritten store position walked) := by
  simp only [dropRewritten]
  split
  · apply RegistersKept.of_same <;> rfl
  · apply RegistersKept.of_same <;> rfl

/-- The walk over the tree warns at most once for each record it meets. The induction is on the
fuel of the walk. -/
theorem overwriteTree_registers (store : PmemSt) (fuel : Nat) (pmem : PmemOps) :
    RegistersKept pmem (overwriteTree store fuel pmem) := by
  induction fuel generalizing pmem with
  | zero => exact RegistersKept.refl pmem
  | succ fuel inductionHypothesis =>
    simp only [overwriteTree]
    split
    · exact RegistersKept.refl pmem
    · split
      · exact (withTree_registers _ pmem.dbPmemStoreIndex pmem).trans (inductionHypothesis _)
      · split
        · exact (dropRewritten_registers store _ _ pmem).trans (inductionHypothesis _)
        · split
          · apply RegistersKept.of_same <;> rfl
          · split
            · exact ((withTree_registers _ pmem.dbPmemStoreIndex pmem).trans
                (addMultOverwriteWarn_registers _ _)).trans (inductionHypothesis _)
            · exact ((withTree_registers _ pmem.dbPmemStoreIndex pmem).trans
                (addMultOverwriteWarn_registers _ _)).trans (inductionHypothesis _)
            · exact ((withTree_registers _ (pmem.dbPmemStoreIndex + 1) pmem).trans
                (addMultOverwriteWarn_registers _ _)).trans (inductionHypothesis _)

/-- The check for overwritten stores is the loop over the slots and then the walk over the
tree. -/
theorem handleWithMultStores_registers (store : PmemSt) (pmem : PmemOps) :
    RegistersKept pmem (pmem.handleWithMultStores store) := by
  have array : RegistersKept pmem ((List.range (pmem.snippetInfoIndex + 1)).foldl
      (overwriteSnippet store) pmem) := by
    apply RegistersKept.foldl
    intro state sIndex
    simp only [overwriteSnippet]
    split
    · exact RegistersKept.refl state
    · exact RegistersKept.foldl (overwriteSlot_registers store) _ state
  simp only [handleWithMultStores]
  split
  · exact array
  · exact (array.trans (withTree_registers _ _ _)).trans (overwriteTree_registers store _ _)

/-- The check is made only with `--mult-stores`; without it the tracker stays as it is. -/
theorem checkStore_registers (store : PmemSt) (pmem : PmemOps) :
    RegistersKept pmem (pmem.checkStore store) := by
  have overwritten : RegistersKept pmem
      (if pmem.opts.trackMultipleStores then pmem.handleWithMultStores store else pmem) := by
    split
    · exact handleWithMultStores_registers store pmem
    · exact RegistersKept.refl pmem
  simp only [checkStore]
  split
  · apply overwritten.trans
    apply RegistersKept.of_same <;> rfl
  · exact overwritten

/-- A store writes to no register but that of the overwritten stores. -/
theorem trackStore_registers (addr size value : Nat) (context : Option ExeContext)
    (pmem : PmemOps) : RegistersKept pmem (pmem.trackStore addr size value context).1 := by
  simp only [trackStore]
  split
  · exact (((setSlot_registers _ _ pmem).trans (checkStore_registers _ _)).trans
      (setSnippet_registers _ _ _)).trans (updateHead_registers _ _)
  · exact (((withTree_registers _ _ pmem).trans (checkStore_registers _ _)).trans
      (insertStore_registers _ _)).trans (updateOset_registers _ _)

/-! ## Flushes and fences -/

/-- A remainder goes to a slot, or into the tree when the array is full. -/
theorem appendSplit_registers (split : PmemSt) (pmem : PmemOps) :
    RegistersKept pmem (pmem.appendSplit split) := by
  simp only [appendSplit]
  split
  · exact (setSlot_registers _ _ pmem).trans (setSnippet_registers _ _ _)
  · exact (withTree_registers _ _ pmem).trans (insertStore_registers _ _)

/-- The part before the range is cut off a slot. -/
theorem splitFront_registers (flush : PmemSt) (index : Nat) (pmem : PmemOps) :
    RegistersKept pmem (pmem.splitFront flush index) := by
  simp only [splitFront]
  split
  · exact (setSlot_registers _ _ pmem).trans (appendSplit_registers _ _)
  · exact RegistersKept.refl pmem

/-- The part behind the range is cut off a slot. -/
theorem splitBack_registers (flush : PmemSt) (index : Nat) (pmem : PmemOps) :
    RegistersKept pmem (pmem.splitBack flush index) := by
  simp only [splitBack]
  split
  · exact (setSlot_registers _ _ pmem).trans (appendSplit_registers _ _)
  · exact RegistersKept.refl pmem

/-- A redundant flush is registered only below the limit of the register. -/
theorem warnRedundantFlush_registers (being : PmemSt) (pmem : PmemOps) :
    RegistersKept pmem (pmem.warnRedundantFlush being) := by
  simp only [warnRedundantFlush]
  split
  · exact {
      opts := rfl
      epoch := rfl
      epochFence := rfl
      redundantFence := rfl
      events := fun fit => {
        multipleStores := fit.multipleStores
        redundantFlushes := addWarningEvent_length _ fit.redundantFlushes
        superfluousFlushes := fit.superfluousFlushes } }
  · exact RegistersKept.refl pmem

/-- A superfluous flush is registered only below the limit of the register. -/
theorem warnSuperfluousFlush_registers (flush : PmemSt) (context : Option ExeContext)
    (valid : Bool) (pmem : PmemOps) :
    RegistersKept pmem (pmem.warnSuperfluousFlush flush context valid) := by
  simp only [warnSuperfluousFlush]
  split
  · exact {
      opts := rfl
      epoch := rfl
      epochFence := rfl
      redundantFence := rfl
      events := fun fit => {
        multipleStores := fit.multipleStores
        redundantFlushes := fit.redundantFlushes
        superfluousFlushes := addWarningEvent_length _ fit.superfluousFlushes } }
  · exact RegistersKept.refl pmem

/-- A flush warns at most once for each slot that it meets, and cuts it at most twice. -/
theorem flushSlot_registers (flush : PmemSt) (sIndex index : Nat) (pmem : PmemOps)
    (valid : Bool) : RegistersKept pmem (pmem.flushSlot flush sIndex index valid).1 := by
  simp only [flushSlot]
  split
  · apply setSlot_registers
  · split
    · exact RegistersKept.refl pmem
    · split
      · apply warnRedundantFlush_registers
      · exact (((setSlot_registers _ _ pmem).trans (setSnippet_registers _ _ _)).trans
          (splitFront_registers flush index _)).trans (splitBack_registers flush index _)

/-- The inner loop over the slots of a snippet, by induction on its fuel. The loop runs on over
the remainders it appends, which is why its fuel and not the snippet bounds it. -/
theorem flushSlots_registers (flush : PmemSt) (sIndex fuel index : Nat) (pmem : PmemOps)
    (valid : Bool) : RegistersKept pmem (flushSlots flush sIndex fuel index pmem valid).1 := by
  induction fuel generalizing index pmem valid with
  | zero => exact RegistersKept.refl pmem
  | succ fuel inductionHypothesis =>
    simp only [flushSlots]
    split
    · exact (flushSlot_registers flush sIndex index pmem valid).trans (inductionHypothesis _ _ _)
    · exact RegistersKept.refl pmem

/-- A snippet is tagged as a whole, skipped, or flushed slot by slot. -/
theorem flushSnippet_registers (flush : PmemSt) (state : PmemOps × Bool) (sIndex : Nat) :
    RegistersKept state.1 (flushSnippet flush state sIndex).1 := by
  simp only [flushSnippet]
  split
  · apply setSnippet_registers
  · split
    · exact RegistersKept.refl state.1
    · apply flushSlots_registers

/-- The outer loop over the snippets. -/
theorem flushArray_registers (flush : PmemSt) (pmem : PmemOps) :
    RegistersKept pmem (pmem.flushArray flush).1 := by
  have loop : ∀ (snippets : List Nat) (state : PmemOps × Bool),
      RegistersKept state.1 (snippets.foldl (flushSnippet flush) state).1 := by
    intro snippets
    induction snippets with
    | nil => exact fun state => RegistersKept.refl state.1
    | cons sIndex rest inductionHypothesis =>
      exact fun state => (flushSnippet_registers flush state sIndex).trans (inductionHypothesis _)
  exact loop _ (pmem, false)

/-- A record of the tree is cut in front and then at the back, and both parts stay in the tree. -/
theorem splitTree_registers (flush being : PmemSt) (position : Nat) (pmem : PmemOps) :
    RegistersKept pmem ((pmem.splitFrontTree flush being position).1.splitBackTree flush
      (pmem.splitFrontTree flush being position).2) := by
  have front : RegistersKept pmem (pmem.splitFrontTree flush being position).1 := by
    simp only [splitFrontTree]
    split
    · apply withTree_registers
    · exact RegistersKept.refl pmem
  apply front.trans
  simp only [splitBackTree]
  split
  · apply withTree_registers
  · exact RegistersKept.refl _

/-- The walk over the tree warns at most once for each record it meets. The induction is on the
fuel, since the walk starts again after each cut. -/
theorem flushTree_registers (flush : PmemSt) (fuel : Nat) (pmem : PmemOps) (valid : Bool) :
    RegistersKept pmem (flushTree flush fuel pmem valid).1 := by
  induction fuel generalizing pmem valid with
  | zero => exact RegistersKept.refl pmem
  | succ fuel inductionHypothesis =>
    simp only [flushTree]
    split
    · exact RegistersKept.refl pmem
    · split
      · exact (withTree_registers _ pmem.dbPmemStoreIndex pmem).trans (inductionHypothesis _ _)
      · split
        · exact ((withTree_registers _ pmem.dbPmemStoreIndex pmem).trans
            (warnRedundantFlush_registers _ _)).trans (inductionHypothesis _ _)
        · exact ((withTree_registers _ pmem.dbPmemStoreIndex pmem).trans
            (splitTree_registers _ _ _ _)).trans (inductionHypothesis _ _)

/-- The flush of the array and the flush of the tree, one after the other. -/
theorem flushStores_registers (flush : PmemSt) (pmem : PmemOps) (valid : Bool) :
    RegistersKept pmem (pmem.flushStores flush valid).1 := by
  simp only [flushStores]
  split
  · exact RegistersKept.refl pmem
  · exact (withTree_registers _ pmem.dbPmemStoreIndex pmem).trans (flushTree_registers _ _ _ _)

/-- A flush writes to the registers of redundant and superfluous flushes only, and to the
records of times, which are no register. -/
theorem doFlush_registers (base size : Nat) (context : Option ExeContext) (strandId : Nat)
    (pmem : PmemOps) : RegistersKept pmem (pmem.doFlush base size context strandId) := by
  have checked : ∀ flush : PmemSt, RegistersKept pmem (pmem.checkStrandOrder flush strandId) := by
    intro flush
    simp only [checkStrandOrder]
    split
    · apply RegistersKept.of_same <;> rfl
    · exact RegistersKept.refl pmem
  have closed : ∀ state : PmemOps, RegistersKept state state.closeSnippet := by
    intro state
    simp only [closeSnippet]
    split
    · apply RegistersKept.of_same <;> rfl
    · exact RegistersKept.refl state
  exact ((((checked _).trans (flushArray_registers _ _)).trans (flushStores_registers _ _ _)).trans
    (warnSuperfluousFlush_registers _ _ _ _)).trans (closed _)

/-- The fence drops and keeps records of the tree, by induction on its fuel. -/
theorem fenceTree_registers (fuel : Nat) (pmem : PmemOps) :
    RegistersKept pmem (fenceTree fuel pmem) := by
  induction fuel generalizing pmem with
  | zero => exact RegistersKept.refl pmem
  | succ fuel inductionHypothesis =>
    simp only [fenceTree]
    split
    · exact RegistersKept.refl pmem
    · split
      · exact (withTree_registers _ pmem.dbPmemStoreIndex pmem).trans (inductionHypothesis _)
      · exact ((withTree_registers _ pmem.dbPmemStoreIndex pmem).trans
          (updateOset_registers _ _)).trans (inductionHypothesis _)

/-- The fence moves the records of a snippet into the tree. -/
theorem fenceSnippet_registers (pmem : PmemOps) (sIndex : Nat) :
    RegistersKept pmem (pmem.fenceSnippet sIndex) := by
  have slot : ∀ (state : PmemOps) (index : Nat), RegistersKept state (state.fenceSlot index) := by
    intro state index
    simp only [fenceSlot]
    split
    · exact RegistersKept.refl state
    · exact ((withTree_registers _ _ state).trans (insertStore_registers _ _)).trans
        (updateOset_registers _ _)
  simp only [fenceSnippet]
  split
  · exact RegistersKept.refl pmem
  · exact RegistersKept.foldl slot _ pmem

/-- The emptied array holds no register. -/
theorem clearArray_registers (pmem : PmemOps) : RegistersKept pmem pmem.clearArray := by
  apply RegistersKept.of_same <;> rfl

/-- The global time is no register. -/
theorem withTimeStamp_registers (stamp : Nat) (pmem : PmemOps) :
    RegistersKept pmem { pmem with globalTimeStamp := stamp } := by
  apply RegistersKept.of_same <;> rfl

/-- A fence writes to no register. -/
theorem doFence_registers (pmem : PmemOps) : RegistersKept pmem pmem.doFence := by
  have timed : RegistersKept pmem { pmem.fenceTimes with
      minAddPmemStore := Word64.minusOne
      maxAddPmemStore := Word64.minusOne
      pmemStores := pmem.fenceTimes.pmemStores.resetIter } := by
    simp only [fenceTimes]
    split <;> apply RegistersKept.of_same <;> rfl
  have fenced := timed.trans (fenceTree_registers (pmem.fenceTimes.pmemStores.size + 1) _)
  have moved := fun snippets : List Nat =>
    fenced.trans (RegistersKept.foldl fenceSnippet_registers snippets _)
  simp only [doFence]
  split
  · exact ((moved _).trans (clearArray_registers _)).trans (withTimeStamp_registers _ _)
  · exact (moved _).trans (clearArray_registers _)

/-! ## Reports, mappings and cleared ranges -/

/-- The count of a report and the mark of the end. -/
theorem withNotPmemNum_registers (number : Nat) (dies : Bool) (pmem : PmemOps) :
    RegistersKept pmem { pmem with notPmemNum := number, exited := dies } := by
  apply RegistersKept.of_same <;> rfl

/-- The detailed report sorts the records into the tree, which is all it leaves behind. -/
theorem printStoreStatsDetail_registers (pmem : PmemOps) :
    RegistersKept pmem pmem.printStoreStatsDetail := by
  have store : ∀ (record : PmemSt) (state : PmemOps),
      RegistersKept state (state.reportStore record).1 := by
    intro record state
    apply RegistersKept.of_same <;> rfl
  have slot : ∀ (tag : FlushedState) (state : PmemOps) (index : Nat),
      RegistersKept state (state.reportSlot tag index) := by
    intro tag state index
    simp only [reportSlot]
    split
    · exact RegistersKept.refl state
    · exact (store _ state).trans (setSlot_registers _ _ _)
  have tree : ∀ (fuel : Nat) (state : PmemOps), RegistersKept state (reportTree fuel state) := by
    intro fuel
    induction fuel with
    | zero => exact RegistersKept.refl
    | succ fuel inductionHypothesis =>
      intro state
      simp only [reportTree]
      split
      · exact RegistersKept.refl state
      · apply RegistersKept.trans _ (inductionHypothesis _)
        apply RegistersKept.of_same <;> rfl
  have started : RegistersKept pmem { pmem with
      debugMemoryMerge := some create, notPmemNum := 0 } := by
    apply RegistersKept.of_same <;> rfl
  have snippet : ∀ (state : PmemOps) (sIndex : Nat),
      RegistersKept state (state.reportSnippet sIndex) := by
    intro state sIndex
    exact RegistersKept.foldl (slot _) _ state
  have array := started.trans (RegistersKept.foldl snippet
      (List.range (pmem.snippetInfoIndex + 1)) _)
  exact (array.trans ((withTree_registers _ _ _).trans (tree _ _))).trans
    (withNotPmemNum_registers _ _ _)

/-- Either form of the report leaves the registers as they are. -/
theorem printStoreStats_registers (pmem : PmemOps) :
    RegistersKept pmem pmem.printStoreStats.2 := by
  have snippet : ∀ (state : PmemOps) (sIndex : Nat),
      RegistersKept state (state.settleSnippet sIndex) := by
    intro state sIndex
    apply RegistersKept.foldl
    intro inner index
    apply setSlot_registers
  exact (RegistersKept.foldl snippet (List.range (pmem.snippetInfoIndex + 1)) pmem).trans
    (withNotPmemNum_registers _ _ _)

/-- The report of the run prints the registers and does not write to them. -/
theorem printPmemStats_registers (summary : List (Option ExeContext)) (pmem : PmemOps) :
    RegistersKept pmem (pmem.printPmemStats summary).2 := by
  have ended (state : PmemOps) (dies : Bool) :
      RegistersKept state { state with exited := dies } := by
    apply RegistersKept.of_same <;> rfl
  simp only [printPmemStats]
  split
  · exact (printStoreStatsDetail_registers pmem).trans (ended _ _)
  · exact (printStoreStats_registers pmem).trans (ended _ _)

/-- The removal of a mapping touches the regions only. -/
theorem removeMapping_registers (base size : Nat) (pmem : PmemOps) :
    RegistersKept pmem (pmem.removeMapping base size) := by
  have lower : ∀ (region : PmemSt) (state : PmemOps),
      RegistersKept state (state.lowerMappings region) := by
    intro region state
    simp only [lowerMappings]
    split
    · split <;> apply RegistersKept.of_same <;> rfl
    · exact RegistersKept.refl state
  have raise : ∀ (region : PmemSt) (state : PmemOps),
      RegistersKept state (state.raiseMappings region) := by
    intro region state
    simp only [raiseMappings]
    split
    · split <;> apply RegistersKept.of_same <;> rfl
    · exact RegistersKept.refl state
  have removed : RegistersKept pmem { pmem with
      pmemMappings := removeRegionMapping (PmemSt.range base size) pmem.pmemMappings } := by
    apply RegistersKept.of_same <;> rfl
  exact (removed.trans (lower _ _)).trans (raise _ _)

/-- A slot that is cleaned is cut, shortened or dropped without a warning. -/
theorem cleanSlot_registers (region : PmemSt) (index : Nat) (pmem : PmemOps) :
    RegistersKept pmem (pmem.cleanSlot region index) := by
  have append : ∀ (addr size : Nat) (state : PmemOps),
      RegistersKept state (state.appendUncleaned addr size) := by
    intro addr size state
    simp only [appendUncleaned]
    split
    · exact (setSlot_registers _ _ state).trans (setSnippet_registers _ _ _)
    · exact (withTree_registers _ _ state).trans (insertStore_registers _ _)
  simp only [cleanSlot]
  split
  · exact RegistersKept.refl pmem
  · split
    · apply setSlot_registers
    · split
      · exact (setSlot_registers _ _ pmem).trans (append _ _ _)
      · split
        · apply setSlot_registers
        · split <;> apply setSlot_registers

/-- A region that is set clean changes slots and tree, and no warning comes of it. -/
theorem setClean_registers (base size : Nat) (pmem : PmemOps) :
    RegistersKept pmem (pmem.setClean base size) := by
  have slots : ∀ (region : PmemSt) (sIndex fuel index : Nat) (state : PmemOps),
      RegistersKept state (cleanSlots region sIndex fuel index state) := by
    intro region sIndex fuel
    induction fuel with
    | zero => exact fun index state => RegistersKept.refl state
    | succ fuel inductionHypothesis =>
      intro index state
      simp only [cleanSlots]
      split
      · exact (cleanSlot_registers region index state).trans (inductionHypothesis _ _)
      · exact RegistersKept.refl state
  have cleaned : RegistersKept pmem ((List.range (pmem.snippetInfoIndex + 1)).foldl
      (cleanSnippet (PmemSt.range base size)) pmem) := by
    apply RegistersKept.foldl
    intro state sIndex
    simp only [cleanSnippet]
    split
    · exact RegistersKept.refl state
    · apply slots
  exact cleaned.trans (withTree_registers _ _ _)

/-- The marks of an epoch are taken off slot by slot. -/
theorem unmarkSlots_registers (indices : List Nat) (pmem : PmemOps) :
    RegistersKept pmem (indices.foldl unmarkSlot pmem) := by
  apply RegistersKept.foldl
  intro state index
  simp only [unmarkSlot]
  split
  · apply setSlot_registers
  · exact RegistersKept.refl state

/-- The end of an epoch writes no register. It starts the count of fences over. -/
theorem epochEnd_events (nested : Bool) (pmem : PmemOps) :
    (pmem.epochEnd nested).2.redundantFence = pmem.redundantFence ∧
      (EventsFit pmem → EventsFit (pmem.epochEnd nested).2) := by
  simp only [epochEnd]
  split
  · have unmarked := unmarkSlots_registers pmem.usedSlots { pmem with
      epoch := pmem.epoch && nested
      epochFence := 0
      pmemStores := pmem.pmemStores.map (fun store => { store with inEpoch := false })
      epochDurabilityReg := pmem.epochDurabilityReg +
        (pmem.pmemStores.toList.filter PmemSt.inEpoch ++
          (pmem.usedSlots.filter pmem.reportsSlot).map pmem.slots).length }
    constructor
    · exact unmarked.redundantFence
    · intro fit
      exact unmarked.events ⟨fit.1, fit.2, fit.3⟩
  · exact ⟨rfl, id⟩

/-- The next fence mark is written into the register: it is at least the second of its
epoch, and the fences of this epoch have not reached the capacity. -/
def RecordsNextFence (pmem : PmemOps) : Prop :=
  pmem.epoch = true ∧ 1 ≤ pmem.epochFence ∧ pmem.epochFence + 1 < maxRedundantFence

/-- Whether the next fence is recorded is a comparison of two numbers and a flag. -/
instance (pmem : PmemOps) : Decidable pmem.RecordsNextFence :=
  inferInstanceAs (Decidable (_ ∧ _ ∧ _))

/-- A fence mark writes one event or none, whatever the register holds. -/
theorem markEpochFence_events (context : Option ExeContext) (pmem : PmemOps) :
    (pmem.markEpochFence context).redundantFence.length =
        pmem.redundantFence.length + (if pmem.RecordsNextFence then 1 else 0) ∧
      (EventsFit pmem → EventsFit (pmem.markEpochFence context)) := by
  simp only [markEpochFence]
  split
  · next opened =>
    split
    · next many =>
      rw [if_neg (by unfold RecordsNextFence; omega)]
      exact ⟨rfl, fun fit => ⟨fit.1, fit.2, fit.3⟩⟩
    · next few =>
      split
      · next second =>
        rw [if_pos (by unfold RecordsNextFence; exact ⟨opened, by omega, by omega⟩)]
        exact ⟨by simp, fun fit => ⟨fit.1, fit.2, fit.3⟩⟩
      · rw [if_neg (by unfold RecordsNextFence; omega)]
        exact ⟨rfl, fun fit => ⟨fit.1, fit.2, fit.3⟩⟩
  · next closed =>
    rw [if_neg (fun records => closed records.1)]
    exact ⟨rfl, id⟩

end PmemOps

/-! ## The transaction code -/

namespace TransactionOps

/-- A transaction that logs a region already logged by another is registered only below the
limit. -/
theorem reportOverlap_events (txId : Nat) (reg : PmemSt) (trans : TransactionOps) (tx : TxInfo)
    (fit : TxEventsFit trans) : TxEventsFit (reportOverlap txId reg trans tx) := by
  have logged (original : PmemSt) :
      TxEventsFit (trans.registerRedundantLoggingEvent original reg txId) := by
    simp only [registerRedundantLoggingEvent]
    split
    · exact ⟨fit.1, fit.2, fit.3⟩
    · next notFull =>
      have room : trans.redundantLoggingTxEvs.length + 1 ≤ maxCrossEvs := by
        have := fit.redundantLoggingTxEvs
        omega
      exact ⟨fit.1, fit.2, by simpa using room⟩
  have crossed (original : PmemSt) :
      TxEventsFit (trans.registerCrossEvent original tx.txId reg txId) := by
    simp only [registerCrossEvent]
    split
    · exact ⟨fit.1, fit.2, fit.3⟩
    · next notFull =>
      have room : trans.crossTxEvs.length + 1 ≤ maxCrossEvs := by
        have := fit.crossTxEvs
        omega
      exact ⟨fit.1, by simpa using room, fit.3⟩
  simp only [reportOverlap]
  split
  · split
    · split
      · exact fit
      · exact logged _
    · exact fit
  · split
    · exact fit
    · exact crossed _

/-- A store that no transaction has logged is registered only below the limit. -/
theorem recordStore_events (store : PmemSt) (trans : TransactionOps) (fit : TxEventsFit trans) :
    TxEventsFit (trans.recordStore store) := by
  simp only [recordStore]
  split
  · exact ⟨fit.1, fit.2, fit.3⟩
  · next notFull =>
    have room : trans.ootStores.length + 1 ≤ maxOotStores := by
      have := fit.ootStores
      omega
    exact ⟨by simpa using room, fit.2, fit.3⟩

/-- A store is registered once at most, when it is not excluded and no transaction of its
thread has logged its bytes. -/
theorem handleTxStore_events (threadId : Nat) (store : PmemSt) (trans : TransactionOps)
    (fit : TxEventsFit trans) : TxEventsFit (trans.handleTxStore threadId store) := by
  have searched (txIds : List Nat) : TxEventsFit (searchTxs store txIds trans).2 := by
    rw [searchTxs_frame]
    exact ⟨fit.1, fit.2, fit.3⟩
  simp only [handleTxStore]
  split
  · exact fit
  · split
    · split
      · exact recordStore_events store trans fit
      · exact fit
    · split
      · exact searched _
      · exact recordStore_events store _ (searched _)

/-- To log a region registers one event for each other open transaction that has logged a part
of it, each of them below the limit. -/
theorem addObjToTx_events (threadId : Nat) (context : Option ExeContext) (txId base size : Nat)
    (trans : TransactionOps) (fit : TxEventsFit trans) :
    TxEventsFit (trans.addObjToTx threadId context txId base size).2 := by
  have reported (reg : PmemSt) (elems : List TxInfo) :
      TxEventsFit (elems.foldl (reportOverlap txId reg) trans) := by
    apply List.foldlRecOn (motive := TxEventsFit) elems (reportOverlap txId reg) fit
    intro state stateFit tx _
    exact reportOverlap_events txId reg state tx stateFit
  simp only [addObjToTx]
  split
  · exact fit
  · split
    · have kept := reported { PmemSt.range base size with context := context }
        trans.transactions.toList
      exact ⟨kept.1, kept.2, kept.3⟩
    · exact fit

/-- To take a region off the log registers nothing. -/
theorem removeObjFromTx_events (threadId txId base size : Nat) (trans : TransactionOps)
    (fit : TxEventsFit trans) : TxEventsFit (trans.removeObjFromTx threadId txId base size).2 := by
  simp only [removeObjFromTx]
  split
  · exact fit
  · split
    · exact ⟨fit.1, fit.2, fit.3⟩
    · exact fit

/-- The start of a transaction registers nothing. -/
theorem registerNewTx_events (threadId : Nat) (context : Option ExeContext) (txId : Nat)
    (trans : TransactionOps) (fit : TxEventsFit trans) :
    TxEventsFit (trans.registerNewTx threadId context txId) := by
  simp only [registerNewTx, createGetThreadEntry]
  split <;> split <;> exact ⟨fit.1, fit.2, fit.3⟩

/-- The end of a transaction registers nothing. -/
theorem removeTx_events (txId : Nat) (trans : TransactionOps) (fit : TxEventsFit trans) :
    TxEventsFit (trans.removeTx txId).2 := by
  simp only [removeTx]
  split
  · exact fit
  · split <;> exact ⟨fit.1, fit.2, fit.3⟩

end TransactionOps

/-! ## Requests and runs -/

/-- The request writes into the register of redundant fences: it reaches a tool that is
still there, it marks a fence, and the mark is a recorded one. -/
def RecordsFence (tool : Tool) (request : ClientRequest) : Prop :=
  tool.exited = false ∧ tool.pmem.RecordsNextFence ∧
    match request with
    | .access (.fenceMark _) => True
    | .endTx _ _ txId =>
        tool.pmem.opts.epochDurabilityFence = true ∧ tool.trans.isNestTrans txId = false
    | _ => False

/-- Whether a request records a fence can be read off the request and the state before it. -/
instance (tool : Tool) (request : ClientRequest) : Decidable (RecordsFence tool request) := by
  unfold RecordsFence
  split <;> infer_instance

/-- What a request does to the registers. It writes as many redundant fences as it records
marks, and the guarded registers stay within their sizes. -/
structure Writes (before after : Tool) (marks : Nat) : Prop where
  redundantFence : after.pmem.redundantFence.length = before.pmem.redundantFence.length + marks
  events : EventsFit before.pmem → EventsFit after.pmem
  txEvents : TxEventsFit before.trans → TxEventsFit after.trans

/-- What keeps the registers of the tracker and of the transactions writes no fence. -/
theorem RegistersKept.writes {before after : Tool} (kept : RegistersKept before.pmem after.pmem)
    (txEvents : TxEventsFit before.trans → TxEventsFit after.trans) : Writes before after 0 :=
  ⟨congrArg List.length kept.redundantFence, kept.events, txEvents⟩

namespace Tool

/-- A request other than the mark of a fence writes no redundant fence. The requests are
handled one by one, each by the lemma on its function. -/
theorem step_writes (tool : Tool) (request : PmemRequest)
    (marksNone : ∀ context, request ≠ .fenceMark context) : Writes tool (tool.step request) 0 := by
  cases request with
  | store threadId context addr size value =>
    simp only [step, tracePmemStore]
    split
    · exact (PmemOps.trackStore_registers addr size value context tool.pmem).writes
        (TransactionOps.handleTxStore_events _ _ _)
    · exact (RegistersKept.refl tool.pmem).writes id
  | flush context base size => exact (PmemOps.doFlush_registers _ _ _ _ _).writes id
  | fence => exact (PmemOps.doFence_registers _).writes id
  | registerMapping base size => exact ⟨rfl, fun fit => ⟨fit.1, fit.2, fit.3⟩, id⟩
  | orderGuarantee addrA sizeA addrB sizeB => exact ⟨rfl, fun fit => ⟨fit.1, fit.2, fit.3⟩, id⟩
  | fenceMark context => exact absurd rfl (marksNone context)
  | epochBegin =>
    simp only [step]
    split
    · exact ⟨rfl, fun fit => ⟨fit.1, fit.2, fit.3⟩, id⟩
    · exact (RegistersKept.refl tool.pmem).writes id
  | epochEnd threadId =>
    simp only [step, epochEnd]
    split
    · have ended := PmemOps.epochEnd_events (tool.trans.isNestTrans threadId) tool.pmem
      exact ⟨congrArg List.length ended.1, ended.2, id⟩
    · exact (RegistersKept.refl tool.pmem).writes id
  | newStrand cacheLineSize slots =>
    exact ⟨rfl, fun fit => ⟨fit.1, fit.2, fit.3⟩, id⟩

/-- The start of a transaction writes no redundant fence. -/
theorem startTx_writes (threadId : Nat) (context : Option ExeContext) (txId : Nat)
    (tool : Tool) : Writes tool (tool.startTx threadId context txId) 0 := by
  have registered := TransactionOps.registerNewTx_events threadId context txId tool.trans
  simp only [startTx]
  split
  · exact ⟨rfl, fun fit => ⟨fit.1, fit.2, fit.3⟩, registered⟩
  · exact ⟨rfl, id, registered⟩

/-- The end of a transaction marks a fence if the option asks for it and the transaction is not
nested, and so it writes one redundant fence or none. The guard there counts the fences of the
epoch and not the entries of the register. -/
theorem endTx_writes (context : Option ExeContext) (txId : Nat) (tool : Tool) :
    Writes tool (tool.endTx context txId).2.2
      (if tool.pmem.RecordsNextFence ∧ tool.pmem.opts.epochDurabilityFence = true ∧
        tool.trans.isNestTrans txId = false then 1 else 0) := by
  have removed := TransactionOps.removeTx_events txId tool.trans
  simp only [endTx]
  split
  · next closes =>
    have marked := PmemOps.markEpochFence_events context tool.pmem
    have ended := PmemOps.epochEnd_events ((tool.trans.removeTx txId).2.isNestTrans txId)
      (tool.pmem.markEpochFence context)
    simp only [closes, and_true]
    exact ⟨(congrArg List.length ended.1).trans marked.1, fun fit =>
      ended.2 (marked.2 fit), removed⟩
  · next stays =>
    rw [if_neg (fun records => stays records.2)]
    exact ⟨rfl, id, removed⟩

/-- A request to the transactions writes no fence, whatever it does to the log. -/
theorem callTx_writes {call : TransactionOps → Nat × TransactionOps}
    (kept : ∀ trans, TxEventsFit trans → TxEventsFit (call trans).2) (tool : Tool) :
    Writes tool (tool.callTx call).2 0 := by
  have counted : RegistersKept tool.pmem (tool.callTx call).2.pmem := by
    apply RegistersKept.of_same <;> rfl
  apply counted.writes
  intro fit
  exact kept _ ⟨fit.1, fit.2, fit.3⟩

/-- Every request leaves the guarded registers within their capacities and writes into
the register of redundant fences once or not at all. -/
theorem respond_writes (tool : Tool) (alive : tool.exited = false)
    (request : ClientRequest) :
    Writes tool (tool.respond request) (if RecordsFence tool request then 1 else 0) := by
  cases request with
  | access request =>
    by_cases marks : ∃ context, request = .fenceMark context
    · obtain ⟨context, rfl⟩ := marks
      have marked := PmemOps.markEpochFence_events context tool.pmem
      simp only [RecordsFence, alive, true_and, and_true]
      exact ⟨marked.1, marked.2, id⟩
    · have silent : ¬ RecordsFence tool (.access request) := by
        intro records
        cases request with
        | fenceMark context => exact marks ⟨context, rfl⟩
        | _ => exact records.2.2
      rw [if_neg silent]
      exact step_writes tool request (fun context same => marks ⟨context, same⟩)
  | endTx threadId context txId =>
    simp only [RecordsFence, alive, true_and]
    exact endTx_writes context txId tool
  | startTx threadId context txId =>
    rw [if_neg (fun records => records.2.2)]
    exact startTx_writes threadId context txId tool
  | addToTx threadId context txId base size =>
    rw [if_neg (fun records => records.2.2)]
    exact callTx_writes (TransactionOps.addObjToTx_events threadId context txId base size) tool
  | removeFromTx threadId txId base size =>
    rw [if_neg (fun records => records.2.2)]
    exact callTx_writes (TransactionOps.removeObjFromTx_events threadId txId base size) tool
  | addThreadToTx threadId txId =>
    rw [if_neg (fun records => records.2.2)]
    exact callTx_writes (TransactionOps.removeObjFromTx_events threadId txId 0 0) tool
  | removeThreadFromTx threadId txId =>
    rw [if_neg (fun records => records.2.2)]
    exact callTx_writes (TransactionOps.removeObjFromTx_events threadId txId 0 0) tool
  | addToGlobalTxIgnore base size =>
    rw [if_neg (fun records => records.2.2)]
    exact ⟨rfl, id, fun fit => ⟨fit.1, fit.2, fit.3⟩⟩
  | enterBlock =>
    rw [if_neg (fun records => records.2.2)]
    exact ⟨rfl, fun fit => ⟨fit.1, fit.2, fit.3⟩, id⟩
  | removeMapping base size =>
    rw [if_neg (fun records => records.2.2)]
    exact (PmemOps.removeMapping_registers base size tool.pmem).writes id
  | checkIsPmemMapping base size =>
    rw [if_neg (fun records => records.2.2)]
    exact (RegistersKept.refl tool.pmem).writes id
  | writeStats =>
    rw [if_neg (fun records => records.2.2)]
    exact (PmemOps.printPmemStats_registers _ tool.pmem).writes id
  | setClean base size =>
    rw [if_neg (fun records => records.2.2)]
    exact (PmemOps.setClean_registers base size tool.pmem).writes id

/-- Each request of the client writes one redundant fence or none, and `RecordsFence` says
which.

Proof: the requests are taken one by one. All but the mark of a fence and the end of a
transaction go through `step_writes` or `callTx_writes` and write none; the two that are left
unfold to the same write of the register, with the condition under which the source makes it. -/
theorem serve_writes (tool : Tool) (request : ClientRequest) :
    Writes tool (tool.serve request) (if RecordsFence tool request then 1 else 0) := by
  simp only [serve]
  split
  · next gone =>
    rw [if_neg (fun records => by simp [records.1] at gone)]
    exact ⟨rfl, id, id⟩
  · next alive => exact respond_writes tool (by simpa using alive) request

end Tool

section

variable (opts : Options) (transactionsOnly redundantLogging : Bool) (cacheLineSize : Nat)
  (slots : Nat → PmemSt)

/-- In every run, all writes into the seven registers stay below their capacities, up to every
point, exactly if at most `MAX_REDUNDANT_FENCE` fence marks of the run are recorded, over all
its epochs.

Proof: six of the registers are guarded, and each request keeps them below their bounds. The
seventh grows by one for each request that records a fence and is never emptied, so that its
length is the number of such requests. It fits up to every point if and only if it fits at the
end. -/
theorem registers_fit_iff (requests : List ClientRequest) :
    Runs.Throughout Tool.serve RegistersFit
        (initTool opts transactionsOnly redundantLogging cacheLineSize slots) requests ↔
      Runs.countSteps Tool.serve RecordsFence
        (initTool opts transactionsOnly redundantLogging cacheLineSize slots) requests ≤
          maxRedundantFence := by
  have counted (made : List ClientRequest) := Runs.measure_eq_countSteps
    (fun tool : Tool => tool.pmem.redundantFence.length)
    (fun tool request => (Tool.serve_writes tool request).redundantFence)
    (initTool opts transactionsOnly redundantLogging cacheLineSize slots) made
  have guarded (made : List ClientRequest) : EventsFit (made.foldl Tool.serve
        (initTool opts transactionsOnly redundantLogging cacheLineSize slots)).pmem ∧
      TxEventsFit (made.foldl Tool.serve
        (initTool opts transactionsOnly redundantLogging cacheLineSize slots)).trans := by
    apply List.foldlRecOn (motive := fun tool : Tool =>
      EventsFit tool.pmem ∧ TxEventsFit tool.trans)
    · exact ⟨⟨Nat.zero_le _, Nat.zero_le _, Nat.zero_le _⟩,
        ⟨Nat.zero_le _, Nat.zero_le _, Nat.zero_le _⟩⟩
    · intro tool fit request _
      have written := Tool.serve_writes tool request
      exact ⟨written.events fit.1, written.txEvents fit.2⟩
  have empty : (initTool opts transactionsOnly redundantLogging cacheLineSize
      slots).pmem.redundantFence.length = 0 := rfl
  constructor
  · intro fits
    have last := (fits requests (List.prefix_refl _)).redundantFence
    rw [counted requests, empty] at last
    omega
  · rintro few made ⟨later, rfl⟩
    rw [Runs.countSteps_append] at few
    refine ⟨(guarded made).1, (guarded made).2, ?_⟩
    rw [counted made, empty]
    omega

end

/-- An epoch with two fence marks, of which the second is recorded. Repeated often enough, it
fills the register of redundant fences. -/
def twoMarkEpoch : List ClientRequest :=
  [.access .epochBegin, .access (.fenceMark none), .access (.fenceMark none),
    .access (.epochEnd 0)]

/-- A tool between two epochs, outside transactions. In this state it can take a whole epoch
and be between epochs again. -/
structure BetweenEpochs (tool : Tool) : Prop where
  alive : tool.exited = false
  durability : tool.pmem.opts.epochDurabilityFence = true
  epochFence : tool.pmem.epochFence = 0
  notNested : tool.trans.isNestTrans 0 = false

/-- The two marks reach the tool inside the epoch. -/
theorem twoMarkEpoch_run {tool : Tool} (between : BetweenEpochs tool) :
    twoMarkEpoch.foldl Tool.serve tool = { tool with
      pmem := (PmemOps.epochEnd false { tool.pmem with
        epoch := true
        epochFence := 2
        redundantFence := tool.pmem.redundantFence ++ [none] }).2 } := by
  have alive := between.alive
  simp only [Tool.exited] at alive
  simp [twoMarkEpoch, Tool.serve, Tool.respond, Tool.handleClientRequest, Tool.step,
    Tool.exited, alive,
    between.durability, between.epochFence, between.notNested, PmemOps.epochBegin,
    PmemOps.markEpochFence, maxRedundantFence, Tool.epochEnd]

/-- The end of an open epoch starts the count of fences over. -/
theorem epochEnd_restarts (nested : Bool) (pmem : PmemOps) (opened : pmem.epoch = true) :
    (pmem.epochEnd nested).2.epochFence = 0 ∧ (pmem.epochEnd nested).2.opts = pmem.opts ∧
      (pmem.epochEnd nested).2.exited = pmem.exited := by
  have kept (indices : List Nat) (state : PmemOps) :
      (indices.foldl PmemOps.unmarkSlot state).exited = state.exited := by
    induction indices generalizing state with
    | nil => rfl
    | cons index rest inductionHypothesis =>
      rw [List.foldl_cons, inductionHypothesis, PmemOps.unmarkSlot]
      split <;> rfl
  simp only [PmemOps.epochEnd, opened, if_true]
  refine ⟨?_, ?_, ?_⟩
  · rw [(PmemOps.unmarkSlots_registers _ _).epochFence]
  · rw [(PmemOps.unmarkSlots_registers _ _).opts]
  · rw [kept]

/-- The epoch leaves the tool between epochs and the register one event longer. -/
theorem twoMarkEpoch_writes {tool : Tool} (between : BetweenEpochs tool) :
    BetweenEpochs (twoMarkEpoch.foldl Tool.serve tool) ∧
      (twoMarkEpoch.foldl Tool.serve tool).pmem.redundantFence.length =
        tool.pmem.redundantFence.length + 1 := by
  rw [twoMarkEpoch_run between]
  obtain ⟨restarted, sameOpts, sameExited⟩ := epochEnd_restarts false { tool.pmem with
    epoch := true
    epochFence := 2
    redundantFence := tool.pmem.redundantFence ++ [none] } rfl
  constructor
  · exact {
      alive := (congrArg (· || tool.trans.exited) sameExited).trans between.alive
      durability := (congrArg Options.epochDurabilityFence sameOpts).trans between.durability
      epochFence := restarted
      notNested := between.notNested }
  · rw [(PmemOps.epochEnd_events false _).1]
    simp

/-- Epoch after epoch the register grows by one. -/
theorem twoMarkEpochs_write (number : Nat) {tool : Tool} (between : BetweenEpochs tool) :
    ((List.replicate number twoMarkEpoch).flatten.foldl Tool.serve
      tool).pmem.redundantFence.length = tool.pmem.redundantFence.length + number := by
  induction number generalizing tool with
  | zero => rfl
  | succ number inductionHypothesis =>
    obtain ⟨again, longer⟩ := twoMarkEpoch_writes between
    rw [List.replicate_succ, List.flatten_cons, List.foldl_append,
      inductionHypothesis again, longer]
    omega

/-- With 10001 epochs of two fence marks each, the register of 10000 fences overflows. -/
theorem registers_fit_fails : ¬ Runs.Throughout Tool.serve RegistersFit
    (initTool { defaultOptions (fun _ => false) with epochDurabilityFence := true }
      false false 64 (fun _ => PmemSt.zero))
    (List.replicate 10001 twoMarkEpoch).flatten := by
  intro fits
  have between : BetweenEpochs (initTool
      { defaultOptions (fun _ => false) with epochDurabilityFence := true }
      false false 64 (fun _ => PmemSt.zero)) := ⟨rfl, rfl, rfl, rfl⟩
  have written := twoMarkEpochs_write 10001 between
  have bound := (fits _ (List.prefix_refl _)).redundantFence
  rw [written] at bound
  have tooMany : ¬ 0 + 10001 ≤ maxRedundantFence := by decide
  exact tooMany bound

end PmDebugger
