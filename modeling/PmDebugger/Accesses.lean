import PmDebugger.Overwrites

/-!
# What the accesses of a client leave alone

Stores, flushes and fences do not change the options, the registered memory or the size
of a cache line, whatever the options are and however full the array is. Two runs on the
same requests therefore take the same stores for accesses to persistent memory and flush
the same ranges.
-/

namespace PmDebugger

open OrderedSet OrderedSet.OSet PmemOps

/-- The part of the state that decides what is an access and what a flush covers. -/
structure SameAccess (before after : PmemOps) : Prop where
  opts : after.opts = before.opts
  pmemMappings : after.pmemMappings = before.pmemMappings
  minAddPmemMappings : after.minAddPmemMappings = before.minAddPmemMappings
  maxAddPmemMappings : after.maxAddPmemMappings = before.maxAddPmemMappings
  flushAlignSize : after.flushAlignSize = before.flushAlignSize

namespace SameAccess

variable {before middle after : PmemOps}

/-- What decides about accesses stays. -/
theorem refl (pmem : PmemOps) : SameAccess pmem pmem := ⟨rfl, rfl, rfl, rfl, rfl⟩

/-- It stays over two steps if it stays over each. -/
theorem trans (first : SameAccess before middle) (second : SameAccess middle after) :
    SameAccess before after where
  opts := second.opts.trans first.opts
  pmemMappings := second.pmemMappings.trans first.pmemMappings
  minAddPmemMappings := second.minAddPmemMappings.trans first.minAddPmemMappings
  maxAddPmemMappings := second.maxAddPmemMappings.trans first.maxAddPmemMappings
  flushAlignSize := second.flushAlignSize.trans first.flushAlignSize

/-- A loop whose turns leave it alone leaves it alone. -/
theorem foldl {ι : Type} {step : PmemOps → ι → PmemOps} (inputs : List ι) (pmem : PmemOps)
    (turn : ∀ state input, SameAccess state (step state input)) :
    SameAccess pmem (inputs.foldl step pmem) := by
  induction inputs generalizing pmem with
  | nil => exact refl pmem
  | cons input rest inductionHypothesis => exact (turn pmem input).trans (inductionHypothesis _)

end SameAccess

/-! ## Flushes -/

/-- What the loops of a flush over the array may change. The mappings and their bounds are not
among it, nor are the options. -/
def ArrayChanged (before after : PmemOps) : Prop :=
  after = { before with
    pmemStores := after.pmemStores
    slots := after.slots
    snippetInfo := after.snippetInfo
    redundantFlushes := after.redundantFlushes
    dbPmemStoreIndex := after.dbPmemStoreIndex
    exited := after.exited }

/-- Two changes of the array are one. -/
theorem ArrayChanged.trans {before middle after : PmemOps} (first : ArrayChanged before middle)
    (second : ArrayChanged middle after) : ArrayChanged before after := by
  unfold ArrayChanged at *
  rw [second, first]

/-- A slot is set and a remainder is appended, which changes the array, or the tree when there
is no room. -/
theorem appendSplit_changed (pmem : PmemOps) (index : Nat) (kept piece : PmemSt) :
    ArrayChanged pmem ((pmem.setSlot index kept).appendSplit piece) := by
  unfold ArrayChanged appendSplit
  simp only
  split
  · rfl
  · rw [insertStore_frame]
    rfl

/-- The flush of one slot changes the array. -/
theorem flushSlot_changed (flush : PmemSt) (sIndex index : Nat) (pmem : PmemOps) (valid : Bool) :
    ArrayChanged pmem (pmem.flushSlot flush sIndex index valid).1 := by
  simp only [flushSlot]
  split
  · rfl
  · split
    · rfl
    · split
      · unfold ArrayChanged
        rw [warnRedundantFlush_frame]
      · have marked : ArrayChanged pmem (pmem.markSlot sIndex index) := rfl
        have front (state : PmemOps) : ArrayChanged state (state.splitFront flush index) := by
          simp only [splitFront]
          split
          · exact appendSplit_changed _ _ _ _
          · rfl
        have back (state : PmemOps) : ArrayChanged state (state.splitBack flush index) := by
          simp only [splitBack]
          split
          · exact appendSplit_changed _ _ _ _
          · rfl
        exact (marked.trans (front _)).trans (back _)

/-- The inner loop of the flush, by induction on its fuel. -/
theorem flushSlots_changed (flush : PmemSt) (sIndex fuel index : Nat) (pmem : PmemOps)
    (valid : Bool) : ArrayChanged pmem (flushSlots flush sIndex fuel index pmem valid).1 := by
  induction fuel generalizing index pmem valid with
  | zero => rfl
  | succ fuel inductionHypothesis =>
    simp only [flushSlots]
    split
    · exact (flushSlot_changed flush sIndex index pmem valid).trans (inductionHypothesis _ _ _)
    · rfl

/-- The outer loop of the flush. -/
theorem flushArray_changed (flush : PmemSt) (pmem : PmemOps) :
    ArrayChanged pmem (pmem.flushArray flush).1 := by
  refine List.foldlRecOn (motive := fun state : PmemOps × Bool => ArrayChanged pmem state.1) _ _
    rfl (fun state same sIndex _ => same.trans ?_)
  simp only [flushSnippet]
  split
  · rfl
  · split
    · rfl
    · exact flushSlots_changed _ _ _ _ _ _

/-- No flush of the array decides about accesses. -/
theorem flushArray_access (flush : PmemSt) (pmem : PmemOps) :
    SameAccess pmem (pmem.flushArray flush).1 := by
  rw [flushArray_changed]
  exact ⟨rfl, rfl, rfl, rfl, rfl⟩

/-- The walk of the flush over the tree leaves the array. -/
theorem flushStores_sameArray (flush : PmemSt) (pmem : PmemOps) (valid : Bool) :
    (pmem.flushStores flush valid).1.opts = pmem.opts ∧
      SameArray pmem (pmem.flushStores flush valid).1 := by
  simp only [flushStores]
  split
  · exact ⟨rfl, rfl, rfl, rfl⟩
  · rw [flushTree_unchanged]
    exact ⟨rfl, rfl, rfl, rfl⟩

/-- The walk of the flush over the tree does not decide about accesses. -/
theorem flushStores_access (flush : PmemSt) (pmem : PmemOps) (valid : Bool) :
    SameAccess pmem (pmem.flushStores flush valid).1 := by
  simp only [flushStores]
  split
  · exact SameAccess.refl pmem
  · rw [flushTree_unchanged]
    exact ⟨rfl, rfl, rfl, rfl, rfl⟩

/-- A flush leaves it alone. -/
theorem doFlush_access (base size : Nat) (context : Option ExeContext) (strandId : Nat)
    (pmem : PmemOps) : SameAccess pmem (pmem.doFlush base size context strandId) := by
  simp only [doFlush]
  generalize flushInfo pmem.opts pmem.flushAlignSize base size = flush
  have checked : SameAccess pmem (pmem.checkStrandOrder flush strandId) := by
    rw [checkStrandOrder_frame]
    exact ⟨rfl, rfl, rfl, rfl, rfl⟩
  have flushed := (checked.trans (flushArray_access flush _)).trans
    (flushStores_access flush _ (flushArray flush (pmem.checkStrandOrder flush strandId)).2)
  apply flushed.trans
  rw [closeSnippet_frame, warnSuperfluousFlush_frame]
  exact ⟨rfl, rfl, rfl, rfl, rfl⟩

/-! ## Fences and stores -/

/-- A fence leaves it alone. -/
theorem doFence_access (pmem : PmemOps) : SameAccess pmem pmem.doFence := by
  have timed : SameAccess pmem { pmem.fenceTimes with
      minAddPmemStore := Word64.minusOne
      maxAddPmemStore := Word64.minusOne
      pmemStores := pmem.fenceTimes.pmemStores.resetIter } := by
    rw [fenceTimes_frame]
    exact ⟨rfl, rfl, rfl, rfl, rfl⟩
  have walked (fuel : Nat) (state : PmemOps) : SameAccess state (fenceTree fuel state) := by
    rw [fenceTree_frame]
    exact ⟨rfl, rfl, rfl, rfl, rfl⟩
  have moved (state : PmemOps) (sIndex : Nat) : SameAccess state (state.fenceSnippet sIndex) := by
    simp only [fenceSnippet]
    split
    · exact SameAccess.refl state
    · apply SameAccess.foldl
      intro state slot
      rw [fenceSlot_frame]
      exact ⟨rfl, rfl, rfl, rfl, rfl⟩
  have finished (state : PmemOps) (same : SameAccess pmem state) : SameAccess pmem
      (if state.clearArray.opts.orderGuarantee then { state.clearArray with
        globalTimeStamp := Word64.add state.clearArray.globalTimeStamp 1 }
      else state.clearArray) := by
    split
    · exact same.trans ⟨rfl, rfl, rfl, rfl, rfl⟩
    · exact same.trans ⟨rfl, rfl, rfl, rfl, rfl⟩
  apply finished
  exact (timed.trans (walked (pmem.fenceTimes.pmemStores.size + 1) _)).trans
    (SameAccess.foldl _ _ moved)

/-- The check for overwritten stores does not decide about accesses. -/
theorem handleWithMultStores_access (store : PmemSt) (pmem : PmemOps) :
    SameAccess pmem (pmem.handleWithMultStores store) := by
  have turn (state : PmemOps) (sIndex : Nat) :
      SameAccess state (state.overwriteSnippet store sIndex) := by
    simp only [overwriteSnippet]
    split
    · exact SameAccess.refl state
    · apply SameAccess.foldl
      intro state slot
      rw [(overwriteSlot_frame store state slot).1]
      exact ⟨rfl, rfl, rfl, rfl, rfl⟩
  have array := SameAccess.foldl (List.range (pmem.snippetInfoIndex + 1)) pmem turn
  simp only [handleWithMultStores]
  split
  · exact array
  · apply array.trans
    rw [overwriteTree_frame]
    exact ⟨rfl, rfl, rfl, rfl, rfl⟩

/-- With or without `--mult-stores`, the check of a store does not decide about accesses. -/
theorem checkStore_access (store : PmemSt) (pmem : PmemOps) :
    SameAccess pmem (pmem.checkStore store) := by
  simp only [checkStore]
  have overwritten : SameAccess pmem
      (if pmem.opts.trackMultipleStores then pmem.handleWithMultStores store else pmem) := by
    split
    · exact handleWithMultStores_access store pmem
    · exact SameAccess.refl pmem
  split
  · exact overwritten.trans ⟨rfl, rfl, rfl, rfl, rfl⟩
  · exact overwritten

/-- A store leaves it alone. -/
theorem trackStore_access (addr size value : Nat) (context : Option ExeContext) (pmem : PmemOps) :
    SameAccess pmem (pmem.trackStore addr size value context).1 := by
  simp only [trackStore]
  split
  · have written (store : PmemSt) : SameAccess pmem (pmem.setSlot pmem.current.index store) :=
      ⟨rfl, rfl, rfl, rfl, rfl⟩
    apply ((written _).trans (checkStore_access _ _)).trans
    exact ⟨rfl, rfl, rfl, rfl, rfl⟩
  · have counted : SameAccess pmem { pmem with dbPmemStoreIndex := pmem.dbPmemStoreIndex + 1 } :=
      ⟨rfl, rfl, rfl, rfl, rfl⟩
    apply (counted.trans (checkStore_access _ _)).trans
    simp only [updateOsetPmemStoresMinandmax]
    rw [insertStore_frame]
    exact ⟨rfl, rfl, rfl, rfl, rfl⟩

end PmDebugger
