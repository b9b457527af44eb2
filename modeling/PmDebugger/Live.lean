import PmDebugger.Tool
import PmDebugger.TreeFlush

/-!
# Live records

A record of the array counts as flushed when its own state says so or when its snippet
is tagged as a whole. The live records are those of the array that are not deleted,
with the state that they have in effect, and those of the tree. The operations of the
tracker are described by what they do to this collection, which is what the byte-level
meaning is about; snippets, slots and indices are left behind here.

The invariant of the tracker is stated for the default options: no reorganisation of
the tree and no search for multiple stores.
-/

namespace PmDebugger

open OrderedSet OrderedSet.OSet PmemOps

namespace PmemOps

/-- The record of a slot with its state in effect, unless it is deleted. A list of one or none. -/
def slotLive (tag : FlushedState) (store : PmemSt) : List PmemSt :=
  if store.isDelete then [] else [settle tag store]

/-- The live records of a snippet, from its first slot on. -/
def snippetLive (pmem : PmemOps) (sIndex : Nat) : List PmemSt :=
  (slotRange (pmem.snippetInfo sIndex)).flatMap (fun slot =>
    slotLive (pmem.snippetInfo sIndex).flushedNum (pmem.slots slot))

/-- The live records of the array, snippet by snippet. -/
def liveSlots (pmem : PmemOps) : List PmemSt :=
  (List.range (pmem.snippetInfoIndex + 1)).flatMap (snippetLive pmem)

/-- All live records: those of the array and those of the tree. The reports are about these,
and the reference is compared with them. -/
def live (pmem : PmemOps) : List PmemSt := pmem.liveSlots ++ pmem.pmemStores.toList

end PmemOps

/-- The slots of a snippet as a list. -/
theorem mem_slotRange {pmem : PmemOps} {sIndex slot : Nat} :
    slot ∈ slotRange (pmem.snippetInfo sIndex) ↔ InSnippet pmem sIndex slot := by
  simp only [slotRange, List.mem_range'_1, InSnippet]
  omega

/-- A record is live if it stands in a slot that is in use and not deleted, with the state that
the tag of its snippet gives it, or if it is in the tree. -/
theorem mem_live {pmem : PmemOps} {store : PmemSt} : store ∈ pmem.live ↔
    (∃ sIndex ≤ pmem.snippetInfoIndex, ∃ slot, InSnippet pmem sIndex slot ∧
      (pmem.slots slot).isDelete = false ∧
      store = settle (pmem.snippetInfo sIndex).flushedNum (pmem.slots slot)) ∨
    store ∈ pmem.pmemStores.toList := by
  simp only [live, liveSlots, snippetLive, List.mem_append, List.mem_flatMap, List.mem_range,
    mem_slotRange, Nat.lt_succ_iff]
  refine or_congr ?_ Iff.rfl
  constructor
  · rintro ⟨sIndex, used, slot, inside, isStore⟩
    unfold slotLive at isStore
    split at isStore
    · simp at isStore
    · next kept =>
      exact ⟨sIndex, used, slot, inside, by simpa using kept, List.mem_singleton.mp isStore⟩
  · rintro ⟨sIndex, used, slot, inside, kept, rfl⟩
    refine ⟨sIndex, used, slot, inside, ?_⟩
    rw [slotLive, if_neg (by simp [kept])]
    exact List.mem_singleton.mpr rfl

/-- Settling a record changes its state only. -/
@[simp] theorem settle_covers (tag : FlushedState) (store : PmemSt) (byte : Nat) :
    (settle tag store).Covers byte ↔ store.Covers byte := by
  unfold settle
  split <;> exact Iff.rfl

/-- A tag does not take the mark of an epoch. -/
@[simp] theorem settle_inEpoch (tag : FlushedState) (store : PmemSt) :
    (settle tag store).inEpoch = store.inEpoch := by
  unfold settle
  split <;> rfl

/-- A tag does not change the range. -/
theorem settle_proper (tag : FlushedState) (store : PmemSt) :
    (settle tag store).Proper ↔ store.Proper := by
  rw [proper_iff, proper_iff]
  unfold settle
  split <;> exact Iff.rfl

/-- The state in effect does not move the record. -/
theorem settle_cmp (flush : PmemSt) (tag : FlushedState) (store : PmemSt) :
    cmpPmemSt flush (settle tag store) = cmpPmemSt flush store := by
  unfold settle
  split <;> rfl

/-- A record is flushed in effect if its state or the tag of its snippet says so. -/
theorem settle_flushed_iff (tag : FlushedState) (store : PmemSt) :
    (settle tag store).state = .flushed ↔ store.state = .flushed ∨ tag = .allFlushed := by
  unfold settle
  split <;> simp_all

/-- Only the tag of a snippet that is flushed as a whole changes a state. -/
theorem settle_of_ne {tag : FlushedState} (notAll : tag ≠ .allFlushed) (store : PmemSt) :
    settle tag store = store := if_neg notAll

/-- A record of a pending store. It is proper and not deleted, and it is dirty or flushed. -/
structure Pending (store : PmemSt) : Prop where
  proper : store.Proper
  undeleted : store.isDelete = false
  written : store.state ≠ .clean

/-- The tracker between two requests, with the default tracking options. The current
snippet is the only one from which nothing was flushed. -/
structure WellFormed (pmem : PmemOps) : Prop where
  plain : pmem.opts.treeReorganization = false
  single : pmem.opts.trackMultipleStores = false
  layout : Layout pmem
  opened : pmem.current.flushedNum = .noFlushed
  closed : ∀ sIndex < pmem.snippetInfoIndex, (pmem.snippetInfo sIndex).flushedNum ≠ .noFlushed
  slots : ∀ sIndex ≤ pmem.snippetInfoIndex, ∀ slot, InSnippet pmem sIndex slot →
    Pending (pmem.slots slot)
  indexed : Indexed pmem
  stores : ∀ store ∈ pmem.pmemStores.toList, Pending store
  bounded : Bounded pmem
  unflushed : ∀ slot, InSnippet pmem pmem.snippetInfoIndex slot → (pmem.slots slot).state ≠ .flushed

/-- The current snippet is not tagged. -/
theorem WellFormed.current_tag {pmem : PmemOps} (well : WellFormed pmem) :
    (pmem.snippetInfo pmem.snippetInfoIndex).flushedNum = .noFlushed := well.opened

/-- A pending record is pending under any tag. -/
theorem settle_pending (tag : FlushedState) {store : PmemSt} (pending : Pending store) :
    Pending (settle tag store) := by
  refine ⟨(settle_proper tag store).mpr pending.proper, ?_, ?_⟩
  · unfold settle
    split <;> exact pending.undeleted
  · unfold settle
    split
    · simp
    · exact pending.written

/-- Every live record of a well-formed tracker is a pending store. -/
theorem WellFormed.live_pending {pmem : PmemOps} (well : WellFormed pmem) {store : PmemSt}
    (member : store ∈ pmem.live) : Pending store := by
  rcases mem_live.mp member with ⟨sIndex, used, slot, inside, _, rfl⟩ | inTree
  · exact settle_pending _ (well.slots sIndex used slot inside)
  · exact well.stores store inTree

/-- Two states that track the same stores under the same options. Only array and tree count. -/
structure SameTracking (before after : PmemOps) : Prop where
  opts : after.opts = before.opts
  pmemStores : after.pmemStores = before.pmemStores
  minAddPmemStore : after.minAddPmemStore = before.minAddPmemStore
  maxAddPmemStore : after.maxAddPmemStore = before.maxAddPmemStore
  slots : after.slots = before.slots
  snippetInfoIndex : after.snippetInfoIndex = before.snippetInfoIndex
  snippetInfo : after.snippetInfo = before.snippetInfo
  dbPmemStoreIndex : after.dbPmemStoreIndex = before.dbPmemStoreIndex

/-- The invariant reads nothing else. -/
theorem WellFormed.of_same {before after : PmemOps} (well : WellFormed before)
    (same : SameTracking before after) : WellFormed after := by
  obtain ⟨opts, stores, minAdd, maxAdd, slots, used, snippets, dbIndex⟩ := same
  cases after
  simp only at opts stores minAdd maxAdd slots used snippets dbIndex
  subst opts stores minAdd maxAdd slots used snippets dbIndex
  exact ⟨well.plain, well.single, ⟨well.layout.first, well.layout.chained, well.layout.ordered⟩,
    well.opened, well.closed, well.slots, ⟨well.indexed.keyed, well.indexed.fresh⟩, well.stores,
    well.bounded, well.unflushed⟩

/-- The live records are read off array and tree. -/
theorem SameTracking.live_eq {before after : PmemOps} (same : SameTracking before after) :
    after.live = before.live := by
  unfold live liveSlots snippetLive
  rw [same.slots, same.snippetInfo, same.snippetInfoIndex, same.pmemStores]

/-- A fresh tracker is well formed and has no live record. -/
theorem initPmem_wellFormed {opts : Options} (cacheLineSize : Nat) (slots : Nat → PmemSt)
    (plain : opts.treeReorganization = false) (single : opts.trackMultipleStores = false) :
    WellFormed (initPmem opts cacheLineSize slots) := by
  refine ⟨plain, single, ⟨rfl, ?_, ?_⟩, rfl, ?_, ?_, ⟨List.Pairwise.nil, ?_⟩, ?_, ?_, ?_⟩
  · intro sIndex used
    simp [initPmem] at used
  · intro sIndex _
    exact Nat.le_refl _
  · intro sIndex used
    simp [initPmem] at used
  · intro sIndex _ slot inside
    exact absurd inside.2 (Nat.not_lt.mpr (Nat.zero_le _))
  · simp [initPmem]
  · simp [initPmem]
  · simp [initPmem, Bounded]
  · intro slot inside
    exact absurd inside.2 (Nat.not_lt.mpr (Nat.zero_le _))

/-- A new tracker has no live record. -/
theorem initPmem_live (opts : Options) (cacheLineSize : Nat) (slots : Nat → PmemSt) :
    (initPmem opts cacheLineSize slots).live = [] := rfl

/-- The effect of a store on the tracker: the next slot holds it, the current snippet is longer
by one, and its box is wider. -/
structure Stored (store : PmemSt) (before after : PmemOps) : Prop where
  frame : after = { before with
    slots := after.slots
    snippetInfo := after.snippetInfo
    pmemTimeRecords := after.pmemTimeRecords }
  slots : ∀ tested, after.slots tested =
    if tested = before.current.index then store else before.slots tested
  snippets : ∀ tested, after.snippetInfo tested =
    if tested = before.snippetInfoIndex then { before.current with
      index := before.current.index + 1
      minAdd := (widen store before.current.minAdd before.current.maxAdd).1
      maxAdd := (widen store before.current.minAdd before.current.maxAdd).2 }
    else before.snippetInfo tested
  times : after.pmemTimeRecords = if before.opts.orderGuarantee
    then before.pmemTimeRecords.map (fun record => restartTime store before record)
    else before.pmemTimeRecords

/-- While the array has room, a store is written to the next slot of the current
snippet. -/
theorem trackStore_exact (addr size value : Nat) (context : Option ExeContext) {pmem : PmemOps}
    (single : pmem.opts.trackMultipleStores = false)
    (room : pmem.current.index < pmem.opts.maxArrayNum) :
    Stored (pmem.writeStore addr size value context (pmem.slots pmem.current.index)) pmem
        (pmem.trackStore addr size value context).1 ∧
      (pmem.trackStore addr size value context).2 =
        pmem.writeStore addr size value context (pmem.slots pmem.current.index) := by
  have tracked : pmem.trackStore addr size value context =
      let store := pmem.writeStore addr size value context (pmem.slots pmem.current.index)
      let checked := (pmem.setSlot pmem.current.index store).checkStore store
      ((checked.setSnippet checked.snippetInfoIndex
        { checked.current with index := checked.current.index + 1 }).updatePmemStoresHeadMinandmax
          store, store) := if_pos room
  rw [tracked]
  generalize pmem.writeStore addr size value context (pmem.slots pmem.current.index) = store
  refine ⟨?_, rfl⟩
  have checked : (pmem.setSlot pmem.current.index store).checkStore store =
      { pmem.setSlot pmem.current.index store with
        pmemTimeRecords := if pmem.opts.orderGuarantee
          then pmem.pmemTimeRecords.map (fun record => restartTime store pmem record)
          else pmem.pmemTimeRecords } := by
    unfold checkStore
    simp only [show (pmem.setSlot pmem.current.index store).opts = pmem.opts from rfl, single]
    split <;> rfl
  simp only [checked]
  refine ⟨rfl, fun tested => rfl, fun tested => ?_, rfl⟩
  simp only [updatePmemStoresHeadMinandmax, setSnippet, current, setSlot]
  by_cases same : tested = pmem.snippetInfoIndex <;> simp [same]

namespace Stored

variable {store : PmemSt} {before after : PmemOps}

/-- The current snippet is one slot longer, and its box is widened by the store. -/
theorem current_eq (stored : Stored store before after) : after.current = { before.current with
    index := before.current.index + 1
    minAdd := (widen store before.current.minAdd before.current.maxAdd).1
    maxAdd := (widen store before.current.minAdd before.current.maxAdd).2 } := by
  have same : after.snippetInfoIndex = before.snippetInfoIndex := by rw [stored.frame]
  rw [current, same, stored.snippets, if_pos rfl]

/-- A snippet holds the slots that it held, and the current one holds the new slot. -/
theorem inSnippet_iff (stored : Stored store before after) (layout : Layout before)
    {sIndex slot : Nat} : InSnippet after sIndex slot ↔ InSnippet before sIndex slot ∨
      sIndex = before.snippetInfoIndex ∧ slot = before.current.index := by
  have ordered := layout.ordered before.snippetInfoIndex (Nat.le_refl _)
  unfold InSnippet
  rw [stored.snippets sIndex]
  split
  · next same =>
    subst same
    unfold current at *
    simp only [true_and]
    omega
  · next differs =>
    simp [differs]

/-- The slots in use keep their records. -/
theorem held (stored : Stored store before after) (layout : Layout before) {sIndex slot : Nat}
    (used : sIndex ≤ before.snippetInfoIndex) (inside : InSnippet before sIndex slot) :
    after.slots slot = before.slots slot := by
  have := layout.bounded used
  have := inside.2
  rw [stored.slots slot, if_neg (by omega)]

/-- A new slot keeps the tracker well-formed. -/
theorem wellFormed (stored : Stored store before after) (well : WellFormed before)
    (pending : Pending store) (dirty : store.state ≠ .flushed) : WellFormed after := by
  have opts : after.opts = before.opts := by rw [stored.frame]
  have same : after.snippetInfoIndex = before.snippetInfoIndex := by rw [stored.frame]
  have stores : after.pmemStores = before.pmemStores := by rw [stored.frame]
  have other (sIndex : Nat) (differs : sIndex ≠ before.snippetInfoIndex) :
      after.snippetInfo sIndex = before.snippetInfo sIndex := by
    rw [stored.snippets, if_neg differs]
  have start (sIndex : Nat) :
      (after.snippetInfo sIndex).startIndex = (before.snippetInfo sIndex).startIndex := by
    by_cases here : sIndex = before.snippetInfoIndex
    · rw [stored.snippets, if_pos here, here]
      rfl
    · rw [other sIndex here]
  refine ⟨opts ▸ well.plain, opts ▸ well.single, ⟨?_, ?_, ?_⟩, ?_, ?_, ?_, ⟨?_, ?_⟩, ?_, ?_, ?_⟩
  · rw [start]
    exact well.layout.first
  · intro sIndex below
    rw [same] at below
    rw [start, other sIndex (by omega)]
    exact well.layout.chained sIndex below
  · intro sIndex used
    rw [same] at used
    have ordered := well.layout.ordered sIndex used
    by_cases here : sIndex = before.snippetInfoIndex
    · rw [stored.snippets, if_pos here]
      rw [here] at ordered
      exact Nat.le_succ_of_le ordered
    · rw [other sIndex here]
      exact ordered
  · rw [stored.current_eq]
    exact well.opened
  · intro sIndex below
    rw [same] at below
    rw [other sIndex (by omega)]
    exact well.closed sIndex below
  · intro sIndex used slot inside
    rw [same] at used
    rcases (stored.inSnippet_iff well.layout).mp inside with old | ⟨_, rfl⟩
    · rw [stored.held well.layout used old]
      exact well.slots sIndex used slot old
    · rw [stored.slots, if_pos rfl]
      exact pending
  · rw [stores]
    exact well.indexed.keyed
  · rw [stores, stored.frame]
    exact well.indexed.fresh
  · rw [stores]
    exact well.stores
  · rw [stored.frame]
    exact well.bounded
  · intro slot inside
    rw [same] at inside
    rcases (stored.inSnippet_iff well.layout).mp inside with old | ⟨_, rfl⟩
    · rw [stored.held well.layout (Nat.le_refl _) old]
      exact well.unflushed slot old
    · rw [stored.slots, if_pos rfl]
      exact dirty

/-- A store tags no snippet. -/
theorem tags (stored : Stored store before after) (sIndex : Nat) :
    (after.snippetInfo sIndex).flushedNum = (before.snippetInfo sIndex).flushedNum := by
  rw [stored.snippets]
  split
  · next here =>
    rw [here]
    rfl
  · rfl

/-- A store adds one live record. -/
theorem mem_live_iff (stored : Stored store before after) (well : WellFormed before)
    (pending : Pending store) {tested : PmemSt} :
    tested ∈ after.live ↔ tested = store ∨ tested ∈ before.live := by
  have same : after.snippetInfoIndex = before.snippetInfoIndex := by rw [stored.frame]
  have stores : after.pmemStores = before.pmemStores := by rw [stored.frame]
  have new : settle (before.snippetInfo before.snippetInfoIndex).flushedNum store = store :=
    settle_of_ne (by rw [well.current_tag]; simp) store
  rw [PmDebugger.mem_live, PmDebugger.mem_live, same, stores]
  constructor
  · rintro (⟨sIndex, used, slot, inside, undeleted, rfl⟩ | inTree)
    · rcases (stored.inSnippet_iff well.layout).mp inside with old | ⟨rfl, rfl⟩
      · rw [stored.held well.layout used old] at undeleted ⊢
        rw [stored.tags]
        exact .inr (.inl ⟨sIndex, used, slot, old, undeleted, rfl⟩)
      · rw [stored.slots, if_pos rfl, stored.tags, new]
        exact .inl rfl
    · exact .inr (.inr inTree)
  · rintro (rfl | ⟨sIndex, used, slot, inside, undeleted, rfl⟩ | inTree)
    · refine .inl ⟨before.snippetInfoIndex, Nat.le_refl _, before.current.index,
        (stored.inSnippet_iff well.layout).mpr (.inr ⟨rfl, rfl⟩), ?_, ?_⟩
      · rw [stored.slots, if_pos rfl]
        exact pending.undeleted
      · rw [stored.slots, if_pos rfl, stored.tags, new]
    · refine .inl ⟨sIndex, used, slot, (stored.inSnippet_iff well.layout).mpr (.inl inside), ?_, ?_⟩
      · rw [stored.held well.layout used inside]
        exact undeleted
      · rw [stored.held well.layout used inside, stored.tags]
    · exact .inr inTree

end Stored

end PmDebugger
