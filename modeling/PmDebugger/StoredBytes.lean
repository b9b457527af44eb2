import PmDebugger.OverwriteBytes

/-!
# Stores byte by byte

A store makes its bytes dirty and leaves the others as they are. The record goes to the
next slot of the current snippet or, when the array is full, to the tree, after the checks
of `--mult-stores` took the bytes of the store from the older records.
-/

namespace PmDebugger

open OrderedSet OrderedSet.OSet PmemOps Carving

/-- What a store does to the bytes of the tracker. It dirties its own bytes only, if no mark is
revived. -/
structure StoredBytes (range : PmemSt) (before after : PmemOps) : Prop where
  steady : Steady after
  bytes : ∀ byte, Tracks after.live byte ↔ range.Covers byte ∨ Tracks before.live byte
  dirty : (before.opts.trackMultipleStores = true → KeepsStates range before) → ∀ byte,
    DirtyIn after.live byte ↔ range.Covers byte ∨ DirtyIn before.live byte

section Store

variable {store range : PmemSt} {pmem checked after : PmemOps}

/-- A dirty record is added behind the array. -/
theorem appended_dirty (same : SameTags checked after) (layout : Layout checked)
    (layoutAfter : Layout after) (isOpen : checked.current.flushedNum ≠ .allFlushed)
    (grown : after.current.index = checked.current.index + 1) (slots : after.slots = checked.slots)
    (tree : after.pmemStores = checked.pmemStores)
    (visible : (checked.slots checked.current.index).isDelete = false)
    (dirty : (checked.slots checked.current.index).state = .dirty) (byte : Nat) :
    DirtyIn after.live byte ↔
      (checked.slots checked.current.index).Covers byte ∨ DirtyIn checked.live byte := by
  have added : DirtySlot after checked.current.index := by
    refine ⟨by omega, by rw [slots]; exact visible, by rw [slots]; exact dirty, ?_⟩
    rw [layoutAfter.whollyTagged_iff (Nat.le_refl _)
      (same.added_inSnippet layout (Nat.le_refl _) (by omega)), same.used, same.tags]
    exact isOpen
  have older (slot : Nat) (inUse : slot < checked.current.index) :
      DirtySlot after slot ↔ DirtySlot checked slot := by
    have tagged := same.whollyTagged_iff layout layoutAfter inUse
    constructor
    · rintro ⟨_, undeleted, isDirty, unsettled⟩
      exact ⟨inUse, slots ▸ undeleted, slots ▸ isDirty, tagged.not.mp unsettled⟩
    · rintro ⟨_, undeleted, isDirty, unsettled⟩
      exact ⟨by omega, slots ▸ undeleted, slots ▸ isDirty, tagged.not.mpr unsettled⟩
  rw [layoutAfter.dirtyIn_live, layout.dirtyIn_live, slots, tree]
  constructor
  · rintro (⟨slot, isDirty, inside⟩ | inTree)
    · by_cases isLast : slot = checked.current.index
      · rw [isLast] at inside
        exact .inl inside
      · have inUse := isDirty.inUse
        exact .inr (.inl ⟨slot, (older slot (by omega)).mp isDirty, inside⟩)
    · exact .inr (.inr inTree)
  · rintro (inside | ⟨slot, isDirty, inside⟩ | inTree)
    · exact .inl ⟨_, added, inside⟩
    · exact .inl ⟨slot, (older slot isDirty.inUse).mpr isDirty, inside⟩
    · exact .inr inTree

/-- The current snippet takes the slot in. -/
theorem grow_sameTags (store : PmemSt) (pmem : PmemOps) :
    let grown := pmem.setSnippet pmem.snippetInfoIndex
      { pmem.current with index := pmem.current.index + 1 }
    SameTags pmem (grown.updatePmemStoresHeadMinandmax store) ∧
      (grown.updatePmemStoresHeadMinandmax store).current.index = pmem.current.index + 1 ∧
      ∀ sIndex, ((grown.updatePmemStoresHeadMinandmax store).snippetInfo sIndex).flushedNum =
        (pmem.snippetInfo sIndex).flushedNum := by
  intro grown
  have snippets (sIndex : Nat) : (grown.updatePmemStoresHeadMinandmax store).snippetInfo sIndex =
      if sIndex = pmem.snippetInfoIndex then { pmem.current with
        index := pmem.current.index + 1
        minAdd := (widen store pmem.current.minAdd pmem.current.maxAdd).1
        maxAdd := (widen store pmem.current.minAdd pmem.current.maxAdd).2 }
      else pmem.snippetInfo sIndex := by
    have isCurrent : grown.current = { pmem.current with index := pmem.current.index + 1 } := by
      simp [grown, current, setSnippet]
    simp only [updatePmemStoresHeadMinandmax, setSnippet_snippetInfo, isCurrent]
    split
    · rw [if_pos (show sIndex = pmem.snippetInfoIndex by assumption)]
    · next differs =>
      rw [if_neg (show ¬ sIndex = pmem.snippetInfoIndex from differs)]
      exact if_neg differs
  have used : (grown.updatePmemStoresHeadMinandmax store).snippetInfoIndex =
      pmem.snippetInfoIndex :=
    rfl
  have sameEnd : (grown.updatePmemStoresHeadMinandmax store).current.index =
      pmem.current.index + 1 := by
    rw [current, used, snippets, if_pos rfl]
  have tags (sIndex : Nat) : ((grown.updatePmemStoresHeadMinandmax store).snippetInfo
      sIndex).flushedNum = (pmem.snippetInfo sIndex).flushedNum := by
    rw [snippets]
    split
    · next isLast =>
      rw [isLast]
      rfl
    · rfl
  refine ⟨⟨used, fun sIndex => ?_, fun sIndex differs => ?_, by omega, fun sIndex => by rw [tags]⟩,
    sameEnd, tags⟩
  · rw [snippets]
    split
    · next isLast =>
      rw [isLast]
      rfl
    · rfl
  · rw [snippets, if_neg differs]

end Store

/-! ## What the checks look at -/

section Congruence

variable {store range : PmemSt} {pmem start : PmemOps}

/-- Warnings about a store may be told of another store of the same bytes, from states with the
same register. -/
theorem Warned.congr {records : List PmemSt} {before after : PmemOps} {before' after' : PmemOps}
    (warned : Warned store records before after)
    (covers : ∀ byte, store.Covers byte ↔ range.Covers byte)
    (sameBefore : before'.multipleStores = before.multipleStores ∧ before'.exited = before.exited)
    (sameAfter : after'.multipleStores = after.multipleStores ∧ after'.exited = after.exited) :
    Warned range records before' after' := by
  constructor
  · rw [sameBefore.1, sameAfter.1]
    exact warned.longer
  · intro room
    rw [sameAfter.1] at room ⊢
    obtain ⟨events, isEvents, overlaps⟩ := warned.events room
    rw [← sameBefore.1] at isEvents
    refine ⟨events, isEvents, overlaps.imp (fun record event overlap byte => ?_)⟩
    rw [overlap byte, covers]
  · intro room
    rw [sameAfter.1] at room
    rw [sameBefore.2, sameAfter.2]
    exact warned.running room

/-- The checks look at the range and at the records in use. -/
theorem checks_congr (layout : Layout pmem) (addr : store.addr = range.addr)
    (size : store.size = range.size)
    (slots : ∀ slot < pmem.current.index, start.slots slot = pmem.slots slot)
    (snippets : start.snippetInfo = pmem.snippetInfo)
    (used : start.snippetInfoIndex = pmem.snippetInfoIndex)
    (tree : start.pmemStores.toList = pmem.pmemStores.toList)
    (lower : start.minAddPmemStore = pmem.minAddPmemStore)
    (upper : start.maxAddPmemStore = pmem.maxAddPmemStore) :
    (KeepsStates store start ↔ KeepsStates range pmem) ∧
      overwrittenRecords store start = overwrittenRecords range pmem := by
  have maxAddr : store.maxAddr = range.maxAddr := by
    unfold PmemSt.maxAddr
    rw [addr, size]
  have each : reachedIn store start = reachedIn range pmem := by
    funext sIndex
    unfold reachedIn missesBox
    rw [snippets, addr, maxAddr]
  have reached : reachedSlots store start = reachedSlots range pmem := by
    unfold reachedSlots
    rw [used, each]
  obtain ⟨_, inUse⟩ := reachedSlots_inUse range layout
  constructor
  · unfold KeepsStates
    rw [used, each, snippets]
    refine forall_congr' (fun sIndex => forall_congr' (fun isUsed => forall_congr' (fun _ =>
      forall_congr' (fun slot => forall_congr' (fun isReached => ?_)))))
    have slotUsed := inUse slot (List.mem_flatMap.mpr ⟨sIndex, isUsed, isReached⟩)
    unfold cutsMiddle
    rw [slots slot slotUsed, addr, maxAddr]
  · have skips : skipsTree store start ↔ skipsTree range pmem := by
      unfold skipsTree
      rw [addr, maxAddr, lower, upper]
    have meets (existing : PmemSt) : cmpPmemSt existing store = cmpPmemSt existing range :=
      (cmpPmemSt_congr addr size existing).2
    have array : metRecords store start (reachedSlots store start) =
        metRecords range pmem (reachedSlots range pmem) := by
      unfold metRecords
      rw [reached, List.map_congr_left (fun slot member => slots slot (inUse slot member))]
      refine List.filter_congr (fun existing _ => ?_)
      rw [decide_eq_decide]
      unfold meetsRecord
      rw [meets]
    have listed : metStores store start.pmemStores.toList =
        metStores range pmem.pmemStores.toList := by
      unfold metStores
      rw [tree]
      refine List.filter_congr (fun existing _ => ?_)
      simp only [meets]
    have named : nameable store = nameable range := by
      funext existing
      unfold nameable
      rw [addr, maxAddr]
    unfold overwrittenRecords
    rw [array, listed, named]
    simp only [skips]

/-- The dirty bytes depend on the records in use. -/
theorem dirtyIn_live_congr (layout : Layout pmem) (layoutStart : Layout start)
    (slots : ∀ slot < pmem.current.index, start.slots slot = pmem.slots slot)
    (snippets : start.snippetInfo = pmem.snippetInfo)
    (used : start.snippetInfoIndex = pmem.snippetInfoIndex)
    (tree : start.pmemStores.toList = pmem.pmemStores.toList) (byte : Nat) :
    DirtyIn start.live byte ↔ DirtyIn pmem.live byte := by
  have sameEnd : start.current.index = pmem.current.index := by
    rw [current, snippets, used]
    rfl
  rw [layoutStart.dirtyIn_live, layout.dirtyIn_live, tree]
  refine or_congr_left (exists_congr (fun slot => ?_))
  constructor
  · rintro ⟨isDirty, inside⟩
    have record := slots slot (sameEnd ▸ isDirty.inUse)
    exact ⟨(dirtySlot_congr snippets used record).mp isDirty, record ▸ inside⟩
  · rintro ⟨isDirty, inside⟩
    have record := slots slot isDirty.inUse
    exact ⟨(dirtySlot_congr snippets used record).mpr isDirty, record ▸ inside⟩

end Congruence

/-! ## `trace_pmem_store` -/

section Trace

variable {store range : PmemSt} {pmem start checked after : PmemOps}

/-- The checks and the addition of the record make up the store. -/
theorem storedBytes_of_added {settled : Prop} (steady : Steady pmem) (steadyAfter : Steady after)
    (covers : ∀ byte, store.Covers byte ↔ range.Covers byte)
    (begun : Kept (fun _ => False) pmem start)
    (startDirty : ∀ byte, DirtyIn start.live byte ↔ DirtyIn pmem.live byte)
    (kept : Kept store.Covers start checked) (overwritten : OverwrittenBytes settled store start
      checked)
    (settles : (pmem.opts.trackMultipleStores = true → KeepsStates range pmem) → settled)
    (shown : ∀ byte, Shown after byte ↔ store.Covers byte ∨ Shown checked byte)
    (dirty : ∀ byte, DirtyIn after.live byte ↔ store.Covers byte ∨ DirtyIn checked.live byte) :
    StoredBytes range pmem after := by
  refine ⟨steadyAfter, fun byte => ?_, fun keeps byte => ?_⟩
  · rw [steadyAfter.sound.tracks_live, steady.sound.tracks_live, shown, ← covers]
    constructor
    · rintro (inside | wasShown)
      · exact .inl inside
      · exact .inr (begun.old byte (kept.old byte wasShown))
    · rintro (inside | wasShown)
      · exact .inl inside
      · have atStart := (begun.shown byte wasShown).resolve_right id
        exact (kept.shown byte atStart).symm.imp_left id
  · rw [dirty, ← covers]
    constructor
    · rintro (inside | wasDirty)
      · exact .inl inside
      · exact .inr ((startDirty byte).mp (overwritten.wasDirty (settles keeps) byte wasDirty))
    · rintro (inside | wasDirty)
      · exact .inl inside
      · by_cases taken : store.Covers byte
        · exact .inl taken
        · exact .inr (overwritten.stillDirty byte taken ((startDirty byte).mpr wasDirty))

/-- Without an indifference window a store takes its own bytes only. -/
theorem StoreChecked.kept (result : StoreChecked store start checked)
    (plain : start.opts.treeReorganization = false)
    (indiff : start.opts.trackMultipleStores = true → start.opts.storeSbIndiff = 0) :
    Kept store.Covers start checked := by
  refine (result.gap (fun _ reorganised => ?_)).weaken (fun byte taken => ?_)
  · rw [plain] at reorganised
    cases reorganised
  · obtain ⟨mult, inside | ⟨_, record, _, same⟩⟩ := taken
    · exact inside
    · simp [isSameWrite, indiff mult] at same

/-- The store finds a free slot. -/
theorem addSlot_storedBytes (steady : Steady pmem) (proper : store.Proper)
    (visible : store.isDelete = false) (dirty : store.state = .dirty)
      (addr : store.addr = range.addr)
    (size : store.size = range.size)
    (indiff : pmem.opts.trackMultipleStores = true → pmem.opts.storeSbIndiff = 0) :
    let checked := (pmem.setSlot pmem.current.index store).checkStore store
    let after := (checked.setSnippet checked.snippetInfoIndex
      { checked.current with index := checked.current.index + 1 }).updatePmemStoresHeadMinandmax
        store
    StoredBytes range pmem after ∧ (pmem.opts.trackMultipleStores = true →
      Warned range (overwrittenRecords range pmem) pmem after) := by
  have sound := steady.sound
  have covers (byte : Nat) : store.Covers byte ↔ range.Covers byte := by
    unfold PmemSt.Covers
    rw [addr, size]
  -- The slot is written before it is in use.
  have slots (slot : Nat) (inUse : slot < pmem.current.index) :
      (pmem.setSlot pmem.current.index store).slots slot = pmem.slots slot := by
    rw [setSlot_slots, if_neg (by omega)]
  have begun := setSlot_unused sound proper
  have same := checks_congr sound.layout addr size slots rfl rfl rfl rfl rfl
  have result := checkStore_checked proper begun.sound
  have kept := result.kept steady.plain indiff
  obtain ⟨overwritten, warned⟩ := checkStore_bytes proper begun.sound steady.plain
    indiff
    (fun slot inUse => by
      rw [slots slot inUse]
      exact steady.slots slot inUse) steady.stores
  have startDirty := dirtyIn_live_congr sound.layout begun.sound.layout slots rfl rfl rfl
  rw [same.2] at warned
  dsimp only
  generalize (pmem.setSlot pmem.current.index store).checkStore store = checked at *
  have snippets : checked.snippetInfo = pmem.snippetInfo := by
    rw [result.frame]
    rfl
  have used : checked.snippetInfoIndex = pmem.snippetInfoIndex := by
    rw [result.frame]
    rfl
  have isCurrent : checked.current = pmem.current := by
    rw [current, snippets, used]
    rfl
  have held : checked.slots checked.current.index = store := by
    rw [isCurrent, result.free _ (Nat.le_refl pmem.current.index), setSlot_slots, if_pos rfl]
  have appended := grow_appended result.sound held proper
  obtain ⟨tags, grown, sameTags⟩ := grow_sameTags store checked
  have sameSlots : ((checked.setSnippet checked.snippetInfoIndex
      { checked.current with index := checked.current.index + 1 }).updatePmemStoresHeadMinandmax
        store).slots = checked.slots := rfl
  have sameTree : ((checked.setSnippet checked.snippetInfoIndex
      { checked.current with index := checked.current.index + 1 }).updatePmemStoresHeadMinandmax
        store).pmemStores = checked.pmemStores := rfl
  have sameRegister : ((checked.setSnippet checked.snippetInfoIndex
      { checked.current with index := checked.current.index + 1 }).updatePmemStoresHeadMinandmax
        store).multipleStores = checked.multipleStores ∧
      ((checked.setSnippet checked.snippetInfoIndex
        { checked.current with index := checked.current.index + 1 }).updatePmemStoresHeadMinandmax
          store).exited = checked.exited := ⟨rfl, rfl⟩
  generalize (checked.setSnippet checked.snippetInfoIndex
    { checked.current with index := checked.current.index + 1 }).updatePmemStoresHeadMinandmax
      store = after at *
  have isOpen : checked.current.flushedNum = .noFlushed := by
    rw [isCurrent]
    exact steady.opened
  have steadyAfter : Steady after := by
    refine ⟨?_, appended.sound, ?_, ?_, ?_, by rw [sameTree]; exact overwritten.stores⟩
    · rw [appended.opts, result.frame]
      exact steady.plain
    · rw [current, sameTags, tags.used]
      exact isOpen
    · intro sIndex below
      rw [sameTags, snippets]
      rw [tags.used, used] at below
      exact steady.closed sIndex below
    · intro slot inUse
      rw [sameSlots, overwritten.slots, setSlot_slots]
      split
      · rw [dirty]
        simp
      · next differs =>
        rw [grown, isCurrent] at inUse
        exact steady.slots slot (by omega)
  constructor
  · apply storedBytes_of_added steady steadyAfter covers begun startDirty kept overwritten
      (fun keeps mult => same.1.mpr (keeps mult))
    · intro byte
      rw [appended.shown]
      simp only [visible, true_and]
    · intro byte
      rw [appended_dirty tags result.sound.layout appended.sound.layout (by rw [isOpen]; simp) grown
        sameSlots sameTree (by rw [held]; exact visible) (by rw [held]; exact dirty), held]
  · exact fun mult => (warned mult).congr covers ⟨rfl, rfl⟩ sameRegister

/-- The store is a new node of the tree, and everything but the tree and its bounds is as it was. -/
structure NodeAdded (store : PmemSt) (checked after : PmemOps) : Prop where
  appended : Appended store checked after
  slots : after.slots = checked.slots
  snippets : after.snippetInfo = checked.snippetInfo
  used : after.snippetInfoIndex = checked.snippetInfoIndex
  register : after.multipleStores = checked.multipleStores ∧ after.exited = checked.exited
  listed : ∀ record, record ∈ after.pmemStores.toList ↔
    record = store ∨ record ∈ checked.pmemStores.toList

/-- Entering a store under an index that no node has yet. -/
theorem insertStore_added (sound : Sound checked)
    (plain : checked.opts.treeReorganization = false) (proper : store.Proper)
    (visible : store.isDelete = false) (below : store.index < checked.dbPmemStoreIndex)
    (fresh : ∀ record ∈ checked.pmemStores.toList, record.index ≠ store.index) :
    NodeAdded store checked ((checked.insertStore store).1.updateOsetPmemStoresMinandmax
      (checked.insertStore store).2) := by
  have entered := insertStore_entered sound.tree proper (fun _ => below) (fun _ => fresh)
  have appended := entered.appended sound visible (by rw [insertStore_frame])
  have frame := insertStore_frame store checked
  have listed (record : PmemSt) : record ∈ (checked.insertStore store).1.pmemStores.toList ↔
      record = store ∨ record ∈ checked.pmemStores.toList := by
    obtain ⟨_, members, _⟩ := sound.tree.entered proper (fun _ => below) (fun _ => fresh)
      (fun reorganised => by
        rw [plain] at reorganised
        cases reorganised)
    rw [treeCmp_own plain] at members
    simp only [insertStore, plain, Bool.false_eq_true, if_false]
    exact members record
  generalize checked.insertStore store = inserted at *
  have bounded : SameRecords inserted.1 (inserted.1.updateOsetPmemStoresMinandmax inserted.2) :=
    ⟨rfl, rfl, Nat.le_refl _, rfl, rfl, fun _ => rfl, fun _ => rfl⟩
  refine ⟨appended.same bounded, ?_, ?_, ?_, ⟨?_, ?_⟩, listed⟩
  · show inserted.1.slots = checked.slots
    rw [frame]
  · show inserted.1.snippetInfo = checked.snippetInfo
    rw [frame]
  · show inserted.1.snippetInfoIndex = checked.snippetInfoIndex
    rw [frame]
  · show inserted.1.multipleStores = checked.multipleStores
    rw [frame]
  · show inserted.1.exited = checked.exited
    rw [frame]

/-- A dirty node dirties its bytes. -/
theorem NodeAdded.dirty (added : NodeAdded store checked after) (layout : Layout checked)
    (isDirty : store.state = .dirty) (byte : Nat) :
    DirtyIn after.live byte ↔ store.Covers byte ∨ DirtyIn checked.live byte := by
  have dirtySlot (slot : Nat) : DirtySlot after slot ↔ DirtySlot checked slot :=
    dirtySlot_congr added.snippets added.used (congrFun added.slots slot)
  have tree : DirtyIn after.pmemStores.toList byte ↔
      store.Covers byte ∨ DirtyIn checked.pmemStores.toList byte := by
    constructor
    · rintro ⟨record, member, recordDirty, inside⟩
      rcases (added.listed record).mp member with rfl | old
      · exact .inl inside
      · exact .inr ⟨record, old, recordDirty, inside⟩
    · rintro (inside | ⟨record, old, recordDirty, inside⟩)
      · exact ⟨store, (added.listed store).mpr (.inl rfl), isDirty, inside⟩
      · exact ⟨record, (added.listed record).mpr (.inr old), recordDirty, inside⟩
  rw [added.appended.sound.layout.dirtyIn_live, layout.dirtyIn_live]
  simp only [dirtySlot, added.slots, tree]
  rw [or_left_comm]

/-- A dirty node keeps a tracker in shape. -/
theorem NodeAdded.steady (added : NodeAdded store checked after)
    (plain : checked.opts.treeReorganization = false) (isDirty : store.state = .dirty)
    (opened : checked.current.flushedNum = .noFlushed)
    (closed : ∀ sIndex < checked.snippetInfoIndex,
      (checked.snippetInfo sIndex).flushedNum ≠ .noFlushed)
    (slots : ∀ slot < checked.current.index, (checked.slots slot).state ≠ .clean)
    (stores : ∀ record ∈ checked.pmemStores.toList, record.state ≠ .clean) : Steady after := by
  have isCurrent : after.current = checked.current := by
    rw [current, added.snippets, added.used]
    rfl
  refine ⟨?_, added.appended.sound, ?_, ?_, ?_, ?_⟩
  · rw [added.appended.opts]
    exact plain
  · rw [isCurrent]
    exact opened
  · rw [added.snippets, added.used]
    exact closed
  · rw [isCurrent, added.slots]
    exact slots
  · intro record member
    rcases (added.listed record).mp member with rfl | old
    · rw [isDirty]
      simp
    · exact stores record old

/-- The array is full, and the store goes to the tree. -/
theorem addNode_storedBytes (steady : Steady pmem) (proper : store.Proper)
    (visible : store.isDelete = false) (dirty : store.state = .dirty)
    (addr : store.addr = range.addr) (size : store.size = range.size)
    (number : store.index = pmem.dbPmemStoreIndex)
    (indiff : pmem.opts.trackMultipleStores = true → pmem.opts.storeSbIndiff = 0) :
    let checked := { pmem with dbPmemStoreIndex := pmem.dbPmemStoreIndex + 1 }.checkStore store
    let after := (checked.insertStore store).1.updateOsetPmemStoresMinandmax
      (checked.insertStore store).2
    StoredBytes range pmem after ∧ (pmem.opts.trackMultipleStores = true →
      Warned range (overwrittenRecords range pmem) pmem after) := by
  have sound := steady.sound
  have covers (byte : Nat) : store.Covers byte ↔ range.Covers byte := by
    unfold PmemSt.Covers
    rw [addr, size]
  have raised : SameRecords pmem { pmem with dbPmemStoreIndex := pmem.dbPmemStoreIndex + 1 } :=
    ⟨rfl, rfl, Nat.le_succ _, rfl, rfl, fun _ => rfl, fun _ => rfl⟩
  have begun : Kept (fun _ => False) pmem
      { pmem with dbPmemStoreIndex := pmem.dbPmemStoreIndex + 1 } := raised.kept sound
  have result := checkStore_checked proper begun.sound
  have kept := result.kept steady.plain indiff
  have same : (KeepsStates store { pmem with dbPmemStoreIndex := pmem.dbPmemStoreIndex + 1 } ↔
      KeepsStates range pmem) ∧
      overwrittenRecords store { pmem with dbPmemStoreIndex := pmem.dbPmemStoreIndex + 1 } =
        overwrittenRecords range pmem :=
    checks_congr sound.layout addr size (fun _ _ => rfl) rfl rfl rfl rfl rfl
  obtain ⟨overwritten, warned⟩ := checkStore_bytes proper begun.sound steady.plain
    indiff steady.slots steady.stores
  rw [same.2] at warned
  dsimp only
  generalize checkStore store { pmem with dbPmemStoreIndex := pmem.dbPmemStoreIndex + 1 } =
    checked at *
  have checkedOpts : checked.opts = pmem.opts := by rw [result.frame]
  have plain : checked.opts.treeReorganization = false := checkedOpts ▸ steady.plain
  have snippets : checked.snippetInfo = pmem.snippetInfo := by rw [result.frame]
  have used : checked.snippetInfoIndex = pmem.snippetInfoIndex := by rw [result.frame]
  have isCurrent : checked.current = pmem.current := by
    rw [current, snippets, used]
    rfl
  have fresh : ∀ record ∈ checked.pmemStores.toList, record.index ≠ store.index := by
    rw [number]
    refine result.indices pmem.dbPmemStoreIndex (Nat.lt_succ_self _) (fun record member => ?_)
    exact Nat.ne_of_lt (sound.tree.fresh steady.plain record member)
  have below : store.index < checked.dbPmemStoreIndex := by
    rw [number]
    exact Nat.lt_of_lt_of_le (Nat.lt_succ_self _) result.grown
  have stateful : ∀ slot < checked.current.index, (checked.slots slot).state ≠ .clean := by
    rw [isCurrent]
    intro slot inUse
    rw [overwritten.slots]
    exact steady.slots slot inUse
  have added := insertStore_added result.sound plain proper visible below fresh
  have steadyAfter := added.steady plain dirty (isCurrent ▸ steady.opened)
    (by rw [snippets, used]; exact steady.closed)
    stateful overwritten.stores
  constructor
  · apply storedBytes_of_added steady steadyAfter covers begun (fun _ => Iff.rfl) kept overwritten
      (fun keeps mult => same.1.mpr (keeps mult))
    · intro byte
      rw [added.appended.shown]
      simp only [visible, true_and]
    · exact added.dirty result.sound.layout dirty
  · exact fun mult => (warned mult).congr covers ⟨rfl, rfl⟩ added.register

/-- A store on a tracker with a tree that is ordered by index. -/
theorem trackStore_storedBytes (steady : Steady pmem) {addr size : Nat} (value : Nat)
    (context : Option ExeContext) (proper : (PmemSt.range addr size).Proper)
    (indiff : pmem.opts.trackMultipleStores = true → pmem.opts.storeSbIndiff = 0) :
    StoredBytes (PmemSt.range addr size) pmem (pmem.trackStore addr size value context).1 ∧
      (pmem.opts.trackMultipleStores = true → Warned (PmemSt.range addr size)
        (overwrittenRecords (PmemSt.range addr size) pmem) pmem
        (pmem.trackStore addr size value context).1) := by
  have written (held : PmemSt) : (pmem.writeStore addr size value context held).Proper :=
    ⟨proper.nonempty, proper.nonWrapping⟩
  unfold trackStore
  simp only
  split
  · exact addSlot_storedBytes steady (written _) rfl rfl rfl rfl indiff
  · exact addNode_storedBytes steady (written _) rfl rfl rfl rfl rfl indiff

end Trace

end PmDebugger
