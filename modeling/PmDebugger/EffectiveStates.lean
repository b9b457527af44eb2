import PmDebugger.LiveFlush
import PmDebugger.Cleaning
import PmDebugger.TreeBytes

/-!
# Dirty bytes of the tracker

A byte is dirty in effect when a live record that is not flushed covers it. The laws here
say how the elementary changes of the tracker, writing a slot and adding a piece behind
the array or in the tree, move the set of these bytes. They hold for deleted slots and for
a full array too, with a tree that is ordered by index.
-/

namespace PmDebugger

open OrderedSet OrderedSet.OSet PmemOps

/-- The snippet of the slot is tagged as a whole. Then the record counts as flushed, whatever
it says. -/
def WhollyTagged (pmem : PmemOps) (slot : Nat) : Prop :=
  ∃ sIndex ≤ pmem.snippetInfoIndex, InSnippet pmem sIndex slot ∧
    (pmem.snippetInfo sIndex).flushedNum = .allFlushed

/-- The slot holds a record that is dirty in effect: it is not deleted, it says dirty, and no
tag overrules that. -/
structure DirtySlot (pmem : PmemOps) (slot : Nat) : Prop where
  inUse : slot < pmem.current.index
  undeleted : (pmem.slots slot).isDelete = false
  dirty : (pmem.slots slot).state = .dirty
  unsettled : ¬ WhollyTagged pmem slot

/-- The tags of the slots depend on the snippets alone. -/
theorem whollyTagged_congr {before after : PmemOps}
    (snippets : after.snippetInfo = before.snippetInfo)
    (used : after.snippetInfoIndex = before.snippetInfoIndex) (slot : Nat) :
    WhollyTagged after slot ↔ WhollyTagged before slot := by
  unfold WhollyTagged InSnippet
  rw [snippets, used]

/-- So does what is dirty, apart from the record itself. -/
theorem dirtySlot_congr {before after : PmemOps} (snippets : after.snippetInfo = before.snippetInfo)
    (used : after.snippetInfoIndex = before.snippetInfoIndex) {slot : Nat}
    (record : after.slots slot = before.slots slot) :
    DirtySlot after slot ↔ DirtySlot before slot := by
  have tagged := whollyTagged_congr snippets used slot
  have sameEnd : after.current.index = before.current.index := by
    rw [current, snippets, used]
    rfl
  constructor
  · rintro ⟨inUse, undeleted, dirty, unsettled⟩
    exact ⟨sameEnd ▸ inUse, record ▸ undeleted, record ▸ dirty, tagged.not.mp unsettled⟩
  · rintro ⟨inUse, undeleted, dirty, unsettled⟩
    exact ⟨sameEnd ▸ inUse, record ▸ undeleted, record ▸ dirty, tagged.not.mpr unsettled⟩

/-- A record is dirty in effect if it is dirty and its snippet is not flushed as a whole. -/
theorem settle_dirty_iff (tag : FlushedState) (store : PmemSt) :
    (settle tag store).state = .dirty ↔ store.state = .dirty ∧ tag ≠ .allFlushed := by
  unfold settle
  split
  · simp_all
  · simp_all

/-- A slot belongs to one snippet, so its tag decides. -/
theorem Layout.whollyTagged_iff {pmem : PmemOps} (layout : Layout pmem) {sIndex slot : Nat}
    (used : sIndex ≤ pmem.snippetInfoIndex) (inside : InSnippet pmem sIndex slot) :
    WhollyTagged pmem slot ↔ (pmem.snippetInfo sIndex).flushedNum = .allFlushed := by
  constructor
  · rintro ⟨other, otherUsed, inOther, tagged⟩
    rw [layout.unique used otherUsed inside inOther]
    exact tagged
  · exact fun tagged => ⟨sIndex, used, inside, tagged⟩

/-- The dirty bytes of the live records, slot by slot. -/
theorem Layout.dirtyIn_live {pmem : PmemOps} (layout : Layout pmem) (byte : Nat) :
    DirtyIn pmem.live byte ↔ (∃ slot, DirtySlot pmem slot ∧ (pmem.slots slot).Covers byte) ∨
      DirtyIn pmem.pmemStores.toList byte := by
  constructor
  · rintro ⟨store, member, dirty, inside⟩
    rcases mem_live.mp member with ⟨sIndex, used, slot, inSlot, undeleted, rfl⟩ | inTree
    · obtain ⟨isDirty, untagged⟩ := (settle_dirty_iff _ _).mp dirty
      refine .inl ⟨slot, ⟨layout.inUse_iff.mpr ⟨sIndex, used, inSlot⟩, undeleted, isDirty, ?_⟩,
        (settle_covers _ _ _).mp inside⟩
      rw [layout.whollyTagged_iff used inSlot]
      exact untagged
    · exact .inr ⟨store, inTree, dirty, inside⟩
  · rintro (⟨slot, dirtySlot, inside⟩ | ⟨store, inTree, dirty, inside⟩)
    · obtain ⟨sIndex, used, inSlot⟩ := layout.inUse_iff.mp dirtySlot.inUse
      have untagged := dirtySlot.unsettled
      rw [layout.whollyTagged_iff used inSlot] at untagged
      exact ⟨_, mem_live.mpr (.inl ⟨sIndex, used, slot, inSlot, dirtySlot.undeleted, rfl⟩),
        (settle_dirty_iff _ _).mpr ⟨dirtySlot.dirty, untagged⟩, (settle_covers _ _ _).mpr inside⟩
    · exact ⟨store, mem_live.mpr (.inr inTree), dirty, inside⟩

/-- A dirty byte of another slot or of the tree. A change of one slot leaves such bytes. -/
def DirtyBeside (pmem : PmemOps) (index byte : Nat) : Prop :=
  (∃ slot, slot ≠ index ∧ DirtySlot pmem slot ∧ (pmem.slots slot).Covers byte) ∨
    DirtyIn pmem.pmemStores.toList byte

/-- A byte is dirty by the slot or beside it. -/
theorem Layout.dirtyIn_beside {pmem : PmemOps} (layout : Layout pmem) (index byte : Nat) :
    DirtyIn pmem.live byte ↔ DirtySlot pmem index ∧ (pmem.slots index).Covers byte ∨
      DirtyBeside pmem index byte := by
  rw [layout.dirtyIn_live]
  constructor
  · rintro (⟨slot, dirty, inside⟩ | inTree)
    · by_cases same : slot = index
      · rw [same] at dirty inside
        exact .inl ⟨dirty, inside⟩
      · exact .inr (.inl ⟨slot, same, dirty, inside⟩)
    · exact .inr (.inr inTree)
  · rintro (⟨dirty, inside⟩ | ⟨slot, _, dirty, inside⟩ | inTree)
    · exact .inl ⟨index, dirty, inside⟩
    · exact .inl ⟨slot, dirty, inside⟩
    · exact .inr inTree

/-- Two states with the same snippets up to their ends and tags. The starts are the same, only
the current snippet may have grown, and the same snippets are flushed as a whole. -/
structure SameTags (before after : PmemOps) : Prop where
  used : after.snippetInfoIndex = before.snippetInfoIndex
  starts : ∀ sIndex, (after.snippetInfo sIndex).startIndex = (before.snippetInfo sIndex).startIndex
  ends : ∀ sIndex, sIndex ≠ before.snippetInfoIndex →
    (after.snippetInfo sIndex).index = (before.snippetInfo sIndex).index
  longer : before.current.index ≤ after.current.index
  tags : ∀ sIndex, (after.snippetInfo sIndex).flushedNum = .allFlushed ↔
    (before.snippetInfo sIndex).flushedNum = .allFlushed

namespace SameTags

variable {before middle after : PmemOps} {slot : Nat}

/-- Nothing is tagged. -/
theorem refl (pmem : PmemOps) : SameTags pmem pmem :=
  ⟨rfl, fun _ => rfl, fun _ _ => rfl, Nat.le_refl _, fun _ => Iff.rfl⟩

/-- The tags are the same over two steps. -/
theorem trans (first : SameTags before middle) (second : SameTags middle after) :
    SameTags before after where
  used := second.used.trans first.used
  starts sIndex := (second.starts sIndex).trans (first.starts sIndex)
  ends sIndex differs :=
    (second.ends sIndex (by rw [first.used]; exact differs)).trans (first.ends sIndex differs)
  longer := Nat.le_trans first.longer second.longer
  tags sIndex := (second.tags sIndex).trans (first.tags sIndex)

/-- The snippets that existed keep their slots. -/
theorem inSnippet (same : SameTags before after) {sIndex : Nat}
    (inside : InSnippet before sIndex slot) : InSnippet after sIndex slot := by
  unfold InSnippet at *
  rw [same.starts]
  by_cases isLast : sIndex = before.snippetInfoIndex
  · have longer := same.longer
    unfold current at longer
    rw [same.used] at longer
    rw [isLast] at inside ⊢
    omega
  · rw [same.ends sIndex isLast]
    exact inside

/-- A slot that was in use is settled as before. -/
theorem whollyTagged_iff (same : SameTags before after) (layout : Layout before)
    (layoutAfter : Layout after) (inUse : slot < before.current.index) :
    WhollyTagged after slot ↔ WhollyTagged before slot := by
  obtain ⟨sIndex, used, inside⟩ := layout.inUse_iff.mp inUse
  rw [layout.whollyTagged_iff used inside,
    layoutAfter.whollyTagged_iff (by rw [same.used]; exact used) (same.inSnippet inside)]
  exact same.tags sIndex

/-- A slot that was added belongs to the current snippet. -/
theorem added_inSnippet (same : SameTags before after) (layout : Layout before)
    (above : before.current.index ≤ slot) (below : slot < after.current.index) :
    InSnippet after after.snippetInfoIndex slot := by
  refine ⟨?_, below⟩
  have ordered := layout.ordered before.snippetInfoIndex (Nat.le_refl _)
  unfold current at above
  rw [same.used, same.starts]
  omega

end SameTags

/-! ## Changing one slot -/

/-- One slot is rewritten, and the pieces that were cut off its record are added behind the
array or to the tree. -/
structure SlotExchanged (index : Nat) (pieces : List PmemSt) (before after : PmemOps) : Prop where
  opts : after.opts = before.opts
  sound : Sound after
  same : SameTags before after
  others : ∀ slot < before.current.index, slot ≠ index → after.slots slot = before.slots slot
  added : ∀ slot, before.current.index ≤ slot → slot < after.current.index →
    ∃ piece ∈ pieces, SameRecord (after.slots slot) piece
  old : ∀ store ∈ before.pmemStores.toList, store ∈ after.pmemStores.toList
  new : ∀ store ∈ after.pmemStores.toList, store ∈ before.pmemStores.toList ∨
    ∃ piece ∈ pieces, SameRecord store piece
  placed : ∀ piece ∈ pieces,
    (∃ slot, before.current.index ≤ slot ∧ slot < after.current.index ∧
      SameRecord (after.slots slot) piece) ∨
    ∃ store ∈ after.pmemStores.toList, SameRecord store piece
  few : after.current.index ≤ before.current.index + pieces.length
  full : before.opts.maxArrayNum ≤ before.current.index →
    after.current.index = before.current.index

namespace SlotExchanged

variable {index : Nat} {pieces : List PmemSt} {before middle after : PmemOps}

/-- The slot is exchanged for itself, and no piece is appended. -/
theorem refl (index : Nat) (sound : Sound before) : SlotExchanged index [] before before where
  opts := rfl
  sound := sound
  same := SameTags.refl before
  others _ _ _ := rfl
  added _ above below := absurd below (Nat.not_lt.mpr above)
  old _ member := member
  new _ member := .inl member
  placed _ member := absurd member List.not_mem_nil
  few := Nat.le_refl _
  full _ := rfl

/-- The slot is written once more. -/
theorem setSlot (exchanged : SlotExchanged index pieces before middle)
    (inUse : index < before.current.index) {record : PmemSt} (proper : record.Proper) :
    SlotExchanged index pieces before (middle.setSlot index record) := by
  have elsewhere (slot : Nat) (differs : slot ≠ index) :
      (middle.setSlot index record).slots slot = middle.slots slot := by
    rw [setSlot_slots, if_neg differs]
  refine ⟨exchanged.opts, exchanged.sound.setSlot proper, ?_, ?_, ?_, exchanged.old, exchanged.new,
    ?_, exchanged.few, exchanged.full⟩
  · exact ⟨exchanged.same.used, exchanged.same.starts, exchanged.same.ends, exchanged.same.longer,
      exchanged.same.tags⟩
  · intro slot slotUsed differs
    rw [elsewhere slot differs]
    exact exchanged.others slot slotUsed differs
  · intro slot above below
    rw [elsewhere slot (by omega)]
    exact exchanged.added slot above below
  · intro piece member
    rcases exchanged.placed piece member with ⟨slot, above, below, same⟩ | inTree
    · refine .inl ⟨slot, above, below, ?_⟩
      rw [elsewhere slot (by omega)]
      exact same
    · exact .inr inTree

/-- The rest of the state does not count. -/
theorem congr (exchanged : SlotExchanged index pieces before middle)
    (opts : after.opts = middle.opts) (stores : after.pmemStores = middle.pmemStores)
    (counter : middle.dbPmemStoreIndex ≤ after.dbPmemStoreIndex)
    (slots : after.slots = middle.slots) (same : SameTags middle after)
    (ends : ∀ sIndex, (after.snippetInfo sIndex).index = (middle.snippetInfo sIndex).index) :
    SlotExchanged index pieces before after := by
  have records : SameRecords middle after :=
    ⟨opts, stores, counter, slots, same.used, same.starts, ends⟩
  have kept : Kept (fun _ => False) middle after := records.kept exchanged.sound
  have sameEnd := records.current_index
  refine ⟨opts.trans exchanged.opts, kept.sound, exchanged.same.trans same, ?_, ?_, ?_, ?_,
    ?_, ?_, ?_⟩
  · rw [slots]
    exact exchanged.others
  · rw [slots, sameEnd]
    exact exchanged.added
  · rw [stores]
    exact exchanged.old
  · rw [stores]
    exact exchanged.new
  · rw [slots, sameEnd, stores]
    exact exchanged.placed
  · rw [sameEnd]
    exact exchanged.few
  · rw [sameEnd]
    exact exchanged.full

/-- A piece is added to the tree. -/
theorem enter (exchanged : SlotExchanged index pieces before middle) {piece : PmemSt}
    (copy : PmemSt) (same : SameRecord copy piece) (frame : after = { middle with
      pmemStores := after.pmemStores
      dbPmemStoreIndex := after.dbPmemStoreIndex })
    (listed : ∀ store, store ∈ after.pmemStores.toList ↔
      store ∈ middle.pmemStores.toList ∨ store = copy)
    (tree : TreeSound middle.opts after.dbPmemStoreIndex after.pmemStores) :
    SlotExchanged index (pieces ++ [piece]) before after := by
  have opts : after.opts = middle.opts := by rw [frame]
  have slots : after.slots = middle.slots := by rw [frame]
  have snippets : after.snippetInfo = middle.snippetInfo := by rw [frame]
  have used : after.snippetInfoIndex = middle.snippetInfoIndex := by rw [frame]
  have sameEnd : after.current.index = middle.current.index := by
    rw [current, used, snippets]
    rfl
  have layout := exchanged.sound.layout
  refine ⟨opts.trans exchanged.opts, ⟨?_, ?_, opts ▸ tree⟩, exchanged.same.trans ?_, ?_, ?_, ?_, ?_,
    ?_, ?_, ?_⟩
  · exact layout.grow used (fun _ => by rw [snippets]) (fun _ _ => by rw [snippets])
      (Nat.le_of_eq sameEnd.symm)
  · rw [sameEnd, slots]
    exact exchanged.sound.slots
  · exact ⟨used, fun _ => by rw [snippets], fun _ _ => by rw [snippets], Nat.le_of_eq sameEnd.symm,
      fun _ => by rw [snippets]⟩
  · rw [slots]
    exact exchanged.others
  · intro slot above below
    rw [sameEnd] at below
    rw [slots]
    obtain ⟨origin, member, isSame⟩ := exchanged.added slot above below
    exact ⟨origin, List.mem_append_left _ member, isSame⟩
  · intro store member
    exact (listed store).mpr (.inl (exchanged.old store member))
  · intro store member
    rcases (listed store).mp member with inMiddle | rfl
    · rcases exchanged.new store inMiddle with inBefore | ⟨origin, isOrigin, isSame⟩
      · exact .inl inBefore
      · exact .inr ⟨origin, List.mem_append_left _ isOrigin, isSame⟩
    · exact .inr ⟨piece, by simp, same⟩
  · intro origin member
    rw [sameEnd, slots]
    rcases List.mem_append.mp member with early | isPiece
    · rcases exchanged.placed origin early with inArray | ⟨store, inTree, isSame⟩
      · exact .inl inArray
      · exact .inr ⟨store, (listed store).mpr (.inl inTree), isSame⟩
    · rw [List.mem_singleton.mp isPiece]
      exact .inr ⟨copy, (listed copy).mpr (.inr rfl), same⟩
  · rw [sameEnd, List.length_append]
    exact Nat.le_trans exchanged.few (by omega)
  · rw [sameEnd]
    exact exchanged.full

/-- A piece is added behind the array. -/
theorem extend (exchanged : SlotExchanged index pieces before middle) {piece copy : PmemSt}
    (same : SameRecord copy piece) (proper : piece.Proper)
    (room : middle.current.index < middle.opts.maxArrayNum) :
    SlotExchanged index (pieces ++ [piece]) before
      ((middle.setSlot middle.current.index copy).setSnippet middle.snippetInfoIndex
        { middle.current with index := middle.current.index + 1 }) := by
  have copyProper : copy.Proper := same.proper.mpr proper
  have sound := (appendSlot_appended copy exchanged.sound copyProper).sound
  generalize grew : (middle.setSlot middle.current.index copy).setSnippet middle.snippetInfoIndex
    { middle.current with index := middle.current.index + 1 } = after at sound ⊢
  have used : after.snippetInfoIndex = middle.snippetInfoIndex := by
    rw [← grew]
    rfl
  have snippets (sIndex : Nat) : after.snippetInfo sIndex = if sIndex = middle.snippetInfoIndex
      then { middle.current with index := middle.current.index + 1 }
      else middle.snippetInfo sIndex := by
    rw [← grew]
    rfl
  have slots (slot : Nat) : after.slots slot =
      if slot = middle.current.index then copy else middle.slots slot := by
    rw [← grew]
    rfl
  have stores : after.pmemStores = middle.pmemStores := by
    rw [← grew]
    rfl
  have opts : after.opts = middle.opts := by
    rw [← grew]
    rfl
  have sameEnd : after.current.index = middle.current.index + 1 := by
    rw [current, used, snippets, if_pos rfl]
  have longer := exchanged.same.longer
  have last : after.slots middle.current.index = copy := by rw [slots, if_pos rfl]
  have earlier (slot : Nat) (below : slot < middle.current.index) :
      after.slots slot = middle.slots slot := by rw [slots, if_neg (by omega)]
  refine ⟨opts.trans exchanged.opts, sound, exchanged.same.trans ?_, ?_, ?_, ?_, ?_, ?_, ?_, ?_⟩
  · refine ⟨used, fun sIndex => ?_, fun sIndex differs => ?_, by omega, fun sIndex => ?_⟩
    · rw [snippets]
      split
      · next isLast =>
        rw [isLast]
        rfl
      · rfl
    · rw [snippets, if_neg differs]
    · rw [snippets]
      split
      · next isLast =>
        rw [isLast]
        exact Iff.rfl
      · rfl
  · intro slot slotUsed differs
    rw [earlier slot (by omega)]
    exact exchanged.others slot slotUsed differs
  · intro slot above below
    by_cases isLast : slot = middle.current.index
    · rw [isLast, last]
      exact ⟨piece, by simp, same⟩
    · rw [earlier slot (by omega)]
      obtain ⟨origin, member, isSame⟩ := exchanged.added slot above (by omega)
      exact ⟨origin, List.mem_append_left _ member, isSame⟩
  · rw [stores]
    exact exchanged.old
  · intro store member
    rw [stores] at member
    rcases exchanged.new store member with inBefore | ⟨origin, isOrigin, isSame⟩
    · exact .inl inBefore
    · exact .inr ⟨origin, List.mem_append_left _ isOrigin, isSame⟩
  · intro origin member
    rcases List.mem_append.mp member with early | isPiece
    · rcases exchanged.placed origin early with ⟨slot, above, below, isSame⟩ | inTree
      · refine .inl ⟨slot, above, by omega, ?_⟩
        rw [earlier slot below]
        exact isSame
      · rw [stores]
        exact .inr inTree
    · rw [List.mem_singleton.mp isPiece]
      refine .inl ⟨middle.current.index, longer, by omega, ?_⟩
      rw [last]
      exact same
  · have few := exchanged.few
    rw [sameEnd, List.length_append]
    simp only [List.length_singleton]
    omega
  · intro isFull
    have full := exchanged.full isFull
    rw [exchanged.opts, full] at room
    omega

/-- A piece with a dirty record becomes a dirty slot of the current snippet. -/
theorem added_dirty (exchanged : SlotExchanged index pieces before after) (layout : Layout before)
    (isOpen : before.current.flushedNum ≠ .allFlushed) {slot : Nat} {piece : PmemSt}
    (above : before.current.index ≤ slot) (below : slot < after.current.index)
    (same : SameRecord (after.slots slot) piece) (visible : piece.isDelete = false)
    (dirty : piece.state = .dirty) : DirtySlot after slot := by
  refine ⟨below, by rw [same]; exact visible, by rw [same]; exact dirty, ?_⟩
  rw [exchanged.sound.layout.whollyTagged_iff (Nat.le_refl _)
    (exchanged.same.added_inSnippet layout above below), exchanged.same.used, exchanged.same.tags]
  exact isOpen

/-- The other slots and the tree after the change. -/
theorem dirtyBeside (exchanged : SlotExchanged index pieces before after) (layout : Layout before)
    (inUse : index < before.current.index) (isOpen : before.current.flushedNum ≠ .allFlushed)
    (visible : ∀ piece ∈ pieces, piece.isDelete = false) (byte : Nat) :
    DirtyBeside after index byte ↔ DirtyIn pieces byte ∨ DirtyBeside before index byte := by
  have layoutAfter := exchanged.sound.layout
  constructor
  · rintro (⟨slot, differs, dirty, inside⟩ | ⟨store, member, dirty, inside⟩)
    · by_cases wasUsed : slot < before.current.index
      · have record := exchanged.others slot wasUsed differs
        rw [record] at inside
        exact .inr (.inl ⟨slot, differs, ⟨wasUsed, record ▸ dirty.undeleted, record ▸ dirty.dirty,
          (exchanged.same.whollyTagged_iff layout layoutAfter wasUsed).not.mp dirty.unsettled⟩,
            inside⟩)
      · obtain ⟨piece, member, same⟩ := exchanged.added slot (by omega) dirty.inUse
        have isDirty := dirty.dirty
        rw [same] at isDirty
        exact .inl ⟨piece, member, isDirty, (same.covers byte).mp inside⟩
    · rcases exchanged.new store member with inBefore | ⟨piece, isPiece, same⟩
      · exact .inr (.inr ⟨store, inBefore, dirty, inside⟩)
      · rw [same] at dirty
        exact .inl ⟨piece, isPiece, dirty, (same.covers byte).mp inside⟩
  · rintro (⟨piece, member, dirty, inside⟩ | ⟨slot, differs, dirty, inside⟩ | ⟨store, member, rest⟩)
    · rcases exchanged.placed piece member with ⟨slot, above, below, same⟩ | ⟨store, inTree, same⟩
      · exact .inl ⟨slot, by omega, exchanged.added_dirty layout isOpen above below same
          (visible piece member) dirty, (same.covers byte).mpr inside⟩
      · refine .inr ⟨store, inTree, ?_, (same.covers byte).mpr inside⟩
        rw [same]
        exact dirty
    · have wasUsed := dirty.inUse
      have record := exchanged.others slot wasUsed differs
      refine .inl ⟨slot, differs, ⟨Nat.lt_of_lt_of_le wasUsed exchanged.same.longer,
        record ▸ dirty.undeleted, record ▸ dirty.dirty, ?_⟩, by rw [record]; exact inside⟩
      exact (exchanged.same.whollyTagged_iff layout layoutAfter wasUsed).not.mpr dirty.unsettled
    · exact .inr ⟨store, exchanged.old store member, rest⟩

/-- The bytes shown by the other slots and the tree after the change. -/
theorem shownBeside (exchanged : SlotExchanged index pieces before after)
    (inUse : index < before.current.index)
    (visible : ∀ piece ∈ pieces, piece.isDelete = false) (byte : Nat) :
    ShownBeside after index byte ↔ Tracks pieces byte ∨ ShownBeside before index byte := by
  have longer := exchanged.same.longer
  constructor
  · rintro (⟨slot, slotUsed, differs, undeleted, inside⟩ | ⟨store, member, inside⟩)
    · by_cases wasUsed : slot < before.current.index
      · rw [exchanged.others slot wasUsed differs] at undeleted inside
        exact .inr (.inl ⟨slot, wasUsed, differs, undeleted, inside⟩)
      · obtain ⟨piece, member, same⟩ := exchanged.added slot (by omega) slotUsed
        exact .inl ⟨piece, member, (same.covers byte).mp inside⟩
    · rcases exchanged.new store member with inBefore | ⟨piece, isPiece, same⟩
      · exact .inr (.inr ⟨store, inBefore, inside⟩)
      · exact .inl ⟨piece, isPiece, (same.covers byte).mp inside⟩
  · rintro (⟨piece, member, inside⟩ | ⟨slot, slotUsed, differs, undeleted, inside⟩ | ⟨store, member,
        inside⟩)
    · rcases exchanged.placed piece member with ⟨slot, above, below, same⟩ | ⟨store, inTree, same⟩
      · refine .inl ⟨slot, below, by omega, ?_, (same.covers byte).mpr inside⟩
        rw [same]
        exact visible piece member
      · exact .inr ⟨store, inTree, (same.covers byte).mpr inside⟩
    · refine .inl ⟨slot, by omega, differs, ?_, ?_⟩
      · rw [exchanged.others slot slotUsed differs]
        exact undeleted
      · rw [exchanged.others slot slotUsed differs]
        exact inside
    · exact .inr ⟨store, exchanged.old store member, inside⟩

end SlotExchanged

/-- In a tree that is ordered by index a new record goes to the end. -/
theorem insertStore_last (pmem : PmemOps) (plain : pmem.opts.treeReorganization = false)
    (store : PmemSt) (fresh : ∀ elem ∈ pmem.pmemStores.toList, elem.index < store.index) :
    (pmem.insertStore store).1.pmemStores.toList = pmem.pmemStores.toList ++ [store] := by
  simp only [insertStore, plain, Bool.false_eq_true, if_false]
  exact (insert_byKey_last store fresh).1

/-- Adding a piece as a flush does. -/
theorem SlotExchanged.appendSplit {index : Nat} {pieces : List PmemSt} {before middle : PmemOps}
    (exchanged : SlotExchanged index pieces before middle)
    (plain : middle.opts.treeReorganization = false) {piece : PmemSt} (proper : piece.Proper) :
    SlotExchanged index (pieces ++ [piece]) before (middle.appendSplit piece) := by
  simp only [PmemOps.appendSplit]
  split
  · next room => exact exchanged.extend rfl proper room
  · have entered := insertNext_entered { piece with index := middle.dbPmemStoreIndex }
      exchanged.sound.tree ⟨proper.nonempty, proper.nonWrapping⟩ rfl
    have listed : ∀ elem ∈ middle.pmemStores.toList, elem.index < middle.dbPmemStoreIndex :=
      exchanged.sound.tree.fresh plain
    have last := insertStore_last { middle with dbPmemStoreIndex := middle.dbPmemStoreIndex + 1 }
      plain { piece with index := middle.dbPmemStoreIndex } listed
    refine exchanged.enter { piece with index := middle.dbPmemStoreIndex } rfl
      (by rw [insertStore_frame]) (fun store => ?_) entered.sound
    rw [last, List.mem_append, List.mem_singleton]

end PmDebugger
