import PmDebugger.Accesses
import PmDebugger.EffectiveStates

/-!
# Flushes byte by byte

What a flush does to the dirty bytes, whatever was deleted from the array and however full
the array is. A record that the flush takes effect on is replaced by its part within the
range; its parts outside stay dirty, in the array or, when that is full, in the tree.

Three mistakes of a flush are left out by conditions on the state that it meets. It may tag
the current snippet although a dirty record of it sticks out, it may skip a snippet that
holds a dirty record of the range, and it may skip the tree although a dirty record there
meets the range, since the pieces that are spilled into the tree do not widen its bounds.
-/

namespace PmDebugger

open OrderedSet OrderedSet.OSet PmemOps

/-- The flush takes effect on the record of the slot. The record is dirty in effect, and the
flush meets it. -/
def MarkedSlot (flush : PmemSt) (pmem : PmemOps) (slot : Nat) : Prop :=
  DirtySlot pmem slot ∧ cmpPmemSt flush (pmem.slots slot) = .eq

/-- A part of the loops of `do_flush` over the array. It visited some snippets and, in these,
some slots. -/
structure ByteFlushing (flush : PmemSt) (visited done : Nat → Prop) (before after : PmemOps) :
    Prop where
  opts : after.opts = before.opts
  sound : Sound after
  same : SameTags before after
  boxes : ∀ sIndex, (after.snippetInfo sIndex).minAdd = (before.snippetInfo sIndex).minAdd ∧
    (after.snippetInfo sIndex).maxAdd = (before.snippetInfo sIndex).maxAdd
  tags : ∀ sIndex, (after.snippetInfo sIndex).flushedNum = (before.snippetInfo sIndex).flushedNum ∨
    visited sIndex ∧ (after.snippetInfo sIndex).flushedNum = .partFlushed
  untouched : ∀ slot < before.current.index, ¬ done slot → after.slots slot = before.slots slot
  cleared : ∀ slot, done slot ∨ before.current.index ≤ slot → ¬ MarkedSlot flush after slot
  stores : ∀ store ∈ after.pmemStores.toList, store ∈ before.pmemStores.toList ∨
    store.state = .dirty ∧ cmpPmemSt flush store ≠ .eq
  older : ∀ store ∈ before.pmemStores.toList, store ∈ after.pmemStores.toList
  bytes : ∀ byte, Shown after byte ↔ Shown before byte
  stillDirty : ∀ byte, ¬ flush.Covers byte → DirtyIn before.live byte → DirtyIn after.live byte
  wasDirty : ∀ byte, DirtyIn after.live byte → DirtyIn before.live byte
  whole : (before.opts.maxArrayNum ≤ before.current.index ∨ ∀ slot, done slot →
      MarkedSlot flush before slot → Within flush (before.slots slot)) →
    after.current.index = before.current.index
  written : (∀ slot < before.current.index, (before.slots slot).state ≠ .clean) →
    ∀ slot < after.current.index, (after.slots slot).state ≠ .clean
  met : ∀ slot < after.current.index, cmpPmemSt flush (after.slots slot) = .eq →
    slot < before.current.index ∧ cmpPmemSt flush (before.slots slot) = .eq

namespace ByteFlushing

variable {flush : PmemSt} {visited done more : Nat → Prop} {before middle after : PmemOps}

/-- No slot is visited that a flush would mark, so that nothing is to be done. -/
theorem refl (sound : Sound before) (cleared : ∀ slot, done slot → ¬ MarkedSlot flush before slot) :
    ByteFlushing flush visited done before before where
  opts := rfl
  sound := sound
  same := SameTags.refl before
  boxes _ := ⟨rfl, rfl⟩
  tags _ := .inl rfl
  untouched _ _ _ := rfl
  cleared slot either marked := by
    rcases either with isDone | above
    · exact cleared slot isDone marked
    · exact absurd marked.1.inUse (Nat.not_lt.mpr above)
  stores _ member := .inl member
  older _ member := member
  bytes _ := Iff.rfl
  stillDirty _ _ := id
  wasDirty _ := id
  whole _ := rfl
  written := id
  met _ inUse meets := ⟨inUse, meets⟩

/-- A record that was not changed is marked as before. -/
theorem marked_iff (flushing : ByteFlushing flush visited done before after)
    (layout : Layout before) {slot : Nat} (inUse : slot < before.current.index)
    (record : after.slots slot = before.slots slot) :
    MarkedSlot flush after slot ↔ MarkedSlot flush before slot := by
  have settled := flushing.same.whollyTagged_iff layout flushing.sound.layout inUse
  unfold MarkedSlot
  rw [record]
  refine and_congr_left (fun _ => ⟨fun dirty => ?_, fun dirty => ?_⟩)
  · exact ⟨inUse, record ▸ dirty.undeleted, record ▸ dirty.dirty, settled.not.mp dirty.unsettled⟩
  · exact ⟨Nat.lt_of_lt_of_le inUse flushing.same.longer, record ▸ dirty.undeleted,
      record ▸ dirty.dirty, settled.not.mpr dirty.unsettled⟩

/-- Two parts of the loop are one that visited the slots of both. -/
theorem trans (layout : Layout before) (first : ByteFlushing flush visited done before middle)
    (second : ByteFlushing flush visited more middle after) :
    ByteFlushing flush visited (fun slot => done slot ∨ more slot) before after := by
  have longer := first.same.longer
  refine ⟨second.opts.trans first.opts, second.sound, first.same.trans second.same, ?_, ?_, ?_, ?_,
    ?_, ?_, ?_, ?_, ?_, ?_, ?_, ?_⟩
  · intro sIndex
    exact ⟨(second.boxes sIndex).1.trans (first.boxes sIndex).1,
      (second.boxes sIndex).2.trans (first.boxes sIndex).2⟩
  · intro sIndex
    rcases second.tags sIndex with same | part
    · rw [same]
      exact first.tags sIndex
    · exact .inr part
  · intro slot inUse neither
    rw [not_or] at neither
    rw [second.untouched slot (by omega) neither.2]
    exact first.untouched slot inUse neither.1
  · intro slot either marked
    by_cases later : more slot ∨ middle.current.index ≤ slot
    · exact second.cleared slot later marked
    · rw [not_or, Nat.not_le] at later
      rw [second.marked_iff first.sound.layout later.2
        (second.untouched slot later.2 later.1)] at marked
      refine first.cleared slot ?_ marked
      rcases either with (isDone | isMore) | above
      · exact .inl isDone
      · exact absurd isMore later.1
      · exact .inr above
  · intro store member
    rcases second.stores store member with inMiddle | added
    · exact first.stores store inMiddle
    · exact .inr added
  · exact fun store member => second.older store (first.older store member)
  · exact fun byte => (second.bytes byte).trans (first.bytes byte)
  · exact fun byte outside dirty => second.stillDirty byte outside
      (first.stillDirty byte outside dirty)
  · exact fun byte dirty => first.wasDirty byte (second.wasDirty byte dirty)
  · intro cutsNothing
    have sameEnd := first.whole (cutsNothing.imp_right (fun within slot isDone =>
      within slot (.inl isDone)))
    rw [← sameEnd]
    apply second.whole
    rw [first.opts, sameEnd]
    refine cutsNothing.imp_right (fun within slot isMore marked => ?_)
    by_cases isDone : done slot
    · exact absurd marked (first.cleared slot (.inl isDone))
    · have inUse : slot < before.current.index := sameEnd ▸ marked.1.inUse
      have record := first.untouched slot inUse isDone
      rw [first.marked_iff layout inUse record] at marked
      rw [record]
      exact within slot (.inr isMore) marked
  · exact fun written => second.written (first.written written)
  · intro slot inUse meets
    obtain ⟨middleUse, inMiddle⟩ := second.met slot inUse meets
    exact first.met slot middleUse inMiddle

/-- The visited slots may be described in another way. -/
theorem weaken {visited' done' : Nat → Prop} (flushing : ByteFlushing flush visited done
    before after) (visits : ∀ sIndex, visited sIndex → visited' sIndex)
    (cleared : ∀ slot, done' slot → done slot ∨ before.current.index ≤ slot)
    (touched : ∀ slot < before.current.index, done slot → done' slot) :
    ByteFlushing flush visited' done' before after where
  opts := flushing.opts
  sound := flushing.sound
  same := flushing.same
  boxes := flushing.boxes
  tags sIndex := (flushing.tags sIndex).imp_right (fun ⟨isVisited, part⟩ =>
    ⟨visits sIndex isVisited, part⟩)
  untouched slot inUse notDone :=
    flushing.untouched slot inUse (fun isDone => notDone (touched slot inUse isDone))
  cleared slot either := by
    apply flushing.cleared
    rcases either with isDone | above
    · exact cleared slot isDone
    · exact .inr above
  stores := flushing.stores
  older := flushing.older
  bytes := flushing.bytes
  stillDirty := flushing.stillDirty
  wasDirty := flushing.wasDirty
  whole cutsNothing := flushing.whole (cutsNothing.imp_right (fun within slot isDone marked =>
    within slot (touched slot marked.1.inUse isDone) marked))
  written := flushing.written
  met := flushing.met

end ByteFlushing

/-! ## One slot -/

section Slot

variable {flush being : PmemSt} {pmem before middle : PmemOps} {sIndex index : Nat}

/-- Adding a piece changes the end of a snippet only. -/
theorem appendSplit_snippets (piece : PmemSt) (pmem : PmemOps) (tested : Nat) :
    (pmem.appendSplit piece).snippetInfo tested = { pmem.snippetInfo tested with
      index := ((pmem.appendSplit piece).snippetInfo tested).index } := by
  simp only [PmemOps.appendSplit]
  split
  · simp only [setSnippet_snippetInfo, setSlot_snippetInfo]
    split
    · next same =>
      rw [same]
      rfl
    · rfl
  · rw [insertStore_frame]

/-- Adding a piece leaves the slots in use alone. -/
theorem appendSplit_slots (piece : PmemSt) (pmem : PmemOps) {slot : Nat}
    (inUse : slot < pmem.current.index) : (pmem.appendSplit piece).slots slot =
      pmem.slots slot := by
  simp only [PmemOps.appendSplit]
  split
  · rw [setSnippet_slots, setSlot_slots, if_neg (by omega)]
  · rw [insertStore_frame]

/-- Cutting the front of a slot that is marked already. -/
theorem SlotExchanged.splitFront {pieces : List PmemSt}
    (exchanged : SlotExchanged index pieces before middle) (range : flush.Proper)
    (plain : before.opts.treeReorganization = false) (inUse : index < before.current.index)
    (proper : being.Proper) (meets : cmpPmemSt flush being = .eq)
    (held : middle.slots index = { being with state := .flushed }) :
    SlotExchanged index (pieces ++ if being.addr < flush.addr
        then [frontSplit flush { being with state := .flushed }] else []) before
        (middle.splitFront flush index) ∧
      (middle.splitFront flush index).slots index = flushedFront flush being ∧
      ∀ tested, (middle.splitFront flush index).snippetInfo tested =
        { middle.snippetInfo tested with
        index := ((middle.splitFront flush index).snippetInfo tested).index } := by
  have middleUse := Nat.lt_of_lt_of_le inUse exchanged.same.longer
  have frontProper := (flushedFront_trims range proper meets).proper
  have pieceProper := (cut_exact range proper meets).pieces_proper
  simp only [PmemOps.splitFront, held]
  unfold flushedFront at frontProper ⊢
  unfold cutPieces at pieceProper
  by_cases sticksOut : being.addr < flush.addr
  · simp only [if_pos sticksOut] at frontProper pieceProper ⊢
    refine ⟨?_, ?_, fun tested => ?_⟩
    · apply (exchanged.setSlot inUse frontProper).appendSplit
      · exact exchanged.opts ▸ plain
      · exact pieceProper _ (by simp)
    · rw [appendSplit_slots _ _ (by exact middleUse), setSlot_slots, if_pos rfl]
    · rw [appendSplit_snippets]
      rfl
  · simp only [if_neg sticksOut, List.append_nil]
    exact ⟨exchanged, held, fun _ => trivial⟩

/-- Cutting the back of a slot whose front was cut. -/
theorem SlotExchanged.splitBack {pieces : List PmemSt}
    (exchanged : SlotExchanged index pieces before middle) (range : flush.Proper)
    (plain : before.opts.treeReorganization = false) (inUse : index < before.current.index)
    (proper : being.Proper) (meets : cmpPmemSt flush being = .eq)
    (held : middle.slots index = flushedFront flush being) :
    SlotExchanged index (pieces ++ if (flushedFront flush being).maxAddr > flush.maxAddr
        then [backSplit flush (flushedFront flush being)] else []) before
        (middle.splitBack flush index) ∧
      (middle.splitBack flush index).slots index = flushedPart flush being ∧
      ∀ tested, (middle.splitBack flush index).snippetInfo tested = { middle.snippetInfo tested with
        index := ((middle.splitBack flush index).snippetInfo tested).index } := by
  have middleUse := Nat.lt_of_lt_of_le inUse exchanged.same.longer
  have cut := cut_exact range proper meets
  have partProper := cut.kept_proper
  have pieceProper := cut.pieces_proper
  simp only [PmemOps.splitBack, held]
  unfold flushedPart at partProper ⊢
  unfold cutPieces at pieceProper
  by_cases sticksOut : (flushedFront flush being).maxAddr > flush.maxAddr
  · simp only [if_pos sticksOut] at partProper pieceProper ⊢
    refine ⟨?_, ?_, fun tested => ?_⟩
    · apply (exchanged.setSlot inUse partProper).appendSplit
      · exact exchanged.opts ▸ plain
      · exact pieceProper _ (by simp)
    · rw [appendSplit_slots _ _ (by exact middleUse), setSlot_slots, if_pos rfl]
    · rw [appendSplit_snippets]
      rfl
  · simp only [if_neg sticksOut, List.append_nil]
    exact ⟨exchanged, held, fun _ => trivial⟩

/-- The flush takes effect on a slot. -/
theorem cutSlot_exchanged (range : flush.Proper) (plain : pmem.opts.treeReorganization = false)
    (sound : Sound pmem) (inUse : index < pmem.current.index)
    (meets : cmpPmemSt flush (pmem.slots index) = .eq)
    (untagged : (pmem.snippetInfo sIndex).flushedNum ≠ .allFlushed) :
    let after := ((pmem.markSlot sIndex index).splitFront flush index).splitBack flush index
    SlotExchanged index (cutPieces flush (pmem.slots index)) pmem after ∧
      after.slots index = flushedPart flush (pmem.slots index) ∧
      ∀ tested, after.snippetInfo tested = { pmem.snippetInfo tested with
        index := (after.snippetInfo tested).index
        flushedNum := if tested = sIndex then .partFlushed
          else (pmem.snippetInfo tested).flushedNum } := by
  have proper := sound.slots index inUse
  have written : SlotExchanged index [] pmem
      (pmem.setSlot index { pmem.slots index with state := .flushed }) :=
    (SlotExchanged.refl index sound).setSlot inUse ⟨proper.nonempty, proper.nonWrapping⟩
  have tagged (tested : Nat) : (pmem.markSlot sIndex index).snippetInfo tested =
      { pmem.snippetInfo tested with flushedNum := if tested = sIndex then .partFlushed
          else (pmem.snippetInfo tested).flushedNum } := by
    simp only [markSlot, setSnippet_snippetInfo, setSlot_snippetInfo]
    split
    · next same => rw [same]
    · rfl
  have marked : SlotExchanged index [] pmem (pmem.markSlot sIndex index) := by
    refine written.congr rfl rfl (Nat.le_refl _) rfl ⟨rfl, fun tested => ?_, fun tested _ => ?_,
      Nat.le_of_eq ?_, fun tested => ?_⟩ (fun tested => ?_)
    · rw [tagged]
      rfl
    · rw [tagged]
      rfl
    · exact (markSlot_snippets sIndex index pmem).1.symm
    · rw [tagged]
      by_cases isTagged : tested = sIndex
      · simp only [if_pos isTagged]
        rw [isTagged]
        exact iff_of_false (by simp) untagged
      · simp only [if_neg isTagged]
        exact Iff.rfl
    · rw [tagged]
      rfl
  obtain ⟨front, frontHeld, frontBoxes⟩ := marked.splitFront range plain inUse proper meets
    (by simp [markSlot])
  obtain ⟨back, backHeld, backBoxes⟩ := front.splitBack range plain inUse proper meets frontHeld
  refine ⟨back, backHeld, fun tested => ?_⟩
  rw [backBoxes, frontBoxes, tagged]

/-- What a change of one slot has to satisfy to be a step of the flush. -/
theorem SlotExchanged.flushing {pieces : List PmemSt} {after : PmemOps}
    (exchanged : SlotExchanged index pieces before after) (layout : Layout before)
    (inUse : index < before.current.index) (isOpen : before.current.flushedNum ≠ .allFlushed)
    (boxes : ∀ tested, (after.snippetInfo tested).minAdd = (before.snippetInfo tested).minAdd ∧
      (after.snippetInfo tested).maxAdd = (before.snippetInfo tested).maxAdd)
    (tags : ∀ tested, (after.snippetInfo tested).flushedNum =
      (before.snippetInfo tested).flushedNum ∨
      tested = sIndex ∧ (after.snippetInfo tested).flushedNum = .partFlushed)
    (unmarked : ¬ MarkedSlot flush after index)
    (visible : ∀ piece ∈ pieces, piece.isDelete = false)
    (dirty : ∀ piece ∈ pieces, piece.state = .dirty)
    (clear : ∀ piece ∈ pieces, cmpPmemSt flush piece ≠ .eq)
    (bytes : ∀ byte, (after.slots index).isDelete = false ∧ (after.slots index).Covers byte ∨
      Tracks pieces byte ↔
        (before.slots index).isDelete = false ∧ (before.slots index).Covers byte)
    (stillDirty : ∀ byte, ¬ flush.Covers byte →
      DirtySlot before index ∧ (before.slots index).Covers byte →
        DirtySlot after index ∧ (after.slots index).Covers byte ∨ DirtyIn pieces byte)
    (wasDirty : ∀ byte, DirtySlot after index ∧ (after.slots index).Covers byte ∨
      DirtyIn pieces byte → DirtySlot before index ∧ (before.slots index).Covers byte)
    (whole : (MarkedSlot flush before index → Within flush (before.slots index)) → pieces = [])
    (written : (before.slots index).state ≠ .clean → (after.slots index).state ≠ .clean)
    (met : cmpPmemSt flush (after.slots index) = .eq → cmpPmemSt flush (before.slots index) = .eq) :
    ByteFlushing flush (· = sIndex) (· = index) before after := by
  have clearCopy (store piece : PmemSt) (member : piece ∈ pieces) (same : SameRecord store piece) :
      cmpPmemSt flush store ≠ .eq := by
    rw [(cmpPmemSt_congr (show store.addr = piece.addr by rw [same])
      (show store.size = piece.size by rw [same]) flush).2]
    exact clear piece member
  have beside := exchanged.dirtyBeside layout inUse isOpen visible
  have longer := exchanged.same.longer
  refine ⟨exchanged.opts, exchanged.sound, exchanged.same, boxes, tags, ?_, ?_, ?_,
    exchanged.old, ?_, ?_, ?_, ?_, ?_, ?_⟩
  · exact fun slot slotUsed differs => exchanged.others slot slotUsed differs
  · rintro slot (rfl | above) marked
    · exact unmarked marked
    · obtain ⟨piece, member, same⟩ := exchanged.added slot above marked.1.inUse
      exact clearCopy _ piece member same marked.2
  · intro store member
    rcases exchanged.new store member with inBefore | ⟨piece, isPiece, same⟩
    · exact .inl inBefore
    · refine .inr ⟨?_, clearCopy store piece isPiece same⟩
      rw [same]
      exact dirty piece isPiece
  · intro byte
    rw [shown_iff (Nat.lt_of_lt_of_le inUse longer), shown_iff inUse,
      exchanged.shownBeside inUse visible, ← or_assoc, bytes]
  · intro byte outside isDirty
    rw [exchanged.sound.layout.dirtyIn_beside index, beside, ← or_assoc]
    rw [layout.dirtyIn_beside index] at isDirty
    exact isDirty.imp_left (stillDirty byte outside)
  · intro byte isDirty
    rw [exchanged.sound.layout.dirtyIn_beside index, beside, ← or_assoc] at isDirty
    rw [layout.dirtyIn_beside index]
    exact isDirty.imp_left (wasDirty byte)
  · rintro (full | within)
    · exact exchanged.full full
    · have few := exchanged.few
      rw [whole (within index rfl), List.length_nil] at few
      omega
  · intro allWritten slot slotUsed
    by_cases wasUsed : slot < before.current.index
    · by_cases isIndex : slot = index
      · rw [isIndex]
        exact written (allWritten index inUse)
      · rw [exchanged.others slot wasUsed isIndex]
        exact allWritten slot wasUsed
    · obtain ⟨piece, member, same⟩ := exchanged.added slot (by omega) slotUsed
      rw [same]
      simp only
      rw [dirty piece member]
      simp
  · intro slot slotUsed meets
    by_cases wasUsed : slot < before.current.index
    · refine ⟨wasUsed, ?_⟩
      by_cases isIndex : slot = index
      · rw [isIndex] at meets ⊢
        exact met meets
      · rw [← exchanged.others slot wasUsed isIndex]
        exact meets
    · obtain ⟨piece, member, same⟩ := exchanged.added slot (by omega) slotUsed
      exact absurd meets (clearCopy _ piece member same)

/-- A piece lies outside the flushed range. -/
theorem cutPieces_clear (range : flush.Proper) (proper : being.Proper)
    (meets : cmpPmemSt flush being = .eq) {piece : PmemSt}
      (member : piece ∈ cutPieces flush being) :
    cmpPmemSt flush piece ≠ .eq := by
  have cut := cut_exact range proper meets
  intro meetsPiece
  obtain ⟨byte, inFlush, inPiece⟩ :=
    (cmpPmemSt_eq_iff_shared range (cut.pieces_proper piece member)).mp meetsPiece
  exact ((cut.pieces_cover byte).mp ⟨piece, member, inPiece⟩).2 inFlush

/-- Nothing is cut off a record within the range. -/
theorem cutPieces_within (range : flush.Proper) (proper : being.Proper)
    (meets : cmpPmemSt flush being = .eq) (within : Within flush being) :
    cutPieces flush being = [] := by
  have cut := cut_exact range proper meets
  apply List.eq_nil_iff_forall_not_mem.mpr
  intro piece member
  have size := (cut.pieces_proper piece member).nonempty
  obtain ⟨inBeing, outside⟩ := (cut.pieces_cover piece.addr).mp
    ⟨piece, member, Nat.le_refl _, by omega⟩
  exact outside (within.covers range proper inBeing)

/-- A step that leaves the slot its bytes and what they mean, and that leaves it unmarked. -/
theorem idleSlot_flushing {state : PmemOps} (range : flush.Proper) (sound : Sound pmem)
    (isOpen : pmem.current.flushedNum ≠ .allFlushed) (inUse : index < pmem.current.index)
    (exchanged : SlotExchanged index [] pmem state)
    (snippets : state.snippetInfo = pmem.snippetInfo)
    (sameDelete : (state.slots index).isDelete = (pmem.slots index).isDelete)
    (sameBytes : ∀ byte, (state.slots index).Covers byte ↔ (pmem.slots index).Covers byte)
    (sameDirty : DirtySlot state index ↔ DirtySlot pmem index)
    (unmarked : ¬ MarkedSlot flush state index)
    (written : (pmem.slots index).state ≠ .clean → (state.slots index).state ≠ .clean) :
    ByteFlushing flush (· = sIndex) (· = index) pmem state ∧
      state.current.index ≤ pmem.current.index + 2 := by
  refine ⟨?_, Nat.le_trans exchanged.few (by simp)⟩
  apply exchanged.flushing sound.layout inUse isOpen
  · exact fun _ => by rw [snippets]; exact ⟨rfl, rfl⟩
  · exact fun _ => .inl (by rw [snippets])
  · exact unmarked
  · simp
  · simp
  · simp
  · intro byte
    rw [sameDelete, sameBytes]
    simp
  · intro byte _ both
    rw [sameDirty, sameBytes]
    exact .inl both
  · intro byte either
    rw [sameDirty, sameBytes] at either
    simpa [DirtyIn] using either
  · exact fun _ => rfl
  · exact written
  · have stateProper := exchanged.sound.slots index
      (Nat.lt_of_lt_of_le inUse exchanged.same.longer)
    rw [cmpPmemSt_eq_iff_shared range stateProper,
      cmpPmemSt_eq_iff_shared range (sound.slots index inUse)]
    simp only [sameBytes]
    exact id

/-- A deleted record is marked as flushed, which nobody sees. -/
theorem deletedSlot_flushing (range : flush.Proper) (sound : Sound pmem)
    (isOpen : pmem.current.flushedNum ≠ .allFlushed) (inUse : index < pmem.current.index)
    (deleted : (pmem.slots index).isDelete = true) :
    ByteFlushing flush (· = sIndex) (· = index) pmem
        (pmem.setSlot index { pmem.slots index with state := .flushed }) ∧
      (pmem.setSlot index { pmem.slots index with state := .flushed }).current.index ≤
        pmem.current.index + 2 := by
  have proper := sound.slots index inUse
  have written : SlotExchanged index [] pmem
      (pmem.setSlot index { pmem.slots index with state := .flushed }) :=
    (SlotExchanged.refl index sound).setSlot inUse ⟨proper.nonempty, proper.nonWrapping⟩
  have held : (pmem.setSlot index { pmem.slots index with state := .flushed }).slots index =
      { pmem.slots index with state := .flushed } := if_pos rfl
  have clean : ¬ DirtySlot (pmem.setSlot index { pmem.slots index with state := .flushed })
      index := fun dirty => by
    have isDirty := dirty.dirty
    rw [held] at isDirty
    cases isDirty
  have gone : ¬ DirtySlot pmem index := fun dirty => by
    rw [dirty.undeleted] at deleted
    cases deleted
  refine idleSlot_flushing range sound isOpen inUse written rfl (by rw [held]) (fun byte => ?_)
    (iff_of_false clean gone) (fun marked => clean marked.1) (fun _ => ?_)
  · rw [held]
    exact Iff.rfl
  · rw [held]
    simp

/-- A record that is flushed already is warned about and stays as it is. -/
theorem redundantSlot_flushing (range : flush.Proper) (sound : Sound pmem)
    (isOpen : pmem.current.flushedNum ≠ .allFlushed) (inUse : index < pmem.current.index)
    (clean : ¬ DirtySlot pmem index) :
    ByteFlushing flush (· = sIndex) (· = index) pmem
        (pmem.warnRedundantFlush (pmem.slots index)) ∧
      (pmem.warnRedundantFlush (pmem.slots index)).current.index ≤ pmem.current.index + 2 := by
  have frame := warnRedundantFlush_frame (pmem.slots index) pmem
  generalize pmem.warnRedundantFlush (pmem.slots index) = state at *
  have slots : state.slots = pmem.slots := by rw [frame]
  have snippets : state.snippetInfo = pmem.snippetInfo := by rw [frame]
  have sameUsed : state.snippetInfoIndex = pmem.snippetInfoIndex := by rw [frame]
  have sameEnd : state.current.index = pmem.current.index := by
    rw [current, snippets, sameUsed]
    rfl
  have exchanged : SlotExchanged index [] pmem state := by
    refine (SlotExchanged.refl index sound).congr ?_ ?_ ?_ slots
      ⟨sameUsed, fun _ => by rw [snippets], fun _ _ => by rw [snippets],
        Nat.le_of_eq sameEnd.symm, fun _ => by rw [snippets]⟩ (fun _ => by rw [snippets])
    · rw [frame]
    · rw [frame]
    · rw [frame]
  have same : DirtySlot state index ↔ DirtySlot pmem index := by
    rw [frame]
    constructor
    · exact fun dirty => ⟨dirty.inUse, dirty.undeleted, dirty.dirty, dirty.unsettled⟩
    · exact fun dirty => ⟨dirty.inUse, dirty.undeleted, dirty.dirty, dirty.unsettled⟩
  refine idleSlot_flushing range sound isOpen inUse exchanged snippets (by rw [slots])
    (fun _ => by rw [slots]) same (fun marked => clean (same.mp marked.1)) ?_
  rw [slots]
  exact id

/-- A dirty record that the range meets is flushed there. What sticks out of the range stays dirty
in pieces of its own. -/
theorem cutSlot_flushing (range : flush.Proper) (plain : pmem.opts.treeReorganization = false)
    (sound : Sound pmem) (isOpen : pmem.current.flushedNum ≠ .allFlushed)
    (inUse : index < pmem.current.index) (wasDirty : DirtySlot pmem index)
    (meets : cmpPmemSt flush (pmem.slots index) = .eq)
    (untagged : (pmem.snippetInfo sIndex).flushedNum ≠ .allFlushed) :
    ByteFlushing flush (· = sIndex) (· = index) pmem
        (((pmem.markSlot sIndex index).splitFront flush index).splitBack flush index) ∧
      (((pmem.markSlot sIndex index).splitFront flush index).splitBack flush index).current.index ≤
        pmem.current.index + 2 := by
  have proper := sound.slots index inUse
  have cut := cut_exact range proper meets
  have marked : marks flush .noFlushed (pmem.slots index) := ⟨meets, by simp, wasDirty.dirty⟩
  obtain ⟨exchanged, held, boxes⟩ := cutSlot_exchanged range plain sound inUse meets untagged
  have notDirty : ¬ DirtySlot (((pmem.markSlot sIndex index).splitFront flush index).splitBack
      flush index) index := fun dirty => by
    have flushed := dirty.dirty
    rw [held, cut.kept_state] at flushed
    cases flushed
  generalize ((pmem.markSlot sIndex index).splitFront flush index).splitBack flush index =
    state at *
  have pieceFields (piece : PmemSt) (member : piece ∈ cutPieces flush (pmem.slots index)) :
      piece.isDelete = false := by
    have isPiece : piece ∈ treatPieces flush .noFlushed (pmem.slots index) := by
      rw [treatPieces, if_pos marked]
      exact member
    rw [(piece_exact range proper isPiece).2.2.1.1]
    exact wasDirty.undeleted
  have length := treatPieces_length flush .noFlushed (pmem.slots index)
  rw [treatPieces, if_pos marked] at length
  refine ⟨?_, Nat.le_trans exchanged.few (Nat.add_le_add_left length _)⟩
  apply exchanged.flushing sound.layout inUse isOpen
  · intro tested
    rw [boxes]
    exact ⟨rfl, rfl⟩
  · intro tested
    rw [boxes]
    by_cases isHere : tested = sIndex
    · exact .inr ⟨isHere, if_pos isHere⟩
    · exact .inl (if_neg isHere)
  · exact fun marked => notDirty marked.1
  · exact pieceFields
  · exact cut.pieces_state
  · exact fun piece member => cutPieces_clear range proper meets member
  · intro byte
    rw [held, cut.kept_mark.1, cut.kept_covers]
    have covered : Tracks (cutPieces flush (pmem.slots index)) byte ↔
      (pmem.slots index).Covers byte ∧ ¬ flush.Covers byte := cut.pieces_cover byte
    rw [covered]
    constructor
    · rintro (⟨_, inBeing, _⟩ | ⟨inBeing, _⟩)
      · exact ⟨wasDirty.undeleted, inBeing⟩
      · exact ⟨wasDirty.undeleted, inBeing⟩
    · rintro ⟨_, inBeing⟩
      by_cases inFlush : flush.Covers byte
      · exact .inl ⟨wasDirty.undeleted, inBeing, inFlush⟩
      · exact .inr ⟨inBeing, inFlush⟩
  · rintro byte outside ⟨_, inBeing⟩
    obtain ⟨piece, member, inPiece⟩ := (cut.pieces_cover byte).mpr ⟨inBeing, outside⟩
    exact .inr ⟨piece, member, cut.pieces_state piece member, inPiece⟩
  · rintro byte (⟨dirty, _⟩ | ⟨piece, member, _, inPiece⟩)
    · exact absurd dirty notDirty
    · exact ⟨wasDirty, ((cut.pieces_cover byte).mp ⟨piece, member, inPiece⟩).1⟩
  · exact fun within => cutPieces_within range proper meets (within ⟨wasDirty, meets⟩)
  · rw [held, cut.kept_state]
    simp
  · exact fun _ => meets

/-- The body of the inner loop of `do_flush` over the array. A deleted record is marked, one
that the range misses is left alone, one that is flushed already is warned about, and a dirty
one that the range meets is cut. -/
theorem flushSlot_flushing (range : flush.Proper) (plain : pmem.opts.treeReorganization = false)
    (sound : Sound pmem) (isOpen : pmem.current.flushedNum ≠ .allFlushed)
    (used : sIndex ≤ pmem.snippetInfoIndex) (inside : InSnippet pmem sIndex index) (valid : Bool) :
    ByteFlushing flush (· = sIndex) (· = index) pmem (pmem.flushSlot flush sIndex index valid).1 ∧
      (pmem.flushSlot flush sIndex index valid).1.current.index ≤ pmem.current.index + 2 := by
  have inUse : index < pmem.current.index := sound.layout.inUse_iff.mpr ⟨sIndex, used, inside⟩
  have settled := sound.layout.whollyTagged_iff used inside
  simp only [flushSlot]
  split
  · next deleted => exact deletedSlot_flushing range sound isOpen inUse deleted
  · next undeleted =>
    split
    · next misses =>
      exact idleSlot_flushing range sound isOpen inUse (SlotExchanged.refl index sound) rfl rfl
        (fun _ => Iff.rfl) Iff.rfl (fun marked => misses marked.2) id
    · next meets =>
      rw [not_not] at meets
      split
      · next redundant =>
        refine redundantSlot_flushing range sound isOpen inUse (fun dirty => ?_)
        rcases redundant with tagged | notDirty
        · exact dirty.unsettled (settled.mpr tagged)
        · exact notDirty dirty.dirty
      · next effective =>
        rw [not_or, not_not] at effective
        obtain ⟨untagged, isDirty⟩ := effective
        have wasDirty : DirtySlot pmem index :=
          ⟨inUse, by simpa using undeleted, isDirty, settled.not.mpr untagged⟩
        exact cutSlot_flushing range plain sound isOpen inUse wasDirty meets untagged

end Slot

/-! ## The loops over the array -/

section Loops

variable {flush : PmemSt} {pmem : PmemOps} {sIndex : Nat}

/-- The current snippet is still not tagged as flushed. -/
theorem SameTags.stillOpen {before after : PmemOps} (same : SameTags before after)
    (isOpen : before.current.flushedNum ≠ .allFlushed) : after.current.flushedNum ≠
      .allFlushed := by
  unfold current
  rw [same.used]
  exact (same.tags _).not.mpr isOpen

/-- Where a snippet ends after a step: where it ended, or behind the array if it is the
current one. -/
theorem SameTags.end_eq {before after : PmemOps} (same : SameTags before after) (tested : Nat) :
    (after.snippetInfo tested).index = if tested = before.snippetInfoIndex then after.current.index
      else (before.snippetInfo tested).index := by
  split
  · next isLast =>
    rw [isLast, ← same.used]
    rfl
  · next differs => exact same.ends tested differs

/-- A slot that was in use is in a snippet as before. -/
theorem SameTags.below_iff {before after : PmemOps} (same : SameTags before after)
    {tested slot : Nat} (wasUsed : slot < before.current.index) :
    slot < (after.snippetInfo tested).index ↔ slot < (before.snippetInfo tested).index := by
  have newEnd := same.end_eq tested
  split at newEnd
  · next isLast =>
    have longer := same.longer
    have sameEnd : before.current.index = (before.snippetInfo tested).index := by
      rw [isLast]
      rfl
    omega
  · rw [newEnd]

/-- The inner loop from a slot on. Below the bound it meets the records that the snippet
held, at most two pieces for each of them are appended, and these it passes. -/
theorem flushSlots_flushing (range : flush.Proper) (fuel index bound : Nat) (pmem : PmemOps)
    (valid : Bool) (plain : pmem.opts.treeReorganization = false) (sound : Sound pmem)
    (isOpen : pmem.current.flushedNum ≠ .allFlushed) (used : sIndex ≤ pmem.snippetInfoIndex)
    (low : (pmem.snippetInfo sIndex).startIndex ≤ index)
    (within : bound ≤ (pmem.snippetInfo sIndex).index)
    (clear : ∀ slot, bound ≤ slot → slot < (pmem.snippetInfo sIndex).index →
      ¬ MarkedSlot flush pmem slot)
    (enough : 3 * (bound - index) + ((pmem.snippetInfo sIndex).index - max index bound) < fuel) :
    ByteFlushing flush (· = sIndex)
      (fun slot => index ≤ slot ∧ slot < (pmem.snippetInfo sIndex).index) pmem
      (flushSlots flush sIndex fuel index pmem valid).1 := by
  induction fuel generalizing index pmem valid with
  | zero => omega
  | succ fuel inductionHypothesis =>
    simp only [flushSlots]
    split
    · next more =>
      obtain ⟨turn, few⟩ :=
        flushSlot_flushing range plain sound isOpen used ⟨low, more⟩ valid
      generalize (pmem.flushSlot flush sIndex index valid) = result at *
      have lastIndex : pmem.current.index = (pmem.snippetInfo pmem.snippetInfoIndex).index := rfl
      have bounded := sound.layout.bounded used
      have newEnd := turn.same.end_eq sIndex
      have longer := turn.same.longer
      have newClear (slot : Nat) (above : bound ≤ slot ∧ index ≠ slot)
          (below : slot < (result.1.snippetInfo sIndex).index) :
            ¬ MarkedSlot flush result.1 slot := by
        by_cases old : slot < (pmem.snippetInfo sIndex).index
        · have record := turn.untouched slot (by omega) (fun isIndex => above.2 isIndex.symm)
          rw [turn.marked_iff sound.layout (by omega) record]
          exact clear slot above.1 old
        · apply turn.cleared
          right
          split at newEnd
          · next isLast =>
            rw [lastIndex, ← isLast]
            omega
          · omega
      have next := inductionHypothesis (index + 1) result.1 result.2 (turn.opts ▸ plain) turn.sound
        (turn.same.stillOpen isOpen) (by rw [turn.same.used]; exact used)
        (by rw [turn.same.starts]; omega)
      have nextBound : bound ≤ (result.1.snippetInfo sIndex).index := by
        split at newEnd
        · next isLast =>
          rw [isLast, ← lastIndex] at within
          omega
        · omega
      have made : ByteFlushing flush (· = sIndex)
          (fun slot => index + 1 ≤ slot ∧ slot < (result.1.snippetInfo sIndex).index) result.1
          (flushSlots flush sIndex fuel (index + 1) result.1 result.2).1 := by
        by_cases original : index < bound
        · apply next nextBound
          · exact fun slot above below => newClear slot ⟨above, by omega⟩ below
          · split at newEnd
            · next isLast =>
              rw [isLast, ← lastIndex] at enough
              rw [isLast] at newEnd ⊢
              omega
            · omega
        · have sameEnd := turn.whole (.inr (fun slot isIndex marked => by
            rw [isIndex] at marked
            exact absurd marked (clear index (by omega) more)))
          apply next nextBound
          · intro slot above below
            by_cases isIndex : index = slot
            · rw [← isIndex]
              exact turn.cleared index (.inl rfl)
            · exact newClear slot ⟨above, isIndex⟩ below
          · split at newEnd
            · next isLast =>
              rw [isLast, ← lastIndex] at enough
              rw [isLast] at newEnd ⊢
              omega
            · omega
      apply (turn.trans sound.layout made).weaken (fun _ => id)
      · rintro slot ⟨above, below⟩
        left
        by_cases isIndex : slot = index
        · exact .inl isIndex
        · refine .inr ⟨by omega, ?_⟩
          split at newEnd
          · next isLast =>
            rw [isLast, ← lastIndex] at below
            omega
          · omega
      · rintro slot inUse (isIndex | ⟨above, below⟩)
        · omega
        · refine ⟨by omega, ?_⟩
          split at newEnd
          · next isLast =>
            rw [isLast, ← lastIndex]
            exact inUse
          · omega
    · next finished =>
      exact ByteFlushing.refl sound (fun slot both => by omega)

/-- The body of the outer loop, unless it tags the snippet. -/
theorem flushSnippet_flushing (range : flush.Proper) (valid : Bool)
    (plain : pmem.opts.treeReorganization = false) (sound : Sound pmem)
    (isOpen : pmem.current.flushedNum ≠ .allFlushed) (used : sIndex ≤ pmem.snippetInfoIndex)
    (untagged : ¬ tagsSnippet flush (pmem.snippetInfo sIndex)) :
    ByteFlushing flush (· = sIndex)
      (fun slot => ¬ skipsSnippet flush (pmem.snippetInfo sIndex) ∧ InSnippet pmem sIndex slot) pmem
      (flushSnippet flush (pmem, valid) sIndex).1 := by
  simp only [flushSnippet, if_neg untagged]
  split
  · next skipped => exact ByteFlushing.refl sound (fun slot both => absurd skipped both.1)
  · next reached =>
    have ordered := sound.layout.ordered sIndex used
    have flushing := flushSlots_flushing range
      (3 * ((pmem.snippetInfo sIndex).index - (pmem.snippetInfo sIndex).startIndex) + 1)
      (pmem.snippetInfo sIndex).startIndex (pmem.snippetInfo sIndex).index pmem valid plain sound
      isOpen used (Nat.le_refl _) (Nat.le_refl _) (fun slot above below => by omega) (by omega)
    apply flushing.weaken (fun _ => id)
    · exact fun slot both => .inl both.2
    · exact fun slot _ inside => ⟨reached, inside⟩

/-- The outer loop before it enters a snippet. -/
theorem flushSnippets_flushing (range : flush.Proper) (plain : pmem.opts.treeReorganization = false)
    (sound : Sound pmem) (isOpen : pmem.current.flushedNum ≠ .allFlushed)
    (closed : ∀ sIndex < pmem.snippetInfoIndex, (pmem.snippetInfo sIndex).flushedNum ≠ .noFlushed)
    (count : Nat) (used : count ≤ pmem.snippetInfoIndex) :
    ByteFlushing flush (· < count)
      (fun slot => ∃ sIndex < count, ¬ skipsSnippet flush (pmem.snippetInfo sIndex) ∧
        InSnippet pmem sIndex slot) pmem
      ((List.range count).foldl (flushSnippet flush) (pmem, false)).1 := by
  induction count with
  | zero => exact ByteFlushing.refl sound (fun slot ⟨sIndex, below, _⟩ => by omega)
  | succ count inductionHypothesis =>
    rw [List.range_succ, List.foldl_append]
    have first := inductionHypothesis (by omega)
    generalize (List.range count).foldl (flushSnippet flush) (pmem, false) = state at *
    have sameBox := first.boxes count
    have stillClosed : (state.1.snippetInfo count).flushedNum ≠ .noFlushed := by
      rcases first.tags count with same | ⟨earlier, _⟩
      · rw [same]
        exact closed count (by omega)
      · omega
    have turn := flushSnippet_flushing range state.2 (first.opts ▸ plain) first.sound
      (first.same.stillOpen isOpen) (show count ≤ state.1.snippetInfoIndex by
        rw [first.same.used]; omega) (fun tags => stillClosed tags.2.2)
    have sameSkip : skipsSnippet flush (state.1.snippetInfo count) ↔
        skipsSnippet flush (pmem.snippetInfo count) := by
      unfold skipsSnippet
      rw [sameBox.1, sameBox.2]
    have sameSlots (slot : Nat) : InSnippet state.1 count slot ↔ InSnippet pmem count slot := by
      unfold InSnippet
      rw [first.same.starts, first.same.ends count (by omega)]
    have both := (first.weaken (fun _ below => Nat.lt_succ_of_lt below)
      (fun _ => Or.inl) (fun _ _ => id)).trans sound.layout
        (turn.weaken (fun _ isCount => by omega) (fun _ => Or.inl) (fun _ _ => id))
    apply both.weaken (fun _ => id)
    · rintro slot ⟨sIndex, below, reached, inside⟩
      left
      by_cases isLast : sIndex = count
      · right
        rw [isLast] at reached inside
        exact ⟨sameSkip.not.mpr reached, (sameSlots slot).mpr inside⟩
      · exact .inl ⟨sIndex, by omega, reached, inside⟩
    · rintro slot _ (⟨sIndex, below, reached, inside⟩ | ⟨reached, inside⟩)
      · exact ⟨sIndex, by omega, reached, inside⟩
      · exact ⟨count, by omega, sameSkip.not.mp reached, (sameSlots slot).mp inside⟩

end Loops

/-! ## The conditions -/

/-- If the flush tags the current snippet, it covers every dirty record of that snippet, and
it cuts nothing off a record of an earlier one that could be appended to it. -/
def TagsCovered (flush : PmemSt) (pmem : PmemOps) : Prop :=
  tagsSnippet flush pmem.current →
    (∀ slot ∈ slotRange pmem.current, (pmem.slots slot).isDelete = false →
      (pmem.slots slot).state = .dirty → Within flush (pmem.slots slot)) ∧
    (pmem.opts.maxArrayNum ≤ pmem.current.index ∨
      ∀ sIndex ∈ List.range pmem.snippetInfoIndex, ¬ skipsSnippet flush (pmem.snippetInfo sIndex) →
        ∀ slot ∈ slotRange (pmem.snippetInfo sIndex), (pmem.slots slot).isDelete = false →
          marks flush (pmem.snippetInfo sIndex).flushedNum (pmem.slots slot) →
            Within flush (pmem.slots slot))

instance (flush : PmemSt) (pmem : PmemOps) : Decidable (TagsCovered flush pmem) :=
  inferInstanceAs (Decidable (_ → _ ∧ (_ ∨ _)))

/-- The range misses the bounds of the tree, which is then skipped, whatever it holds. -/
def skipsTree (range : PmemSt) (pmem : PmemOps) : Prop :=
  range.addr > pmem.maxAddPmemStore ∨ range.maxAddr < pmem.minAddPmemStore

instance (range : PmemSt) (pmem : PmemOps) : Decidable (skipsTree range pmem) :=
  inferInstanceAs (Decidable (_ ∨ _))

/-- The flush skips neither a snippet nor the tree although a dirty record there meets the
range. -/
def MissesNothing (flush : PmemSt) (pmem : PmemOps) : Prop :=
  (∀ sIndex ∈ List.range (pmem.snippetInfoIndex + 1),
    ∀ slot ∈ slotRange (pmem.snippetInfo sIndex), (pmem.slots slot).isDelete = false →
      marks flush (pmem.snippetInfo sIndex).flushedNum (pmem.slots slot) →
        tagsSnippet flush (pmem.snippetInfo sIndex) ∨
          ¬ skipsSnippet flush (pmem.snippetInfo sIndex)) ∧
  (flush.addr > pmem.maxAddPmemStore ∨ flush.maxAddr < pmem.minAddPmemStore →
    ∀ store ∈ pmem.pmemStores.toList, ¬ marksTree flush store)

instance (flush : PmemSt) (pmem : PmemOps) : Decidable (MissesNothing flush pmem) :=
  inferInstanceAs (Decidable ((∀ sIndex ∈ _, ∀ slot ∈ _, _ → _ → _) ∧ (_ → _)))

/-- The tracker between two requests with a tree that is ordered by index. Records may be
deleted, and the bounds of the tree need not enclose it. -/
structure Steady (pmem : PmemOps) : Prop where
  plain : pmem.opts.treeReorganization = false
  sound : Sound pmem
  opened : pmem.current.flushedNum = .noFlushed
  closed : ∀ sIndex < pmem.snippetInfoIndex, (pmem.snippetInfo sIndex).flushedNum ≠ .noFlushed
  slots : ∀ slot < pmem.current.index, (pmem.slots slot).state ≠ .clean
  stores : ∀ store ∈ pmem.pmemStores.toList, store.state ≠ .clean

/-! ## The whole flush -/

/-- What the loops over the array do together. Dirty bytes of the range are dirty no more
unless their snippet was skipped, and all others stay. -/
structure ArrayFlushed (flush : PmemSt) (before after : PmemOps) : Prop where
  opts : after.opts = before.opts
  sound : Sound after
  used : after.snippetInfoIndex = before.snippetInfoIndex
  closed : ∀ sIndex < before.snippetInfoIndex, (after.snippetInfo sIndex).flushedNum ≠ .noFlushed
  stores : ∀ store ∈ after.pmemStores.toList, store ∈ before.pmemStores.toList ∨
    store.state = .dirty ∧ cmpPmemSt flush store ≠ .eq
  older : ∀ store ∈ before.pmemStores.toList, store ∈ after.pmemStores.toList
  bytes : ∀ byte, Shown after byte ↔ Shown before byte
  stillDirty : TagsCovered flush before → ∀ byte, ¬ flush.Covers byte → DirtyIn before.live byte →
    DirtyIn after.live byte
  wasDirty : ∀ byte, DirtyIn after.live byte → DirtyIn before.live byte
  cleared : MissesNothing flush before → ∀ slot, ¬ MarkedSlot flush after slot
  written : ∀ slot < after.current.index, (after.slots slot).state ≠ .clean

section Whole

variable {flush : PmemSt} {pmem : PmemOps}

/-- A dirty slot that meets the range is one that its snippet's tag lets the flush mark. -/
theorem MarkedSlot.marks {sIndex slot : Nat} (layout : Layout pmem)
    (used : sIndex ≤ pmem.snippetInfoIndex) (inside : InSnippet pmem sIndex slot)
    (marked : MarkedSlot flush pmem slot) :
    (pmem.slots slot).isDelete = false ∧
      PmDebugger.marks flush (pmem.snippetInfo sIndex).flushedNum (pmem.slots slot) :=
  ⟨marked.1.undeleted, marked.2, (layout.whollyTagged_iff used inside).not.mp marked.1.unsettled,
    marked.1.dirty⟩

/-- The slots of the snippets that the loops came to are unmarked afterwards, if the flush misses
nothing. A snippet that was skipped held no marked slot before. -/
theorem ByteFlushing.unmarked {P : Nat → Prop} {visited : Nat → Prop} {after : PmemOps}
    (steady : Steady pmem)
    (flushing : ByteFlushing flush visited (fun slot => ∃ sIndex, P sIndex ∧
      ¬ skipsSnippet flush (pmem.snippetInfo sIndex) ∧ InSnippet pmem sIndex slot) pmem after)
    (bound : ∀ sIndex, P sIndex → sIndex ≤ pmem.snippetInfoIndex)
    (misses : MissesNothing flush pmem) {sIndex slot : Nat} (isVisited : P sIndex)
    (inside : InSnippet pmem sIndex slot)
    (untagged : ¬ tagsSnippet flush (pmem.snippetInfo sIndex)) : ¬ MarkedSlot flush after slot := by
  intro marked
  have layout := steady.sound.layout
  have used := bound sIndex isVisited
  have inUse := layout.inUse_iff.mpr ⟨sIndex, used, inside⟩
  by_cases skipped : skipsSnippet flush (pmem.snippetInfo sIndex)
  · have notDone : ¬ ∃ other, P other ∧ ¬ skipsSnippet flush (pmem.snippetInfo other) ∧
        InSnippet pmem other slot := by
      rintro ⟨other, otherVisited, reached, inOther⟩
      rw [layout.unique (bound other otherVisited) used inOther inside] at reached
      exact reached skipped
    rw [flushing.marked_iff layout inUse (flushing.untouched slot inUse notDone)] at marked
    obtain ⟨undeleted, isMarked⟩ := marked.marks layout used inside
    rcases misses.1 sIndex (List.mem_range.mpr (by omega)) slot (mem_slotRange.mpr inside)
      undeleted isMarked with tags | reached
    · exact untagged tags
    · exact reached skipped
  · exact flushing.cleared slot (.inl ⟨sIndex, isVisited, skipped, inside⟩) marked

/-- The last snippet is flushed record by record. -/
theorem ByteFlushing.array {after : PmemOps} (steady : Steady pmem)
    (flushing : ByteFlushing flush (fun _ => True) (fun slot => ∃ sIndex ≤ pmem.snippetInfoIndex,
      ¬ skipsSnippet flush (pmem.snippetInfo sIndex) ∧ InSnippet pmem sIndex slot) pmem after)
    (untagged : ¬ tagsSnippet flush pmem.current) : ArrayFlushed flush pmem after := by
  refine ⟨flushing.opts, flushing.sound, flushing.same.used, ?_, flushing.stores,
    flushing.older, flushing.bytes, fun _ => flushing.stillDirty, flushing.wasDirty, ?_,
      flushing.written steady.slots⟩
  · intro sIndex below
    rcases flushing.tags sIndex with same | ⟨_, part⟩
    · rw [same]
      exact steady.closed sIndex below
    · rw [part]
      simp
  · intro misses slot
    by_cases inUse : slot < pmem.current.index
    · obtain ⟨sIndex, used, inside⟩ := steady.sound.layout.inUse_iff.mp inUse
      refine flushing.unmarked steady (fun _ => id) misses used inside (fun tags => ?_)
      by_cases isLast : sIndex = pmem.snippetInfoIndex
      · rw [isLast] at tags
        exact untagged tags
      · exact steady.closed sIndex (by omega) tags.2.2
    · exact flushing.cleared slot (.inr (by omega))

/-- Tagging a snippet changes no record and no other tag. -/
structure Tagged (sIndex : Nat) (before after : PmemOps) : Prop where
  records : SameRecords before after
  tagged : (after.snippetInfo sIndex).flushedNum = .allFlushed
  others : ∀ tested ≠ sIndex,
    (after.snippetInfo tested).flushedNum = (before.snippetInfo tested).flushedNum

/-- The source tags a snippet with one assignment. -/
theorem setSnippet_tagged (sIndex : Nat) (pmem : PmemOps) :
    Tagged sIndex pmem
      (pmem.setSnippet sIndex { pmem.snippetInfo sIndex with flushedNum := .allFlushed }) := by
  have snippets (tested : Nat) : (pmem.setSnippet sIndex { pmem.snippetInfo sIndex with
      flushedNum := .allFlushed }).snippetInfo tested = { pmem.snippetInfo tested with
      flushedNum := if tested = sIndex then .allFlushed
        else (pmem.snippetInfo tested).flushedNum } := by
    rw [setSnippet_snippetInfo]
    split
    · next same => rw [same]
    · rfl
  refine ⟨⟨rfl, rfl, Nat.le_refl _, rfl, rfl, fun tested => by rw [snippets],
    fun tested => by rw [snippets]⟩, ?_, fun tested differs => ?_⟩
  · rw [snippets]
    exact if_pos rfl
  · rw [snippets]
    exact if_neg differs

namespace Tagged

variable {middle after : PmemOps} {sIndex : Nat}

/-- A snippet has the slots that it had. -/
theorem inSnippet_iff (tagged : Tagged sIndex middle after) (tested slot : Nat) :
    InSnippet after tested slot ↔ InSnippet middle tested slot := by
  unfold InSnippet
  rw [tagged.records.starts, tagged.records.ends]

/-- The slots of the tagged snippet are settled, the others are as before. -/
theorem dirtySlot_iff (tagged : Tagged sIndex middle after)
    (used : sIndex ≤ middle.snippetInfoIndex) (slot : Nat) :
    DirtySlot after slot ↔ DirtySlot middle slot ∧ ¬ InSnippet middle sIndex slot := by
  have slots := tagged.records.slots
  have sameUsed := tagged.records.used
  have sameEnd := tagged.records.current_index
  constructor
  · rintro ⟨inUse, undeleted, dirty, unsettled⟩
    rw [slots] at undeleted dirty
    rw [sameEnd] at inUse
    refine ⟨⟨inUse, undeleted, dirty, fun settled => unsettled ?_⟩, fun inLast => unsettled ?_⟩
    · obtain ⟨tested, testedUsed, inSnippet, isTagged⟩ := settled
      refine ⟨tested, by omega, (tagged.inSnippet_iff tested slot).mpr inSnippet, ?_⟩
      by_cases isHere : tested = sIndex
      · rw [isHere]
        exact tagged.tagged
      · rw [tagged.others tested isHere]
        exact isTagged
    · exact ⟨sIndex, by omega, (tagged.inSnippet_iff sIndex slot).mpr inLast, tagged.tagged⟩
  · rintro ⟨⟨inUse, undeleted, dirty, unsettled⟩, notLast⟩
    refine ⟨sameEnd ▸ inUse, slots ▸ undeleted, slots ▸ dirty, ?_⟩
    rintro ⟨tested, testedUsed, inSnippet, isTagged⟩
    rw [tagged.inSnippet_iff] at inSnippet
    by_cases isHere : tested = sIndex
    · rw [isHere] at inSnippet
      exact notLast inSnippet
    · rw [tagged.others tested isHere] at isTagged
      exact unsettled ⟨tested, by omega, inSnippet, isTagged⟩

/-- Tagging makes no byte dirty. -/
theorem wasDirty (tagged : Tagged sIndex middle after) (sound : Sound middle)
    (used : sIndex ≤ middle.snippetInfoIndex) (byte : Nat) (dirty : DirtyIn after.live byte) :
    DirtyIn middle.live byte := by
  have kept : Kept (fun _ => False) middle after := tagged.records.kept sound
  rw [kept.sound.layout.dirtyIn_live, tagged.records.slots, tagged.records.stores] at dirty
  rw [sound.layout.dirtyIn_live]
  rcases dirty with ⟨slot, isDirty, covered⟩ | inTree
  · exact .inl ⟨slot, ((tagged.dirtySlot_iff used slot).mp isDirty).1, covered⟩
  · exact .inr inTree

end Tagged

section Tagging

variable {middle after : PmemOps}
  (flushing : ByteFlushing flush (· < pmem.snippetInfoIndex)
    (fun slot => ∃ sIndex < pmem.snippetInfoIndex,
      ¬ skipsSnippet flush (pmem.snippetInfo sIndex) ∧ InSnippet pmem sIndex slot) pmem middle)
  (tagged : Tagged pmem.snippetInfoIndex middle after)

include flushing tagged

/-- If the tag covers the dirty records of its snippet, the dirty bytes outside of the range stay
dirty: no piece of an earlier record came into the snippet, and its own records lie within the
range. -/
theorem tagged_stillDirty (range : flush.Proper) (steady : Steady pmem)
    (tags : tagsSnippet flush pmem.current) (covered : TagsCovered flush pmem) (byte : Nat)
    (outside : ¬ flush.Covers byte) (dirty : DirtyIn pmem.live byte) :
    DirtyIn after.live byte := by
  have layout := steady.sound.layout
  have kept : Kept (fun _ => False) middle after := tagged.records.kept flushing.sound
  obtain ⟨within, cutsNothing⟩ := covered tags
  have middleEnd : middle.current.index = pmem.current.index := by
    apply flushing.whole
    refine cutsNothing.imp_right (fun isWithin slot isDone marked => ?_)
    obtain ⟨sIndex, below, reached, inSnippet⟩ := isDone
    obtain ⟨undeleted, isMarked⟩ := marked.marks layout (Nat.le_of_lt below) inSnippet
    exact isWithin sIndex (List.mem_range.mpr below) reached slot (mem_slotRange.mpr inSnippet)
      undeleted isMarked
  have stays := flushing.stillDirty byte outside dirty
  rw [flushing.sound.layout.dirtyIn_live] at stays
  rw [kept.sound.layout.dirtyIn_live, tagged.records.slots, tagged.records.stores]
  rcases stays with ⟨slot, isDirty, inRecord⟩ | inTree
  · left
    refine ⟨slot, (tagged.dirtySlot_iff (Nat.le_of_eq flushing.same.used.symm) slot).mpr
      ⟨isDirty, fun inLast => ?_⟩, inRecord⟩
    have inCurrent : InSnippet pmem pmem.snippetInfoIndex slot := by
      have below : slot < pmem.current.index := middleEnd ▸ isDirty.inUse
      exact ⟨(flushing.same.starts pmem.snippetInfoIndex) ▸ inLast.1, below⟩
    have record : middle.slots slot = pmem.slots slot := by
      apply flushing.untouched slot inCurrent.2
      rintro ⟨sIndex, below, _, inSnippet⟩
      have same := layout.unique (Nat.le_of_lt below) (Nat.le_refl _) inSnippet inCurrent
      omega
    rw [record] at inRecord
    have inUse : slot < pmem.current.index := inCurrent.2
    exact outside ((within slot (mem_slotRange.mpr inCurrent) (record ▸ isDirty.undeleted)
      (record ▸ isDirty.dirty)).covers range (steady.sound.slots slot inUse) inRecord)
  · exact .inr inTree

/-- No slot is marked afterwards, if the flush misses nothing. -/
theorem tagged_cleared (steady : Steady pmem) (misses : MissesNothing flush pmem) (slot : Nat) :
    ¬ MarkedSlot flush after slot := by
  rintro ⟨isDirty, meets⟩
  obtain ⟨middleDirty, notLast⟩ :=
    (tagged.dirtySlot_iff (Nat.le_of_eq flushing.same.used.symm) slot).mp isDirty
  rw [tagged.records.slots] at meets
  have marked : MarkedSlot flush middle slot := ⟨middleDirty, meets⟩
  by_cases inUse : slot < pmem.current.index
  · obtain ⟨sIndex, used, inside⟩ := steady.sound.layout.inUse_iff.mp inUse
    have below : sIndex < pmem.snippetInfoIndex := by
      by_contra notBelow
      have isLast : sIndex = pmem.snippetInfoIndex := by omega
      rw [isLast] at inside
      exact notLast (flushing.same.inSnippet inside)
    exact flushing.unmarked steady (fun _ => Nat.le_of_lt) misses below inside
      (fun tags => steady.closed sIndex below tags.2.2) marked
  · exact flushing.cleared slot (.inr (by omega)) marked

/-- The last snippet is tagged as a whole. -/
theorem ByteFlushing.array_tagged (range : flush.Proper) (steady : Steady pmem)
    (tags : tagsSnippet flush pmem.current) : ArrayFlushed flush pmem after := by
  have kept : Kept (fun _ => False) middle after := tagged.records.kept flushing.sound
  have slots := tagged.records.slots
  have stores := tagged.records.stores
  have sameEnd := tagged.records.current_index
  have used : pmem.snippetInfoIndex ≤ middle.snippetInfoIndex :=
    Nat.le_of_eq flushing.same.used.symm
  refine ⟨kept.opts.trans flushing.opts, kept.sound,
    tagged.records.used.trans flushing.same.used, ?_, ?_, ?_, ?_,
    tagged_stillDirty flushing tagged range steady tags, ?_,
    tagged_cleared flushing tagged steady, ?_⟩
  · intro sIndex below
    rw [tagged.others sIndex (Nat.ne_of_lt below)]
    rcases flushing.tags sIndex with same | ⟨_, part⟩
    · rw [same]
      exact steady.closed sIndex below
    · rw [part]
      simp
  · rw [stores]
    exact flushing.stores
  · rw [stores]
    exact flushing.older
  · intro byte
    rw [← flushing.bytes]
    unfold Shown
    rw [sameEnd, slots, stores]
  · intro byte dirty
    exact flushing.wasDirty byte (tagged.wasDirty flushing.sound used byte dirty)
  · rw [sameEnd, slots]
    exact flushing.written steady.slots

end Tagging

/-- The loops of `do_flush` over the array. -/
theorem flushArray_flushed (range : flush.Proper) (steady : Steady pmem) :
    ArrayFlushed flush pmem (pmem.flushArray flush).1 := by
  have isOpen : pmem.current.flushedNum ≠ .allFlushed := by
    rw [steady.opened]
    simp
  have first := flushSnippets_flushing range steady.plain steady.sound isOpen steady.closed
    pmem.snippetInfoIndex (Nat.le_refl _)
  have split : (pmem.flushArray flush).1 = (flushSnippet flush
      ((List.range pmem.snippetInfoIndex).foldl (flushSnippet flush) (pmem, false))
        pmem.snippetInfoIndex).1 := by
    simp only [flushArray, List.range_succ, List.foldl_append, List.foldl_cons, List.foldl_nil]
  rw [split]
  generalize (List.range pmem.snippetInfoIndex).foldl (flushSnippet flush) (pmem, false) =
    state at *
  have sameBox := first.boxes pmem.snippetInfoIndex
  have sameTag : (state.1.snippetInfo pmem.snippetInfoIndex).flushedNum =
      (pmem.snippetInfo pmem.snippetInfoIndex).flushedNum := by
    rcases first.tags pmem.snippetInfoIndex with same | ⟨below, _⟩
    · exact same
    · omega
  have sameTags : tagsSnippet flush (state.1.snippetInfo pmem.snippetInfoIndex) ↔
      tagsSnippet flush pmem.current := by
    unfold tagsSnippet current
    rw [sameBox.1, sameBox.2, sameTag]
  have sameSkip : skipsSnippet flush (state.1.snippetInfo pmem.snippetInfoIndex) ↔
      skipsSnippet flush (pmem.snippetInfo pmem.snippetInfoIndex) := by
    unfold skipsSnippet
    rw [sameBox.1, sameBox.2]
  by_cases tags : tagsSnippet flush pmem.current
  · simp only [flushSnippet, if_pos (sameTags.mpr tags)]
    exact first.array_tagged (setSnippet_tagged _ _) range steady tags
  · have turn := flushSnippet_flushing range state.2 (first.opts ▸ steady.plain) first.sound
      (first.same.stillOpen isOpen) (Nat.le_of_eq first.same.used.symm) (sameTags.not.mpr tags)
    have everywhere (sIndex : Nat) : True := trivial
    have both := (first.weaken (fun sIndex _ => everywhere sIndex) (fun _ => Or.inl)
      (fun _ _ => id)).trans steady.sound.layout
        (turn.weaken (fun sIndex _ => everywhere sIndex) (fun _ => Or.inl) (fun _ _ => id))
    refine ByteFlushing.array steady (both.weaken (fun _ => id) ?_ ?_) tags
    · rintro slot ⟨sIndex, used, reached, inside⟩
      left
      by_cases isLast : sIndex = pmem.snippetInfoIndex
      · right
        rw [isLast] at reached inside
        exact ⟨sameSkip.not.mpr reached, first.same.inSnippet inside⟩
      · exact .inl ⟨sIndex, by omega, reached, inside⟩
    · rintro slot inUse (⟨sIndex, below, reached, inside⟩ | ⟨reached, inside⟩)
      · exact ⟨sIndex, Nat.le_of_lt below, reached, inside⟩
      · refine ⟨pmem.snippetInfoIndex, Nat.le_refl _, sameSkip.not.mp reached, ?_, inUse⟩
        rw [← first.same.starts]
        exact inside.1

/-- What a flush does to the bytes of the tracker. The bytes that are shown stay, and a dirty
byte of the range is dirty no more, provided that nothing is tagged or skipped by mistake. -/
structure FlushedBytes (flush : PmemSt) (before after : PmemOps) : Prop where
  steady : Steady after
  bytes : ∀ byte, Tracks after.live byte ↔ Tracks before.live byte
  dirty : TagsCovered flush before → MissesNothing flush before → ∀ byte,
    DirtyIn after.live byte ↔ DirtyIn before.live byte ∧ ¬ flush.Covers byte

/-- Opening a new snippet changes no live record. -/
theorem closeSnippet_live (pmem : PmemOps) : pmem.closeSnippet.live = pmem.live := by
  unfold closeSnippet
  split
  · have old (sIndex : Nat) (used : sIndex ∈ List.range (pmem.snippetInfoIndex + 1)) :
        snippetLive pmem.initSnippetInfo sIndex = snippetLive pmem sIndex := by
      have differs : sIndex ≠ pmem.snippetInfoIndex + 1 := by
        have := List.mem_range.mp used
        omega
      simp only [snippetLive, initSnippetInfo, setSnippet_snippetInfo, setSnippet_slots,
        if_neg differs]
    have new : snippetLive pmem.initSnippetInfo (pmem.snippetInfoIndex + 1) = [] := by
      simp [snippetLive, initSnippetInfo, slotRange, emptySnippet]
    have slots : pmem.initSnippetInfo.liveSlots = pmem.liveSlots := by
      show (List.range (pmem.snippetInfoIndex + 1 + 1)).flatMap _ = _
      rw [List.range_succ, List.flatMap_append, List.flatMap_singleton, new, List.append_nil]
      exact List.flatMap_congr old
    unfold live
    rw [slots]
    rfl
  · rfl

/-- The next snippet is opened when the current one was touched. -/
theorem closeSnippet_steady {pmem : PmemOps} (plain : pmem.opts.treeReorganization = false)
    (sound : Sound pmem)
    (closed : ∀ sIndex < pmem.snippetInfoIndex, (pmem.snippetInfo sIndex).flushedNum ≠ .noFlushed)
    (slots : ∀ slot < pmem.current.index, (pmem.slots slot).state ≠ .clean)
    (stores : ∀ store ∈ pmem.pmemStores.toList, store.state ≠ .clean) :
    Steady pmem.closeSnippet := by
  have kept : Kept (fun _ => False) pmem pmem.closeSnippet := closeSnippet_kept sound
  have sameEnd := closeSnippet_index pmem
  refine ⟨kept.opts ▸ plain, kept.sound, ?_, ?_, ?_, ?_⟩
  · unfold closeSnippet
    split
    · simp [initSnippetInfo, current, emptySnippet]
    · next isOpen => exact not_not.mp isOpen
  · unfold closeSnippet
    split
    · next touched =>
      intro sIndex below
      have bound : sIndex < pmem.snippetInfoIndex + 1 := below
      simp only [initSnippetInfo, setSnippet_snippetInfo]
      rw [if_neg (by omega)]
      by_cases isLast : sIndex = pmem.snippetInfoIndex
      · rw [isLast]
        exact touched
      · exact closed sIndex (by omega)
    · exact closed
  · rw [sameEnd, closeSnippet_frame]
    exact slots
  · rw [closeSnippet_frame]
    exact stores

/-- After the flush of the tree the array is what its own loops made of it. -/
theorem ArrayFlushed.finish {array after : PmemOps} (range : flush.Proper) (steady : Steady pmem)
    (arrayPart : ArrayFlushed flush pmem array)
    (bytes : ∀ byte, Tracks after.pmemStores.toList byte ↔ Tracks array.pmemStores.toList byte)
    (written : ∀ store ∈ after.pmemStores.toList, store.state ≠ .clean)
    (treePart : MissesNothing flush pmem → TreeFlushed flush array after)
    (sound : Sound after) (same : SameArray array after) (opts : after.opts = array.opts) :
    FlushedBytes flush pmem after.closeSnippet := by
  obtain ⟨slots, snippets, used⟩ := same
  have sameEnd : after.current.index = array.current.index := by
    rw [current, snippets, used]
    rfl
  have dirtySlot (slot : Nat) : DirtySlot after slot ↔ DirtySlot array slot :=
    dirtySlot_congr snippets used (by rw [slots])
  constructor
  · apply closeSnippet_steady
    · rw [opts, arrayPart.opts]
      exact steady.plain
    · exact sound
    · rw [used, snippets, arrayPart.used]
      exact arrayPart.closed
    · rw [sameEnd, slots]
      exact arrayPart.written
    · exact written
  · intro byte
    rw [closeSnippet_live, sound.tracks_live, steady.sound.tracks_live, ← arrayPart.bytes]
    unfold Shown
    rw [sameEnd, slots, bytes]
  · intro covered misses byte
    rw [closeSnippet_live, sound.layout.dirtyIn_live, slots]
    simp only [dirtySlot, (treePart misses).dirty]
    have cleared := arrayPart.cleared misses
    constructor
    · rintro (⟨slot, dirty, inside⟩ | ⟨inTree, outside⟩)
      · refine ⟨arrayPart.wasDirty byte ?_, fun flushed => cleared slot ⟨dirty, ?_⟩⟩
        · rw [arrayPart.sound.layout.dirtyIn_live]
          exact .inl ⟨slot, dirty, inside⟩
        · exact (cmpPmemSt_eq_iff_shared range (arrayPart.sound.slots slot dirty.inUse)).mpr
            ⟨byte, flushed, inside⟩
      · refine ⟨arrayPart.wasDirty byte ?_, outside⟩
        rw [arrayPart.sound.layout.dirtyIn_live]
        exact .inr inTree
    · rintro ⟨dirty, outside⟩
      have stays := arrayPart.stillDirty covered byte outside dirty
      rw [arrayPart.sound.layout.dirtyIn_live] at stays
      exact stays.imp_right (fun inTree => ⟨inTree, outside⟩)

/-- Whether or not the tree part of a flush is skipped, it keeps the bytes of the tree. -/
theorem flushStores_conserves (range : flush.Proper) (valid : Bool)
    (sound : TreeSound pmem.opts pmem.dbPmemStoreIndex pmem.pmemStores)
    (written : ∀ store ∈ pmem.pmemStores.toList, store.state ≠ .clean) :
    (∀ byte, Tracks (pmem.flushStores flush valid).1.pmemStores.toList byte ↔
      Tracks pmem.pmemStores.toList byte) ∧
    ∀ store ∈ (pmem.flushStores flush valid).1.pmemStores.toList, store.state ≠ .clean := by
  by_cases skipped : flush.addr > pmem.maxAddPmemStore ∨ flush.maxAddr < pmem.minAddPmemStore
  · simp only [flushStores, if_pos skipped]
    exact ⟨fun _ => trivial, written⟩
  · have flushed := flushStores_bytes range valid sound written
      (fun isSkipped => absurd isSkipped skipped)
    exact ⟨flushed.bytes, flushed.written⟩

/-- `do_flush` on a tracker with a tree that is ordered by index. -/
theorem doFlush_flushedBytes (steady : Steady pmem) {base size : Nat} (context : Option ExeContext)
    (strandId : Nat) (range : (flushInfo pmem.opts pmem.flushAlignSize base size).Proper) :
    FlushedBytes (flushInfo pmem.opts pmem.flushAlignSize base size) pmem
      (pmem.doFlush base size context strandId) := by
  simp only [doFlush]
  rw [checkStrandOrder_frame]
  generalize flushInfo pmem.opts pmem.flushAlignSize base size = flush at *
  generalize (pmem.checkStrandOrder flush strandId).lackOrderingTrandReg = register
  have ready : Steady { pmem with lackOrderingTrandReg := register } :=
    ⟨steady.plain, ⟨⟨steady.sound.layout.first, steady.sound.layout.chained,
      steady.sound.layout.ordered⟩, steady.sound.slots, steady.sound.tree⟩, steady.opened,
      steady.closed, steady.slots, steady.stores⟩
  have arrayPart := flushArray_flushed range ready
  have changed := flushArray_changed flush { pmem with lackOrderingTrandReg := register }
  generalize flushArray flush { pmem with lackOrderingTrandReg := register } = array at *
  have lower : array.1.minAddPmemStore = pmem.minAddPmemStore := by rw [changed]
  have upper : array.1.maxAddPmemStore = pmem.maxAddPmemStore := by rw [changed]
  have written (store : PmemSt) (member : store ∈ array.1.pmemStores.toList) :
      store.state ≠ .clean := by
    rcases arrayPart.stores store member with inBefore | ⟨dirty, _⟩
    · exact steady.stores store inBefore
    · rw [dirty]
      simp
  obtain ⟨bytes, stillWritten⟩ :=
    flushStores_conserves range array.2 arrayPart.sound.tree written
  have kept := flushStores_kept range array.2 arrayPart.sound
  have sameArray := flushStores_sameArray flush array.1 array.2
  have treePart (misses : MissesNothing flush pmem) :
      TreeFlushed flush array.1 (array.1.flushStores flush array.2).1 := by
    refine flushStores_bytes range array.2 arrayPart.sound.tree written
      (fun skipped store member => ?_)
    rcases arrayPart.stores store member with inBefore | ⟨_, clear⟩
    · exact misses.2 (by rw [← lower, ← upper]; exact skipped) store inBefore
    · exact fun marked => clear marked.1
  generalize array.1.flushStores flush array.2 = tree at *
  have quiet := warnSuperfluousFlush_frame flush context tree.2 tree.1
  generalize tree.1.warnSuperfluousFlush flush context tree.2 = after at *
  have flushed : FlushedBytes flush { pmem with lackOrderingTrandReg := register }
      after.closeSnippet := by
    apply arrayPart.finish range ready
    · rw [quiet]
      exact bytes
    · rw [quiet]
      exact stillWritten
    · intro misses
      have flushedTree := treePart ⟨misses.1, misses.2⟩
      rw [quiet]
      exact ⟨flushedTree.bytes, flushedTree.dirty, flushedTree.written, flushedTree.bounded⟩
    · rw [quiet]
      exact ⟨⟨kept.sound.layout.first, kept.sound.layout.chained, kept.sound.layout.ordered⟩,
        kept.sound.slots, kept.sound.tree⟩
    · rw [quiet]
      exact sameArray.2
    · rw [quiet]
      exact sameArray.1
  exact ⟨flushed.steady, flushed.bytes, fun covered misses =>
    flushed.dirty covered ⟨misses.1, misses.2⟩⟩

end Whole

end PmDebugger
