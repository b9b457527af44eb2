import PmDebugger.Accesses
import PmDebugger.Durability
import PmDebugger.TreeBytes

/-!
# Reorganisation of the tree

The same requests are served twice, by a tracker that orders its tree by index and by one
that orders it by range and merges the records that it enters. The two arrays go through
the same changes, since neither the order of the tree nor its records are read there while
the array has room. The trees differ in their records but agree byte by byte, and this is
all that a flush or a fence lets through.
-/

namespace PmDebugger

open OrderedSet OrderedSet.OSet PmemOps

/-! ## Arrays that go through the same changes -/

/-- Two records with the same range, state and deletion mark. Index, context and value may
differ: the order of the tree does not depend on them under reorganisation. -/
structure Alike (first second : PmemSt) : Prop where
  range : SameRange first second
  isDelete : first.isDelete = second.isDelete

namespace Alike

variable {first second : PmemSt}

/-- Alike records end at the same byte. -/
theorem maxAddr (alike : Alike first second) : first.maxAddr = second.maxAddr := by
  unfold PmemSt.maxAddr
  rw [alike.range.addr, alike.range.size]

/-- A flush meets both of two alike records, or neither. -/
theorem cmp (alike : Alike first second) (flush : PmemSt) :
    cmpPmemSt flush first = cmpPmemSt flush second := by
  unfold cmpPmemSt
  rw [alike.maxAddr, alike.range.addr]

/-- Alike records stay alike when both are flushed. -/
theorem flushed (alike : Alike first second) :
    Alike { first with state := .flushed } { second with state := .flushed } :=
  ⟨⟨alike.range.addr, alike.range.size, rfl⟩, alike.isDelete⟩

/-- Cut at the front by the same flush, alike records stay alike. -/
theorem cutFront (alike : Alike first second) (flush : PmemSt) :
    Alike (cutFront flush first) (cutFront flush second) := by
  refine ⟨⟨rfl, ?_, alike.range.state⟩, alike.isDelete⟩
  simp only [PmemOps.cutFront, alike.range.addr, alike.range.size]

/-- Cut at the back by the same flush, alike records stay alike. -/
theorem cutBack (alike : Alike first second) (flush : PmemSt) :
    Alike (cutBack flush first) (cutBack flush second) := by
  refine ⟨⟨alike.range.addr, ?_, alike.range.state⟩, alike.isDelete⟩
  simp only [PmemOps.cutBack, alike.range.size, alike.maxAddr]

/-- The parts before the flush are alike. -/
theorem frontSplit (alike : Alike first second) (flush : PmemSt) :
    Alike (frontSplit flush first) (frontSplit flush second) := by
  refine ⟨⟨alike.range.addr, ?_, rfl⟩, alike.isDelete⟩
  simp only [PmemOps.frontSplit, alike.range.addr]

/-- The parts behind the flush are alike. -/
theorem backSplit (alike : Alike first second) (flush : PmemSt) :
    Alike (backSplit flush first) (backSplit flush second) := by
  refine ⟨⟨rfl, ?_, rfl⟩, alike.isDelete⟩
  simp only [PmemOps.backSplit, alike.maxAddr]

end Alike

/-- Two arrays with the same snippets and alike records in their slots. The loops over the
array then take the same branches in both. -/
structure AlikeArrays (first second : PmemOps) : Prop where
  capacity : first.opts.maxArrayNum = second.opts.maxArrayNum
  used : first.snippetInfoIndex = second.snippetInfoIndex
  snippets : first.snippetInfo = second.snippetInfo
  slots : ∀ slot < second.current.index, Alike (first.slots slot) (second.slots slot)

namespace AlikeArrays

variable {first second : PmemOps} {flush : PmemSt} {index : Nat}

/-- The current snippets of alike arrays are one snippet. -/
theorem current (alike : AlikeArrays first second) : first.current = second.current := by
  unfold PmemOps.current
  rw [alike.used, alike.snippets]

/-- Only the array counts. -/
theorem congr {first' second' : PmemOps} (alike : AlikeArrays first second)
    (firstOpts : first'.opts = first.opts) (firstArray : SameArray first first')
    (secondOpts : second'.opts = second.opts) (secondArray : SameArray second second') :
    AlikeArrays first' second' := by
  obtain ⟨firstSlots, firstSnippets, firstUsed⟩ := firstArray
  obtain ⟨secondSlots, secondSnippets, secondUsed⟩ := secondArray
  refine ⟨?_, ?_, ?_, ?_⟩
  · rw [firstOpts, secondOpts]
    exact alike.capacity
  · rw [firstUsed, secondUsed]
    exact alike.used
  · rw [firstSnippets, secondSnippets]
    exact alike.snippets
  · rw [firstSlots, secondSlots, PmemOps.current, secondSnippets, secondUsed]
    exact alike.slots

/-- A slot may be set to alike records on both sides. -/
theorem setSlot (alike : AlikeArrays first second) (index : Nat) {record other : PmemSt}
    (same : Alike record other) :
    AlikeArrays (first.setSlot index record) (second.setSlot index other) := by
  refine ⟨alike.capacity, alike.used, alike.snippets, fun slot inUse => ?_⟩
  rw [setSlot_slots, setSlot_slots]
  split
  · exact same
  · exact alike.slots slot inUse

/-- A snippet is written without touching the slots in use. -/
theorem setSnippet (alike : AlikeArrays first second) (sIndex : Nat) (snippet : ArrSnippet)
    (slots : ∀ slot < (second.setSnippet sIndex snippet).current.index,
      Alike (first.slots slot) (second.slots slot)) :
    AlikeArrays (first.setSnippet sIndex snippet) (second.setSnippet sIndex snippet) := by
  refine ⟨alike.capacity, alike.used, ?_, slots⟩
  simp only [PmemOps.setSnippet, alike.snippets]

/-- A snippet is tagged. -/
theorem setTag (alike : AlikeArrays first second) (sIndex : Nat) (tag : FlushedState) :
    AlikeArrays (first.setSnippet sIndex { first.snippetInfo sIndex with flushedNum := tag })
      (second.setSnippet sIndex { second.snippetInfo sIndex with flushedNum := tag }) := by
  rw [alike.snippets]
  apply alike.setSnippet
  intro slot inUse
  apply alike.slots
  simp only [PmemOps.current, setSnippet_snippetInfo] at inUse
  split at inUse
  · next isCurrent =>
    rw [← isCurrent] at inUse
    exact inUse
  · exact inUse

/-- A remainder goes to the same slot of both arrays. When the array is full it goes into the
tree instead, which the arrays do not show. -/
theorem appendSplit (alike : AlikeArrays first second) {piece other : PmemSt}
    (same : Alike piece other) :
    AlikeArrays (first.appendSplit piece) (second.appendSplit other) := by
  unfold PmemOps.appendSplit
  simp only
  by_cases room : second.current.index < second.opts.maxArrayNum
  · rw [if_pos room, if_pos (by rw [alike.current, alike.capacity]; exact room), alike.current,
      alike.used]
    have copied : Alike (pmemStCopy (first.slots second.current.index) piece)
        (pmemStCopy (second.slots second.current.index) other) :=
      ⟨⟨same.range.addr, same.range.size, same.range.state⟩, same.isDelete⟩
    apply (alike.setSlot second.current.index copied).setSnippet
    intro slot inUse
    have bound : slot < second.current.index + 1 := by
      simpa [PmemOps.current, PmemOps.setSnippet, PmemOps.setSlot] using inUse
    simp only [setSlot_slots]
    split
    · exact copied
    · next differs => exact alike.slots slot (by omega)
  · rw [if_neg room, if_neg (by rw [alike.current, alike.capacity]; exact room)]
    apply alike.congr
    · rw [insertStore_frame]
    · rw [insertStore_frame]
      exact ⟨rfl, rfl, rfl⟩
    · rw [insertStore_frame]
    · rw [insertStore_frame]
      exact ⟨rfl, rfl, rfl⟩

/-- The front of a slot in use is cut off on both sides. -/
theorem splitFront (alike : AlikeArrays first second) (flush : PmemSt)
    (inUse : index < second.current.index) :
    AlikeArrays (first.splitFront flush index) (second.splitFront flush index) := by
  have same := alike.slots index inUse
  unfold PmemOps.splitFront
  simp only [same.range.addr]
  split
  · exact (alike.setSlot index (same.cutFront flush)).appendSplit (same.frontSplit flush)
  · exact alike

/-- The back of a slot in use is cut off on both sides. -/
theorem splitBack (alike : AlikeArrays first second) (flush : PmemSt)
    (inUse : index < second.current.index) :
    AlikeArrays (first.splitBack flush index) (second.splitBack flush index) := by
  have same := alike.slots index inUse
  unfold PmemOps.splitBack
  simp only [same.maxAddr]
  split
  · exact (alike.setSlot index (same.cutBack flush)).appendSplit (same.backSplit flush)
  · exact alike

/-- A slot in use is flushed on both sides. What the flush is taken to be worth so far may
differ, since it decides on warnings only. -/
theorem flushSlot (alike : AlikeArrays first second) (flush : PmemSt) (sIndex : Nat)
    (valid other : Bool) (inUse : index < second.current.index) :
    AlikeArrays (first.flushSlot flush sIndex index valid).1
      (second.flushSlot flush sIndex index other).1 := by
  have same := alike.slots index inUse
  simp only [PmemOps.flushSlot, same.isDelete, same.cmp, same.range.state, alike.snippets]
  split
  · exact alike.setSlot index ⟨⟨same.range.addr, same.range.size, rfl⟩, rfl⟩
  · split
    · exact alike
    · split
      · apply alike.congr
        · rw [warnRedundantFlush_frame]
        · rw [warnRedundantFlush_frame]
          exact ⟨rfl, rfl, rfl⟩
        · rw [warnRedundantFlush_frame]
        · rw [warnRedundantFlush_frame]
          exact ⟨rfl, rfl, rfl⟩
      · have marked : AlikeArrays (first.markSlot sIndex index) (second.markSlot sIndex index) :=
          (alike.setSlot index same.flushed).setTag sIndex .partFlushed
        have stillUsed : index < (second.markSlot sIndex index).current.index := by
          rw [(markSlot_snippets sIndex index second).1]
          exact inUse
        have front := marked.splitFront flush stillUsed
        exact front.splitBack flush (splitFront_slot flush stillUsed).1

/-- The inner loop of the flush, by induction on its fuel. The loop stays below the current
index, so that every slot it reads is in use on both sides. -/
theorem flushSlots (alike : AlikeArrays first second) (range : flush.Proper)
    (sIndex fuel index : Nat) (valid other : Bool) (sound : Sound second)
    (used : sIndex ≤ second.snippetInfoIndex) :
    AlikeArrays (flushSlots flush sIndex fuel index first valid).1
      (flushSlots flush sIndex fuel index second other).1 := by
  induction fuel generalizing index first second valid other with
  | zero => exact alike
  | succ fuel inductionHypothesis =>
    simp only [PmemOps.flushSlots, alike.snippets]
    split
    · next more =>
      have inUse : index < second.current.index :=
        Nat.lt_of_lt_of_le more (sound.layout.bounded used)
      have same := (flushSlot_grows flush sIndex index second other).snippetInfoIndex
      apply inductionHypothesis (alike.flushSlot flush sIndex valid other inUse)
      · exact (flushSlot_kept range sIndex other sound inUse).sound
      · rw [same]
        exact used
    · exact alike

/-- A snippet is tagged, skipped or flushed on both sides alike, since both have the same box
and the same tag. -/
theorem flushSnippet (alike : AlikeArrays first second) (range : flush.Proper) (sIndex : Nat)
    (valid other : Bool) (sound : Sound second) (used : sIndex ≤ second.snippetInfoIndex) :
    AlikeArrays (flushSnippet flush (first, valid) sIndex).1
      (flushSnippet flush (second, other) sIndex).1 := by
  have tagged := alike.setTag sIndex .allFlushed
  simp only [PmemOps.flushSnippet, alike.snippets] at tagged ⊢
  split
  · exact tagged
  · split
    · exact alike
    · exact alike.flushSlots range sIndex _ _ valid other sound used

/-- The array part of a flush. -/
theorem flushArray (alike : AlikeArrays first second) (range : flush.Proper)
    (sound : Sound second) :
    AlikeArrays (first.flushArray flush).1 (second.flushArray flush).1 := by
  have loop (indices : List Nat) (state mirror : PmemOps × Bool)
      (same : AlikeArrays state.1 mirror.1) (mirrorSound : Sound mirror.1)
      (inside : ∀ sIndex ∈ indices, sIndex ≤ mirror.1.snippetInfoIndex) :
      AlikeArrays (indices.foldl (PmemOps.flushSnippet flush) state).1
        (indices.foldl (PmemOps.flushSnippet flush) mirror).1 := by
    induction indices generalizing state mirror with
    | nil => exact same
    | cons sIndex rest inductionHypothesis =>
      have used := inside sIndex List.mem_cons_self
      apply inductionHypothesis
      · exact same.flushSnippet range sIndex state.2 mirror.2 mirrorSound used
      · exact (flushSnippet_kept range mirror.2 mirrorSound used).sound
      · intro later member
        rw [(flushSnippet_grows flush mirror sIndex).snippetInfoIndex]
        exact inside later (List.mem_cons_of_mem _ member)
  unfold PmemOps.flushArray
  rw [alike.used]
  apply loop _ (first, false) (second, false) alike sound
  intro sIndex member
  exact Nat.le_of_lt_succ (List.mem_range.mp member)

/-- Both arrays close the current snippet and open the next one at the same place. -/
theorem closeSnippet (alike : AlikeArrays first second) :
    AlikeArrays first.closeSnippet second.closeSnippet := by
  unfold PmemOps.closeSnippet
  rw [alike.current]
  split
  · refine ⟨alike.capacity, ?_, ?_, ?_⟩
    · simp only [initSnippetInfo, alike.used]
    · simp only [initSnippetInfo, PmemOps.setSnippet, alike.used, alike.snippets, alike.current]
    · intro slot inUse
      have bound : slot < second.current.index := by
        simpa [initSnippetInfo, PmemOps.current, PmemOps.setSnippet, emptySnippet] using inUse
      exact alike.slots slot bound
  · exact alike

end AlikeArrays

/-- A flush changes two alike arrays alike. -/
theorem doFlush_alike {first second : PmemOps} (alike : AlikeArrays first second)
    (sound : Sound second) {base size : Nat} (context : Option ExeContext) (strandId other : Nat)
    (range : (flushInfo second.opts second.flushAlignSize base size).Proper)
    (sameRange : flushInfo first.opts first.flushAlignSize base size =
      flushInfo second.opts second.flushAlignSize base size) :
    AlikeArrays (first.doFlush base size context strandId)
      (second.doFlush base size context other) := by
  simp only [doFlush, sameRange]
  generalize flushInfo second.opts second.flushAlignSize base size = flush at *
  have checked : AlikeArrays (first.checkStrandOrder flush strandId)
      (second.checkStrandOrder flush other) := by
    apply alike.congr
    · rw [checkStrandOrder_frame]
    · rw [checkStrandOrder_frame]
      exact ⟨rfl, rfl, rfl⟩
    · rw [checkStrandOrder_frame]
    · rw [checkStrandOrder_frame]
      exact ⟨rfl, rfl, rfl⟩
  have kept : Kept (fun _ => False) second (second.checkStrandOrder flush other) :=
    (checkStrandOrder_same flush other second).kept sound
  have array := checked.flushArray range kept.sound
  apply AlikeArrays.closeSnippet
  apply array.congr
  · rw [warnSuperfluousFlush_frame]
    exact (flushStores_sameArray flush _ _).1
  · rw [warnSuperfluousFlush_frame]
    exact (flushStores_sameArray flush _ _).2
  · rw [warnSuperfluousFlush_frame]
    exact (flushStores_sameArray flush _ _).1
  · rw [warnSuperfluousFlush_frame]
    exact (flushStores_sameArray flush _ _).2

/-- While the array has room a flush changes the bytes of the tree only where it reaches
into the tree. -/
theorem doFlush_bytes {pmem : PmemOps} {base size : Nat} (context : Option ExeContext)
    (strandId : Nat)
    (flushable : FlushableArray (flushInfo pmem.opts pmem.flushAlignSize base size) pmem)
    (sound : TreeSound pmem.opts pmem.dbPmemStoreIndex pmem.pmemStores)
    (written : ∀ store ∈ pmem.pmemStores.toList, store.state ≠ .clean) (bounded : Bounded pmem)
    (room : (pmem.doFlush base size context strandId).current.index < pmem.opts.maxArrayNum) :
    TreeFlushed (flushInfo pmem.opts pmem.flushAlignSize base size) pmem
      (pmem.doFlush base size context strandId) := by
  simp only [doFlush] at room ⊢
  rw [checkStrandOrder_frame] at room ⊢
  generalize flushInfo pmem.opts pmem.flushAlignSize base size = flush at *
  generalize (pmem.checkStrandOrder flush strandId).lackOrderingTrandReg = register at *
  have range := flushable.range
  have flushableNow : FlushableArray flush { pmem with lackOrderingTrandReg := register } :=
    ⟨range, ⟨flushable.layout.first, flushable.layout.chained, flushable.layout.ordered⟩,
      flushable.undeleted, flushable.proper⟩
  have arrayPart := flushArray_exact flushableNow (by
    rw [closeSnippet_index, warnSuperfluousFlush_frame] at room
    exact (flushStores_frame flush _ _).2 ▸ room)
  generalize flushArray flush { pmem with lackOrderingTrandReg := register } = array at *
  have opts : array.1.opts = pmem.opts := by rw [arrayPart.frame]
  have index : array.1.dbPmemStoreIndex = pmem.dbPmemStoreIndex := by rw [arrayPart.frame]
  have stores : array.1.pmemStores = pmem.pmemStores := by rw [arrayPart.frame]
  have arrayBounded : Bounded array.1 := by
    rw [arrayPart.frame]
    exact bounded
  have flushed := flushStores_bytes range array.2 (by rw [opts, index, stores]; exact sound)
    (by rw [stores]; exact written)
    (arrayBounded.reached range (by rw [stores]; exact sound.proper))
  rw [closeSnippet_frame, warnSuperfluousFlush_frame]
  refine ⟨?_, ?_, flushed.written, fun _ => flushed.bounded arrayBounded⟩
  · intro byte
    have same := flushed.bytes byte
    rw [stores] at same
    exact same
  · intro byte
    have same := flushed.dirty byte
    rw [stores] at same
    exact same

/-! ## The live records of alike arrays -/

/-- The record of a slot, as the tag of its snippet settles it, has the same range on both
sides. -/
theorem settle_sameRange (tag : FlushedState) {first second : PmemSt} (alike : Alike first second) :
    SameRange (settle tag first) (settle tag second) := by
  unfold settle
  split
  · exact alike.flushed.range
  · exact alike.range

/-- Alike arrays have the same live records, up to what the reports do not show. -/
theorem AlikeArrays.liveSlots {first second : PmemOps} (alike : AlikeArrays first second)
    (layout : Layout second) : Paired SameRange first.liveSlots second.liveSlots := by
  have slotAlike (sIndex slot : Nat) (isUsed : sIndex ∈ List.range (second.snippetInfoIndex + 1))
      (inside : slot ∈ slotRange (second.snippetInfo sIndex)) :
      Alike (first.slots slot) (second.slots slot) := by
    have used := Nat.le_of_lt_succ (List.mem_range.mp isUsed)
    apply alike.slots
    exact layout.inUse_iff.mpr ⟨sIndex, used, mem_slotRange.mp inside⟩
  unfold PmemOps.liveSlots snippetLive slotLive
  rw [alike.used, alike.snippets]
  constructor
  · intro store member
    obtain ⟨sIndex, isUsed, inSnippet⟩ := List.mem_flatMap.mp member
    obtain ⟨slot, inside, isStore⟩ := List.mem_flatMap.mp inSnippet
    have same := slotAlike sIndex slot isUsed inside
    split at isStore
    · cases isStore
    · next kept =>
      rw [List.mem_singleton.mp isStore]
      refine ⟨_, List.mem_flatMap.mpr ⟨sIndex, isUsed, List.mem_flatMap.mpr ⟨slot, inside, ?_⟩⟩,
        settle_sameRange _ same⟩
      rw [if_neg (same.isDelete ▸ kept)]
      exact List.mem_singleton.mpr rfl
  · intro store member
    obtain ⟨sIndex, isUsed, inSnippet⟩ := List.mem_flatMap.mp member
    obtain ⟨slot, inside, isStore⟩ := List.mem_flatMap.mp inSnippet
    have same := slotAlike sIndex slot isUsed inside
    split at isStore
    · cases isStore
    · next kept =>
      rw [List.mem_singleton.mp isStore]
      refine ⟨_, List.mem_flatMap.mpr ⟨sIndex, isUsed, List.mem_flatMap.mpr ⟨slot, inside, ?_⟩⟩,
        settle_sameRange _ same⟩
      rw [if_neg (by rw [same.isDelete]; exact kept)]
      exact List.mem_singleton.mpr rfl

/-- A byte is covered, or covered by a dirty record, in both lists or in neither. -/
structure AgreeOn (first second : List PmemSt) : Prop where
  bytes : ∀ byte, Tracks first byte ↔ Tracks second byte
  dirty : ∀ byte, DirtyIn first byte ↔ DirtyIn second byte

/-- Lists that pair off by range, state and mark agree byte by byte. -/
theorem Paired.agree {first second : List PmemSt} (paired : Paired SameRange first second) :
    AgreeOn first second := by
  constructor
  · intro byte
    constructor
    · rintro ⟨store, member, inside⟩
      obtain ⟨partner, isPartner, same⟩ := paired.left store member
      exact ⟨partner, isPartner, (same.covers byte).mp inside⟩
    · rintro ⟨partner, isPartner, inside⟩
      obtain ⟨store, member, same⟩ := paired.right partner isPartner
      exact ⟨store, member, (same.covers byte).mpr inside⟩
  · intro byte
    constructor
    · rintro ⟨store, member, dirty, inside⟩
      obtain ⟨partner, isPartner, same⟩ := paired.left store member
      exact ⟨partner, isPartner, same.state ▸ dirty, (same.covers byte).mp inside⟩
    · rintro ⟨partner, isPartner, dirty, inside⟩
      obtain ⟨store, member, same⟩ := paired.right partner isPartner
      exact ⟨store, member, same.state.trans dirty, (same.covers byte).mpr inside⟩

/-- Lists that agree byte by byte may be put together. -/
theorem AgreeOn.append {first second more other : List PmemSt} (agree : AgreeOn first second)
    (rest : AgreeOn more other) : AgreeOn (first ++ more) (second ++ other) := by
  constructor
  · intro byte
    rw [tracks_append, tracks_append, agree.bytes, rest.bytes]
  · intro byte
    have agreeDirty := agree.dirty byte
    have restDirty := rest.dirty byte
    unfold DirtyIn at *
    simp only [List.mem_append, or_and_right, exists_or, agreeDirty, restDirty]

/-- A fence empties the first snippet and leaves the old entries of the others behind. -/
theorem doFence_snippetInfo (pmem : PmemOps) :
    pmem.doFence.snippetInfo = (pmem.setSnippet 0 (emptySnippet 0)).snippetInfo := by
  have moved (state : PmemOps) (sIndex : Nat) :
      (state.fenceSnippet sIndex).snippetInfo = state.snippetInfo := by
    simp only [fenceSnippet]
    split
    · rfl
    · refine List.foldlRecOn (motive := fun after : PmemOps =>
        after.snippetInfo = state.snippetInfo) _ _ rfl ?_
      intro middle same slot _
      rw [fenceSlot_frame]
      exact same
  have loop (indices : List Nat) (state : PmemOps) :
      (indices.foldl fenceSnippet state).snippetInfo = state.snippetInfo := by
    refine List.foldlRecOn (motive := fun after : PmemOps =>
        after.snippetInfo = state.snippetInfo) _ _ rfl ?_
    intro middle same sIndex _
    exact (moved middle sIndex).trans same
  have cleared (state : PmemOps) (same : state.snippetInfo = pmem.snippetInfo) :
      state.clearArray.snippetInfo = (pmem.setSnippet 0 (emptySnippet 0)).snippetInfo := by
    simp only [clearArray, setSnippet, same]
  simp only [doFence]
  split <;> (refine cleared _ ((loop _ _).trans ?_); rw [fenceTree_frame, fenceTimes_frame])

/-- What a fence leaves is dirty, and it leaves the bytes of the dirty records. -/
theorem FencedBytes.dirty {before after : PmemOps} (fenced : FencedBytes before after)
    (written : ∀ store ∈ before.live, store.state ≠ .clean) :
    (∀ store ∈ after.pmemStores.toList, store.state = .dirty) ∧
      ∀ byte, Tracks after.pmemStores.toList byte ↔ DirtyIn before.live byte := by
  constructor
  · intro store member
    obtain ⟨old, isOld, pending, same⟩ := fenced.states store member
    rw [same]
    exact (dirty_iff (written old isOld)).mpr pending
  · intro byte
    rw [fenced.bytes]
    refine exists_congr (fun store => and_congr_right (fun member => ?_))
    rw [dirty_iff (written store member)]

/-- Where every record is dirty, a byte is dirty if and only if some record covers it. -/
theorem dirtyIn_of_dirty {stores : List PmemSt} (dirty : ∀ store ∈ stores, store.state = .dirty)
    (byte : Nat) : DirtyIn stores byte ↔ Tracks stores byte := by
  refine exists_congr (fun store => and_congr_right (fun member => ?_))
  exact and_iff_right (dirty store member)

/-! ## The two trackers side by side -/

/-- A tracker whose tree is ordered by index, and one that reorganises its tree, after the
same requests. -/
structure Matched (plain reorganised : PmemOps) : Prop where
  well : WellFormed plain
  sound : Sound reorganised
  bounded : Bounded reorganised
  written : ∀ store ∈ reorganised.pmemStores.toList, store.state ≠ .clean
  opts : plain.opts = { reorganised.opts with treeReorganization := false }
  access : SameAccess { reorganised with opts := plain.opts } plain
  arrays : AlikeArrays plain reorganised
  trees : AgreeOn plain.pmemStores.toList reorganised.pmemStores.toList

/-- A well-formed tracker is sound: what the invariant of the default tracker says about order
and numbering is all that the sound one asks for. -/
theorem WellFormed.sound {pmem : PmemOps} (well : WellFormed pmem) : Sound pmem where
  layout := well.layout
  slots slot inUse := by
    obtain ⟨sIndex, used, inside⟩ := well.layout.inUse_iff.mp inUse
    exact (well.slots sIndex used slot inside).proper
  tree := TidyTree.sound ⟨well.plain, well.indexed, fun store member =>
    (well.stores store member).proper⟩

namespace Matched

variable {plain reorganised : PmemOps}

/-- The live records agree byte by byte. -/
theorem live (matched : Matched plain reorganised) : AgreeOn plain.live reorganised.live :=
  (matched.arrays.liveSlots matched.sound.layout).agree.append matched.trees

/-- The second run keeps the latest store only, like the first. -/
theorem single (matched : Matched plain reorganised) :
    reorganised.opts.trackMultipleStores = false := by
  have single := matched.well.single
  rw [matched.opts] at single
  exact single

/-- Both runs align a flush in the same way. -/
theorem flushInfo (matched : Matched plain reorganised) (base size : Nat) :
    flushInfo plain.opts plain.flushAlignSize base size =
      flushInfo reorganised.opts reorganised.flushAlignSize base size := by
  unfold PmemOps.flushInfo
  rw [matched.access.flushAlignSize, matched.opts]

/-- Both runs hold the same bytes to be persistent memory. -/
theorem isPmemAccess (matched : Matched plain reorganised) (addr size : Nat) :
    plain.isPmemAccess addr size = reorganised.isPmemAccess addr size := by
  unfold PmemOps.isPmemAccess
  rw [matched.access.pmemMappings, matched.access.minAddPmemMappings,
    matched.access.maxAddPmemMappings]

/-- What neither run changes stays the same in both. -/
theorem access_kept {plain' reorganised' : PmemOps} (matched : Matched plain reorganised)
    (plainAccess : SameAccess plain plain') (otherAccess : SameAccess reorganised reorganised') :
    plain'.opts = { reorganised'.opts with treeReorganization := false } ∧
      SameAccess { reorganised' with opts := plain'.opts } plain' := by
  refine ⟨?_, rfl, ?_, ?_, ?_, ?_⟩
  · rw [plainAccess.opts, otherAccess.opts]
    exact matched.opts
  · exact (plainAccess.pmemMappings.trans matched.access.pmemMappings).trans
      otherAccess.pmemMappings.symm
  · exact (plainAccess.minAddPmemMappings.trans matched.access.minAddPmemMappings).trans
      otherAccess.minAddPmemMappings.symm
  · exact (plainAccess.maxAddPmemMappings.trans matched.access.maxAddPmemMappings).trans
      otherAccess.maxAddPmemMappings.symm
  · exact (plainAccess.flushAlignSize.trans matched.access.flushAlignSize).trans
      otherAccess.flushAlignSize.symm

/-- Both arrays take the store into the same slot. -/
theorem store (matched : Matched plain reorganised) {addr size : Nat} (value : Nat)
    (context : Option ExeContext) (room : plain.current.index < plain.opts.maxArrayNum)
    (proper : (PmemSt.range addr size).Proper) :
    Matched (plain.trackStore addr size value context).1
      (reorganised.trackStore addr size value context).1 := by
  have alike := matched.arrays
  have otherRoom : reorganised.current.index < reorganised.opts.maxArrayNum := by
    rw [← alike.current, ← alike.capacity]
    exact room
  have stored := (trackStore_exact addr size value context matched.well.single room).1
  have other := (trackStore_exact addr size value context matched.single otherRoom).1
  have well := trackStore_wellFormed value context matched.well room proper
  have sound := (trackStore_tracked value context proper matched.sound).sound
  obtain ⟨opts, access⟩ := matched.access_kept (trackStore_access addr size value context plain)
    (trackStore_access addr size value context reorganised)
  have written : Alike (plain.writeStore addr size value context (plain.slots plain.current.index))
      (reorganised.writeStore addr size value context
        (reorganised.slots reorganised.current.index)) := ⟨⟨rfl, rfl, rfl⟩, rfl⟩
  have widened (minAdd maxAdd : Nat) : widen (plain.writeStore addr size value context
        (plain.slots plain.current.index)) minAdd maxAdd =
      widen (reorganised.writeStore addr size value context
        (reorganised.slots reorganised.current.index)) minAdd maxAdd := rfl
  generalize plain.writeStore addr size value context (plain.slots plain.current.index) = record
    at stored written widened
  generalize reorganised.writeStore addr size value context
    (reorganised.slots reorganised.current.index) = partner at other written widened
  generalize (plain.trackStore addr size value context).1 = after at *
  generalize (reorganised.trackStore addr size value context).1 = mirror at *
  have stores : after.pmemStores = plain.pmemStores := by rw [stored.frame]
  have otherStores : mirror.pmemStores = reorganised.pmemStores := by rw [other.frame]
  refine ⟨well, sound, ?_, ?_, opts, access, ⟨?_, ?_, ?_, ?_⟩, ?_⟩
  · rw [other.frame]
    exact matched.bounded
  · rw [otherStores]
    exact matched.written
  · rw [stored.frame, other.frame]
    exact alike.capacity
  · rw [stored.frame, other.frame]
    exact alike.used
  · funext tested
    rw [stored.snippets, other.snippets, alike.current, alike.used, alike.snippets, widened]
  · intro slot inUse
    rw [other.current_eq] at inUse
    rw [stored.slots, other.slots, alike.current]
    split
    · exact written
    · next differs => exact alike.slots slot (by simp only at inUse; omega)
  · rw [stores, otherStores]
    exact matched.trees

/-- The flush finds the same records in both arrays, and the same bytes in both trees. -/
theorem flush (matched : Matched plain reorganised) {base size : Nat}
    (context : Option ExeContext) (strandId other : Nat)
    (range : (PmemOps.flushInfo plain.opts plain.flushAlignSize base size).Proper)
    (room : (plain.doFlush base size context strandId).current.index < plain.opts.maxArrayNum) :
    Matched (plain.doFlush base size context strandId)
      (reorganised.doFlush base size context other) := by
  have alike := matched.arrays
  have sameRange := matched.flushInfo base size
  have well := (doFlush_effect matched.well context strandId range room).wellFormed
  have flushedPlain := doFlush_bytes context strandId (matched.well.flushable range)
    matched.well.sound.tree (fun store member => (matched.well.stores store member).written)
    matched.well.bounded room
  rw [sameRange] at range flushedPlain
  have alikeAfter := doFlush_alike alike matched.sound context strandId other range sameRange
  have undeleted (slot : Nat) (inUse : slot < reorganised.current.index) :
      (reorganised.slots slot).isDelete = false := by
    have plainUse := inUse
    rw [← alike.current] at plainUse
    obtain ⟨sIndex, used, inside⟩ := matched.well.layout.inUse_iff.mp plainUse
    rw [← (alike.slots slot inUse).isDelete]
    exact (matched.well.slots sIndex used slot inside).undeleted
  have flushable : FlushableArray
      (PmemOps.flushInfo reorganised.opts reorganised.flushAlignSize base size) reorganised := by
    refine ⟨range, matched.sound.layout, fun sIndex used slot inside => ?_,
      fun sIndex used slot inside => ?_⟩
    · exact undeleted slot (matched.sound.layout.inUse_iff.mpr ⟨sIndex, used, inside⟩)
    · exact matched.sound.slots slot (matched.sound.layout.inUse_iff.mpr ⟨sIndex, used, inside⟩)
  have flushedOther := doFlush_bytes context other flushable matched.sound.tree matched.written
    matched.bounded (by rw [← alikeAfter.current, ← alike.capacity]; exact room)
  obtain ⟨opts, access⟩ := matched.access_kept (doFlush_access base size context strandId plain)
    (doFlush_access base size context other reorganised)
  refine ⟨well, (doFlush_kept context other range matched.sound).sound,
    flushedOther.bounded matched.bounded, flushedOther.written, opts, access, alikeAfter, ?_⟩
  constructor
  · intro byte
    rw [flushedPlain.bytes, flushedOther.bytes]
    exact matched.trees.bytes byte
  · intro byte
    rw [flushedPlain.dirty, flushedOther.dirty, matched.trees.dirty byte]

/-- The fence keeps the same bytes in both trees. -/
theorem fence (matched : Matched plain reorganised) :
    Matched plain.doFence reorganised.doFence := by
  have alike := matched.arrays
  have writtenPlain (store : PmemSt) (member : store ∈ plain.live) : store.state ≠ .clean :=
    (matched.well.live_pending member).written
  have writtenOther (store : PmemSt) (member : store ∈ reorganised.live) :
      store.state ≠ .clean := by
    rcases List.mem_append.mp member with inArray | inTree
    · obtain ⟨partner, isPartner, same⟩ :=
        (alike.liveSlots matched.sound.layout).right store inArray
      rw [← same.state]
      exact writtenPlain partner (List.mem_append_left _ isPartner)
    · exact matched.written store inTree
  have fencedOther := doFence_bytes matched.sound
  obtain ⟨dirtyPlain, bytesPlain⟩ := (doFence_bytes matched.well.sound).dirty writtenPlain
  obtain ⟨dirtyOther, bytesOther⟩ := fencedOther.dirty writtenOther
  obtain ⟨opts, access⟩ := matched.access_kept (doFence_access plain) (doFence_access reorganised)
  have bytes (byte : Nat) : Tracks plain.doFence.pmemStores.toList byte ↔
      Tracks reorganised.doFence.pmemStores.toList byte := by
    rw [bytesPlain, bytesOther, matched.live.dirty]
  refine ⟨(doFence_effect matched.well).wellFormed, (doFence_kept matched.sound).sound,
    fencedOther.bounded, fun store member => ?_, opts, access, ⟨?_, ?_, ?_, ?_⟩, bytes, ?_⟩
  · rw [dirtyOther store member]
    simp
  · rw [(doFence_access plain).opts, fencedOther.opts]
    exact alike.capacity
  · rw [fencedOther.index, (doFence_bytes matched.well.sound).index]
  · rw [doFence_snippetInfo, doFence_snippetInfo]
    simp only [setSnippet, alike.snippets]
  · intro slot inUse
    rw [doFence_empty] at inUse
    omega
  · intro byte
    rw [dirtyIn_of_dirty dirtyPlain, dirtyIn_of_dirty dirtyOther]
    exact bytes byte

/-- Registering memory changes neither tracker. -/
theorem register (matched : Matched plain reorganised) {plain' reorganised' : PmemOps}
    (same : SameTracking plain plain') (sameOther : SameTracking reorganised reorganised')
    (access : SameAccess { reorganised' with opts := plain'.opts } plain') :
    Matched plain' reorganised' := by
  have alike := matched.arrays
  have records : SameRecords reorganised reorganised' :=
    ⟨sameOther.opts, sameOther.pmemStores, Nat.le_of_eq sameOther.dbPmemStoreIndex.symm,
      sameOther.slots, sameOther.snippetInfoIndex, fun _ => by rw [sameOther.snippetInfo],
      fun _ => by rw [sameOther.snippetInfo]⟩
  have kept : Kept (fun _ => False) reorganised reorganised' := records.kept matched.sound
  refine ⟨matched.well.of_same same, kept.sound, ?_, ?_, ?_, access, ?_, ?_⟩
  · unfold Bounded
    rw [sameOther.pmemStores, sameOther.minAddPmemStore, sameOther.maxAddPmemStore]
    exact matched.bounded
  · rw [sameOther.pmemStores]
    exact matched.written
  · rw [same.opts, sameOther.opts]
    exact matched.opts
  · exact alike.congr same.opts ⟨same.slots, same.snippetInfo, same.snippetInfoIndex⟩
      sameOther.opts ⟨sameOther.slots, sameOther.snippetInfo, sameOther.snippetInfoIndex⟩
  · rw [same.pmemStores, sameOther.pmemStores]
    exact matched.trees

end Matched

/-- One request, served by both. -/
theorem step_matched {plain reorganised : Tool} {request : PmemRequest}
    (matched : Matched plain.pmem reorganised.pmem) (admissible : Admissible plain request) :
    Matched (plain.step request).pmem (reorganised.step request).pmem := by
  obtain ⟨room, roomAfter, access⟩ := admissible
  cases request with
  | store threadId context addr size value =>
    have otherAccess := access.2
    rw [matched.isPmemAccess] at otherAccess
    simp only [Tool.step, Tool.tracePmemStore, access.2, otherAccess, if_true]
    exact matched.store value context room access.1
  | flush context base size =>
    apply matched.flush context _ _ access
    rw [← doFlush_opts base size context plain.strandId plain.pmem]
    exact roomAfter
  | fence => exact matched.fence
  | registerMapping base size =>
    apply matched.register
    · exact ⟨rfl, rfl, rfl, rfl, rfl, rfl, rfl, rfl⟩
    · exact ⟨rfl, rfl, rfl, rfl, rfl, rfl, rfl, rfl⟩
    · simp only [Tool.step, Tool.registerMapping, matched.access.pmemMappings,
        matched.access.minAddPmemMappings, matched.access.maxAddPmemMappings]
      exact ⟨rfl, rfl, rfl, rfl, matched.access.flushAlignSize⟩
  | orderGuarantee | fenceMark | epochBegin | epochEnd | newStrand => exact absurd access id

/-- The two runs start alike: no record, no region, the same bounds, and the same options but
for the one that is compared. -/
theorem initPmem_matched {opts : Options} (defaults : DefaultTracking opts) (cacheLineSize : Nat)
    (slots otherSlots : Nat → PmemSt) :
    Matched (initPmem opts cacheLineSize slots)
      (initPmem { opts with treeReorganization := true } cacheLineSize otherSlots) := by
  have well := initPmem_wellFormed cacheLineSize slots defaults.plain defaults.single
  refine ⟨well, ⟨⟨well.layout.first, well.layout.chained, well.layout.ordered⟩, ?_, ?_⟩, ?_, ?_, ?_,
    ⟨rfl, rfl, rfl, rfl, rfl⟩, ⟨rfl, rfl, rfl, ?_⟩, fun _ => Iff.rfl, fun _ => Iff.rfl⟩
  · intro slot inUse
    exact absurd inUse (Nat.not_lt_zero slot)
  · exact ⟨by simp [initPmem], by simp [initPmem], by simp [initPmem], fun _ => ranges_nil⟩
  · simp [initPmem, Bounded]
  · simp [initPmem]
  · have plain := defaults.plain
    cases opts
    simp only at plain
    subst plain
    rfl
  · intro slot inUse
    exact absurd inUse (Nat.not_lt_zero slot)

/-- Reorganisation of the tree changes no durability result: at every point of a run the live
records cover the same bytes, and the dirty ones do. The array of either run starts from
whatever its memory holds.

Proof: simulation of one run by the other with the relation `Matched`: the arrays are alike,
and the trees agree byte by byte. While the array has room nothing reads the tree but flush and
fence, and these treat a record by the bytes it has. -/
theorem reorganisation_invisible {opts : Options} (defaults : DefaultTracking opts)
    (transactionsOnly redundantLogging : Bool) (cacheLineSize : Nat)
    (slots otherSlots : Nat → PmemSt) (requests : List PmemRequest)
    (admitted : Runs.AllSteps Tool.step Admissible
      (initTool opts transactionsOnly redundantLogging cacheLineSize slots) requests)
    (made : List PmemRequest) (made_first : made <+: requests) (byte : Nat) :
    let plain := made.foldl Tool.step
      (initTool opts transactionsOnly redundantLogging cacheLineSize slots)
    let reorganised := made.foldl Tool.step (initTool { opts with treeReorganization := true }
      transactionsOnly redundantLogging cacheLineSize otherSlots)
    (Tracks plain.pmem.live byte ↔ Tracks reorganised.pmem.live byte) ∧
      (DirtyIn plain.pmem.live byte ↔ DirtyIn reorganised.pmem.live byte) := by
  have madeSteps := Runs.allSteps_of_prefix made_first admitted
  let related (plain reorganised : Tool) := Matched plain.pmem reorganised.pmem
  have kept (plain reorganised : Tool) (request : PmemRequest) (before : related plain reorganised)
      (admissible : Admissible plain request) :
      related (plain.step request) (reorganised.step request) := step_matched before admissible
  have matched := Runs.simulation kept _
    (initTool { opts with treeReorganization := true } transactionsOnly redundantLogging
      cacheLineSize otherSlots) made
    (initPmem_matched defaults cacheLineSize slots otherSlots) madeSteps
  exact ⟨matched.live.bytes byte, matched.live.dirty byte⟩

/-- Two overlapping stores are left by a fence: two records in the plain tree and one
merged record in the other. Part of them is flushed and a third store overlaps the rest. -/
theorem reorganisation_invisible_overlap :
    let opts := defaultOptions (fun _ => false)
    let start := initTool opts false false 64 (fun _ => PmemSt.zero)
    let other := initTool { opts with treeReorganization := true } false false 64
      (fun slot => PmemSt.range slot 7)
    let requests : List PmemRequest := [.registerMapping 64 1024,
      .store 1 (some ⟨[1]⟩) 100 16 0, .store 1 (some ⟨[1]⟩) 108 16 0, .fence, .flush none 104 8,
      .store 1 (some ⟨[2]⟩) 110 4 0, .fence]
    let plain := requests.foldl Tool.step start
    let reorganised := requests.foldl Tool.step other
    Runs.AllSteps Tool.step Admissible start requests ∧
      plain.pmem.live.length ≠ reorganised.pmem.live.length ∧
      ((Tracks plain.pmem.live 105 ↔ Tracks reorganised.pmem.live 105) ∧
        (DirtyIn plain.pmem.live 105 ↔ DirtyIn reorganised.pmem.live 105)) := by
  refine ⟨by decide +kernel, by decide +kernel, ?_⟩
  exact reorganisation_invisible ⟨rfl, rfl⟩ false false 64 _ _ _ (by decide +kernel) _
    List.prefix_rfl 105

end PmDebugger
