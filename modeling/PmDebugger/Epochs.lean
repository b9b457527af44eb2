import PmDebugger.Durability

/-!
# The end of an epoch

`epoch_end` reports the live records that carry the mark of the running epoch and takes
the marks off. The mark lives on records: a store inside an epoch sets it, a fence takes
it along to the tree, and a flush hands it on to the pieces of a record.

Two paths lose count of it. A store outside every epoch leaves the mark of the slot that
it takes over as it was, and the part that a flush cuts off the back of a tree record is
built without one. Where neither happens, the marked records cover exactly the bytes
that the running epoch stored and that are not durable yet.
-/

namespace PmDebugger

open OrderedSet OrderedSet.OSet PmemOps Persistency

/-- The bytes of the byte-level machine, and those stored in the running epoch. A byte stored
twice in an epoch is written once. -/
structure EpochMemory where
  bytes : Memory Nat
  opened : Bool
  written : Nat → Bool

namespace EpochMemory

/-- Nothing is pending and no epoch is open. -/
def start : EpochMemory := ⟨Memory.clean, false, fun _ => false⟩

/-- An epoch starts with no byte stored in it, and forgets them at its end. A store writes its
bytes if an epoch is open. -/
def step (opts : Options) (flushAlignSize : Nat) (memory : EpochMemory) :
    PmemRequest → EpochMemory
  | .epochBegin => { memory with opened := true, written := fun _ => false }
  | .epochEnd _ => { memory with opened := false, written := fun _ => false }
  | .store threadId context addr size value => { memory with
      bytes := referenceStep opts flushAlignSize memory.bytes
        (.store threadId context addr size value)
      written := fun byte => memory.written byte ||
        (memory.opened && decide ((PmemSt.range addr size).Covers byte)) }
  | request => { memory with bytes := referenceStep opts flushAlignSize memory.bytes request }

/-- The byte was stored in the running epoch and is not durable. The end of the epoch should
report it. -/
def Owed (memory : EpochMemory) (byte : Nat) : Prop :=
  memory.written byte = true ∧ memory.bytes.Unpersisted byte

instance (memory : EpochMemory) (byte : Nat) : Decidable (memory.Owed byte) :=
  inferInstanceAs (Decidable (_ ∧ _))

end EpochMemory

/-- Only one epoch is open at a time, and only an open one ends. Between the two there may be
any accesses. -/
def OpensOneEpoch (tool : Tool) : PmemRequest → Prop
  | .epochBegin => tool.pmem.epoch = false
  | .epochEnd _ => tool.pmem.epoch = true
  | .fenceMark _ => True
  | request => IsAccess tool request

instance (tool : Tool) : (request : PmemRequest) → Decidable (OpensOneEpoch tool request)
  | .epochBegin => inferInstanceAs (Decidable (tool.pmem.epoch = false))
  | .epochEnd _ => inferInstanceAs (Decidable (tool.pmem.epoch = true))
  | .fenceMark _ => .isTrue trivial
  | .store threadId context addr size value =>
      inferInstanceAs (Decidable (IsAccess tool (.store threadId context addr size value)))
  | .flush context base size =>
      inferInstanceAs (Decidable (IsAccess tool (.flush context base size)))
  | .fence => .isTrue trivial
  | .registerMapping _ _ => .isTrue trivial
  | .orderGuarantee _ _ _ _ => .isFalse id
  | .newStrand _ _ => .isFalse id

/-- A request of a run with epochs, during which the array does not fill up. -/
def EpochAdmissible (tool : Tool) (request : PmemRequest) : Prop :=
  NotFull tool ∧ NotFull (tool.step request) ∧ OpensOneEpoch tool request

instance (tool : Tool) (request : PmemRequest) : Decidable (EpochAdmissible tool request) :=
  inferInstanceAs (Decidable (_ ∧ _ ∧ _))

/-- A store outside every epoch takes over a slot without a mark, and a flush cuts no back
part off a marked record of the tree. -/
def MarksRightly (tool : Tool) : PmemRequest → Prop
  | .store _ _ _ _ _ =>
      tool.pmem.epoch = true ∨ (tool.pmem.slots tool.pmem.current.index).inEpoch = false
  | .flush _ base size => KeepsMarks (flushRange tool base size) tool.pmem
  | _ => True

instance (tool : Tool) : (request : PmemRequest) → Decidable (MarksRightly tool request)
  | .store _ _ _ _ _ => inferInstanceAs (Decidable (_ ∨ _))
  | .flush _ base size => inferInstanceAs (Decidable (KeepsMarks (flushRange tool base size) _))
  | .fence | .registerMapping _ _ | .orderGuarantee _ _ _ _ | .fenceMark _
  | .epochBegin | .epochEnd _ | .newStrand _ _ => .isTrue trivial

/-- The record without the mark of an epoch. Everything else of it stays. -/
def unmarked (store : PmemSt) : PmemSt := { store with inEpoch := false }

/-- A pending record without its mark is pending still. -/
theorem unmarked_pending {store : PmemSt} (pending : Pending store) : Pending (unmarked store) :=
  ⟨⟨pending.proper.nonempty, pending.proper.nonWrapping⟩, pending.undeleted, pending.written⟩

/-- The tag of a snippet and the mark of an epoch do not read each other. -/
theorem settle_unmarked (tag : FlushedState) (store : PmemSt) :
    settle tag (unmarked store) = unmarked (settle tag store) := by
  unfold settle
  split <;> rfl

/-- The slot loses its mark unless it is deleted, and the others keep theirs. -/
theorem unmarkSlot_slots (pmem : PmemOps) (index tested : Nat) :
    (pmem.unmarkSlot index).slots tested =
      if tested = index ∧ (pmem.slots tested).isDelete = false then unmarked (pmem.slots tested)
      else pmem.slots tested := by
  unfold unmarkSlot
  by_cases same : tested = index
  · subst same
    cases deleted : (pmem.slots tested).isDelete
    · cases marked : (pmem.slots tested).inEpoch
      · rw [if_neg (by simp [reportsSlot, marked]), if_pos ⟨rfl, rfl⟩, unmarked, ← marked]
      · rw [if_pos (by simp [reportsSlot, marked, deleted]), if_pos ⟨rfl, rfl⟩]
        exact if_pos rfl
    · rw [if_neg (by simp [reportsSlot, deleted]), if_neg (by simp)]
  · simp only [same, false_and, if_false]
    split
    · exact if_neg same
    · rfl

/-- The loop of `epoch_end` over the array takes the mark off every undeleted record. -/
theorem unmarkSlots_exact (indices : List Nat) (pmem : PmemOps) :
    indices.foldl unmarkSlot pmem =
        { pmem with slots := (indices.foldl unmarkSlot pmem).slots } ∧
      ∀ tested, (indices.foldl unmarkSlot pmem).slots tested =
        if tested ∈ indices ∧ (pmem.slots tested).isDelete = false
        then unmarked (pmem.slots tested) else pmem.slots tested := by
  induction indices generalizing pmem with
  | nil => exact ⟨rfl, fun tested => by simp⟩
  | cons index rest inductionHypothesis =>
    obtain ⟨frame, slots⟩ := inductionHypothesis (pmem.unmarkSlot index)
    rw [List.foldl_cons]
    refine ⟨?_, fun tested => ?_⟩
    · have first : pmem.unmarkSlot index = { pmem with slots :=
          (pmem.unmarkSlot index).slots } := by
        unfold unmarkSlot
        split <;> rfl
      generalize rest.foldl unmarkSlot (pmem.unmarkSlot index) = after at *
      rw [frame, first]
    · rw [slots, unmarkSlot_slots]
      by_cases here : tested = index ∧ (pmem.slots tested).isDelete = false
      · have listed : tested ∈ index :: rest ∧ (pmem.slots tested).isDelete = false :=
          ⟨List.mem_cons.mpr (.inl here.1), here.2⟩
        rw [if_pos here, if_pos listed]
        split <;> rfl
      · rw [if_neg here]
        simp only [List.mem_cons, or_and_right, here, false_or]

/-- A mark of a fence touches no record. -/
theorem markEpochFence_same (context : Option ExeContext) (pmem : PmemOps) :
    SameTracking pmem (pmem.markEpochFence context) ∧
      (pmem.markEpochFence context).flushAlignSize = pmem.flushAlignSize ∧
      (pmem.markEpochFence context).epoch = pmem.epoch := by
  have frame : pmem.markEpochFence context = { pmem with
      epochFence := (pmem.markEpochFence context).epochFence
      redundantFence := (pmem.markEpochFence context).redundantFence } := by
    unfold markEpochFence
    split
    · dsimp only
      split
      · rfl
      · split <;> rfl
    · rfl
  rw [frame]
  exact ⟨⟨rfl, rfl, rfl, rfl, rfl, rfl, rfl, rfl⟩, rfl, rfl⟩

/-- What the end of an epoch does to the live records: their marks are taken off, and the epoch
stays open only for a nested transaction. -/
structure EpochEndEffect (nested : Bool) (before after : PmemOps) : Prop where
  frame : after = { before with
    epoch := after.epoch
    epochFence := after.epochFence
    pmemStores := after.pmemStores
    slots := after.slots
    epochDurabilityReg := after.epochDurabilityReg }
  epoch : after.epoch = nested
  wellFormed : WellFormed after
  live : after.live = before.live.map unmarked

/-- The end of an epoch takes the marks off the array and the tree, and the live records stay
the same in every other respect. A deleted slot keeps its mark. -/
theorem epochEnd_effect {pmem : PmemOps} (well : WellFormed pmem) (opened : pmem.epoch = true)
    (nested : Bool) : EpochEndEffect nested pmem (pmem.epochEnd nested).2 := by
  obtain ⟨frame, slots⟩ := unmarkSlots_exact pmem.usedSlots { pmem with
    epoch := pmem.epoch && nested
    epochFence := 0
    pmemStores := pmem.pmemStores.map unmarked
    epochDurabilityReg := pmem.epochDurabilityReg + (pmem.epochEnd nested).1.length }
  have ended : (pmem.epochEnd nested).2 = pmem.usedSlots.foldl unmarkSlot { pmem with
      epoch := pmem.epoch && nested
      epochFence := 0
      pmemStores := pmem.pmemStores.map unmarked
      epochDurabilityReg := pmem.epochDurabilityReg + (pmem.epochEnd nested).1.length } := by
    simp only [epochEnd, opened, if_true]
    rfl
  rw [ended]
  generalize List.foldl unmarkSlot _ pmem.usedSlots = after at *
  simp only at slots
  have stores : after.pmemStores.toList = pmem.pmemStores.toList.map unmarked := by
    rw [frame, toList_map]
  have index : after.snippetInfoIndex = pmem.snippetInfoIndex := by rw [frame]
  have snippets : after.snippetInfo = pmem.snippetInfo := by rw [frame]
  have opts : after.opts = pmem.opts := by rw [frame]
  have inside (sIndex slot : Nat) : InSnippet after sIndex slot ↔ InSnippet pmem sIndex slot := by
    unfold InSnippet
    rw [snippets]
  have used (sIndex slot : Nat) (bound : sIndex ≤ pmem.snippetInfoIndex)
      (inSlot : InSnippet pmem sIndex slot) : slot ∈ pmem.usedSlots :=
    List.mem_flatMap.mpr ⟨sIndex, List.mem_range.mpr (Nat.lt_succ_of_le bound),
      mem_slotRange.mpr inSlot⟩
  refine ⟨?_, ?_, ?_, ?_⟩
  · rw [frame]
  · rw [frame]
    simp [opened]
  · refine ⟨opts ▸ well.plain, opts ▸ well.single, ⟨?_, ?_, ?_⟩, ?_, ?_, ?_, ⟨?_, ?_⟩, ?_, ?_, ?_⟩
    · rw [snippets]
      exact well.layout.first
    · rw [snippets, index]
      exact well.layout.chained
    · rw [snippets, index]
      exact well.layout.ordered
    · rw [current, snippets, index]
      exact well.opened
    · rw [snippets, index]
      exact well.closed
    · intro sIndex bound slot inSlot
      rw [index] at bound
      have pending := well.slots sIndex bound slot ((inside sIndex slot).mp inSlot)
      rw [slots]
      split
      · exact unmarked_pending pending
      · exact pending
    · rw [stores]
      exact well.indexed.keyed.map (fun _ => rfl)
    · rw [stores, frame]
      simpa [unmarked] using well.indexed.fresh
    · rw [stores]
      simpa using fun store member => unmarked_pending (well.stores store member)
    · have bounded := well.bounded
      unfold Bounded at bounded ⊢
      rw [stores, frame]
      simpa [unmarked] using bounded
    · intro slot inSlot
      rw [index] at inSlot
      have dirty := well.unflushed slot ((inside _ slot).mp inSlot)
      rw [slots]
      split
      · exact dirty
      · exact dirty
  · unfold live liveSlots
    rw [List.map_append, stores, index, List.map_flatMap]
    congr 1
    refine List.flatMap_congr (fun sIndex member => ?_)
    have bound : sIndex ≤ pmem.snippetInfoIndex := Nat.le_of_lt_succ (List.mem_range.mp member)
    unfold snippetLive
    rw [List.map_flatMap, snippets]
    refine List.flatMap_congr (fun slot inSlot => ?_)
    have inSlot := mem_slotRange.mp inSlot
    have undeleted := (well.slots sIndex bound slot inSlot).undeleted
    rw [slots, if_pos ⟨used sIndex slot bound inSlot, undeleted⟩]
    have still : (unmarked (pmem.slots slot)).isDelete = false := undeleted
    simp [slotLive, undeleted, still, settle_unmarked]

/-- What the end of an epoch reports are the bytes of the marked live records. -/
theorem epochEnd_reported {pmem : PmemOps} (opened : pmem.epoch = true) (nested : Bool)
    (byte : Nat) : Tracks (pmem.epochEnd nested).1 byte ↔
      ∃ store ∈ pmem.live, store.inEpoch = true ∧ store.Covers byte := by
  have listed : (pmem.epochEnd nested).1 = pmem.pmemStores.toList.filter PmemSt.inEpoch ++
      (pmem.usedSlots.filter pmem.reportsSlot).map pmem.slots := by
    simp only [epochEnd, opened, if_true]
  rw [listed, tracks_append]
  constructor
  · rintro (⟨store, member, inside⟩ | ⟨store, member, inside⟩)
    · obtain ⟨inTree, marked⟩ := List.mem_filter.mp member
      exact ⟨store, mem_live.mpr (.inr inTree), marked, inside⟩
    · obtain ⟨slot, reports, rfl⟩ := List.mem_map.mp member
      obtain ⟨isUsed, reports⟩ := List.mem_filter.mp reports
      obtain ⟨sIndex, below, inSlot⟩ := List.mem_flatMap.mp isUsed
      simp only [reportsSlot, Bool.and_eq_true, Bool.not_eq_true'] at reports
      refine ⟨_, mem_live.mpr (.inl ⟨sIndex, Nat.le_of_lt_succ (List.mem_range.mp below), slot,
        mem_slotRange.mp inSlot, reports.2, rfl⟩), ?_, ?_⟩
      · rw [settle_inEpoch]
        exact reports.1
      · rwa [settle_covers]
  · rintro ⟨store, member, marked, inside⟩
    rcases mem_live.mp member with ⟨sIndex, bound, slot, inSlot, undeleted, rfl⟩ | inTree
    · rw [settle_inEpoch] at marked
      rw [settle_covers] at inside
      refine .inr ⟨_, List.mem_map_of_mem (List.mem_filter.mpr ⟨?_, ?_⟩), inside⟩
      · exact List.mem_flatMap.mpr ⟨sIndex, List.mem_range.mpr (Nat.lt_succ_of_le bound),
          mem_slotRange.mpr inSlot⟩
      · simp [reportsSlot, marked, undeleted]
    · exact .inl ⟨store, List.mem_filter.mpr ⟨inTree, marked⟩, inside⟩

/-- The marked live records cover the bytes that the running epoch stored and that are
pending, and those of them that are dirty are covered by dirty ones. -/
structure MarksExact (pmem : PmemOps) (memory : EpochMemory) : Prop where
  written : ∀ store ∈ pmem.live, store.inEpoch = true → ∀ byte, store.Covers byte →
    memory.written byte = true
  dirty : ∀ byte, memory.written byte = true → memory.bytes byte = .dirty →
    ∃ store ∈ pmem.live, store.inEpoch = true ∧ store.state ≠ .flushed ∧ store.Covers byte
  pending : ∀ byte, memory.Owed byte → ∃ store ∈ pmem.live, store.inEpoch = true ∧
    store.Covers byte

/-- Two memories that differ in nothing that the marks are about. -/
theorem MarksExact.of_live {before after : PmemOps} {memory : EpochMemory}
    (marked : MarksExact before memory) (same : after.live = before.live) :
    MarksExact after memory := by
  refine ⟨?_, ?_, ?_⟩ <;> rw [same]
  · exact marked.written
  · exact marked.dirty
  · exact marked.pending

/-- No byte is stored in an epoch and no live record is marked. -/
theorem marksExact_of_none {pmem : PmemOps} {memory : EpochMemory}
    (unwritten : ∀ byte, memory.written byte = false)
    (unmarked : ∀ store ∈ pmem.live, store.inEpoch = false) : MarksExact pmem memory := by
  refine ⟨?_, ?_, ?_⟩
  · intro store member marked
    rw [unmarked store member] at marked
    exact absurd marked Bool.false_ne_true
  · intro byte written
    rw [unwritten byte] at written
    exact absurd written Bool.false_ne_true
  · rintro byte ⟨written, _⟩
    rw [unwritten byte] at written
    exact absurd written Bool.false_ne_true

/-- A store marks its own bytes if an epoch is open, and the marks of other bytes stay. -/
theorem trackStore_marks {pmem : PmemOps} {memory : EpochMemory} {opts : Options}
    {flushAlignSize threadId addr size value : Nat} {context : Option ExeContext}
    (well : WellFormed pmem) (room : pmem.current.index < pmem.opts.maxArrayNum)
    (proper : (PmemSt.range addr size).Proper) (opened : pmem.epoch = memory.opened)
    (closed : memory.opened = false → ∀ byte, memory.written byte = false)
    (clean : pmem.epoch = true ∨ (pmem.slots pmem.current.index).inEpoch = false)
    (marked : MarksExact pmem memory) :
    MarksExact (pmem.trackStore addr size value context).1
      (memory.step opts flushAlignSize (.store threadId context addr size value)) := by
  have live := trackStore_live value context well room proper
  have writes (byte : Nat) : (memory.step opts flushAlignSize
      (.store threadId context addr size value)).written byte = true ↔
      memory.written byte = true ∨ memory.opened = true ∧
        (PmemSt.range addr size).Covers byte := by
    simp [EpochMemory.step]
  have newMark : (pmem.writeStore addr size value context
      (pmem.slots pmem.current.index)).inEpoch = memory.opened := by
    rw [← opened]
    unfold writeStore
    cases isOpen : pmem.epoch
    · simpa [isOpen] using clean
    · rfl
  -- Outside an epoch nothing counts as stored in one.
  have isOpen (byte : Nat) (written : memory.written byte = true) : memory.opened = true := by
    cases state : memory.opened
    · rw [closed state byte] at written
      exact absurd written Bool.false_ne_true
    · rfl
  have covered (byte : Nat) (written : memory.written byte = true ∨ memory.opened = true ∧
      (PmemSt.range addr size).Covers byte) (inside : (PmemSt.range addr size).Covers byte) :
      ∃ store ∈ (pmem.trackStore addr size value context).1.live, store.inEpoch = true ∧
        store.state ≠ .flushed ∧ store.Covers byte := by
    refine ⟨_, (live _).mpr (.inl rfl), ?_, by simp [writeStore], inside⟩
    rw [newMark]
    exact written.elim (isOpen byte) And.left
  refine ⟨?_, ?_, ?_⟩
  · intro store member isMarked byte inside
    rw [writes]
    rcases (live store).mp member with rfl | old
    · rw [newMark] at isMarked
      exact .inr ⟨isMarked, inside⟩
    · exact .inl (marked.written store old isMarked byte inside)
  · intro byte written dirty
    rw [writes] at written
    by_cases inside : (PmemSt.range addr size).Covers byte
    · exact covered byte written inside
    · have before : memory.written byte = true := written.resolve_right (fun both => inside both.2)
      obtain ⟨store, member, rest⟩ :=
        marked.dirty byte before ((store_dirty.mp dirty).resolve_left inside)
      exact ⟨store, (live store).mpr (.inr member), rest⟩
  · rintro byte ⟨written, pending⟩
    rw [writes] at written
    by_cases inside : (PmemSt.range addr size).Covers byte
    · obtain ⟨store, member, isMarked, _, covers⟩ := covered byte written inside
      exact ⟨store, member, isMarked, covers⟩
    · have before : memory.written byte = true := written.resolve_right (fun both => inside both.2)
      obtain ⟨store, member, rest⟩ :=
        marked.pending byte ⟨before, (store_unpersisted.mp pending).resolve_left inside⟩
      exact ⟨store, (live store).mpr (.inr member), rest⟩

/-- A flush keeps the marks exact if it cuts no back part off a marked record of the tree. That
part is entered without a mark; every other part has the mark of the record it was cut from. -/
theorem FlushEffect.marks {flush : PmemSt} {before after : PmemOps} {memory : EpochMemory}
    (effect : FlushEffect flush before after) (safe : TagsSafely flush before)
    (keeps : KeepsMarks flush before) (marked : MarksExact before memory) :
    MarksExact after { memory with bytes := memory.bytes.flush flush.Covers } := by
  refine ⟨?_, ?_, ?_⟩
  · intro store member isMarked byte inside
    obtain ⟨old, isOld, covers, oldMark, _⟩ := effect.origin store member
    exact marked.written old isOld (oldMark isMarked) byte (covers byte inside)
  · intro byte written dirty
    obtain ⟨outside, wasDirty⟩ := flush_dirty.mp dirty
    obtain ⟨store, member, isMarked, isDirty, inside⟩ := marked.dirty byte written wasDirty
    obtain ⟨kept, isKept, keptDirty, covered, keptMark⟩ :=
      effect.still_dirty safe store member isDirty byte inside outside
    exact ⟨kept, isKept, keptMark keeps isMarked, keptDirty, covered⟩
  · rintro byte ⟨written, pending⟩
    obtain ⟨store, member, isMarked, inside⟩ :=
      marked.pending byte ⟨written, flush_unpersisted.mp pending⟩
    obtain ⟨kept, isKept, covered, keptMark⟩ := effect.covered store member byte inside
    exact ⟨kept, isKept, keptMark keeps isMarked, covered⟩

/-- A fence leaves only bytes that are stored and not flushed, with the marks they had. -/
theorem FenceEffect.marks {before after : PmemOps} {memory : EpochMemory}
    (effect : FenceEffect before after) (marked : MarksExact before memory) :
    MarksExact after { memory with bytes := memory.bytes.fence } := by
  have left (byte : Nat) (written : memory.written byte = true)
      (dirty : memory.bytes byte = .dirty) :
      ∃ store ∈ after.live, store.inEpoch = true ∧ store.state ≠ .flushed ∧
        store.Covers byte := by
    obtain ⟨old, isOld, isMarked, isDirty, inside⟩ := marked.dirty byte written dirty
    obtain ⟨store, member, same⟩ := effect.live.right old
      (List.mem_filter.mpr ⟨isOld, by simpa using isDirty⟩)
    have sameMark : store.inEpoch = old.inEpoch := by rw [same]
    refine ⟨store, member, sameMark.trans isMarked, ?_, (same.covers byte).mpr inside⟩
    rw [same.sameRange.state]
    exact isDirty
  refine ⟨?_, ?_, ?_⟩
  · intro store member isMarked byte inside
    obtain ⟨old, isOld, same⟩ := effect.live.left store member
    have sameMark : store.inEpoch = old.inEpoch := by rw [same]
    exact marked.written old (List.mem_of_mem_filter isOld) (sameMark.symm.trans isMarked) byte
      ((same.covers byte).mp inside)
  · exact fun byte written dirty => left byte written (fence_dirty.mp dirty)
  · rintro byte ⟨written, pending⟩
    obtain ⟨store, member, isMarked, _, inside⟩ := left byte written (fence_unpersisted.mp pending)
    exact ⟨store, member, isMarked, inside⟩

/-- No record is lost at the end of an epoch. -/
theorem EpochEndEffect.missed {nested : Bool} {before after : PmemOps} {memory : Memory Nat}
    (effect : EpochEndEffect nested before after) (related : NothingMissed before memory) :
    NothingMissed after memory := by
  constructor
  · intro byte dirty
    obtain ⟨store, member, rest⟩ := related.dirty byte dirty
    exact ⟨unmarked store, by rw [effect.live]; exact List.mem_map_of_mem member, rest⟩
  · intro byte pending
    obtain ⟨store, member, inside⟩ := related.pending byte pending
    exact ⟨unmarked store, by rw [effect.live]; exact List.mem_map_of_mem member, inside⟩

/-- No record is made at the end of an epoch. -/
theorem EpochEndEffect.invented {nested : Bool} {before after : PmemOps} {memory : Memory Nat}
    (effect : EpochEndEffect nested before after) (related : NothingInvented before memory) :
    NothingInvented after memory := by
  constructor
  · intro store member isDirty byte inside
    rw [effect.live] at member
    obtain ⟨old, isOld, rfl⟩ := List.mem_map.mp member
    exact related.dirty old isOld isDirty byte inside
  · rintro byte ⟨store, member, inside⟩
    rw [effect.live] at member
    obtain ⟨old, isOld, rfl⟩ := List.mem_map.mp member
    exact related.pending byte ⟨old, isOld, inside⟩

/-- No transaction was ever started. Epochs are then opened and closed by requests alone. -/
structure NoTransactions (trans : TransactionOps) : Prop where
  threads : trans.threads = create
  transactions : trans.transactions = create

/-- Without transactions none is nested. -/
theorem NoTransactions.not_nested {trans : TransactionOps} (none : NoTransactions trans)
    (txId : Nat) : trans.isNestTrans txId = false := by
  unfold TransactionOps.isNestTrans
  rw [none.transactions]
  rfl

/-- A store opens no transaction. -/
theorem recordStore_noTransactions {trans : TransactionOps} (none : NoTransactions trans)
    (store : PmemSt) : NoTransactions (trans.recordStore store) := by
  unfold TransactionOps.recordStore
  split
  · exact ⟨none.threads, none.transactions⟩
  · exact ⟨none.threads, none.transactions⟩

/-- A store of a thread without transactions opens none. -/
theorem handleTxStore_noTransactions {trans : TransactionOps} (none : NoTransactions trans)
    (threadId : Nat) (store : PmemSt) : NoTransactions (trans.handleTxStore threadId store) := by
  have noThread : trans.threads.lookup (threadKey threadId) = .none := by
    rw [none.threads]
    rfl
  unfold TransactionOps.handleTxStore
  rw [noThread]
  split
  · exact none
  · simp only
    split
    · exact recordStore_noTransactions none store
    · exact none

/-- No request of the tracker starts a transaction. -/
theorem step_noTransactions {tool : Tool} (none : NoTransactions tool.trans)
    (request : PmemRequest) : NoTransactions (tool.step request).trans := by
  cases request with
  | store threadId context addr size value =>
    simp only [Tool.step, Tool.tracePmemStore]
    split
    · exact handleTxStore_noTransactions none threadId _
    · exact none
  | epochBegin =>
    simp only [Tool.step]
    split
    · exact none
    · exact none
  | epochEnd threadId =>
    simp only [Tool.step, Tool.epochEnd]
    split
    · exact none
    · exact none
  | flush | fence | registerMapping | orderGuarantee | fenceMark | newStrand => exact none

/-- A ready tracker whose marks are exact, beside the byte-level machine. No transaction is
open, and what is tracked is exact. -/
structure EpochTracked (opts : Options) (flushAlignSize : Nat) (tool : Tool)
    (memory : EpochMemory) : Prop where
  ready : Ready opts flushAlignSize tool
  missed : NothingMissed tool.pmem memory.bytes
  invented : NothingInvented tool.pmem memory.bytes
  opened : tool.pmem.epoch = memory.opened
  closed : memory.opened = false → ∀ byte, memory.written byte = false
  none : NoTransactions tool.trans
  marked : MarksExact tool.pmem memory

section Step

variable {opts : Options} {flushAlignSize : Nat} {tool : Tool} {memory : EpochMemory}
  {request : PmemRequest}

/-- A store, flush, fence or registration neither opens nor closes an epoch. -/
theorem step_epoch (admissible : Admissible tool request) (well : WellFormed tool.pmem) :
    (tool.step request).pmem.epoch = tool.pmem.epoch := by
  rcases step_pmem admissible with ⟨_, context, addr, size, value, rfl, proper, stored⟩ |
    ⟨context, base, size, rfl, range, _⟩ | ⟨rfl, fenced⟩ | ⟨_, _, rfl, _, _⟩
  · rw [stored, (trackStore_exact addr size value context well.single admissible.1).1.frame]
  · rw [(flush_effect well range admissible.2.1).frame]
  · rw [fenced, (doFence_effect well).frame]
  · rfl

/-- Stores, flushes and fences keep the marks exact.

Proof: each request has its own lemma above, and the two that no lemma is about leave array and
tree as they are. -/
theorem step_access_marks (admissible : Admissible tool request)
    (tracked : EpochTracked opts flushAlignSize tool memory) (safe : FlushesSafely tool request)
    (rightly : MarksRightly tool request) :
    MarksExact (tool.step request).pmem (memory.step opts flushAlignSize request) := by
  have well := tracked.ready.wellFormed
  rcases step_pmem admissible with ⟨_, context, addr, size, value, rfl, proper, stored⟩ |
    ⟨context, base, size, rfl, range, _⟩ | ⟨rfl, fenced⟩ | ⟨_, _, rfl, same, _⟩
  · rw [stored]
    exact trackStore_marks well admissible.1 proper tracked.opened tracked.closed rightly
      tracked.marked
  · have effect := flush_effect well range admissible.2.1
    simp only [EpochMemory.step, referenceStep]
    rw [← tracked.ready.range_eq]
    exact effect.marks safe rightly tracked.marked
  · rw [fenced]
    exact (doFence_effect well).marks tracked.marked
  · exact tracked.marked.of_live same.live_eq

/-- One access keeps everything that the epochs are followed by: nothing missed, nothing
invented, and the marks exact.

Proof: the first two are the step lemmas of the durable bytes, which hold whatever the epochs
do. The third is `step_access_marks`. -/
theorem step_access_tracked (admissible : Admissible tool request)
    (tracked : EpochTracked opts flushAlignSize tool memory) (safe : FlushesSafely tool request)
    (reaching : FlushesDirty tool request) (rightly : MarksRightly tool request) :
    EpochTracked opts flushAlignSize (tool.step request)
      (memory.step opts flushAlignSize request) := by
  have bytes : (memory.step opts flushAlignSize request).bytes =
      referenceStep opts flushAlignSize memory.bytes request := by
    cases request with
    | _ => rfl
  have sameOpened : (memory.step opts flushAlignSize request).opened = memory.opened := by
    rcases step_pmem admissible with ⟨_, _, _, _, _, rfl, _, _⟩ | ⟨_, _, _, rfl, _, _⟩ |
      ⟨rfl, _⟩ | ⟨_, _, rfl, _, _⟩
    all_goals rfl
  refine ⟨step_ready admissible tracked.ready, ?_, ?_, ?_, ?_, step_noTransactions tracked.none _,
    step_access_marks admissible tracked safe rightly⟩
  · rw [bytes]
    exact step_missed admissible tracked.ready safe tracked.missed
  · rw [bytes]
    exact step_invented admissible tracked.ready reaching tracked.invented
  · rw [step_epoch admissible tracked.ready.wellFormed, sameOpened]
    exact tracked.opened
  · intro isClosed byte
    rw [sameOpened] at isClosed
    have before := tracked.closed isClosed byte
    rcases step_pmem admissible with ⟨_, _, _, _, _, rfl, _, _⟩ | ⟨_, _, _, rfl, _, _⟩ |
      ⟨rfl, _⟩ | ⟨_, _, rfl, _, _⟩
    · simp [EpochMemory.step, before, isClosed]
    all_goals exact before

/-- One step of both machines in a run with epochs. -/
theorem step_epochTracked (durability : opts.epochDurabilityFence = true)
    (tracked : EpochTracked opts flushAlignSize tool memory)
    (admissible : EpochAdmissible tool request) (safe : FlushesSafely tool request)
    (reaching : FlushesDirty tool request) (rightly : MarksRightly tool request) :
    EpochTracked opts flushAlignSize (tool.step request)
      (memory.step opts flushAlignSize request) := by
  have option : tool.pmem.opts.epochDurabilityFence = true := by
    rw [tracked.ready.opts]
    exact durability
  have noTransactions := step_noTransactions tracked.none request
  obtain ⟨notFull, stillNotFull, permitted⟩ := admissible
  cases request with
  | epochBegin =>
    have isClosed : memory.opened = false := tracked.opened.symm.trans permitted
    have begun : (tool.step .epochBegin).pmem = tool.pmem.epochBegin := by
      simp only [Tool.step, option, if_true]
    have same : SameTracking tool.pmem (tool.step .epochBegin).pmem := by
      rw [begun]
      exact ⟨rfl, rfl, rfl, rfl, rfl, rfl, rfl, rfl⟩
    refine ⟨⟨tracked.ready.wellFormed.of_same same, same.opts.trans tracked.ready.opts, ?_⟩,
      tracked.missed.of_same same, tracked.invented.of_same same, ?_, fun _ _ => rfl,
      noTransactions, ?_⟩
    · rw [begun]
      exact tracked.ready.align
    · rw [begun]
      rfl
    · refine marksExact_of_none (fun _ => rfl) (fun store member => ?_)
      rw [same.live_eq] at member
      -- A marked record would cover a byte that no open epoch stored.
      by_contra marked
      have size := (tracked.ready.wellFormed.live_pending member).proper.nonempty
      have written := tracked.marked.written store member (by simpa using marked) store.addr
        ⟨Nat.le_refl _, by omega⟩
      rw [tracked.closed isClosed] at written
      exact Bool.false_ne_true written
  | epochEnd threadId =>
    have ended : (tool.step (.epochEnd threadId)).pmem = (tool.pmem.epochEnd false).2 := by
      simp only [Tool.step, Tool.epochEnd, option, if_true, tracked.none.not_nested]
    have effect := epochEnd_effect tracked.ready.wellFormed permitted false
    rw [← ended] at effect
    refine ⟨⟨effect.wellFormed, ?_, ?_⟩, effect.missed tracked.missed,
      effect.invented tracked.invented, ?_, fun _ _ => rfl, noTransactions, ?_⟩
    · rw [effect.frame]
      exact tracked.ready.opts
    · rw [effect.frame]
      exact tracked.ready.align
    · exact effect.epoch
    · refine marksExact_of_none (fun _ => rfl) (fun store member => ?_)
      rw [effect.live] at member
      obtain ⟨old, _, rfl⟩ := List.mem_map.mp member
      rfl
  | fenceMark context =>
    obtain ⟨same, align, epoch⟩ := markEpochFence_same context tool.pmem
    exact ⟨⟨tracked.ready.wellFormed.of_same same, same.opts.trans tracked.ready.opts,
      align.trans tracked.ready.align⟩, tracked.missed.of_same same, tracked.invented.of_same same,
      epoch.trans tracked.opened, tracked.closed, noTransactions,
      tracked.marked.of_live same.live_eq⟩
  | store threadId context addr size value =>
    exact step_access_tracked ⟨notFull, stillNotFull, permitted⟩ tracked safe reaching rightly
  | flush context base size =>
    exact step_access_tracked ⟨notFull, stillNotFull, permitted⟩ tracked safe reaching rightly
  | fence =>
    exact step_access_tracked ⟨notFull, stillNotFull, trivial⟩ tracked safe reaching rightly
  | registerMapping base size =>
    exact step_access_tracked ⟨notFull, stillNotFull, trivial⟩ tracked safe reaching rightly
  | orderGuarantee | newStrand => exact absurd permitted id

end Step

section Runs

variable {opts : Options} (defaults : DefaultTracking opts)
  (durability : opts.epochDurabilityFence = true) (transactionsOnly redundantLogging : Bool)
  (cacheLineSize : Nat) (slots : Nat → PmemSt)

include defaults

/-- At the start there is no byte to follow and no epoch open. -/
theorem initTool_epochTracked : EpochTracked opts cacheLineSize
    (initTool opts transactionsOnly redundantLogging cacheLineSize slots) EpochMemory.start where
  ready := initTool_ready defaults transactionsOnly redundantLogging cacheLineSize slots
  missed := (initTool_complete defaults transactionsOnly redundantLogging cacheLineSize
    slots).missed
  invented := (initTool_faithful defaults transactionsOnly redundantLogging cacheLineSize
    slots).invented
  opened := rfl
  closed := fun _ _ => rfl
  none := ⟨rfl, rfl⟩
  marked := marksExact_of_none (fun _ => rfl) (fun store member => absurd member (by
    rw [show (initTool opts transactionsOnly redundantLogging cacheLineSize slots).pmem.live = []
      from initPmem_live opts cacheLineSize slots]
    exact List.not_mem_nil))

include durability

/-- The report at each end of an epoch covers exactly the bytes that the epoch stored and that
are not durable, in every run whose marks are kept rightly and whose flushes neither tag a
snippet by mistake nor skip a dirty record.

Proof: simulation by a machine that remembers for each byte whether the open epoch wrote it.
The marks of the live records are exact up to the end of the epoch, and the report there lists
the marked records of the array and the tree. -/
theorem epochEnd_exact (requests : List PmemRequest)
    (admitted : Runs.AllSteps Tool.step (fun tool request => EpochAdmissible tool request ∧
      FlushesSafely tool request ∧ FlushesDirty tool request ∧ MarksRightly tool request)
      (initTool opts transactionsOnly redundantLogging cacheLineSize slots) requests)
    (made : List PmemRequest) (threadId : Nat) (ending : made ++ [.epochEnd threadId] <+: requests)
    (byte : Nat) :
    Tracks ((made.foldl Tool.step (initTool opts transactionsOnly redundantLogging cacheLineSize
        slots)).epochEnd threadId).1 byte ↔
      (made.foldl (EpochMemory.step opts cacheLineSize) EpochMemory.start).Owed byte := by
  obtain ⟨before, last⟩ := Runs.allSteps_append.mp (Runs.allSteps_of_prefix ending admitted)
  have final : EpochTracked opts cacheLineSize
      (made.foldl Tool.step (initTool opts transactionsOnly redundantLogging cacheLineSize slots))
      (made.foldl (EpochMemory.step opts cacheLineSize) EpochMemory.start) := by
    refine Runs.simulation ?_ _ _ made (initTool_epochTracked defaults transactionsOnly
      redundantLogging cacheLineSize slots) before
    exact fun tool memory request tracked step =>
      step_epochTracked durability tracked step.1 step.2.1 step.2.2.1 step.2.2.2
  have opened := last.1.1.2.2
  generalize made.foldl Tool.step _ = tool at *
  generalize made.foldl (EpochMemory.step opts cacheLineSize) _ = memory at *
  have ended : (tool.epochEnd threadId).1 = (tool.pmem.epochEnd false).1 := by
    have option : tool.pmem.opts.epochDurabilityFence = true := by
      rw [final.ready.opts]
      exact durability
    simp only [Tool.epochEnd, option, if_true, final.none.not_nested]
  rw [ended, epochEnd_reported opened false byte]
  constructor
  · rintro ⟨store, member, marked, inside⟩
    exact ⟨final.marked.written store member marked byte inside,
      final.invented.pending byte ⟨store, member, inside⟩⟩
  · exact final.marked.pending byte

omit defaults durability

/-- The epoch persists its first store and half of its second. The store before it stays
dirty and is not the business of the epoch. -/
theorem epochEnd_exact_partial_flush :
    let opts := { defaultOptions (fun _ => false) with epochDurabilityFence := true }
    let start := initTool opts false false 64 (fun _ => PmemSt.zero)
    let made : List PmemRequest := [.registerMapping 64 1024, .store 1 none 100 8 0, .epochBegin,
      .store 1 none 200 8 0, .store 1 none 300 8 0, .flush none 200 8, .flush none 300 4, .fence]
    let memory := made.foldl (EpochMemory.step opts 64) EpochMemory.start
    Runs.AllSteps Tool.step (fun tool request => EpochAdmissible tool request ∧
        FlushesSafely tool request ∧ FlushesDirty tool request ∧ MarksRightly tool request)
        start (made ++ [.epochEnd 1]) ∧
      (¬ memory.Owed 100 ∧ ¬ memory.Owed 200 ∧ ¬ memory.Owed 300 ∧ memory.Owed 304) ∧
      ∀ byte, Tracks ((made.foldl Tool.step start).epochEnd 1).1 byte ↔ memory.Owed byte := by
  refine ⟨by decide +kernel, by decide +kernel, ?_⟩
  exact epochEnd_exact ⟨rfl, rfl⟩ rfl false false 64 _ _ (by decide +kernel) _ 1
    (List.prefix_refl _)

/-- The first epoch leaves its mark on the slot of its store. The store after it takes the
slot over, mark and all, and is reported by the second epoch. -/
theorem epochEnd_exact_fails :
    let opts := { defaultOptions (fun _ => false) with epochDurabilityFence := true }
    let start := initTool opts false false 64 (fun _ => PmemSt.zero)
    let made : List PmemRequest := [.registerMapping 64 1024, .epochBegin,
      .store 1 none 100 8 0, .flush none 100 8, .fence, .epochEnd 1, .store 1 none 200 8 0,
      .epochBegin]
    Runs.AllSteps Tool.step EpochAdmissible start (made ++ [.epochEnd 1]) ∧
      Tracks ((made.foldl Tool.step start).epochEnd 1).1 200 ∧
      ¬ (made.foldl (EpochMemory.step opts 64) EpochMemory.start).Owed 200 := by
  decide +kernel

end Runs

end PmDebugger
