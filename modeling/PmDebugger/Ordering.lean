import PmDebugger.Durability

/-!
# The order check

A request that `A` become durable before `B` is stored gives each of the two ranges a
time record. A store restarts the records that it meets; a fence ends those that its
test of boxes and records finds flushed. The check at exit compares the two times.

The byte-level machine counts fences. It remembers the fence that made the last pending
byte of `A` durable and how many fences came before the last store to `B`. The two agree
as long as the test at a fence finds `A` exactly when the fence leaves no byte of it
pending. It fails where a neighbour or a part of `A` is flushed, since the test includes
the ends of a range and asks for one flushed record only, and where a flushed record lies
outside the box of its snippet.
-/

namespace PmDebugger

open OrderedSet OrderedSet.OSet PmemOps Persistency

/-- Two ranges share a byte. The test is on the four ends, without the wrap-around of machine
words, so it is meant for proper ranges. -/
def Meets (first second : PmemSt) : Prop :=
  second.addr < first.addr + first.size ∧ first.addr < second.addr + second.size

instance (first second : PmemSt) : Decidable (Meets first second) :=
  inferInstanceAs (Decidable (_ ∧ _))

/-- For proper ranges, to meet is what the comparator of the tree finds equal. -/
theorem meets_iff_cmp {first second : PmemSt} (left : first.Proper) (right : second.Proper) :
    Meets first second ↔ cmpPmemSt first second = .eq :=
  (cmpPmemSt_eq_iff left.nonWrapping right.nonWrapping).symm

/-- Two proper ranges meet if and only if they share a byte. -/
theorem meets_iff_shared {first second : PmemSt} (left : first.Proper) (right : second.Proper) :
    Meets first second ↔ ∃ byte, first.Covers byte ∧ second.Covers byte := by
  rw [meets_iff_cmp left right]
  exact cmpPmemSt_eq_iff_shared left right

/-- Some byte of the range is not durable. The search is over the bytes of the range, which
makes the predicate decidable. -/
def PendingIn (range : PmemSt) (memory : Memory Nat) : Prop :=
  ∃ byte ∈ List.range' range.addr range.size, memory.Unpersisted byte

instance (range : PmemSt) (memory : Memory Nat) : Decidable (PendingIn range memory) :=
  inferInstanceAs (Decidable (∃ byte ∈ _, _))

/-- The bounded search over the bytes of a range finds what there is to find. -/
theorem pendingIn_iff {range : PmemSt} {memory : Memory Nat} :
    PendingIn range memory ↔ ∃ byte, range.Covers byte ∧ memory.Unpersisted byte := by
  simp only [PendingIn, List.mem_range'_1, PmemSt.Covers]

/-- The byte-level machine with the two times of an ordering request: the fence that made
the first range durable, and the number of fences before the last store to the second. -/
structure OrderMemory where
  bytes : Memory Nat
  fences : Nat
  stored : Bool
  persisted : Option Nat
  begun : Option Nat

namespace OrderMemory

/-- The machine at the request: nothing is pending, no fence was counted and neither range was
stored. -/
def start : OrderMemory := ⟨Memory.clean, 0, false, none, none⟩

/-- The request forgets what happened to its ranges before. What is pending, and the fences
counted so far, stay. -/
def restart (memory : OrderMemory) : OrderMemory :=
  { memory with stored := false, persisted := none, begun := none }

/-- One access on the byte-level machine. A fence that leaves no byte of the first range
pending is remembered with its number, and a store to the second range with the number of
fences before it. -/
def step (first second : PmemSt) (opts : Options) (flushAlignSize : Nat) (memory : OrderMemory) :
    PmemRequest → OrderMemory
  | .store threadId context addr size value => { memory with
      bytes := referenceStep opts flushAlignSize memory.bytes
        (.store threadId context addr size value)
      stored := memory.stored || decide (Meets (PmemSt.range addr size) first)
      begun := if Meets (PmemSt.range addr size) second then some memory.fences else memory.begun }
  | .fence => { memory with
      bytes := memory.bytes.fence
      fences := memory.fences + 1
      persisted := if PendingIn first memory.bytes ∧ ¬ PendingIn first memory.bytes.fence
        then some memory.fences else memory.persisted }
  | request => { memory with bytes := referenceStep opts flushAlignSize memory.bytes request }

/-- The fence that made the last pending byte of the range durable. There is none as long
as a byte of it is pending. -/
def persistedAt (range : PmemSt) (memory : OrderMemory) : Option Nat :=
  if PendingIn range memory.bytes then none else memory.persisted

end OrderMemory

/-- An access, or an ordering request for two proper ranges. These are the requests of the runs
about which the order check is judged; marks, epochs and strands are left out. -/
def IsOrderAccess (tool : Tool) : PmemRequest → Prop
  | .orderGuarantee addrA sizeA addrB sizeB =>
      (PmemSt.range addrA sizeA).Proper ∧ (PmemSt.range addrB sizeB).Proper
  | request => IsAccess tool request

instance (tool : Tool) : (request : PmemRequest) → Decidable (IsOrderAccess tool request)
  | .orderGuarantee _ _ _ _ => inferInstanceAs (Decidable (_ ∧ _))
  | .store threadId context addr size value =>
      inferInstanceAs (Decidable (IsAccess tool (.store threadId context addr size value)))
  | .flush context base size =>
      inferInstanceAs (Decidable (IsAccess tool (.flush context base size)))
  | .fence => .isTrue trivial
  | .registerMapping _ _ => .isTrue trivial
  | .fenceMark _ => .isFalse id
  | .epochBegin => .isFalse id
  | .epochEnd _ => .isFalse id
  | .newStrand _ _ => .isFalse id

/-- A request of a run with ordering requests, during which the array does not fill up. -/
def OrderAdmissible (tool : Tool) (request : PmemRequest) : Prop :=
  NotFull tool ∧ NotFull (tool.step request) ∧ IsOrderAccess tool request

instance (tool : Tool) (request : PmemRequest) : Decidable (OrderAdmissible tool request) :=
  inferInstanceAs (Decidable (_ ∧ _ ∧ _))

/-- Some live record meets the range, and all that do are flushed. A fence then makes the last
pending byte of the range durable. -/
def Settled (range : PmemSt) (pmem : PmemOps) : Prop :=
  (∃ store ∈ pmem.live, Meets store range) ∧
    ∀ store ∈ pmem.live, Meets store range → store.state = .flushed

instance (range : PmemSt) (pmem : PmemOps) : Decidable (Settled range pmem) :=
  inferInstanceAs (Decidable ((∃ store ∈ pmem.live, _) ∧ ∀ store ∈ pmem.live, _))

/-- A flushed record of the array that meets the range lies in a snippet whose box touches
it. -/
def BoxesTouch (range : PmemSt) (pmem : PmemOps) : Prop :=
  ∀ sIndex ∈ List.range (pmem.snippetInfoIndex + 1), ∀ slot ∈ slotRange (pmem.snippetInfo sIndex),
    Meets (pmem.slots slot) range →
      (settle (pmem.snippetInfo sIndex).flushedNum (pmem.slots slot)).state = .flushed →
        touches (newTimeRecord 0 range.addr range.size) (pmem.snippetInfo sIndex).minAdd
          (pmem.snippetInfo sIndex).maxAdd

instance (range : PmemSt) (pmem : PmemOps) : Decidable (BoxesTouch range pmem) :=
  inferInstanceAs (Decidable (∀ sIndex ∈ _, ∀ slot ∈ _, _ → _ → _))

/-- At a fence the boxes touch the range where its flushed records are, and whatever is
flushed and touches the range, no byte of the range stays pending. -/
def StampsRightly (range : PmemSt) (tool : Tool) : PmemRequest → Prop
  | .fence => BoxesTouch range tool.pmem ∧
      (stamps (newTimeRecord 0 range.addr range.size) tool.pmem → Settled range tool.pmem)
  | _ => True

instance (range : PmemSt) (tool : Tool) :
    (request : PmemRequest) → Decidable (StampsRightly range tool request)
  | .fence => inferInstanceAs (Decidable (_ ∧ (_ → _)))
  | .store _ _ _ _ _ | .flush _ _ _ | .registerMapping _ _ | .orderGuarantee _ _ _ _
  | .fenceMark _ | .epochBegin | .epochEnd _ | .newStrand _ _ => .isTrue trivial

section Fence

variable {pmem : PmemOps} {memory : Memory Nat} {range : PmemSt}

/-- A range has pending bytes iff it meets a live record. -/
theorem pendingIn_live (well : WellFormed pmem) (proper : range.Proper)
    (missed : NothingMissed pmem memory) (invented : NothingInvented pmem memory) :
    PendingIn range memory ↔ ∃ store ∈ pmem.live, Meets store range := by
  rw [pendingIn_iff]
  constructor
  · rintro ⟨byte, inside, pending⟩
    obtain ⟨store, member, covers⟩ := missed.pending byte pending
    have shared := (meets_iff_shared (well.live_pending member).proper proper).mpr
      ⟨byte, covers, inside⟩
    exact ⟨store, member, shared⟩
  · rintro ⟨store, member, meets⟩
    obtain ⟨byte, covers, inside⟩ :=
      (meets_iff_shared (well.live_pending member).proper proper).mp meets
    exact ⟨byte, inside, invented.pending byte ⟨store, member, covers⟩⟩

/-- It still has some after a fence iff it meets a dirty one. -/
theorem pendingIn_fence_live (well : WellFormed pmem) (proper : range.Proper)
    (missed : NothingMissed pmem memory) (invented : NothingInvented pmem memory) :
    PendingIn range memory.fence ↔
      ∃ store ∈ pmem.live, Meets store range ∧ store.state ≠ .flushed := by
  rw [pendingIn_iff]
  constructor
  · rintro ⟨byte, inside, pending⟩
    obtain ⟨store, member, dirty, covers⟩ := missed.dirty byte (fence_unpersisted.mp pending)
    have shared := (meets_iff_shared (well.live_pending member).proper proper).mpr
      ⟨byte, covers, inside⟩
    exact ⟨store, member, shared, dirty⟩
  · rintro ⟨store, member, meets, dirty⟩
    obtain ⟨byte, covers, inside⟩ :=
      (meets_iff_shared (well.live_pending member).proper proper).mp meets
    exact ⟨byte, inside, fence_unpersisted.mpr (invented.dirty store member dirty byte covers)⟩

/-- The test of a fence reads the range of a time record only. -/
theorem stamps_congr {record other : PmemStOrder} (addr : record.addr = other.addr)
    (size : record.size = other.size) : stamps record pmem ↔ stamps other pmem := by
  simp only [stamps, snippetStamps, treeStamps, touches, addr, size]

/-- The test of a fence finds every flushed record that meets the range, if the boxes
touch the range where such records are. -/
theorem stamps_of_flushed (well : WellFormed pmem) (proper : range.Proper)
    (boxes : BoxesTouch range pmem) {store : PmemSt} (member : store ∈ pmem.live)
    (meets : Meets store range) (flushed : store.state = .flushed) :
    stamps (newTimeRecord 0 range.addr range.size) pmem := by
  cases mem_live.mp member with
  | inl inArray =>
    obtain ⟨sIndex, used, slot, inside, _, rfl⟩ := inArray
    have listed : sIndex ∈ List.range (pmem.snippetInfoIndex + 1) :=
      List.mem_range.mpr (Nat.lt_succ_of_le used)
    have slotProper := (well.slots sIndex used slot inside).proper
    have slotMeets : Meets (pmem.slots slot) range := by
      obtain ⟨byte, covers, inRange⟩ :=
        (meets_iff_shared ((settle_proper _ _).mpr slotProper) proper).mp meets
      exact (meets_iff_shared slotProper proper).mpr
        ⟨byte, (settle_covers _ _ _).mp covers, inRange⟩
    have box := boxes sIndex listed slot (mem_slotRange.mpr inside) slotMeets flushed
    refine .inl ⟨sIndex, listed, box, ?_⟩
    rw [settle_flushed_iff] at flushed
    cases tag : (pmem.snippetInfo sIndex).flushedNum with
    | allFlushed => exact .inl rfl
    | noFlushed =>
      -- Only the current snippet is untouched, and it has no flushed record.
      have isCurrent : sIndex = pmem.snippetInfoIndex := by
        by_contra differs
        exact well.closed sIndex (by omega) tag
      subst isCurrent
      cases flushed with
      | inl own => exact absurd own (well.unflushed slot inside)
      | inr all => simp [all] at tag
    | partFlushed =>
      refine .inr ⟨rfl, slot, mem_slotRange.mpr inside, ?_, ?_⟩
      · cases flushed with
        | inl own => exact own
        | inr all => simp [all] at tag
      · simp only [touches, newTimeRecord, slotProper.nonWrapping.maxAddr_eq,
          Word64.add_eq proper.nonWrapping]
        simp only [Meets] at slotMeets
        omega
  | inr inTree =>
    have storeProper := (well.stores store inTree).proper
    exact .inr ⟨store, inTree, (meets_iff_cmp storeProper ⟨proper.nonempty, proper.nonWrapping⟩).mp
      meets, flushed⟩

/-- The test of a fence is right about the range. -/
theorem stamps_iff (well : WellFormed pmem) (proper : range.Proper)
    (missed : NothingMissed pmem memory) (invented : NothingInvented pmem memory)
    (boxes : BoxesTouch range pmem)
    (settles : stamps (newTimeRecord 0 range.addr range.size) pmem → Settled range pmem) :
    stamps (newTimeRecord 0 range.addr range.size) pmem ↔
      PendingIn range memory ∧ ¬ PendingIn range memory.fence := by
  rw [pendingIn_live well proper missed invented, pendingIn_fence_live well proper missed invented]
  constructor
  · intro stamped
    obtain ⟨some, all⟩ := settles stamped
    refine ⟨some, ?_⟩
    rintro ⟨store, member, meets, dirty⟩
    exact dirty (all store member meets)
  · rintro ⟨⟨store, member, meets⟩, noneDirty⟩
    apply stamps_of_flushed well proper boxes member meets
    by_contra dirty
    exact noneDirty ⟨store, member, meets, dirty⟩

end Fence

/-- The end of the first time record: unset while a byte of the range is pending, then the
fence that made the last of them durable. Nothing is said before the first store. -/
def EndsAs (range : PmemSt) (memory : OrderMemory) (record : PmemStOrder) : Prop :=
  memory.stored = true →
    (PendingIn range memory.bytes → record.timestampEnd = Word64.minusOne) ∧
    (¬ PendingIn range memory.bytes → ∃ fence, memory.persisted = some fence ∧
      fence ≤ memory.fences ∧ record.timestampEnd = fence % 2 ^ 64)

/-- The beginning of the second time record: the fences before the last store. The clock of the
tracker is a machine word, so the two numbers agree up to wrap-around. -/
def BeginsAs (memory : OrderMemory) (record : PmemStOrder) : Prop :=
  ∀ fences, memory.begun = some fences → fences ≤ memory.fences ∧
    record.timestampBegin = fences % 2 ^ 64

/-- There is a time record with this index and range and with this property. An order record
names its two time records by index only, so this is how a request finds them again. -/
def Timed (times : List PmemStOrder) (index : Nat) (range : PmemSt)
    (holds : PmemStOrder → Prop) : Prop :=
  ∃ record ∈ times, record.index = index ∧ record.addr = range.addr ∧ record.size = range.size ∧
    holds record

/-- An edit of all time records that keeps their index and range. -/
theorem Timed.map {times : List PmemStOrder} {index : Nat} {range : PmemSt}
    {holds holds' : PmemStOrder → Prop} (timed : Timed times index range holds)
    {edit : PmemStOrder → PmemStOrder}
    (fixed : ∀ record, (edit record).index = record.index ∧ (edit record).addr = record.addr ∧
      (edit record).size = record.size)
    (kept : ∀ record, record.addr = range.addr → record.size = range.size → holds record →
      holds' (edit record)) : Timed (times.map edit) index range holds' := by
  obtain ⟨record, member, sameIndex, addr, size, holding⟩ := timed
  obtain ⟨fixedIndex, fixedAddr, fixedSize⟩ := fixed record
  exact ⟨edit record, List.mem_map_of_mem member, fixedIndex.trans sameIndex, fixedAddr.trans addr,
    fixedSize.trans size, kept record addr size holding⟩

/-- A time that is known to hold more is known to hold less. -/
theorem Timed.imp {times : List PmemStOrder} {index : Nat} {range : PmemSt}
    {holds holds' : PmemStOrder → Prop} (timed : Timed times index range holds)
    (kept : ∀ record, holds record → holds' record) : Timed times index range holds' := by
  obtain ⟨record, member, sameIndex, addr, size, holding⟩ := timed
  exact ⟨record, member, sameIndex, addr, size, kept record holding⟩

/-- The time and order records are numbered upwards below the next index, and the clock counts
the fences in a machine word. -/
structure Clocked (pmem : PmemOps) (fences : Nat) : Prop where
  keyed : Keyed PmemStOrder.index pmem.pmemTimeRecords.toList
  fresh : ∀ record ∈ pmem.pmemTimeRecords.toList, record.index < pmem.globalTimeRecordsIndex
  orders : ∀ record ∈ pmem.pmemOrderRecords.toList, record.index < pmem.globalTimeRecordsIndex
  clock : pmem.globalTimeStamp = fences % 2 ^ 64

/-- Both machines beside each other. The tracker misses no pending byte and invents none, and
its clock counts the fences of the byte-level machine. -/
structure OrderTracked (opts : Options) (flushAlignSize : Nat) (tool : Tool)
    (memory : OrderMemory) : Prop where
  ready : Ready opts flushAlignSize tool
  missed : NothingMissed tool.pmem memory.bytes
  invented : NothingInvented tool.pmem memory.bytes
  clocked : Clocked tool.pmem memory.fences

/-- The two time records of a request and its order record. The first tells when the range
became durable and the second when its range was last stored, as the byte-level machine
remembers it. -/
structure PairTracked (index : Nat) (first second : PmemSt) (tool : Tool) (memory : OrderMemory) :
    Prop where
  ends : Timed tool.pmem.pmemTimeRecords.toList index first (EndsAs first memory)
  begins : Timed tool.pmem.pmemTimeRecords.toList (index + 1) second (BeginsAs memory)
  order : { index := index + 2, a := index, b := index + 1 } ∈ tool.pmem.pmemOrderRecords.toList

/-- A request beside the byte-level machine. This is what every step of an order run keeps. -/
structure RequestTracked (opts : Options) (flushAlignSize index : Nat) (first second : PmemSt)
    (tool : Tool) (memory : OrderMemory) : Prop where
  tracked : OrderTracked opts flushAlignSize tool memory
  pair : PairTracked index first second tool memory

/-- A store starts times anew, and the ranges and numbers of the records stay. -/
theorem restartTime_fixed (store : PmemSt) (pmem : PmemOps) (record : PmemStOrder) :
    (restartTime store pmem record).index = record.index ∧
      (restartTime store pmem record).addr = record.addr ∧
      (restartTime store pmem record).size = record.size := by
  simp only [restartTime]
  split <;> exact ⟨rfl, rfl, rfl⟩

/-- A fence ends times, and the ranges and numbers of the records stay. -/
theorem endTime_fixed (pmem : PmemOps) (record : PmemStOrder) :
    (endTime pmem record).index = record.index ∧ (endTime pmem record).addr = record.addr ∧
      (endTime pmem record).size = record.size := by
  simp only [endTime]
  split <;> exact ⟨rfl, rfl, rfl⟩

/-- A store restarts the records that it meets. -/
theorem restartTime_iff {store range : PmemSt} {record : PmemStOrder} (left : store.Proper)
    (right : range.Proper) (addr : record.addr = range.addr) (size : record.size = range.size) :
    cmpPmemStOrder { record with addr := store.addr, size := store.size } record = .eq ↔
      Meets store range := by
  rw [meets_iff_cmp left right]
  simp only [cmpPmemStOrder, cmpPmemSt, PmemSt.maxAddr, addr, size]
  exact Iff.rfl

/-- The clock counts on, word by word. -/
theorem clock_succ (fences : Nat) :
    Word64.add (fences % 2 ^ 64) 1 = (fences + 1) % 2 ^ 64 := by
  unfold Word64.add
  split <;> omega

section Step

variable {opts : Options} {flushAlignSize : Nat} {tool : Tool} {memory : OrderMemory}
  {request : PmemRequest} {index : Nat} {first second : PmemSt}

/-- Records that are edited in place stay numbered. -/
theorem Clocked.of_map {before after : PmemOps} {fences fences' : Nat}
    (clocked : Clocked before fences) {edit : PmemStOrder → PmemStOrder}
    (fixed : ∀ record, (edit record).index = record.index)
    (times : after.pmemTimeRecords.toList = before.pmemTimeRecords.toList.map edit)
    (orders : after.pmemOrderRecords = before.pmemOrderRecords)
    (next : after.globalTimeRecordsIndex = before.globalTimeRecordsIndex)
    (clock : after.globalTimeStamp = fences' % 2 ^ 64) : Clocked after fences' := by
  constructor
  · rw [times]
    exact clocked.keyed.map fixed
  · intro record member
    rw [times] at member
    obtain ⟨old, isOld, rfl⟩ := List.mem_map.mp member
    rw [fixed, next]
    exact clocked.fresh old isOld
  · rw [orders, next]
    exact clocked.orders
  · exact clock

/-- What an access does to the time records. -/
theorem step_times (ordering : opts.orderGuarantee = true) (admissible : Admissible tool request)
    (ready : Ready opts flushAlignSize tool) :
    (tool.step request).pmem.pmemOrderRecords = tool.pmem.pmemOrderRecords ∧
    (tool.step request).pmem.globalTimeRecordsIndex = tool.pmem.globalTimeRecordsIndex ∧
    ((∃ threadId context addr size value, ∃ store : PmemSt,
        request = .store threadId context addr size value ∧
        (PmemSt.range addr size).Proper ∧ store.addr = addr ∧ store.size = size ∧
        (tool.step request).pmem.globalTimeStamp = tool.pmem.globalTimeStamp ∧
        (tool.step request).pmem.pmemTimeRecords.toList =
          tool.pmem.pmemTimeRecords.toList.map (restartTime store tool.pmem)) ∨
      (request = .fence ∧
        (tool.step request).pmem.globalTimeStamp = Word64.add tool.pmem.globalTimeStamp 1 ∧
        (tool.step request).pmem.pmemTimeRecords.toList =
          tool.pmem.pmemTimeRecords.toList.map (endTime tool.pmem)) ∨
      ((∃ context base size, request = .flush context base size) ∨
          (∃ base size, request = .registerMapping base size)) ∧
        (tool.step request).pmem.globalTimeStamp = tool.pmem.globalTimeStamp ∧
        (tool.step request).pmem.pmemTimeRecords = tool.pmem.pmemTimeRecords) := by
  have well := ready.wellFormed
  have option : tool.pmem.opts.orderGuarantee = true := by
    rw [ready.opts]
    exact ordering
  rcases step_pmem admissible with ⟨threadId, context, addr, size, value, rfl, proper, stored⟩ |
    ⟨context, base, size, rfl, range, _⟩ | ⟨rfl, fenced⟩ | ⟨base, size, rfl, _, _⟩
  · have tracked := (trackStore_exact addr size value context well.single admissible.1).1
    rw [← stored] at tracked
    have times := tracked.times
    rw [if_pos option] at times
    have orders : (tool.step (.store threadId context addr size value)).pmem.pmemOrderRecords =
        tool.pmem.pmemOrderRecords := by rw [tracked.frame]
    have next : (tool.step (.store threadId context addr size value)).pmem.globalTimeRecordsIndex =
        tool.pmem.globalTimeRecordsIndex := by rw [tracked.frame]
    have clock : (tool.step (.store threadId context addr size value)).pmem.globalTimeStamp =
        tool.pmem.globalTimeStamp := by rw [tracked.frame]
    refine ⟨orders, next, .inl ⟨threadId, context, addr, size, value,
      tool.pmem.writeStore addr size value context (tool.pmem.slots tool.pmem.current.index), rfl,
      proper, rfl, rfl, clock, ?_⟩⟩
    rw [times, toList_map]
  · have effect := flush_effect well range admissible.2.1
    refine ⟨?_, ?_, .inr (.inr ⟨.inl ⟨context, base, size, rfl⟩, ?_, ?_⟩)⟩ <;> rw [effect.frame]
  · have frame := (doFence_effect well).frame
    rw [if_pos option, if_pos option] at frame
    rw [fenced]
    refine ⟨?_, ?_, .inr (.inl ⟨rfl, ?_, ?_⟩)⟩
    · rw [frame]
    · rw [frame]
    · rw [frame]
    · rw [frame, toList_map]
  · exact ⟨rfl, rfl, .inr (.inr ⟨.inr ⟨base, size, rfl⟩, rfl, rfl⟩)⟩

/-- One access keeps the two halves of the tracking, and the clock of the tracker keeps pace
with the one of the memory.

Proof: the step lemmas for durable bytes give the halves. The clock is advanced by a fence
alone, on both sides. -/
theorem step_access_orderTracked (ordering : opts.orderGuarantee = true)
    (admissible : Admissible tool request) (safe : FlushesSafely tool request)
    (reaching : FlushesDirty tool request)
    (tracked : OrderTracked opts flushAlignSize tool memory) :
    OrderTracked opts flushAlignSize (tool.step request)
      (memory.step first second opts flushAlignSize request) := by
  have bytes : (memory.step first second opts flushAlignSize request).bytes =
      referenceStep opts flushAlignSize memory.bytes request := by
    cases request with
    | _ => rfl
  constructor
  · exact step_ready admissible tracked.ready
  · rw [bytes]
    exact step_missed admissible tracked.ready safe tracked.missed
  · rw [bytes]
    exact step_invented admissible tracked.ready reaching tracked.invented
  · have clock := tracked.clocked.clock
    obtain ⟨orders, next, times⟩ := step_times ordering admissible tracked.ready
    rcases times with ⟨_, _, _, _, _, store, rfl, _, _, _, sameClock, edited⟩ |
      ⟨rfl, nextClock, edited⟩ | ⟨⟨_, _, _, rfl⟩ | ⟨_, _, rfl⟩, sameClock, same⟩
    · exact tracked.clocked.of_map (fun record => (restartTime_fixed store _ record).1)
        edited orders next (sameClock.trans clock)
    · apply tracked.clocked.of_map (fun record => (endTime_fixed _ record).1) edited orders next
      rw [nextClock, clock, clock_succ]
      rfl
    · exact tracked.clocked.of_map (fun _ => rfl) (by rw [same, List.map_id']) orders next
        (sameClock.trans clock)
    · exact tracked.clocked.of_map (fun _ => rfl) (by rw [same, List.map_id']) orders next
        (sameClock.trans clock)

/-- A store restarts the records of the ranges that it meets. -/
theorem store_pair {threadId addr size value : Nat} {context : Option ExeContext} {store : PmemSt}
    (proper : (PmemSt.range addr size).Proper) (sameAddr : store.addr = addr)
    (sameSize : store.size = size) (firstProper : first.Proper) (secondProper : second.Proper)
    {times : List PmemStOrder} {pmem : PmemOps}
      (clock : pmem.globalTimeStamp = memory.fences % 2 ^ 64)
    (ends : Timed times index first (EndsAs first memory))
    (begins : Timed times (index + 1) second (BeginsAs memory)) :
    let after := memory.step first second opts flushAlignSize
      (.store threadId context addr size value)
    Timed (times.map (restartTime store pmem)) index first (EndsAs first after) ∧
      Timed (times.map (restartTime store pmem)) (index + 1) second (BeginsAs after) := by
  have storeProper : store.Proper := by
    rw [proper_iff] at proper ⊢
    rw [sameAddr, sameSize]
    exact proper
  have meets (range : PmemSt) : Meets store range ↔ Meets (PmemSt.range addr size) range := by
    simp only [Meets, sameAddr, sameSize, PmemSt.range_addr, PmemSt.range_size]
  constructor
  · apply ends.map (restartTime_fixed store pmem)
    intro record recordAddr recordSize holding
    have restarts := (restartTime_iff storeProper firstProper recordAddr recordSize).trans
      (meets first)
    simp only [restartTime, restarts]
    by_cases hits : Meets (PmemSt.range addr size) first
    · rw [if_pos hits]
      intro _
      have pending : PendingIn first (memory.step first second opts flushAlignSize
          (.store threadId context addr size value)).bytes := by
        obtain ⟨byte, written, inside⟩ := (meets_iff_shared proper firstProper).mp hits
        exact pendingIn_iff.mpr ⟨byte, inside, store_unpersisted.mpr (.inl written)⟩
      exact ⟨fun _ => rfl, fun none => absurd pending none⟩
    · rw [if_neg hits]
      intro wasStored
      have before : memory.stored = true := by
        simpa [OrderMemory.step, hits] using wasStored
      have same : PendingIn first (memory.step first second opts flushAlignSize
          (.store threadId context addr size value)).bytes ↔ PendingIn first memory.bytes := by
        simp only [pendingIn_iff]
        apply exists_congr
        intro byte
        apply and_congr_right
        intro inside
        have outside : ¬ (PmemSt.range addr size).Covers byte := fun written =>
          hits ((meets_iff_shared proper firstProper).mpr ⟨byte, written, inside⟩)
        exact store_unpersisted.trans (or_iff_right outside)
      rw [same]
      exact holding before
  · apply begins.map (restartTime_fixed store pmem)
    intro record recordAddr recordSize holding
    have restarts := (restartTime_iff storeProper secondProper recordAddr recordSize).trans
      (meets second)
    simp only [restartTime, restarts]
    by_cases hits : Meets (PmemSt.range addr size) second
    · rw [if_pos hits]
      intro fences begun
      simp only [OrderMemory.step, if_pos hits, Option.some.injEq] at begun
      subst begun
      exact ⟨Nat.le_refl _, clock⟩
    · rw [if_neg hits]
      intro fences begun
      simp only [OrderMemory.step, if_neg hits] at begun
      exact holding fences begun

/-- A fence ends the record of the first range when it leaves no byte of it pending. -/
theorem fence_pair {times : List PmemStOrder} (firstProper : first.Proper)
    (tracked : OrderTracked opts flushAlignSize tool memory)
    (rightly : StampsRightly first tool .fence)
    (ends : Timed times index first (EndsAs first memory))
    (begins : Timed times (index + 1) second (BeginsAs memory)) :
    let after := memory.step first second opts flushAlignSize .fence
    Timed (times.map (endTime tool.pmem)) index first (EndsAs first after) ∧
      Timed (times.map (endTime tool.pmem)) (index + 1) second (BeginsAs after) := by
  have stamped := stamps_iff tracked.ready.wellFormed firstProper tracked.missed tracked.invented
    rightly.1 rightly.2
  constructor
  · apply ends.map (endTime_fixed tool.pmem)
    intro record addr size holding wasStored
    have tested : stamps record tool.pmem ↔
        PendingIn first memory.bytes ∧ ¬ PendingIn first memory.bytes.fence :=
      (stamps_congr addr size).trans stamped
    obtain ⟨whilePending, whenDone⟩ := holding wasStored
    have shrinks : PendingIn first memory.bytes.fence → PendingIn first memory.bytes := by
      simp only [pendingIn_iff]
      rintro ⟨byte, inside, pending⟩
      refine ⟨byte, inside, ?_⟩
      simp [Memory.Unpersisted, fence_unpersisted.mp pending]
    simp only [OrderMemory.step, endTime, tested]
    by_cases finishes : PendingIn first memory.bytes ∧ ¬ PendingIn first memory.bytes.fence
    · rw [if_pos finishes, if_pos finishes]
      refine ⟨fun still => absurd still finishes.2, fun _ => ?_⟩
      exact ⟨memory.fences, rfl, Nat.le_succ _, tracked.clocked.clock⟩
    · rw [if_neg finishes, if_neg finishes]
      constructor
      · exact fun still => whilePending (shrinks still)
      · intro done
        have before : ¬ PendingIn first memory.bytes := fun pending => finishes ⟨pending, done⟩
        obtain ⟨fence, persisted, bound, stamp⟩ := whenDone before
        exact ⟨fence, persisted, Nat.le_succ_of_le bound, stamp⟩
  · apply begins.map (endTime_fixed tool.pmem)
    intro record _ _ holding fences begun
    obtain ⟨bound, stamp⟩ := holding fences begun
    refine ⟨Nat.le_succ_of_le bound, ?_⟩
    simp only [endTime]
    split <;> exact stamp

/-- One access keeps the times of the two ranges of an order.

Proof: a store to a range starts its time on both sides. A flush touches no time. At a fence
the tracker ends a time if no record that is left meets the range, and the memory if no byte of
the range is pending; `StampsRightly` makes these the same, since the tracking has nothing
missed and nothing invented. -/
theorem step_access_pairTracked (ordering : opts.orderGuarantee = true)
    (admissible : Admissible tool request) (firstProper : first.Proper)
    (secondProper : second.Proper) (tracked : OrderTracked opts flushAlignSize tool memory)
    (rightly : StampsRightly first tool request)
    (pair : PairTracked index first second tool memory) :
    PairTracked index first second (tool.step request)
      (memory.step first second opts flushAlignSize request) := by
  obtain ⟨orders, _, times⟩ := step_times ordering admissible tracked.ready
  have order : { index := index + 2, a := index, b := index + 1 } ∈
      (tool.step request).pmem.pmemOrderRecords.toList := by
    rw [orders]
    exact pair.order
  rcases times with ⟨threadId, context, addr, size, value, store, rfl, proper, sameAddr, sameSize,
      _, edited⟩ | ⟨rfl, _, edited⟩ | ⟨unordered, _, same⟩
  · obtain ⟨ends, begins⟩ := store_pair proper sameAddr sameSize firstProper secondProper
      tracked.clocked.clock pair.ends pair.begins
    rw [← edited] at ends begins
    exact ⟨ends, begins, order⟩
  · obtain ⟨ends, begins⟩ := fence_pair firstProper tracked rightly pair.ends pair.begins
    rw [← edited] at ends begins
    exact ⟨ends, begins, order⟩
  · -- Neither a flush nor a registration makes a byte durable or pending.
    have pending : PendingIn first (memory.step first second opts flushAlignSize request).bytes ↔
        PendingIn first memory.bytes := by
      rcases unordered with ⟨context, base, size, rfl⟩ | ⟨base, size, rfl⟩
      · simp only [pendingIn_iff]
        exact exists_congr (fun byte => and_congr_right (fun _ => flush_unpersisted))
      · exact Iff.rfl
    have rest : (memory.step first second opts flushAlignSize request).stored = memory.stored ∧
        (memory.step first second opts flushAlignSize request).persisted = memory.persisted ∧
        (memory.step first second opts flushAlignSize request).fences = memory.fences ∧
        (memory.step first second opts flushAlignSize request).begun = memory.begun := by
      rcases unordered with ⟨context, base, size, rfl⟩ | ⟨base, size, rfl⟩
      · exact ⟨rfl, rfl, rfl, rfl⟩
      · exact ⟨rfl, rfl, rfl, rfl⟩
    obtain ⟨stored, persisted, fences, begun⟩ := rest
    refine ⟨?_, ?_, order⟩
    · rw [same]
      apply pair.ends.imp
      intro record holding
      simp only [EndsAs, pending, stored, persisted, fences]
      exact holding
    · rw [same]
      apply pair.begins.imp
      intro record holding
      simp only [BeginsAs, fences, begun]
      exact holding

/-- What an ordering request adds. -/
theorem orderGuarantee_exact {pmem : PmemOps}
    (fresh : ∀ record ∈ pmem.pmemTimeRecords.toList, record.index < pmem.globalTimeRecordsIndex)
    (orders : ∀ record ∈ pmem.pmemOrderRecords.toList, record.index < pmem.globalTimeRecordsIndex)
    (addrA sizeA addrB sizeB : Nat) :
    (pmem.orderGuarantee addrA sizeA addrB sizeB).pmemTimeRecords.toList =
        pmem.pmemTimeRecords.toList ++ [newTimeRecord pmem.globalTimeRecordsIndex addrA sizeA,
          newTimeRecord (pmem.globalTimeRecordsIndex + 1) addrB sizeB] ∧
      (pmem.orderGuarantee addrA sizeA addrB sizeB).pmemOrderRecords.toList =
        pmem.pmemOrderRecords.toList ++ [{
          index := pmem.globalTimeRecordsIndex + 2
          a := pmem.globalTimeRecordsIndex
          b := pmem.globalTimeRecordsIndex + 1 }] := by
  have firstTime : (pmem.pmemTimeRecords.insert (byKey PmemStOrder.index
      pmem.globalTimeRecordsIndex) (newTimeRecord pmem.globalTimeRecordsIndex addrA sizeA)).toList =
      pmem.pmemTimeRecords.toList ++ [newTimeRecord pmem.globalTimeRecordsIndex addrA sizeA] :=
    (insert_byKey_last (newTimeRecord pmem.globalTimeRecordsIndex addrA sizeA) fresh).1
  constructor
  · have greatest : ∀ record ∈ (pmem.pmemTimeRecords.insert (byKey PmemStOrder.index
        pmem.globalTimeRecordsIndex)
        (newTimeRecord pmem.globalTimeRecordsIndex addrA sizeA)).toList,
        record.index < (newTimeRecord (pmem.globalTimeRecordsIndex + 1) addrB sizeB).index := by
      intro record member
      rw [firstTime] at member
      cases List.mem_append.mp member with
      | inl old => exact Nat.lt_succ_of_lt (fresh record old)
      | inr new =>
        rw [List.mem_singleton.mp new]
        exact Nat.lt_succ_self _
    have secondTime := (insert_byKey_last _ greatest).1
    rw [firstTime] at secondTime
    exact secondTime.trans (List.append_assoc _ _ _)
  · have greatest : ∀ record ∈ pmem.pmemOrderRecords.toList,
        record.index < pmem.globalTimeRecordsIndex + 2 :=
      fun record member => Nat.lt_add_right 2 (orders record member)
    exact (insert_byKey_last (OrderRecord.mk (pmem.globalTimeRecordsIndex + 2) _ _) greatest).1

/-- The records stay numbered. -/
theorem orderGuarantee_clocked {pmem : PmemOps} {fences : Nat} (clocked : Clocked pmem fences)
    (addrA sizeA addrB sizeB : Nat) :
    Clocked (pmem.orderGuarantee addrA sizeA addrB sizeB) fences := by
  obtain ⟨times, orders⟩ := orderGuarantee_exact clocked.fresh clocked.orders addrA sizeA
      addrB sizeB
  have next : (pmem.orderGuarantee addrA sizeA addrB sizeB).globalTimeRecordsIndex =
    pmem.globalTimeRecordsIndex + 3 := rfl
  constructor
  · rw [times]
    apply List.pairwise_append.mpr
    refine ⟨clocked.keyed, by simp [newTimeRecord], ?_⟩
    intro old isOld new isNew
    have below := clocked.fresh old isOld
    simp only [List.mem_cons, List.not_mem_nil, or_false] at isNew
    cases isNew with
    | inl isFirst =>
      rw [isFirst]
      exact below
    | inr isSecond =>
      rw [isSecond]
      exact Nat.lt_succ_of_lt below
  · intro record member
    rw [times, List.mem_append] at member
    rw [next]
    cases member with
    | inl old => exact Nat.lt_add_right 3 (clocked.fresh record old)
    | inr new =>
      simp only [List.mem_cons, List.not_mem_nil, or_false] at new
      cases new with
      | inl isFirst => simp [isFirst, newTimeRecord]
      | inr isSecond => simp [isSecond, newTimeRecord]
  · intro record member
    rw [orders, List.mem_append, List.mem_singleton] at member
    rw [next]
    cases member with
    | inl old => exact Nat.lt_add_right 3 (clocked.orders record old)
    | inr new => simp [new]
  · exact clocked.clock

/-- An ordering request leaves the stores and the other requests alone. -/
theorem step_order_tracked {addrA sizeA addrB sizeB : Nat}
    (tracked : OrderTracked opts flushAlignSize tool memory) :
    OrderTracked opts flushAlignSize (tool.step (.orderGuarantee addrA sizeA addrB sizeB))
      memory := by
  have same : SameTracking tool.pmem
    (tool.step (.orderGuarantee addrA sizeA addrB sizeB)).pmem :=
    ⟨rfl, rfl, rfl, rfl, rfl, rfl, rfl, rfl⟩
  constructor
  · exact ⟨tracked.ready.wellFormed.of_same same, tracked.ready.opts, tracked.ready.align⟩
  · exact tracked.missed.of_same same
  · exact tracked.invented.of_same same
  · exact orderGuarantee_clocked tracked.clocked addrA sizeA addrB sizeB

/-- A new order does not disturb the times of an older one: its records are added behind, under
numbers that were free. -/
theorem step_order_pair {addrA sizeA addrB sizeB : Nat}
    (tracked : OrderTracked opts flushAlignSize tool memory)
    (pair : PairTracked index first second tool memory) :
    PairTracked index first second (tool.step (.orderGuarantee addrA sizeA addrB sizeB))
      memory := by
  obtain ⟨times, orders⟩ := orderGuarantee_exact tracked.clocked.fresh
    tracked.clocked.orders addrA sizeA addrB sizeB
  have timed (index : Nat) (range : PmemSt) (holds : PmemStOrder → Prop)
      (before : Timed tool.pmem.pmemTimeRecords.toList index range holds) :
      Timed (tool.step (.orderGuarantee addrA sizeA addrB sizeB)).pmem.pmemTimeRecords.toList index
        range holds := by
    obtain ⟨record, member, rest⟩ := before
    refine ⟨record, ?_, rest⟩
    show record ∈ (tool.pmem.orderGuarantee addrA sizeA addrB sizeB).pmemTimeRecords.toList
    rw [times]
    exact List.mem_append_left _ member
  constructor
  · exact timed index first _ pair.ends
  · exact timed (index + 1) second _ pair.begins
  · show _ ∈ (tool.pmem.orderGuarantee addrA sizeA addrB sizeB).pmemOrderRecords.toList
    rw [orders]
    exact List.mem_append_left _ pair.order

/-- One request keeps the two halves of the tracking. An order request touches neither half. -/
theorem step_orderTracked (ordering : opts.orderGuarantee = true)
    (admissible : OrderAdmissible tool request) (safe : FlushesSafely tool request)
    (reaching : FlushesDirty tool request)
    (tracked : OrderTracked opts flushAlignSize tool memory) :
    OrderTracked opts flushAlignSize (tool.step request)
      (memory.step first second opts flushAlignSize request) := by
  obtain ⟨notFull, stillNotFull, access⟩ := admissible
  cases request with
  | orderGuarantee addrA sizeA addrB sizeB => exact step_order_tracked tracked
  | _ =>
    exact step_access_orderTracked ordering ⟨notFull, stillNotFull, access⟩ safe reaching tracked

/-- One request keeps the times of the two ranges of an order, whether it is an access or asks
for another order. -/
theorem step_pairTracked (ordering : opts.orderGuarantee = true)
    (admissible : OrderAdmissible tool request) (firstProper : first.Proper)
    (secondProper : second.Proper) (tracked : OrderTracked opts flushAlignSize tool memory)
    (rightly : StampsRightly first tool request)
    (pair : PairTracked index first second tool memory) :
    PairTracked index first second (tool.step request)
      (memory.step first second opts flushAlignSize request) := by
  obtain ⟨notFull, stillNotFull, access⟩ := admissible
  cases request with
  | orderGuarantee addrA sizeA addrB sizeB => exact step_order_pair tracked pair
  | _ =>
    exact step_access_pairTracked ordering ⟨notFull, stillNotFull, access⟩ firstProper secondProper
      tracked rightly pair

/-- A request starts with fresh time records. -/
theorem request_pair {addrA sizeA addrB sizeB : Nat}
    (tracked : OrderTracked opts flushAlignSize tool memory) :
    PairTracked tool.pmem.globalTimeRecordsIndex (PmemSt.range addrA sizeA)
      (PmemSt.range addrB sizeB) (tool.step (.orderGuarantee addrA sizeA addrB sizeB))
      memory.restart := by
  obtain ⟨times, orders⟩ := orderGuarantee_exact tracked.clocked.fresh
    tracked.clocked.orders addrA sizeA addrB sizeB
  constructor
  · refine ⟨newTimeRecord _ addrA sizeA, ?_, rfl, rfl, rfl, fun stored => nomatch stored⟩
    show _ ∈ (tool.pmem.orderGuarantee addrA sizeA addrB sizeB).pmemTimeRecords.toList
    rw [times]
    simp
  · refine ⟨newTimeRecord _ addrB sizeB, ?_, rfl, rfl, rfl, fun fences begun => nomatch begun⟩
    show _ ∈ (tool.pmem.orderGuarantee addrA sizeA addrB sizeB).pmemTimeRecords.toList
    rw [times]
    simp
  · show _ ∈ (tool.pmem.orderGuarantee addrA sizeA addrB sizeB).pmemOrderRecords.toList
    rw [orders]
    simp

/-- The check compares the two records of the request. -/
theorem checkPmemOrder_iff {fences : Nat} {pmem : PmemOps} (clocked : Clocked pmem fences)
    {firstRecord secondRecord : PmemStOrder} (isFirst : firstRecord ∈ pmem.pmemTimeRecords.toList)
    (isSecond : secondRecord ∈ pmem.pmemTimeRecords.toList) (firstIndex : firstRecord.index = index)
    (secondIndex : secondRecord.index = index + 1)
    (order : { index := index + 2, a := index, b := index + 1 } ∈ pmem.pmemOrderRecords.toList) :
    { index := index + 2, a := index, b := index + 1 } ∈ pmem.checkPmemOrder.1 ↔
      ¬ firstRecord.timestampEnd < secondRecord.timestampBegin := by
  simp only [checkPmemOrder, List.mem_filter, order, true_and, violatesOrder, List.any_eq_true,
    decide_eq_true_eq]
  constructor
  · rintro ⟨a, memberA, b, memberB, indexA, indexB, late⟩
    rw [clocked.keyed.unique isFirst memberA (firstIndex.trans indexA.symm),
      clocked.keyed.unique isSecond memberB (secondIndex.trans indexB.symm)]
    exact late
  · intro late
    exact ⟨firstRecord, isFirst, secondRecord, isSecond, firstIndex, secondIndex, late⟩

end Step

section Runs

variable {opts : Options} (defaults : DefaultTracking opts) (ordering : opts.orderGuarantee = true)
  (transactionsOnly redundantLogging : Bool) (cacheLineSize : Nat) (slots : Nat → PmemSt)

include defaults

/-- At the start nothing is tracked, and both clocks stand at the same time. -/
theorem initTool_orderTracked : OrderTracked opts cacheLineSize
    (initTool opts transactionsOnly redundantLogging cacheLineSize slots) OrderMemory.start where
  ready := initTool_ready defaults transactionsOnly redundantLogging cacheLineSize slots
  missed := (initTool_complete defaults transactionsOnly redundantLogging cacheLineSize
    slots).missed
  invented := (initTool_faithful defaults transactionsOnly redundantLogging cacheLineSize
    slots).invented
  clocked := ⟨List.Pairwise.nil, (fun _ member => nomatch member),
    (fun _ member => nomatch member), rfl⟩

include ordering

/-- The check at exit reports an ordering request iff the first range was not durable before
the last store to the second one, in every run whose fences end the time of the first range
rightly and whose flushes neither tag a snippet by mistake nor skip a dirty record.

Proof: up to the request the tracker follows the byte-level machine, and the request adds two
times and an order under fresh numbers. From there on a second simulation follows these two
times: a store starts them, and a fence ends the first one when no byte of its range is
pending. The check compares the end of the first with the start of the second. The clock counts
fences modulo 2 ^ 64, and the bound on their number makes the comparison one of numbers. -/
theorem order_check_exact (addrA sizeA addrB sizeB : Nat) (made later : List PmemRequest)
    (before : Runs.AllSteps Tool.step (fun tool request => OrderAdmissible tool request ∧
      FlushesSafely tool request ∧ FlushesDirty tool request)
      (initTool opts transactionsOnly redundantLogging cacheLineSize slots)
      (made ++ [.orderGuarantee addrA sizeA addrB sizeB]))
    (after : Runs.AllSteps Tool.step (fun tool request => OrderAdmissible tool request ∧
      FlushesSafely tool request ∧ FlushesDirty tool request ∧
      StampsRightly (PmemSt.range addrA sizeA) tool request)
      ((made ++ [PmemRequest.orderGuarantee addrA sizeA addrB sizeB]).foldl Tool.step
        (initTool opts transactionsOnly redundantLogging cacheLineSize slots)) later)
    (index : Nat) (numbered : index = (made.foldl Tool.step (initTool opts transactionsOnly
      redundantLogging cacheLineSize slots)).pmem.globalTimeRecordsIndex)
    (memory : OrderMemory) (reached : memory = later.foldl
      (OrderMemory.step (PmemSt.range addrA sizeA) (PmemSt.range addrB sizeB) opts cacheLineSize)
      (made.foldl (OrderMemory.step (PmemSt.range addrA sizeA) (PmemSt.range addrB sizeB) opts
        cacheLineSize) OrderMemory.start).restart)
    (counted : memory.fences < 2 ^ 64) (stored : memory.stored = true) (begun : Nat)
    (storedLast : memory.begun = some begun) :
    { index := index + 2, a := index, b := index + 1 } ∈
        ((made ++ PmemRequest.orderGuarantee addrA sizeA addrB sizeB :: later).foldl Tool.step
          (initTool opts transactionsOnly redundantLogging cacheLineSize
            slots)).pmem.checkPmemOrder.1 ↔
      ¬ ∃ fence ∈ memory.persistedAt (PmemSt.range addrA sizeA), fence < begun := by
  obtain ⟨madeSteps, requested⟩ := Runs.allSteps_append.mp before
  obtain ⟨firstProper, secondProper⟩ : (PmemSt.range addrA sizeA).Proper ∧
    (PmemSt.range addrB sizeB).Proper := requested.1.1.2.2
  have atRequest : OrderTracked opts cacheLineSize
      (made.foldl Tool.step (initTool opts transactionsOnly redundantLogging cacheLineSize slots))
      (made.foldl (OrderMemory.step (PmemSt.range addrA sizeA) (PmemSt.range addrB sizeB) opts
        cacheLineSize) OrderMemory.start) := by
    refine Runs.simulation ?_ _ _ made (initTool_orderTracked defaults transactionsOnly
      redundantLogging cacheLineSize slots) madeSteps
    exact fun tool memory request tracked step =>
      step_orderTracked ordering step.1 step.2.1 step.2.2 tracked
  rw [List.foldl_append, List.foldl_cons]
  rw [List.foldl_append, List.foldl_cons, List.foldl_nil] at after
  generalize made.foldl Tool.step _ = tool at *
  generalize made.foldl (OrderMemory.step _ _ opts cacheLineSize) _ = remembered at *
  have starts : OrderTracked opts cacheLineSize
      (tool.step (.orderGuarantee addrA sizeA addrB sizeB)) remembered.restart := by
    exact step_order_tracked ⟨atRequest.ready, atRequest.missed, atRequest.invented,
      atRequest.clocked⟩
  have final : RequestTracked opts cacheLineSize index (PmemSt.range addrA sizeA)
      (PmemSt.range addrB sizeB)
      (later.foldl Tool.step (tool.step (.orderGuarantee addrA sizeA addrB sizeB))) memory := by
    rw [reached, numbered]
    refine Runs.simulation ?_ _ _ later ⟨starts, request_pair atRequest⟩ after
    exact fun tool memory request related step =>
      ⟨step_orderTracked ordering step.1 step.2.1 step.2.2.1 related.tracked,
        step_pairTracked ordering step.1 firstProper secondProper related.tracked step.2.2.2
          related.pair⟩
  obtain ⟨first, isFirst, firstIndex, _, _, ends⟩ := final.pair.ends
  obtain ⟨second, isSecond, secondIndex, _, _, begins⟩ := final.pair.begins
  obtain ⟨bound, stamp⟩ := begins begun storedLast
  obtain ⟨whilePending, whenDone⟩ := ends stored
  have compared := checkPmemOrder_iff final.tracked.clocked isFirst isSecond firstIndex secondIndex
    final.pair.order
  rw [stamp, Nat.mod_eq_of_lt (by omega)] at compared
  refine compared.trans (not_congr ?_)
  by_cases pending : PendingIn (PmemSt.range addrA sizeA) memory.bytes
  · have endless : memory.persistedAt (PmemSt.range addrA sizeA) = none := if_pos pending
    rw [whilePending pending, endless]
    simp only [Word64.minusOne, Option.not_mem_none, false_and, exists_false, iff_false]
    omega
  · obtain ⟨fence, persisted, fenceBound, fenceStamp⟩ := whenDone pending
    have ended : memory.persistedAt (PmemSt.range addrA sizeA) = some fence := by
      rw [← persisted]
      exact if_neg pending
    rw [ended, fenceStamp, Nat.mod_eq_of_lt (by omega)]
    simp only [Option.mem_some_iff, exists_eq_left']

omit defaults ordering

/-- The first range is durable after the first fence, before the store to the second. -/
theorem order_check_exact_persisted_first :
    let opts := { defaultOptions (fun _ => false) with orderGuarantee := true }
    let start := initTool opts false false 64 (fun _ => PmemSt.zero)
    let later : List PmemRequest :=
      [.store 1 none 100 8 0, .flush none 100 8, .fence, .store 1 none 200 8 0]
    let memory := later.foldl (OrderMemory.step (PmemSt.range 100 8) (PmemSt.range 200 8) opts 64)
      ([PmemRequest.registerMapping 64 1024].foldl (OrderMemory.step (PmemSt.range 100 8)
        (PmemSt.range 200 8) opts 64) OrderMemory.start).restart
    Runs.AllSteps Tool.step (fun tool request => OrderAdmissible tool request ∧
        FlushesSafely tool request ∧ FlushesDirty tool request) start
        [.registerMapping 64 1024, .orderGuarantee 100 8 200 8] ∧
      Runs.AllSteps Tool.step (fun tool request => OrderAdmissible tool request ∧
        FlushesSafely tool request ∧ FlushesDirty tool request ∧
        StampsRightly (PmemSt.range 100 8) tool request)
        ([PmemRequest.registerMapping 64 1024, .orderGuarantee 100 8 200 8].foldl Tool.step start)
        later ∧
      memory.stored = true ∧ memory.begun = some 1 ∧
      memory.persistedAt (PmemSt.range 100 8) = some 0 ∧
      ({ index := 2, a := 0, b := 1 } ∈ ((PmemRequest.registerMapping 64 1024 ::
          .orderGuarantee 100 8 200 8 :: later).foldl Tool.step start).pmem.checkPmemOrder.1 ↔
        ¬ ∃ fence ∈ memory.persistedAt (PmemSt.range 100 8), fence < 1) := by
  refine ⟨by decide +kernel, by decide +kernel, by decide +kernel, by decide +kernel,
    by decide +kernel, ?_⟩
  exact order_check_exact ⟨rfl, rfl⟩ rfl false false 64 _ 100 8 200 8 [.registerMapping 64 1024] _
    (by decide +kernel) (by decide +kernel) 0 (by decide +kernel) _ rfl (by decide +kernel)
    (by decide +kernel) 1 (by decide +kernel)

/-- The flush of a neighbour ends the time of the first range, although it is still dirty
when the second one is stored. -/
theorem order_check_exact_fails :
    let opts := { defaultOptions (fun _ => false) with orderGuarantee := true }
    let start := initTool opts false false 64 (fun _ => PmemSt.zero)
    let later : List PmemRequest := [.store 1 none 100 8 0, .store 1 none 108 8 0,
      .flush none 108 8, .fence, .store 1 none 200 8 0]
    let memory := later.foldl (OrderMemory.step (PmemSt.range 100 8) (PmemSt.range 200 8) opts 64)
      ([PmemRequest.registerMapping 64 1024].foldl (OrderMemory.step (PmemSt.range 100 8)
        (PmemSt.range 200 8) opts 64) OrderMemory.start).restart
    Runs.AllSteps Tool.step OrderAdmissible start
        (.registerMapping 64 1024 :: .orderGuarantee 100 8 200 8 :: later) ∧
      memory.fences < 2 ^ 64 ∧ memory.stored = true ∧ memory.begun = some 1 ∧
      { index := 2, a := 0, b := 1 } ∉ ((PmemRequest.registerMapping 64 1024 ::
        .orderGuarantee 100 8 200 8 :: later).foldl Tool.step start).pmem.checkPmemOrder.1 ∧
      ¬ ∃ fence ∈ memory.persistedAt (PmemSt.range 100 8), fence < 1 := by
  decide +kernel

end Runs

end PmDebugger
