import PmDebugger.DetailedReport
import PmDebugger.Library.Persistency
import PmDebugger.Library.Runs
import PmDebugger.LiveFence
import PmDebugger.LiveFlush

/-!
# Durability against the byte-level meaning

The tracker and the byte-level machine run side by side on the stores, flushes and
fences of a client. The tracker misses nothing when every pending byte has a live
record and every dirty byte a dirty one; it invents nothing when the converse holds.
Stores and fences keep both. A flush keeps the first unless it tags a snippet by
mistake, and the second unless it skips a dirty record; both mistakes come from pieces
that were cut off and appended to a snippet without widening its box.

The detailed report covers exactly the bytes of the live records, so the two
relations are what it promises about missed stores and false alarms.
-/

namespace PmDebugger

open OrderedSet OrderedSet.OSet PmemOps Persistency

/-- Every pending byte has a live record, and every dirty byte a dirty one. A tracker with this
property raises every alarm it should. -/
structure NothingMissed (pmem : PmemOps) (memory : Memory Nat) : Prop where
  dirty : ∀ byte, memory byte = .dirty →
    ∃ store ∈ pmem.live, store.state ≠ .flushed ∧ store.Covers byte
  pending : ∀ byte, memory.Unpersisted byte → Tracks pmem.live byte

/-- Live records cover pending bytes only, and dirty ones dirty bytes only. A tracker with this
property raises no alarm it should not. -/
structure NothingInvented (pmem : PmemOps) (memory : Memory Nat) : Prop where
  dirty : ∀ store ∈ pmem.live, store.state ≠ .flushed → ∀ byte, store.Covers byte →
    memory byte = .dirty
  pending : ∀ byte, Tracks pmem.live byte → memory.Unpersisted byte

/-- Only array and tree count. -/
theorem NothingMissed.of_same {before after : PmemOps} {memory : Memory Nat}
    (related : NothingMissed before memory) (same : SameTracking before after) :
    NothingMissed after memory := by
  refine ⟨?_, ?_⟩ <;> rw [same.live_eq]
  · exact related.dirty
  · exact related.pending

/-- Only array and tree count. -/
theorem NothingInvented.of_same {before after : PmemOps} {memory : Memory Nat}
    (related : NothingInvented before memory) (same : SameTracking before after) :
    NothingInvented after memory := by
  refine ⟨?_, ?_⟩ <;> rw [same.live_eq]
  · exact related.dirty
  · exact related.pending

section Store

variable {pmem : PmemOps} {memory : Memory Nat} {addr size : Nat} (value : Nat)
  (context : Option ExeContext)

/-- The record that a store writes. -/
theorem writeStore_pending (held : PmemSt) (proper : (PmemSt.range addr size).Proper) :
    Pending (pmem.writeStore addr size value context held) :=
  ⟨⟨proper.nonempty, proper.nonWrapping⟩, rfl, by simp [writeStore]⟩

/-- A store into an array with room keeps the tracker well-formed. -/
theorem trackStore_wellFormed (well : WellFormed pmem)
    (room : pmem.current.index < pmem.opts.maxArrayNum)
    (proper : (PmemSt.range addr size).Proper) :
    WellFormed (pmem.trackStore addr size value context).1 :=
  (trackStore_exact addr size value context well.single room).1.wellFormed well
    (writeStore_pending value context _ proper) (by simp [writeStore])

/-- The live records after a store. -/
theorem trackStore_live (well : WellFormed pmem)
    (room : pmem.current.index < pmem.opts.maxArrayNum)
    (proper : (PmemSt.range addr size).Proper) (store : PmemSt) :
    store ∈ (pmem.trackStore addr size value context).1.live ↔
      store = pmem.writeStore addr size value context (pmem.slots pmem.current.index) ∨
        store ∈ pmem.live :=
  (trackStore_exact addr size value context well.single room).1.mem_live_iff well
    (writeStore_pending value context _ proper)

/-- A store is missed neither at its own bytes, which its slot holds, nor at the others, whose
records stay. -/
theorem trackStore_missed (well : WellFormed pmem)
    (room : pmem.current.index < pmem.opts.maxArrayNum)
    (proper : (PmemSt.range addr size).Proper) (related : NothingMissed pmem memory) :
    NothingMissed (pmem.trackStore addr size value context).1
      (memory.store (PmemSt.range addr size).Covers) := by
  have live := trackStore_live value context well room proper
  constructor
  · intro byte dirty
    rcases store_dirty.mp dirty with written | before
    · exact ⟨_, (live _).mpr (.inl rfl), by simp [writeStore], written⟩
    · obtain ⟨store, member, isDirty, inside⟩ := related.dirty byte before
      exact ⟨store, (live store).mpr (.inr member), isDirty, inside⟩
  · intro byte pending
    rcases store_unpersisted.mp pending with written | before
    · exact ⟨_, (live _).mpr (.inl rfl), written⟩
    · obtain ⟨store, member, inside⟩ := related.pending byte before
      exact ⟨store, (live store).mpr (.inr member), inside⟩

/-- A store invents nothing: its slot covers the stored bytes, and these are pending. -/
theorem trackStore_invented (well : WellFormed pmem)
    (room : pmem.current.index < pmem.opts.maxArrayNum)
    (proper : (PmemSt.range addr size).Proper) (related : NothingInvented pmem memory) :
    NothingInvented (pmem.trackStore addr size value context).1
      (memory.store (PmemSt.range addr size).Covers) := by
  have live := trackStore_live value context well room proper
  constructor
  · intro store member isDirty byte inside
    rcases (live store).mp member with rfl | old
    · exact store_dirty.mpr (.inl inside)
    · exact store_dirty.mpr (.inr (related.dirty store old isDirty byte inside))
  · rintro byte ⟨store, member, inside⟩
    rcases (live store).mp member with rfl | old
    · exact store_unpersisted.mpr (.inl inside)
    · exact store_unpersisted.mpr (.inr (related.pending byte ⟨store, old, inside⟩))

end Store

section Flush

variable {flush : PmemSt} {before after : PmemOps} {memory : Memory Nat}

/-- A flush that tags safely hides no pending byte.

Proof: a byte that stays pending was pending before and lies outside the range. The record that
tracked it, or the part of it that lies outside, is live and dirty afterwards unless a tag
settles it, and that is what `TagsSafely` excludes. -/
theorem FlushEffect.missed (effect : FlushEffect flush before after)
    (safe : TagsSafely flush before) (related : NothingMissed before memory) :
    NothingMissed after (memory.flush flush.Covers) := by
  constructor
  · intro byte dirty
    obtain ⟨outside, wasDirty⟩ := flush_dirty.mp dirty
    obtain ⟨store, member, isDirty, inside⟩ := related.dirty byte wasDirty
    obtain ⟨kept, isKept, keptDirty, covered, _⟩ :=
      effect.still_dirty safe store member isDirty byte inside outside
    exact ⟨kept, isKept, keptDirty, covered⟩
  · intro byte pending
    obtain ⟨store, member, inside⟩ := related.pending byte (flush_unpersisted.mp pending)
    obtain ⟨kept, isKept, covered, _⟩ := effect.covered store member byte inside
    exact ⟨kept, isKept, covered⟩

/-- A flush that reaches every dirty record it meets leaves none behind.

Proof: a dirty record afterwards is a record from before the flush or a part of one, and it
misses the range. Its bytes were pending before and are outside the range. -/
theorem FlushEffect.invented (effect : FlushEffect flush before after)
    (reaching : ReachesDirty flush before) (related : NothingInvented before memory) :
    NothingInvented after (memory.flush flush.Covers) := by
  constructor
  · intro store member isDirty byte inside
    obtain ⟨old, isOld, covers, _, ofDirty⟩ := effect.origin store member
    obtain ⟨oldDirty, clear⟩ := ofDirty isDirty
    exact flush_dirty.mpr ⟨clear reaching byte inside,
      related.dirty old isOld oldDirty byte (covers byte inside)⟩
  · rintro byte ⟨store, member, inside⟩
    obtain ⟨old, isOld, covers, _⟩ := effect.origin store member
    exact flush_unpersisted.mpr (related.pending byte ⟨old, isOld, covers byte inside⟩)

end Flush

section Fence

variable {before after : PmemOps} {memory : Memory Nat}

/-- A fence drops no pending byte, since it drops flushed records only. -/
theorem FenceEffect.missed (effect : FenceEffect before after)
    (related : NothingMissed before memory) : NothingMissed after memory.fence := by
  have left (byte : Nat) (dirty : memory byte = .dirty) :
      ∃ store ∈ after.live, store.state ≠ .flushed ∧ store.Covers byte := by
    obtain ⟨old, isOld, isDirty, inside⟩ := related.dirty byte dirty
    obtain ⟨store, member, same⟩ := effect.live.right old
      (List.mem_filter.mpr ⟨isOld, by simpa using isDirty⟩)
    refine ⟨store, member, ?_, (same.covers byte).mpr inside⟩
    rw [same.sameRange.state]
    exact isDirty
  constructor
  · exact fun byte dirty => left byte (fence_dirty.mp dirty)
  · intro byte pending
    obtain ⟨store, member, _, inside⟩ := left byte (fence_unpersisted.mp pending)
    exact ⟨store, member, inside⟩

/-- A fence leaves no record that is flushed. -/
theorem FenceEffect.invented (effect : FenceEffect before after)
    (related : NothingInvented before memory) : NothingInvented after memory.fence := by
  have wasDirty (store : PmemSt) (member : store ∈ after.live) (byte : Nat)
      (inside : store.Covers byte) : memory byte = .dirty := by
    obtain ⟨old, isOld, same⟩ := effect.live.left store member
    obtain ⟨oldLive, oldDirty⟩ := List.mem_filter.mp isOld
    exact related.dirty old oldLive (by simpa using oldDirty) byte ((same.covers byte).mp inside)
  constructor
  · exact fun store member _ byte inside => fence_dirty.mpr (wasDirty store member byte inside)
  · rintro byte ⟨store, member, inside⟩
    exact fence_unpersisted.mpr (wasDirty store member byte inside)

end Fence

/-- The default tracking options: neither `--mult-stores` nor `--tree-reorganization`. Then the
tree is a list of records in the order of their insertion. -/
structure DefaultTracking (opts : Options) : Prop where
  single : opts.trackMultipleStores = false
  plain : opts.treeReorganization = false

/-- The range that a flush request works with, aligned if the options say so. -/
def flushRange (tool : Tool) (base size : Nat) : PmemSt :=
  flushInfo tool.pmem.opts tool.pmem.flushAlignSize base size

/-- The store array is not full. The next store or piece takes a slot and not a node of the
tree. -/
def NotFull (tool : Tool) : Prop := tool.pmem.current.index < tool.pmem.opts.maxArrayNum

instance (tool : Tool) : Decidable (NotFull tool) := inferInstanceAs (Decidable (_ < _))

/-- A store of a proper range to registered memory, a flush of a proper range, a fence, or
the registration of memory. -/
def IsAccess (tool : Tool) : PmemRequest → Prop
  | .store _ _ addr size _ =>
      (PmemSt.range addr size).Proper ∧ tool.pmem.isPmemAccess addr size = true
  | .flush _ base size => (flushRange tool base size).Proper
  | .fence => True
  | .registerMapping _ _ => True
  | _ => False

instance (tool : Tool) : (request : PmemRequest) → Decidable (IsAccess tool request)
  | .store _ _ _ _ _ => inferInstanceAs (Decidable (_ ∧ _))
  | .flush _ base size => inferInstanceAs (Decidable (flushRange tool base size).Proper)
  | .fence => .isTrue trivial
  | .registerMapping _ _ => .isTrue trivial
  | .orderGuarantee _ _ _ _ => .isFalse id
  | .fenceMark _ => .isFalse id
  | .epochBegin => .isFalse id
  | .epochEnd _ => .isFalse id
  | .newStrand _ _ => .isFalse id

/-- An access during which the array does not fill up. Its range is proper, and a store is in
registered memory. -/
def Admissible (tool : Tool) (request : PmemRequest) : Prop :=
  NotFull tool ∧ NotFull (tool.step request) ∧ IsAccess tool request

instance (tool : Tool) (request : PmemRequest) : Decidable (Admissible tool request) :=
  inferInstanceAs (Decidable (_ ∧ _ ∧ _))

/-- A flush tags no snippet by mistake. The condition is about the state before the flush. -/
def FlushesSafely (tool : Tool) : PmemRequest → Prop
  | .flush _ base size => TagsSafely (flushRange tool base size) tool.pmem
  | _ => True

/-- A flush skips no dirty record. The condition is about the state before the flush. -/
def FlushesDirty (tool : Tool) : PmemRequest → Prop
  | .flush _ base size => ReachesDirty (flushRange tool base size) tool.pmem
  | _ => True

instance (tool : Tool) : (request : PmemRequest) → Decidable (FlushesSafely tool request)
  | .flush _ base size => inferInstanceAs (Decidable (TagsSafely (flushRange tool base size) _))
  | .store _ _ _ _ _ | .fence | .registerMapping _ _ | .orderGuarantee _ _ _ _ | .fenceMark _
  | .epochBegin | .epochEnd _ | .newStrand _ _ => .isTrue trivial

instance (tool : Tool) : (request : PmemRequest) → Decidable (FlushesDirty tool request)
  | .flush _ base size => inferInstanceAs (Decidable (ReachesDirty (flushRange tool base size) _))
  | .store _ _ _ _ _ | .fence | .registerMapping _ _ | .orderGuarantee _ _ _ _ | .fenceMark _
  | .epochBegin | .epochEnd _ | .newStrand _ _ => .isTrue trivial

/-- The byte-level meaning of a request. Flushes are rounded as the options say. Requests that
are about neither stores nor durability leave the memory. -/
def referenceStep (opts : Options) (flushAlignSize : Nat) (memory : Memory Nat) :
    PmemRequest → Memory Nat
  | .store _ _ addr size _ => memory.store (PmemSt.range addr size).Covers
  | .flush _ base size => memory.flush (flushInfo opts flushAlignSize base size).Covers
  | .fence => memory.fence
  | _ => memory

/-- The tracker is well formed and still runs under its options. This is what every step needs
to know, and keeps. -/
structure Ready (opts : Options) (flushAlignSize : Nat) (tool : Tool) : Prop where
  wellFormed : WellFormed tool.pmem
  opts : tool.pmem.opts = opts
  align : tool.pmem.flushAlignSize = flushAlignSize

/-- The tool is ready at the start. -/
theorem initTool_ready {opts : Options} (defaults : DefaultTracking opts)
    (transactionsOnly redundantLogging : Bool) (cacheLineSize : Nat) (slots : Nat → PmemSt) :
    Ready opts cacheLineSize (initTool opts transactionsOnly redundantLogging cacheLineSize
      slots) :=
  ⟨initPmem_wellFormed cacheLineSize slots defaults.plain defaults.single, rfl, rfl⟩

/-- Both machines flush the same range. -/
theorem Ready.range_eq {opts : Options} {flushAlignSize : Nat} {tool : Tool}
    (ready : Ready opts flushAlignSize tool) (base size : Nat) :
    flushRange tool base size = flushInfo opts flushAlignSize base size := by
  rw [flushRange, ready.opts, ready.align]

/-- A ready tracker that misses nothing: one half of exactness. -/
structure Complete (opts : Options) (flushAlignSize : Nat) (tool : Tool) (memory : Memory Nat) :
    Prop where
  ready : Ready opts flushAlignSize tool
  missed : NothingMissed tool.pmem memory

/-- A ready tracker that invents nothing: the other half of exactness. -/
structure Faithful (opts : Options) (flushAlignSize : Nat) (tool : Tool) (memory : Memory Nat) :
    Prop where
  ready : Ready opts flushAlignSize tool
  invented : NothingInvented tool.pmem memory

section Step

variable {opts : Options} {flushAlignSize : Nat} {tool : Tool} {memory : Memory Nat}
  {request : PmemRequest}

/-- What an admissible request does to the tracker. -/
theorem step_pmem (admissible : Admissible tool request) :
    (∃ threadId context addr size value, request = .store threadId context addr size value ∧
      (PmemSt.range addr size).Proper ∧
      (tool.step request).pmem = (tool.pmem.trackStore addr size value context).1) ∨
    (∃ context base size, request = .flush context base size ∧
      (flushRange tool base size).Proper ∧
      (tool.step request).pmem = tool.pmem.doFlush base size context tool.strandId) ∨
    (request = .fence ∧ (tool.step request).pmem = tool.pmem.doFence) ∨
    ∃ base size, request = .registerMapping base size ∧
      SameTracking tool.pmem (tool.step request).pmem ∧
      (tool.step request).pmem.flushAlignSize = tool.pmem.flushAlignSize := by
  obtain ⟨_, _, access⟩ := admissible
  cases request with
  | store threadId context addr size value =>
    refine .inl ⟨threadId, context, addr, size, value, rfl, access.1, ?_⟩
    simp only [Tool.step, Tool.tracePmemStore, access.2, if_true]
  | flush context base size => exact .inr (.inl ⟨context, base, size, rfl, access, rfl⟩)
  | fence => exact .inr (.inr (.inl ⟨rfl, rfl⟩))
  | registerMapping base size => 
    exact .inr (.inr (.inr ⟨base, size, rfl, ⟨rfl, rfl, rfl, rfl, rfl, rfl, rfl, rfl⟩, rfl⟩))
  | orderGuarantee | fenceMark | epochBegin | epochEnd | newStrand => exact absurd access id

/-- The array has room for what a flush appends. -/
theorem flush_effect {context : Option ExeContext} {base size : Nat} (well : WellFormed tool.pmem)
    (range : (flushRange tool base size).Proper)
    (room : NotFull (tool.step (.flush context base size))) :
    FlushEffect (flushRange tool base size) tool.pmem
      (tool.step (.flush context base size)).pmem := by
  refine doFlush_effect well context tool.strandId range ?_
  have sameOpts := doFlush_opts base size context tool.strandId tool.pmem
  rw [← sameOpts]
  exact room

/-- An admissible request leaves the tool ready for the next one. -/
theorem step_ready (admissible : Admissible tool request) (ready : Ready opts flushAlignSize tool) :
    Ready opts flushAlignSize (tool.step request) := by
  have well := ready.wellFormed
  rcases step_pmem admissible with ⟨_, context, addr, size, value, rfl, proper, stored⟩ |
    ⟨context, base, size, rfl, range, _⟩ | ⟨rfl, fenced⟩ | ⟨_, _, rfl, same, align⟩
  · have tracked := (trackStore_exact addr size value context well.single admissible.1).1
    rw [← stored] at tracked
    refine ⟨?_, ?_, ?_⟩
    · rw [stored]
      exact trackStore_wellFormed value context well admissible.1 proper
    · rw [tracked.frame]
      exact ready.opts
    · rw [tracked.frame]
      exact ready.align
  · have effect := flush_effect well range admissible.2.1
    refine ⟨effect.wellFormed, ?_, ?_⟩
    · rw [effect.frame]
      exact ready.opts
    · rw [effect.frame]
      exact ready.align
  · have effect := doFence_effect well
    rw [← fenced] at effect
    refine ⟨effect.wellFormed, ?_, ?_⟩
    · rw [effect.frame]
      exact ready.opts
    · rw [effect.frame]
      exact ready.align
  · exact ⟨well.of_same same, same.opts.trans ready.opts, align.trans ready.align⟩

/-- One step of both machines on the side of missed bytes. -/
theorem step_missed (admissible : Admissible tool request) (ready : Ready opts flushAlignSize tool)
    (safe : FlushesSafely tool request) (related : NothingMissed tool.pmem memory) :
    NothingMissed (tool.step request).pmem
      (referenceStep opts flushAlignSize memory request) := by
  have well := ready.wellFormed
  rcases step_pmem admissible with ⟨_, context, addr, size, value, rfl, proper, stored⟩ |
    ⟨context, base, size, rfl, range, _⟩ | ⟨rfl, fenced⟩ | ⟨_, _, rfl, same, _⟩
  · rw [stored]
    exact trackStore_missed value context well admissible.1 proper related
  · have effect := flush_effect well range admissible.2.1
    simp only [referenceStep]
    rw [← ready.range_eq]
    exact effect.missed safe related
  · rw [fenced]
    exact (doFence_effect well).missed related
  · exact related.of_same same

/-- One step of both machines on the side of false alarms. -/
theorem step_invented (admissible : Admissible tool request)
    (ready : Ready opts flushAlignSize tool) (dirty : FlushesDirty tool request)
    (related : NothingInvented tool.pmem memory) :
    NothingInvented (tool.step request).pmem
      (referenceStep opts flushAlignSize memory request) := by
  have well := ready.wellFormed
  rcases step_pmem admissible with ⟨_, context, addr, size, value, rfl, proper, stored⟩ |
    ⟨context, base, size, rfl, range, _⟩ | ⟨rfl, fenced⟩ | ⟨_, _, rfl, same, _⟩
  · rw [stored]
    exact trackStore_invented value context well admissible.1 proper related
  · have effect := flush_effect well range admissible.2.1
    simp only [referenceStep]
    rw [← ready.range_eq]
    exact effect.invented dirty related
  · rw [fenced]
    exact (doFence_effect well).invented related
  · exact related.of_same same

end Step

section Runs

variable {opts : Options} (defaults : DefaultTracking opts)
  (transactionsOnly redundantLogging : Bool) (cacheLineSize : Nat) (slots : Nat → PmemSt)

include defaults

/-- At the start there is nothing to miss. -/
theorem initTool_complete : Complete opts cacheLineSize
    (initTool opts transactionsOnly redundantLogging cacheLineSize slots) Memory.clean where
  ready := initTool_ready defaults transactionsOnly redundantLogging cacheLineSize slots
  missed := ⟨by simp [Memory.clean], by simp [Memory.clean, Memory.Unpersisted]⟩

/-- At the start there is nothing to invent. -/
theorem initTool_faithful : Faithful opts cacheLineSize
    (initTool opts transactionsOnly redundantLogging cacheLineSize slots) Memory.clean where
  ready := initTool_ready defaults transactionsOnly redundantLogging cacheLineSize slots
  invented := by
    have none : (initTool opts transactionsOnly redundantLogging cacheLineSize slots).pmem.live =
      [] := initPmem_live opts cacheLineSize slots
    constructor <;> rw [none] <;> simp

/-- The detailed report misses no byte that a crash could lose, in every run whose flushes tag
no snippet by mistake.

Proof: simulation by the byte-level machine with the relation `Complete`: every dirty byte has
a live dirty record, and every unpersisted one a live record. One step lemma for each request
keeps that. At the end the listing has the live records, whatever it merges. -/
theorem unpersisted_reported (requests : List PmemRequest)
    (admitted : Runs.AllSteps Tool.step
      (fun tool request => Admissible tool request ∧ FlushesSafely tool request)
      (initTool opts transactionsOnly redundantLogging cacheLineSize slots) requests)
    (byte : Nat) (unpersisted : (requests.foldl (referenceStep opts cacheLineSize)
      Memory.clean).Unpersisted byte) :
    Tracks (reported (requests.foldl Tool.step (initTool opts transactionsOnly redundantLogging
      cacheLineSize slots)).pmem.printStoreStatsDetail) byte := by
  have final : Complete opts cacheLineSize _ _ := Runs.simulation
    (fun tool memory request complete step =>
      ⟨step_ready step.1 complete.ready, step_missed step.1 complete.ready step.2 complete.missed⟩)
    _ _ requests (initTool_complete defaults transactionsOnly redundantLogging cacheLineSize slots)
    admitted
  exact (printStoreStatsDetail_exact final.ready.wellFormed byte).mpr
    (final.missed.pending byte unpersisted)

omit defaults in
/-- A flush cuts the second store and leaves its last four bytes dirty. -/
theorem unpersisted_reported_partial_flush :
    let opts := { defaultOptions (fun _ => false) with printBugDetail := true }
    let start := initTool opts false false 64 (fun _ => PmemSt.zero)
    let requests : List PmemRequest := [.registerMapping 64 1024, .store 1 none 100 8 0,
      .store 1 none 200 8 0, .flush none 100 8, .flush none 200 4, .fence]
    Runs.AllSteps Tool.step
        (fun tool request => Admissible tool request ∧ FlushesSafely tool request) start requests ∧
      (requests.foldl (referenceStep opts 64) Memory.clean).Unpersisted 204 ∧
      ∀ byte, (requests.foldl (referenceStep opts 64) Memory.clean).Unpersisted byte →
        Tracks (reported (requests.foldl Tool.step start).pmem.printStoreStatsDetail) byte := by
  refine ⟨by decide +kernel, by decide +kernel, ?_⟩
  exact unpersisted_reported ⟨rfl, rfl⟩ false false 64 _ _ (by decide +kernel)

omit defaults in
/-- The piece cut off by the second flush lies outside the box of its snippet. The third
flush covers that box and tags the snippet, and the fence drops the dirty piece. -/
theorem unpersisted_reported_fails :
    let opts := { defaultOptions (fun _ => false) with printBugDetail := true }
    let start := initTool opts false false 64 (fun _ => PmemSt.zero)
    let requests : List PmemRequest := [.registerMapping 64 1024, .store 1 none 100 8 0,
      .store 1 none 200 8 0, .flush none 100 8, .flush none 200 4, .store 1 none 300 8 0,
      .flush none 300 8, .fence]
    Runs.AllSteps Tool.step Admissible start requests ∧
      (requests.foldl (referenceStep opts 64) Memory.clean).Unpersisted 204 ∧
      ¬ Tracks (reported (requests.foldl Tool.step start).pmem.printStoreStatsDetail) 204 := by
  decide +kernel

/-- The detailed report raises no false alarm, in every run whose flushes skip no dirty record.

Proof: simulation by the byte-level machine with the relation `Faithful`: every live record
lies in unpersisted bytes, and every dirty one in dirty bytes. A flush can break that only by
skipping a dirty record that it meets. At the end the listing has nothing but the live records. -/
theorem reported_unpersisted (requests : List PmemRequest)
    (admitted : Runs.AllSteps Tool.step
      (fun tool request => Admissible tool request ∧ FlushesDirty tool request)
      (initTool opts transactionsOnly redundantLogging cacheLineSize slots) requests)
    (byte : Nat) (covered : Tracks (reported (requests.foldl Tool.step
      (initTool opts transactionsOnly redundantLogging cacheLineSize
        slots)).pmem.printStoreStatsDetail) byte) :
    (requests.foldl (referenceStep opts cacheLineSize) Memory.clean).Unpersisted byte := by
  have final : Faithful opts cacheLineSize _ _ := Runs.simulation
    (fun tool memory request faithful step => ⟨step_ready step.1 faithful.ready,
      step_invented step.1 faithful.ready step.2 faithful.invented⟩)
    _ _ requests (initTool_faithful defaults transactionsOnly redundantLogging cacheLineSize slots)
    admitted
  exact final.invented.pending byte
    ((printStoreStatsDetail_exact final.ready.wellFormed byte).mp covered)

omit defaults in
/-- The store that is flushed in two halves from one snippet is not reported. -/
theorem reported_unpersisted_two_halves :
    let opts := { defaultOptions (fun _ => false) with printBugDetail := true }
    let start := initTool opts false false 64 (fun _ => PmemSt.zero)
    let requests : List PmemRequest := [.registerMapping 64 1024, .store 1 none 100 8 0,
      .store 1 none 200 8 0, .flush none 200 4, .flush none 204 4, .fence]
    Runs.AllSteps Tool.step
        (fun tool request => Admissible tool request ∧ FlushesDirty tool request) start requests ∧
      Tracks (reported (requests.foldl Tool.step start).pmem.printStoreStatsDetail) 100 ∧
      ∀ byte, Tracks (reported (requests.foldl Tool.step start).pmem.printStoreStatsDetail) byte →
        (requests.foldl (referenceStep opts 64) Memory.clean).Unpersisted byte := by
  refine ⟨by decide +kernel, by decide +kernel, ?_⟩
  exact reported_unpersisted ⟨rfl, rfl⟩ false false 64 _ _ (by decide +kernel)

omit defaults in
/-- The piece cut off by the second flush goes to a new snippet, whose box is empty. The
third flush covers the piece but skips that snippet. -/
theorem reported_unpersisted_fails :
    let opts := { defaultOptions (fun _ => false) with printBugDetail := true }
    let start := initTool opts false false 64 (fun _ => PmemSt.zero)
    let requests : List PmemRequest := [.registerMapping 64 1024, .store 1 none 100 8 0,
      .store 1 none 200 8 0, .flush none 100 8, .flush none 200 4, .flush none 204 4, .fence]
    Runs.AllSteps Tool.step Admissible start requests ∧
      Tracks (reported (requests.foldl Tool.step start).pmem.printStoreStatsDetail) 204 ∧
      ¬ (requests.foldl (referenceStep opts 64) Memory.clean).Unpersisted 204 := by
  decide +kernel

end Runs

end PmDebugger
