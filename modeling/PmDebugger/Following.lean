import PmDebugger.CleanedBytes
import PmDebugger.Conservation
import PmDebugger.StoredBytes

/-!
# Following the byte-level machine

The tracker follows the byte-level machine when its live records cover the pending bytes
and its dirty ones the dirty bytes, both exactly. Stores, flushes, fences and requests to
clear a range keep this, with deleted records, a full array and `--mult-stores` as well,
as long as no step goes wrong in one of a few ways.

A store goes wrong when it revives the mark of a flushed record, a flush when it tags a
record that it does not cover or passes over one, and a request to clear a range when it
cuts a record in the middle or passes over one.
-/

namespace PmDebugger

open OrderedSet OrderedSet.OSet PmemOps Persistency Runs

/-- Tracking with a tree that is ordered by index and without an indifference window.
Overwritten stores may be tracked or not. -/
structure PlainTracking (opts : Options) : Prop where
  plain : opts.treeReorganization = false
  indiff : opts.trackMultipleStores = true → opts.storeSbIndiff = 0

/-- A store, a flush, a fence, the registration of memory, or a request to clear a range. -/
def TrackedRequest (tool : Tool) : ClientRequest → Prop
  | .access request => IsAccess tool request
  | .setClean base size => (PmemSt.range base size).Proper
  | _ => False

instance (tool : Tool) : (request : ClientRequest) → Decidable (TrackedRequest tool request)
  | .access request => inferInstanceAs (Decidable (IsAccess tool request))
  | .setClean base size => inferInstanceAs (Decidable (PmemSt.range base size).Proper)
  | .enterBlock | .removeMapping _ _ | .checkIsPmemMapping _ _ | .writeStats | .startTx _ _ _
  | .endTx _ _ _ | .addToTx _ _ _ _ _ | .removeFromTx _ _ _ _ | .addThreadToTx _ _
  | .removeThreadFromTx _ _ | .addToGlobalTxIgnore _ _ => .isFalse id

/-- The step does not go wrong. The three requests that can go wrong are stores that overwrite,
flushes, and requests to set a range clean. -/
def KeepsTrack (tool : Tool) : ClientRequest → Prop
  | .access (.store _ _ addr size _) => tool.pmem.opts.trackMultipleStores = true →
      KeepsStates (PmemSt.range addr size) tool.pmem
  | .access (.flush _ base size) => TagsCovered (flushRange tool base size) tool.pmem ∧
      MissesNothing (flushRange tool base size) tool.pmem
  | .setClean base size => CutsAtEnds (PmemSt.range base size) tool.pmem
  | _ => True

instance (tool : Tool) : (request : ClientRequest) → Decidable (KeepsTrack tool request)
  | .access (.store _ _ addr size _) =>
      inferInstanceAs (Decidable (_ → KeepsStates (PmemSt.range addr size) tool.pmem))
  | .access (.flush _ base size) =>
      inferInstanceAs (Decidable (TagsCovered (flushRange tool base size) tool.pmem ∧
        MissesNothing (flushRange tool base size) tool.pmem))
  | .setClean base size => inferInstanceAs (Decidable
    (CutsAtEnds (PmemSt.range base size) tool.pmem))
  | .access .fence | .access (.registerMapping _ _) | .access (.orderGuarantee _ _ _ _)
  | .access (.fenceMark _) | .access .epochBegin | .access (.epochEnd _)
  | .access (.newStrand _ _) | .enterBlock | .removeMapping _ _ | .checkIsPmemMapping _ _
  | .writeStats | .startTx _ _ _ | .endTx _ _ _ | .addToTx _ _ _ _ _ | .removeFromTx _ _ _ _
  | .addThreadToTx _ _ | .removeThreadFromTx _ _ | .addToGlobalTxIgnore _ _ => .isTrue trivial

/-- A request that the tracker follows and that does not go wrong. -/
def FollowedStep (tool : Tool) (request : ClientRequest) : Prop :=
  TrackedRequest tool request ∧ KeepsTrack tool request

instance (tool : Tool) (request : ClientRequest) : Decidable (FollowedStep tool request) :=
  inferInstanceAs (Decidable (_ ∧ _))

/-- The byte-level meaning of a client request. A range that is set clean counts as durable,
and all other requests of the client leave the bytes. -/
def referenceRespond (opts : Options) (flushAlignSize : Nat) (memory : Memory Nat) :
    ClientRequest → Memory Nat
  | .access request => referenceStep opts flushAlignSize memory request
  | .setClean base size => memory.release (PmemSt.range base size).Covers
  | _ => memory

/-- The live records say of every byte what the byte-level machine says: whether it is
unpersisted, and whether it is dirty. -/
structure Follows (opts : Options) (flushAlignSize : Nat) (tool : Tool) (memory : Memory Nat) :
    Prop where
  steady : Steady tool.pmem
  opts : tool.pmem.opts = opts
  align : tool.pmem.flushAlignSize = flushAlignSize
  bytes : ∀ byte, Tracks tool.pmem.live byte ↔ memory.Unpersisted byte
  dirty : ∀ byte, DirtyIn tool.pmem.live byte ↔ memory byte = .dirty

section Steps

variable {pmem : PmemOps}

/-- Every live record is dirty or flushed. -/
theorem Steady.written (steady : Steady pmem) :
    ∀ store ∈ pmem.live, store.state = .dirty ∨ store.state = .flushed := by
  intro store member
  have notClean : store.state ≠ .clean := by
    rcases mem_live.mp member with ⟨sIndex, used, slot, inside, _, rfl⟩ | inTree
    · unfold settle
      split
      · simp
      · exact steady.slots slot (steady.sound.layout.inUse_iff.mpr ⟨sIndex, used, inside⟩)
    · exact steady.stores store inTree
  cases isState : store.state with
  | dirty => exact .inl rfl
  | flushed => exact .inr rfl
  | clean => exact absurd isState notClean

/-- A fence leaves dirty records in the tree and an empty array. -/
theorem doFence_steady (steady : Steady pmem) : Steady pmem.doFence := by
  have fenced := doFence_bytes steady.sound
  have isCurrent : pmem.doFence.current = emptySnippet 0 := by
    unfold current
    rw [fenced.index, fenced.emptied]
  refine ⟨?_, (doFence_kept steady.sound).sound, ?_, ?_, ?_, ?_⟩
  · rw [fenced.opts]
    exact steady.plain
  · rw [isCurrent]
    rfl
  · intro sIndex below
    rw [fenced.index] at below
    exact absurd below (Nat.not_lt_zero sIndex)
  · intro slot inUse
    rw [isCurrent] at inUse
    exact absurd inUse (Nat.not_lt_zero slot)
  · intro store member
    obtain ⟨old, isOld, _, same⟩ := fenced.states store member
    rw [same]
    rcases steady.written old isOld with isDirty | isFlushed
    · rw [isDirty]
      simp
    · rw [isFlushed]
      simp

/-- Clearing a range leaves every record its state. -/
theorem setClean_steady (steady : Steady pmem) {base size : Nat}
    (proper : (PmemSt.range base size).Proper)
    (cuts : CutsAtEnds (PmemSt.range base size) pmem) : Steady (pmem.setClean base size) := by
  obtain ⟨written, tree⟩ := setClean_written proper steady.sound cuts
  have sound := (setClean_cleaned proper steady.sound).sound
  refine ⟨?_, sound, ?_, ?_, ?_, ?_⟩
  · rw [written]
    exact steady.plain
  · rw [written]
    exact steady.opened
  · rw [written]
    exact steady.closed
  · intro slot inUse
    rw [written] at inUse ⊢
    have used : slot < pmem.current.index := inUse
    dsimp only
    split
    · rw [(cleanedRecord_leaves proper (steady.sound.slots slot used)
        (cuts.array slot (List.mem_range.mpr used))).state]
      exact steady.slots slot used
    · exact steady.slots slot used
  · intro store member
    have size := (sound.tree.proper store member).nonempty
    have covers : store.Covers store.addr := ⟨Nat.le_refl _, by omega⟩
    have states := cutOut_states proper steady.sound.tree.proper cuts.tree store.state store.addr
    rw [← tree] at states
    obtain ⟨⟨old, isOld, same, _⟩, _⟩ := states.mp ⟨store, member, rfl, covers⟩
    rw [← same]
    exact steady.stores old isOld

end Steps

section Step

variable {opts : Options} {flushAlignSize : Nat} {tool : Tool} {memory : Memory Nat}
  {request : ClientRequest}

/-- A store in both machines. -/
theorem Follows.stored (follows : Follows opts flushAlignSize tool memory)
    (tracking : PlainTracking opts) {addr size value threadId : Nat} {context : Option ExeContext}
    (proper : (PmemSt.range addr size).Proper) (access : tool.pmem.isPmemAccess addr size = true)
    (keeps : tool.pmem.opts.trackMultipleStores = true →
      KeepsStates (PmemSt.range addr size) tool.pmem) :
    Follows opts flushAlignSize (tool.step (.store threadId context addr size value))
      (memory.store (PmemSt.range addr size).Covers) := by
  have indiff : tool.pmem.opts.trackMultipleStores = true → tool.pmem.opts.storeSbIndiff = 0 := by
    rw [follows.opts]
    exact tracking.indiff
  obtain ⟨stored, _⟩ := trackStore_storedBytes follows.steady value context proper indiff
  have same := trackStore_access addr size value context tool.pmem
  have result : (tool.step (.store threadId context addr size value)).pmem =
      (tool.pmem.trackStore addr size value context).1 := by
    simp only [Tool.step, Tool.tracePmemStore, access, if_true]
  refine ⟨?_, ?_, ?_, fun byte => ?_, fun byte => ?_⟩ <;> rw [result]
  · exact stored.steady
  · exact same.opts.trans follows.opts
  · exact same.flushAlignSize.trans follows.align
  · rw [stored.bytes, store_unpersisted, follows.bytes]
  · rw [stored.dirty keeps, store_dirty, follows.dirty]

/-- A flush in both machines. -/
theorem Follows.flushed (follows : Follows opts flushAlignSize tool memory) {base size : Nat}
    {context : Option ExeContext} (range : (flushRange tool base size).Proper)
    (covered : TagsCovered (flushRange tool base size) tool.pmem)
    (misses : MissesNothing (flushRange tool base size) tool.pmem) :
    Follows opts flushAlignSize (tool.step (.flush context base size))
      (memory.flush (flushInfo opts flushAlignSize base size).Covers) := by
  have flushed := doFlush_flushedBytes follows.steady context tool.strandId range
  have same := doFlush_access base size context tool.strandId tool.pmem
  have isRange : flushInfo opts flushAlignSize base size = flushRange tool base size := by
    rw [flushRange, follows.opts, follows.align]
  refine ⟨flushed.steady, same.opts.trans follows.opts, same.flushAlignSize.trans follows.align,
    fun byte => ?_, fun byte => ?_⟩
  · rw [flush_unpersisted, ← follows.bytes]
    exact flushed.bytes byte
  · rw [flush_dirty, ← follows.dirty, isRange, and_comm]
    exact flushed.dirty covered misses byte

/-- A fence in both machines. -/
theorem Follows.fenced (follows : Follows opts flushAlignSize tool memory) :
    Follows opts flushAlignSize (tool.step .fence) memory.fence := by
  obtain ⟨still, was, _⟩ := doFence_exact follows.steady.sound follows.steady.written
  have same := doFence_access tool.pmem
  have inTree {byte : Nat} (dirty : DirtyIn tool.pmem.doFence.pmemStores.toList byte) :
      DirtyIn tool.pmem.doFence.live byte := by
    obtain ⟨store, member, isDirty, inside⟩ := dirty
    exact ⟨store, mem_live.mpr (.inr member), isDirty, inside⟩
  refine ⟨doFence_steady follows.steady, same.opts.trans follows.opts,
    same.flushAlignSize.trans follows.align, fun byte => ?_, fun byte => ?_⟩
  · rw [fence_unpersisted, ← follows.dirty]
    refine ⟨was byte, fun dirty => ?_⟩
    obtain ⟨store, member, _, inside⟩ := inTree (still byte dirty)
    exact ⟨store, member, inside⟩
  · rw [fence_dirty, ← follows.dirty]
    refine ⟨fun dirty => ?_, fun dirty => inTree (still byte dirty)⟩
    obtain ⟨store, member, _, inside⟩ := dirty
    exact was byte ⟨store, member, inside⟩

/-- A cleared range in both machines. -/
theorem Follows.cleared (follows : Follows opts flushAlignSize tool memory) {base size : Nat}
    (proper : (PmemSt.range base size).Proper)
    (cuts : CutsAtEnds (PmemSt.range base size) tool.pmem) :
    Follows opts flushAlignSize (tool.respond (.setClean base size))
      (memory.release (PmemSt.range base size).Covers) := by
  have cleans := setClean_cleansRange proper follows.steady.sound cuts
  have written := (setClean_written proper follows.steady.sound cuts).1
  have isTracked (byte : Nat) (dirty : DirtyIn (tool.pmem.setClean base size).live byte) :
      Tracks (tool.pmem.setClean base size).live byte := by
    obtain ⟨store, member, _, inside⟩ := dirty
    exact ⟨store, member, inside⟩
  refine ⟨setClean_steady follows.steady proper cuts, ?_, ?_, fun byte => ?_, fun byte => ?_⟩
  · show (tool.pmem.setClean base size).opts = opts
    rw [written]
    exact follows.opts
  · show (tool.pmem.setClean base size).flushAlignSize = flushAlignSize
    rw [written]
    exact follows.align
  · rw [release_unpersisted, ← follows.bytes]
    by_cases inside : (PmemSt.range base size).Covers byte
    · exact iff_of_false (cleans.cleaned byte inside) (fun both => both.1 inside)
    · exact (cleans.clean byte inside).trans (and_iff_right inside).symm
  · rw [release_dirty, ← follows.dirty]
    by_cases inside : (PmemSt.range base size).Covers byte
    · exact iff_of_false (fun dirty => cleans.cleaned byte inside (isTracked byte dirty))
        (fun both => both.1 inside)
    · exact (cleans.dirty byte inside).trans (and_iff_right inside).symm

/-- One step of both machines. -/
theorem Follows.respond (follows : Follows opts flushAlignSize tool memory)
    (tracking : PlainTracking opts) (allowed : TrackedRequest tool request)
    (keeps : KeepsTrack tool request) :
    Follows opts flushAlignSize (tool.respond request)
      (referenceRespond opts flushAlignSize memory request) := by
  cases request with
  | access access =>
    cases access with
    | store threadId context addr size value =>
      exact follows.stored tracking allowed.1 allowed.2 keeps
    | flush context base size => exact follows.flushed allowed keeps.1 keeps.2
    | fence => exact follows.fenced
    | registerMapping base size =>
      have steady := follows.steady
      refine ⟨⟨steady.plain, ⟨⟨steady.sound.layout.first, steady.sound.layout.chained,
        steady.sound.layout.ordered⟩, steady.sound.slots, steady.sound.tree⟩, steady.opened,
        steady.closed, steady.slots, steady.stores⟩, follows.opts, follows.align, follows.bytes,
        follows.dirty⟩
    | orderGuarantee | fenceMark | epochBegin | epochEnd | newStrand => exact absurd allowed id
  | setClean base size => exact follows.cleared allowed keeps
  | enterBlock | removeMapping | checkIsPmemMapping | writeStats | startTx | endTx | addToTx
  | removeFromTx | addThreadToTx | removeThreadFromTx | addToGlobalTxIgnore =>
    exact absurd allowed id

end Step

section Runs

variable {opts : Options} (tracking : PlainTracking opts)
  (transactionsOnly redundantLogging : Bool) (cacheLineSize : Nat) (slots : Nat → PmemSt)

include tracking

/-- A tracker that follows the byte-level machine does so through every run whose steps do not go
wrong. -/
theorem Follows.run {flushAlignSize : Nat} {tool : Tool} {memory : Memory Nat}
    (follows : Follows opts flushAlignSize tool memory) (requests : List ClientRequest)
    (admitted : AllSteps Tool.respond
      (fun tool request => TrackedRequest tool request ∧ KeepsTrack tool request) tool requests) :
    Follows opts flushAlignSize (requests.foldl Tool.respond tool)
      (requests.foldl (referenceRespond opts flushAlignSize) memory) :=
  simulation (fun _ _ _ follows step => follows.respond tracking step.1 step.2) _ _ requests follows
    admitted

/-- A run of followed steps whose end the tool lives to see. -/
theorem Follows.serve {flushAlignSize : Nat} {tool : Tool} {memory : Memory Nat}
    (follows : Follows opts flushAlignSize tool memory) (requests : List ClientRequest)
    (admitted : AllSteps Tool.serve FollowedStep tool requests)
    (alive : (requests.foldl Tool.serve tool).exited = false) :
    Follows opts flushAlignSize (requests.foldl Tool.serve tool)
      (requests.foldl (referenceRespond opts flushAlignSize) memory) := by
  rw [Tool.serve_eq] at *
  obtain ⟨sameRun, sameSteps⟩ := halting_running requests alive
  rw [sameSteps] at admitted
  rw [sameRun]
  exact follows.run tracking requests admitted

/-- A new tracker and a clean memory say the same. -/
theorem initTool_follows : Follows opts cacheLineSize
    (initTool opts transactionsOnly redundantLogging cacheLineSize slots) Memory.clean := by
  have none : (initTool opts transactionsOnly redundantLogging cacheLineSize
      slots).pmem.live = [] :=
    initPmem_live opts cacheLineSize slots
  refine ⟨⟨tracking.plain, initTool_sound opts transactionsOnly redundantLogging
    cacheLineSize slots, rfl, ?_, ?_, ?_⟩, rfl, rfl, ?_, ?_⟩
  · intro sIndex below
    exact absurd below (Nat.not_lt_zero sIndex)
  · intro slot inUse
    exact absurd inUse (Nat.not_lt_zero slot)
  · intro store member
    exact absurd member List.not_mem_nil
  · intro byte
    rw [none]
    exact iff_of_false (by simp) (by simp [Memory.clean, Memory.Unpersisted])
  · intro byte
    rw [none]
    exact iff_of_false (by simp [DirtyIn]) (by simp [Memory.clean])

/-- The tracker follows the byte-level machine through every run whose steps do not go
wrong. -/
theorem run_follows (requests : List ClientRequest)
    (admitted : AllSteps Tool.respond
      (fun tool request => TrackedRequest tool request ∧ KeepsTrack tool request)
      (initTool opts transactionsOnly redundantLogging cacheLineSize slots) requests) :
    Follows opts cacheLineSize
      (requests.foldl Tool.respond
        (initTool opts transactionsOnly redundantLogging cacheLineSize slots))
      (requests.foldl (referenceRespond opts cacheLineSize) Memory.clean) :=
  (initTool_follows tracking transactionsOnly redundantLogging cacheLineSize slots).run tracking
    requests admitted

end Runs

end PmDebugger
