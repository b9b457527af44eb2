import PmDebugger.Following

/-!
# The rule for overwrites

With `--mult-stores` a store warns about the pending bytes that it writes again. The
warnings of one store share no byte and name its pending bytes exactly, provided that every
such byte has a record that is not passed over and that no two of these records share it.

Records are passed over when they lie outside the box of their snippet or outside the bounds
of the tree. The part behind a cut is one of them: it goes to the tree without widening
these bounds. A node of the tree that lies within the store is met but not named: it has been
freed when the warning copies it, and the warning names an empty range.
-/

namespace PmDebugger

open OrderedSet OrderedSet.OSet PmemOps Persistency Runs

/-- Two records share a byte of the range. Where this holds for the records that a store meets,
the two warnings about them name a byte twice. -/
def ShareIn (range first second : PmemSt) : Prop :=
  ∃ byte ∈ List.range' range.addr range.size, first.Covers byte ∧ second.Covers byte

instance (range first second : PmemSt) : Decidable (ShareIn range first second) :=
  inferInstanceAs (Decidable (∃ byte ∈ List.range' _ _, _))

/-- Each pending byte of the store has exactly one record that is not passed over. -/
structure OverwritesOnce (range : PmemSt) (pmem : PmemOps) : Prop where
  reached : ∀ byte ∈ List.range' range.addr range.size, Tracks pmem.live byte →
    Tracks (overwrittenRecords range pmem) byte
  apart : (overwrittenRecords range pmem).Pairwise
    (fun first second => ¬ ShareIn range first second)

instance (range : PmemSt) (pmem : PmemOps) : Decidable (OverwritesOnce range pmem) :=
  decidable_of_iff ((∀ byte ∈ List.range' range.addr range.size, Tracks pmem.live byte →
      Tracks (overwrittenRecords range pmem) byte) ∧
    (overwrittenRecords range pmem).Pairwise (fun first second => ¬ ShareIn range first second))
    ⟨fun both => ⟨both.1, both.2⟩, fun once => ⟨once.reached, once.apart⟩⟩

/-- The new warnings share no byte, and together they name the given bytes. This is the rule
for `--mult-stores`: each overwritten byte is named once. -/
def WarnsOf (bytes : Nat → Prop) (before after : PmemOps) : Prop :=
  ∃ events, after.multipleStores = before.multipleStores ++ events ∧
    events.Pairwise (fun first second => ∀ byte, ¬ (first.Covers byte ∧ second.Covers byte)) ∧
    ∀ byte, Tracks events byte ↔ bytes byte

section Warnings

variable {range : PmemSt} {records events : List PmemSt} {pmem : PmemOps}

/-- A byte of the range is one of the bytes that are counted. -/
theorem mem_bytes {byte : Nat} : byte ∈ List.range' range.addr range.size ↔ range.Covers byte := by
  rw [List.mem_range'_1]
  exact Iff.rfl

/-- Two warnings share a byte exactly when their records share one in the range. -/
theorem OverlapOf.shared_iff {first second event other : PmemSt}
    (overlap : OverlapOf range first event) (overlap' : OverlapOf range second other) :
    (∀ byte, ¬ (event.Covers byte ∧ other.Covers byte)) ↔ ¬ ShareIn range first second := by
  unfold ShareIn
  rw [not_exists]
  refine forall_congr' (fun byte => not_congr ?_)
  rw [overlap byte, overlap' byte, mem_bytes]
  tauto

/-- What each warning has in common with its record holds of all warnings iff it holds of all
records. -/
theorem overlaps_forall {ofRecord ofEvent : PmemSt → Prop}
    (each : ∀ record event, OverlapOf range record event → (ofEvent event ↔ ofRecord record))
    (overlaps : List.Forall₂ (OverlapOf range) records events) :
    (∀ event ∈ events, ofEvent event) ↔ ∀ record ∈ records, ofRecord record := by
  induction overlaps with
  | nil => simp
  | @cons record event records events overlap rest inductionHypothesis =>
    rw [List.forall_mem_cons, List.forall_mem_cons, each record event overlap, inductionHypothesis]

/-- The warnings are disjoint exactly when no two records share a byte of the range. -/
theorem overlaps_pairwise (overlaps : List.Forall₂ (OverlapOf range) records events) :
    events.Pairwise (fun first second => ∀ byte, ¬ (first.Covers byte ∧ second.Covers byte)) ↔
      records.Pairwise (fun first second => ¬ ShareIn range first second) := by
  induction overlaps with
  | nil => exact iff_of_true .nil .nil
  | @cons record event records events overlap rest inductionHypothesis =>
    rw [List.pairwise_cons, List.pairwise_cons, inductionHypothesis]
    exact and_congr_left (fun _ =>
      overlaps_forall (fun _ _ overlap' => overlap.shared_iff overlap') rest)

/-- The warnings name the bytes of the range that their records cover. -/
theorem overlaps_tracks (overlaps : List.Forall₂ (OverlapOf range) records events) (byte : Nat) :
    Tracks events byte ↔ range.Covers byte ∧ Tracks records byte := by
  induction overlaps with
  | nil => simp [Tracks]
  | @cons record event records events overlap rest inductionHypothesis =>
    unfold Tracks at *
    rw [List.exists_mem_cons_iff, List.exists_mem_cons_iff, overlap byte, inductionHypothesis]
    tauto

/-- What is taken as overwritten is live. -/
theorem overwrittenRecords_live (layout : Layout pmem) {byte : Nat}
    (isTracked : Tracks (overwrittenRecords range pmem) byte) : Tracks pmem.live byte := by
  obtain ⟨record, member, inside⟩ := isTracked
  rcases List.mem_append.mp member with inArray | inTree
  · obtain ⟨inSlots, undeleted, _⟩ : record ∈ (reachedSlots range pmem).map pmem.slots ∧
        meetsRecord range record := by
      simpa [metRecords] using List.mem_filter.mp inArray
    obtain ⟨slot, isReached, rfl⟩ := List.mem_map.mp inSlots
    obtain ⟨sIndex, used, inSnippet⟩ :=
      layout.inUse_iff.mp ((reachedSlots_inUse range layout).2 slot isReached)
    exact ⟨_, mem_live.mpr (.inl ⟨sIndex, used, slot, inSnippet, undeleted, rfl⟩),
      (settle_covers _ _ _).mpr inside⟩
  · split at inTree
    · exact absurd inTree List.not_mem_nil
    · obtain ⟨existing, isMet, rfl⟩ := List.mem_map.mp inTree
      exact ⟨existing, mem_live.mpr (.inr (List.mem_filter.mp isMet).1), nameable_covers inside⟩

/-- The warnings are right exactly when each pending byte is met once. -/
theorem warnsOf_iff {before after : PmemOps} {bytes : Nat → Prop} (layout : Layout before)
    (warned : Warned range (overwrittenRecords range before) before after)
    (room : after.multipleStores.length < maxMultOverwrites)
    (pending : ∀ byte, bytes byte ↔ range.Covers byte ∧ Tracks before.live byte) :
    WarnsOf bytes before after ↔ OverwritesOnce range before := by
  obtain ⟨events, registered, overlaps⟩ := warned.events room
  have disjoint := overlaps_pairwise overlaps
  have named := overlaps_tracks overlaps
  constructor
  · rintro ⟨others, isOthers, apart, covered⟩
    obtain rfl : others = events := List.append_cancel_left (isOthers.symm.trans registered)
    refine ⟨fun byte isByte isTracked => ?_, disjoint.mp apart⟩
    have inRange := mem_bytes.mp isByte
    exact ((named byte).mp ((covered byte).mpr ((pending byte).mpr ⟨inRange, isTracked⟩))).2
  · rintro ⟨reached, apart⟩
    refine ⟨events, registered, disjoint.mpr apart, fun byte => ?_⟩
    rw [named, pending]
    refine and_congr_right (fun inRange => ?_)
    exact ⟨overwrittenRecords_live layout, reached byte (mem_bytes.mpr inRange)⟩

end Warnings

section Runs

variable {opts : Options} (mult : opts.trackMultipleStores = true) (indiff : opts.storeSbIndiff = 0)
  (plain : opts.treeReorganization = false) (transactionsOnly redundantLogging : Bool)
  (cacheLineSize : Nat) (slots : Nat → PmemSt)

include mult indiff plain

/-- After every run whose steps do not go wrong, the warnings of a store are disjoint and name
its pending bytes, if and only if each of these has exactly one record that is named and not
passed over. The tool is there when the store comes, and the register has room after it.

Proof: the tracker follows the byte-level machine up to the store. The store then warns once about
each record that it meets, by the bytes that they share, or by an empty range where the record is
a node of the tree that lies within the store. -/
theorem overwrite_warnings_iff (requests : List ClientRequest)
    (admitted : AllSteps Tool.serve FollowedStep
      (initTool opts transactionsOnly redundantLogging cacheLineSize slots) requests)
    (alive : (requests.foldl Tool.serve
      (initTool opts transactionsOnly redundantLogging cacheLineSize slots)).exited = false)
    (threadId : Nat) (context : Option ExeContext) (addr size value : Nat)
    (allowed : TrackedRequest (requests.foldl Tool.serve (initTool opts transactionsOnly
      redundantLogging cacheLineSize slots)) (.access (.store threadId context addr size value)))
    (room : ((requests.foldl Tool.serve (initTool opts transactionsOnly redundantLogging
      cacheLineSize slots)).serve (.access
        (.store threadId context addr size value))).pmem.multipleStores.length <
          maxMultOverwrites) :
    let tool := requests.foldl Tool.serve
      (initTool opts transactionsOnly redundantLogging cacheLineSize slots)
    let memory := requests.foldl (referenceRespond opts cacheLineSize) Memory.clean
    WarnsOf (fun byte => (PmemSt.range addr size).Covers byte ∧ memory.Unpersisted byte) tool.pmem
        (tool.serve (.access (.store threadId context addr size value))).pmem ↔
      OverwritesOnce (PmemSt.range addr size) tool.pmem := by
  have tracking : PlainTracking opts := ⟨plain, fun _ => indiff⟩
  have start := initTool_follows tracking transactionsOnly redundantLogging cacheLineSize slots
  have follows := start.serve tracking requests admitted alive
  intro tool memory
  have stored : (tool.serve (.access (.store threadId context addr size value))).pmem =
      (tool.pmem.trackStore addr size value context).1 := by
    have access : tool.pmem.isPmemAccess addr size = true := allowed.2
    have served : tool.serve (.access (.store threadId context addr size value)) =
        tool.step (.store threadId context addr size value) := by
      rw [Tool.serve, alive]
      rfl
    rw [served]
    simp only [Tool.step, Tool.tracePmemStore, access, if_true]
  obtain ⟨_, warned⟩ := trackStore_storedBytes follows.steady value context allowed.1
    (fun _ => by rw [follows.opts]; exact indiff)
  apply warnsOf_iff follows.steady.sound.layout _ room
  · intro byte
    rw [follows.bytes]
  · rw [stored]
    exact warned (by rw [follows.opts]; exact mult)

omit mult indiff plain in
/-- A store over the end of one record, all of another, the start of a third in the tree and
some bytes that are not pending. -/
theorem overwrite_warnings_three :
    let opts := { defaultOptions (fun _ => false) with trackMultipleStores := true }
    let start := initTool opts false false 64 (fun _ => PmemSt.zero)
    let requests : List ClientRequest := [.access (.registerMapping 64 1024), storeTo 140 60,
      .access .fence, storeTo 90 20, storeTo 120 8]
    let tool := requests.foldl Tool.serve start
    let memory := requests.foldl (referenceRespond opts 64) Memory.clean
    AllSteps Tool.serve FollowedStep start requests ∧ tool.exited = false ∧
      TrackedRequest tool (storeTo 100 50) ∧
      (tool.serve (storeTo 100 50)).pmem.multipleStores.length < maxMultOverwrites ∧
      OverwritesOnce (PmemSt.range 100 50) tool.pmem ∧
      WarnsOf (fun byte => (PmemSt.range 100 50).Covers byte ∧ memory.Unpersisted byte) tool.pmem
        (tool.serve (storeTo 100 50)).pmem := by
  intro opts start requests tool memory
  have admitted : AllSteps Tool.serve FollowedStep start requests := by decide +kernel
  have alive : tool.exited = false := by decide +kernel
  have allowed : TrackedRequest tool (storeTo 100 50) := by decide +kernel
  have once : OverwritesOnce (PmemSt.range 100 50) tool.pmem := by decide +kernel
  refine ⟨admitted, alive, allowed, by decide +kernel, once, ?_⟩
  exact (overwrite_warnings_iff rfl rfl rfl false false 64 (fun _ => PmemSt.zero) requests admitted
    alive 0 (some ⟨[7]⟩) 100 50 0 allowed (by decide +kernel)).mpr once

omit mult indiff plain in
/-- The second store leaves the back of the first in the tree, outside its bounds. The third
store overwrites ten pending bytes of it without a warning. -/
theorem overwrite_warnings_fails :
    let opts := { defaultOptions (fun _ => false) with trackMultipleStores := true }
    let start := initTool opts false false 64 (fun _ => PmemSt.zero)
    let requests : List ClientRequest := [.access (.registerMapping 64 1024), storeTo 100 100,
      storeTo 120 10]
    let tool := requests.foldl Tool.serve start
    let memory := requests.foldl (referenceRespond opts 64) Memory.clean
    AllSteps Tool.serve (fun tool request => TrackedRequest tool request ∧ NotFull tool) start
        requests ∧ tool.exited = false ∧ TrackedRequest tool (storeTo 150 10) ∧ NotFull tool ∧
      (tool.serve (storeTo 150 10)).pmem.multipleStores.length < maxMultOverwrites ∧
      ¬ WarnsOf (fun byte => (PmemSt.range 150 10).Covers byte ∧ memory.Unpersisted byte) tool.pmem
        (tool.serve (storeTo 150 10)).pmem := by
  intro opts start requests tool memory
  have silent : (tool.serve (storeTo 150 10)).pmem.multipleStores.length =
      tool.pmem.multipleStores.length := by
    decide +kernel
  have pending : (PmemSt.range 150 10).Covers 155 ∧ memory.Unpersisted 155 := by decide +kernel
  refine ⟨by decide +kernel, by decide +kernel, by decide +kernel, by decide +kernel,
    by decide +kernel, ?_⟩
  rintro ⟨events, registered, _, named⟩
  obtain ⟨event, member, _⟩ := (named 155).mpr pending
  have count := congrArg List.length registered
  rw [List.length_append, silent] at count
  have := List.length_pos_of_mem member
  omega

end Runs

end PmDebugger
