import PmDebugger.PrintedRecords
import PmDebugger.StrandOrder

/-!
# Strands and the report at exit

`NEW_STRAND` saves the tracker and gives the client a fresh one; there is no request
that returns to an old strand. The report at exit is made of the current strand alone,
so a store that was pending when its strand ended is never reported. When every strand
ends with nothing pending, the report covers the stores of the whole run.

The byte-level machine is one memory for each strand.
-/

namespace PmDebugger

open OrderedSet OrderedSet.OSet PmemOps Persistency

/-- The memories of the strands: that of the current one, and those of the ones that
ended. -/
structure StrandMemory where
  flushAlignSize : Nat
  current : Memory Nat
  ended : List (Memory Nat)

namespace StrandMemory

/-- A new strand starts with nothing pending, and the memory of the one before is kept among
those that ended. Every other access takes effect in the current strand. -/
def step (opts : Options) (memory : StrandMemory) : PmemRequest → StrandMemory
  | .newStrand cacheLineSize _ => {
      flushAlignSize := cacheLineSize
      current := Memory.clean
      ended := memory.current :: memory.ended }
  | request => { memory with
      current := referenceStep opts memory.flushAlignSize memory.current request }

/-- The byte was stored in some strand and not flushed and fenced in that strand. -/
def Unpersisted (memory : StrandMemory) (byte : Nat) : Prop :=
  ∃ strand ∈ memory.current :: memory.ended, strand.Unpersisted byte

instance (memory : StrandMemory) (byte : Nat) : Decidable (memory.Unpersisted byte) :=
  inferInstanceAs (Decidable (∃ strand ∈ memory.current :: memory.ended, _))

end StrandMemory

/-- An access or a new strand, while the array does not fill up, neither before the request nor
after it. -/
def StrandAdmissible (tool : Tool) (request : PmemRequest) : Prop :=
  NotFull tool ∧ NotFull (tool.step request) ∧ (IsAccess tool request ∨ IsNewStrand request)

instance (tool : Tool) (request : PmemRequest) : Decidable (StrandAdmissible tool request) :=
  inferInstanceAs (Decidable (_ ∧ _ ∧ _))

/-- A strand ends with nothing pending. The report at exit lists the last strand only, so what
an earlier one leaves is never reported. -/
def EndsClean (tool : Tool) : PmemRequest → Prop
  | .newStrand _ _ => tool.pmem.live = []
  | _ => True

instance (tool : Tool) : (request : PmemRequest) → Decidable (EndsClean tool request)
  | .newStrand _ _ => inferInstanceAs (Decidable (tool.pmem.live = []))
  | .store _ _ _ _ _ | .flush _ _ _ | .fence | .registerMapping _ _ | .orderGuarantee _ _ _ _
  | .fenceMark _ | .epochBegin | .epochEnd _ => .isTrue trivial

/-- The plain report goes through every live record. -/
theorem plainListing_covers {pmem : PmemOps} {byte : Nat} (tracked : Tracks pmem.live byte) :
    Tracks pmem.plainListing.1 byte := by
  obtain ⟨slots, same, listed, _⟩ := plainListing_exact pmem
  obtain ⟨store, member, inside⟩ := tracked
  rw [listed, tracks_append]
  rcases mem_live.mp member with ⟨sIndex, bound, slot, inSlot, _, rfl⟩ | inTree
  · left
    refine ⟨slots slot, List.mem_map_of_mem ?_, ?_⟩
    · exact List.mem_flatMap.mpr ⟨sIndex, List.mem_range.mpr (Nat.lt_succ_of_le bound),
        mem_slotRange.mpr inSlot⟩
    · rw [settle_covers] at inside
      unfold PmemSt.Covers at inside ⊢
      rwa [(same slot).1, (same slot).2.1]
  · exact .inr ⟨store, inTree, inside⟩

/-- Where nothing is deleted, the plain report goes through live records only. -/
theorem plainListing_live {pmem : PmemOps} (well : WellFormed pmem) {byte : Nat}
    (tracked : Tracks pmem.plainListing.1 byte) : Tracks pmem.live byte := by
  obtain ⟨slots, same, listed, _⟩ := plainListing_exact pmem
  rw [listed, tracks_append] at tracked
  rcases tracked with ⟨store, member, inside⟩ | ⟨store, member, inside⟩
  · obtain ⟨slot, inUse, rfl⟩ := List.mem_map.mp member
    obtain ⟨sIndex, bound, inSlot⟩ := List.mem_flatMap.mp inUse
    have inSnippet : InSnippet pmem sIndex slot := mem_slotRange.mp inSlot
    have isUsed : sIndex ≤ pmem.snippetInfoIndex := Nat.lt_succ_iff.mp (List.mem_range.mp bound)
    have undeleted := (well.slots sIndex isUsed slot inSnippet).undeleted
    apply Exists.intro (settle (pmem.snippetInfo sIndex).flushedNum (pmem.slots slot))
    constructor
    · exact mem_live.mpr (.inl ⟨sIndex, isUsed, slot, inSnippet, undeleted, rfl⟩)
    · rw [settle_covers]
      unfold PmemSt.Covers at inside ⊢
      rwa [(same slot).1, (same slot).2.1] at inside
  · exact ⟨store, mem_live.mpr (.inr member), inside⟩

/-- Either report of a well-formed tracker goes through its live bytes. -/
theorem statsListing_live {pmem : PmemOps} (well : WellFormed pmem) (byte : Nat) :
    Tracks (statsListing pmem) byte ↔ Tracks pmem.live byte := by
  unfold statsListing
  split
  · exact printStoreStatsDetail_exact well byte
  · exact ⟨plainListing_live well, plainListing_covers⟩

/-- The report at exit lists the live bytes of the current strand, in either form, if the tool
reaches it and nothing stops it. -/
theorem fini_live {tool : Tool} (well : WellFormed tool.pmem) (reports : ReportsAtExit tool)
    (unordered : tool.pmem.pmemOrderRecords.toList = []) (byte : Nat) :
    Tracks tool.fini.2 byte ↔ Tracks tool.pmem.live byte := by
  have listed : tool.fini.2 = statsListing tool.pmem := by
    apply fini_stores well.layout _ _ reports unordered
    · exact fun sIndex used slot inside => (well.slots sIndex used slot inside).proper
    · exact fun store member => (well.stores store member).proper
  rw [listed]
  exact statsListing_live well byte

/-- The report at exit lists the live bytes of the current strand, if no contexts are printed and
the tool reaches it. -/
theorem fini_live_silent {tool : Tool} (well : WellFormed tool.pmem) (alive : tool.exited = false)
    (silent : tool.pmem.opts.printsContexts = false) (byte : Nat) :
    Tracks tool.fini.2 byte ↔ Tracks tool.pmem.live byte := by
  have listed (pmem : PmemOps) (same : SameTracking tool.pmem pmem) :
      Tracks (statsListing pmem) byte ↔ Tracks tool.pmem.live byte := by
    rw [statsListing_live (well.of_same same), same.live_eq]
  rw [fini_silent alive silent]
  split
  · exact listed _ ⟨rfl, rfl, rfl, rfl, rfl, rfl, rfl, rfl⟩
  · exact listed _ ⟨rfl, rfl, rfl, rfl, rfl, rfl, rfl, rfl⟩

/-- The tracker of a new strand is well formed and holds nothing. -/
theorem newStrand_wellFormed {pmem : PmemOps} (well : WellFormed pmem) (cacheLineSize : Nat)
    (slots : Nat → PmemSt) : WellFormed (pmem.newStrand cacheLineSize slots) := by
  refine wellFormed_of_emptied ⟨well.plain, ⟨List.Pairwise.nil, ?_⟩, ?_⟩ ?_ well.single rfl rfl ?_
  all_goals
    intro store member
    exact absurd member List.not_mem_nil

/-- The current strand is tracked, the others ended with nothing pending, and there are no order
requests to check at exit. -/
structure StrandsTracked (opts : Options) (tool : Tool) (memory : StrandMemory) : Prop where
  complete : Complete opts memory.flushAlignSize tool memory.current
  ended : ∀ strand ∈ memory.ended, ∀ byte, ¬ strand.Unpersisted byte
  unordered : tool.pmem.pmemOrderRecords.toList = []

/-- Accesses and new strands request no orders. -/
theorem step_unordered {tool : Tool} {request : PmemRequest}
    (unordered : tool.pmem.pmemOrderRecords.toList = [])
    (allowed : IsAccess tool request ∨ IsNewStrand request) :
    (tool.step request).pmem.pmemOrderRecords.toList = [] := by
  rcases step_orders tool request with kept | ⟨addrA, sizeA, addrB, sizeB, rfl, _⟩
  · rw [kept.orders]
    exact unordered
  · rcases allowed with access | isNew
    · exact absurd access id
    · exact absurd isNew id

/-- One step of the tool and of the memories of the strands. -/
theorem step_strandsTracked {opts : Options} {tool : Tool} {memory : StrandMemory}
    {request : PmemRequest} (tracked : StrandsTracked opts tool memory)
    (admissible : StrandAdmissible tool request) (safe : FlushesSafely tool request)
    (clean : EndsClean tool request) :
    StrandsTracked opts (tool.step request) (memory.step opts request) := by
  obtain ⟨notFull, stillNotFull, allowed⟩ := admissible
  have unordered := step_unordered tracked.unordered allowed
  rcases allowed with access | isNew
  · have admissible : Admissible tool request := ⟨notFull, stillNotFull, access⟩
    have same : memory.step opts request = { memory with
        current := referenceStep opts memory.flushAlignSize memory.current request } := by
      cases request with
      | newStrand cacheLineSize slots => exact absurd access id
      | _ => rfl
    rw [same]
    constructor
    · exact ⟨step_ready admissible tracked.complete.ready, step_missed admissible
        tracked.complete.ready safe tracked.complete.missed⟩
    · exact tracked.ended
    · exact unordered
  · cases request with
    | newStrand cacheLineSize slots =>
      refine ⟨⟨⟨newStrand_wellFormed tracked.complete.ready.wellFormed cacheLineSize slots,
        tracked.complete.ready.opts, rfl⟩, ?_⟩, ?_, unordered⟩
      · exact ⟨by simp [StrandMemory.step, Memory.clean],
          by simp [StrandMemory.step, Memory.clean, Memory.Unpersisted]⟩
      · intro strand member byte unpersisted
        rcases List.mem_cons.mp member with rfl | earlier
        · have covered := tracked.complete.missed.pending byte unpersisted
          rw [show tool.pmem.live = [] from clean] at covered
          exact tracks_nil byte covered
        · exact tracked.ended strand earlier byte unpersisted
    | _ => exact absurd isNew id

/-- The report at exit covers every byte that is pending in some strand, in every run whose strands
end with nothing pending and whose flushes tag no snippet by mistake, if the tool reaches its exit
and the report does not die at a record without a context.

Proof: a tool that is there at the end has not stopped on the way, so that the run is one of plain
steps. Each step keeps the current strand tracked and the ended ones clean. A byte that is pending
belongs to the current strand then, and the listing of the report is printed as a whole. -/
theorem strands_reported {opts : Options} (defaults : DefaultTracking opts)
    (transactionsOnly redundantLogging : Bool) (cacheLineSize : Nat) (slots : Nat → PmemSt)
    (requests : List PmemRequest)
    (admitted : Runs.AllSteps Tool.serveAccess (fun tool request =>
      StrandAdmissible tool request ∧ FlushesSafely tool request ∧ EndsClean tool request)
      (initTool opts transactionsOnly redundantLogging cacheLineSize slots) requests)
    (reports : ReportsAtExit (requests.foldl Tool.serveAccess (initTool opts transactionsOnly
      redundantLogging cacheLineSize slots)))
    (byte : Nat) (unpersisted : (requests.foldl (StrandMemory.step opts)
      ⟨cacheLineSize, Memory.clean, []⟩).Unpersisted byte) :
    Tracks (requests.foldl Tool.serveAccess (initTool opts transactionsOnly redundantLogging
      cacheLineSize slots)).fini.2 byte := by
  rw [Tool.serveAccess_eq] at *
  obtain ⟨sameRun, sameSteps⟩ := Runs.halting_running requests reports.alive
  rw [sameSteps] at admitted
  rw [sameRun] at reports ⊢
  have final : StrandsTracked opts (requests.foldl Tool.step (initTool opts transactionsOnly
      redundantLogging cacheLineSize slots))
      (requests.foldl (StrandMemory.step opts) ⟨cacheLineSize, Memory.clean, []⟩) := by
    refine Runs.simulation ?_ _ _ requests ⟨initTool_complete defaults transactionsOnly
      redundantLogging cacheLineSize slots, by simp, rfl⟩ admitted
    exact fun tool memory request tracked step =>
      step_strandsTracked tracked step.1 step.2.1 step.2.2
  obtain ⟨strand, member, pending⟩ := unpersisted
  rcases List.mem_cons.mp member with rfl | earlier
  · rw [fini_live final.complete.ready.wellFormed reports final.unordered]
    exact final.complete.missed.pending byte pending
  · exact absurd pending (final.ended strand earlier byte)

/-- The first strand persists its store before it ends; the second leaves one dirty. The report
prints contexts. -/
theorem strands_reported_two_strands :
    let opts := { defaultOptions (fun _ => false) with printBugDetail := true }
    let start := initTool opts false false 64 (fun _ => PmemSt.zero)
    let context : Option ExeContext := some ⟨[7]⟩
    let requests : List PmemRequest := [.registerMapping 64 1024, .store 1 context 100 8 0,
      .flush context 100 8, .fence, .newStrand 64 (fun _ => PmemSt.zero), .store 1 context 200 8 0]
    let memory := requests.foldl (StrandMemory.step opts) ⟨64, Memory.clean, []⟩
    let tool := requests.foldl Tool.serveAccess start
    Runs.AllSteps Tool.serveAccess (fun tool request => StrandAdmissible tool request ∧
        FlushesSafely tool request ∧ EndsClean tool request) start requests ∧
      ReportsAtExit tool ∧ memory.Unpersisted 200 ∧
      ∀ byte, memory.Unpersisted byte → Tracks tool.fini.2 byte := by
  intro opts start context requests memory tool
  have admitted : Runs.AllSteps Tool.serveAccess (fun tool request =>
      StrandAdmissible tool request ∧ FlushesSafely tool request ∧ EndsClean tool request) start
      requests := by
    decide +kernel
  have reports : ReportsAtExit tool := by decide +kernel
  refine ⟨admitted, reports, by decide +kernel, ?_⟩
  exact strands_reported ⟨rfl, rfl⟩ false false 64 (fun _ => PmemSt.zero) requests admitted reports

/-- A store that is still dirty when its strand ends is in no report. -/
theorem strands_reported_fails :
    let opts := defaultOptions (fun _ => false)
    let start := initTool opts false false 64 (fun _ => PmemSt.zero)
    let context : Option ExeContext := some ⟨[7]⟩
    let requests : List PmemRequest := [.registerMapping 64 1024, .store 1 context 100 8 0,
      .newStrand 64 (fun _ => PmemSt.zero)]
    let tool := requests.foldl Tool.serveAccess start
    Runs.AllSteps Tool.serveAccess StrandAdmissible start requests ∧ ReportsAtExit tool ∧
      (requests.foldl (StrandMemory.step opts) ⟨64, Memory.clean, []⟩).Unpersisted 100 ∧
      ¬ Tracks tool.fini.2 100 := by
  decide +kernel

end PmDebugger
