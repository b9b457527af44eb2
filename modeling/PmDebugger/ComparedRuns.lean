import PmDebugger.Following
import PmDebugger.Reports

/-!
# Runs under different settings

A tracker that follows the byte-level machine reports its unpersisted bytes. Two trackers
that follow it through the same run therefore report the same bytes, whatever their
settings: with and without `--mult-stores`, and with a store array of any size. They have to come
to their reports, though: a full register ends a run before, and a record without a context ends
a report that prints contexts.

What they do not share are the mistakes of a flush. The part behind a cut goes to the tree
without widening its bounds when an overwrite leaves it there or when the array is full, and
a later flush passes it over under one setting only.
-/

namespace PmDebugger

open OrderedSet OrderedSet.OSet PmemOps Persistency Runs

/-- The report at exit lists the byte. A tool that has exited before reports nothing. -/
def ReportsByte (tool : Tool) (byte : Nat) : Prop := Tracks tool.fini.2 byte

instance (tool : Tool) (byte : Nat) : Decidable (ReportsByte tool byte) :=
  inferInstanceAs (Decidable (Tracks _ _))

/-- Both reports list the live records if all that is hidden is shown as well. -/
theorem reportsByte_iff {tool : Tool} (sound : Sound tool.pmem)
    (agree : ∀ byte, Hidden tool.pmem byte → Shown tool.pmem byte) (reports : ReportsAtExit tool)
    (unordered : tool.pmem.pmemOrderRecords.toList = []) (byte : Nat) :
    ReportsByte tool byte ↔ Tracks tool.pmem.live byte := by
  have listed : tool.fini.2 = statsListing tool.pmem := by
    apply fini_stores sound.layout _ sound.tree.proper reports unordered
    exact fun sIndex used slot inside =>
      sound.slots slot (sound.layout.inUse_iff.mpr ⟨sIndex, used, inside⟩)
  rw [sound.tracks_live, ReportsByte, listed, statsListing]
  split
  · exact printStoreStatsDetail_shown sound byte
  · rw [plainListing_shown sound]
    exact or_iff_left_of_imp (agree byte)

/-- An access that does not go wrong. The tool follows it, and the tracking of bytes is kept by
it. -/
def KeepsAccess (tool : Tool) (request : PmemRequest) : Prop :=
  IsAccess tool request ∧ KeepsTrack tool (.access request)

instance (tool : Tool) (request : PmemRequest) : Decidable (KeepsAccess tool request) :=
  inferInstanceAs (Decidable (_ ∧ _))

/-- A tracker that follows the byte-level machine, shows all that it hides and has no order requests
to check at exit. -/
structure Accounts (opts : Options) (flushAlignSize : Nat) (tool : Tool) (memory : Memory Nat) :
    Prop where
  follows : Follows opts flushAlignSize tool memory
  agree : ∀ byte, Hidden tool.pmem byte → Shown tool.pmem byte
  unordered : tool.pmem.pmemOrderRecords.toList = []

section Steps

variable {opts : Options} {flushAlignSize : Nat} {tool : Tool} {memory : Memory Nat}
  {request : PmemRequest}

/-- What a store hides it covers itself. -/
theorem trackStore_agree {pmem : PmemOps} (steady : Steady pmem) {addr size : Nat} (value : Nat)
    (context : Option ExeContext) (proper : (PmemSt.range addr size).Proper)
    (indiff : pmem.opts.trackMultipleStores = true → pmem.opts.storeSbIndiff = 0)
    (agree : ∀ byte, Hidden pmem byte → Shown pmem byte) (byte : Nat)
    (isHidden : Hidden (pmem.trackStore addr size value context).1 byte) :
    Shown (pmem.trackStore addr size value context).1 byte := by
  obtain ⟨stored, _⟩ := trackStore_storedBytes steady value context proper indiff
  obtain ⟨_, _, _, hidden⟩ := (trackStore_tracked value context proper steady.sound).gap
    (fun _ reorganised => by
      rw [steady.plain] at reorganised
      cases reorganised)
  rw [← stored.steady.sound.tracks_live, stored.bytes]
  cases hidden byte isHidden with
  | inl before => exact .inr ((steady.sound.tracks_live byte).mpr (agree byte before))
  | inr taken =>
    obtain ⟨mult, inside | ⟨_, record, _, same⟩⟩ := taken
    · exact .inl inside
    · simp [isSameWrite, indiff mult] at same

/-- One step of both machines. -/
theorem Accounts.step (accounts : Accounts opts flushAlignSize tool memory)
    (tracking : PlainTracking opts) (keeps : KeepsAccess tool request) :
    Accounts opts flushAlignSize (tool.step request)
      (referenceStep opts flushAlignSize memory request) := by
  obtain ⟨access, keepsTrack⟩ := keeps
  have follows : Follows opts flushAlignSize (tool.respond (.access request))
      (referenceRespond opts flushAlignSize memory (.access request)) :=
    accounts.follows.respond tracking access keepsTrack
  refine ⟨follows, ?_, step_unordered accounts.unordered (.inl access)⟩
  have steady := accounts.follows.steady
  intro byte isHidden
  cases request with
  | store threadId context addr size value =>
    have result : (tool.step (.store threadId context addr size value)).pmem =
        (tool.pmem.trackStore addr size value context).1 := by
      simp only [Tool.step, Tool.tracePmemStore, access.2, if_true]
    rw [result] at isHidden ⊢
    apply trackStore_agree steady value context access.1 _ accounts.agree byte isHidden
    rw [accounts.follows.opts]
    exact tracking.indiff
  | flush context base size =>
    have kept := doFlush_kept context tool.strandId access steady.sound
    have before := (kept.hidden byte isHidden).resolve_right id
    exact (kept.shown byte (accounts.agree byte before)).resolve_right id
  | fence =>
    obtain ⟨slot, inUse, _⟩ := isHidden
    rw [show (tool.step .fence).pmem.current.index = 0 from doFence_empty tool.pmem] at inUse
    exact absurd inUse (Nat.not_lt_zero slot)
  | registerMapping base size => exact accounts.agree byte isHidden
  | orderGuarantee | fenceMark | epochBegin | epochEnd | newStrand => exact absurd access id

end Steps

section Runs

variable {opts : Options} (transactionsOnly redundantLogging : Bool) (cacheLineSize : Nat)
  (slots : Nat → PmemSt)

/-- Through every run whose steps do not go wrong, the report at exit lists the unpersisted
bytes of the byte-level machine, if the tool reaches it and nothing stops it.

Proof: a tool that is there at exit has taken every step, so that it has followed the byte-level
machine to the end, and its report lists the bytes of the live records. -/
theorem run_reports (tracking : PlainTracking opts) (requests : List PmemRequest)
    (admitted : AllSteps Tool.serveAccess KeepsAccess
      (initTool opts transactionsOnly redundantLogging cacheLineSize slots) requests)
    (reports : ReportsAtExit (requests.foldl Tool.serveAccess
      (initTool opts transactionsOnly redundantLogging cacheLineSize slots))) (byte : Nat) :
    ReportsByte (requests.foldl Tool.serveAccess
        (initTool opts transactionsOnly redundantLogging cacheLineSize slots)) byte ↔
      (requests.foldl (referenceStep opts cacheLineSize) Memory.clean).Unpersisted byte := by
  rw [Tool.serveAccess_eq] at *
  obtain ⟨sameRun, sameSteps⟩ := halting_running requests reports.alive
  rw [sameSteps] at admitted
  rw [sameRun] at reports ⊢
  have initial : Accounts opts cacheLineSize
      (initTool opts transactionsOnly redundantLogging cacheLineSize slots) Memory.clean := by
    refine ⟨initTool_follows tracking transactionsOnly redundantLogging cacheLineSize slots,
      ?_, rfl⟩
    rintro byte ⟨slot, inUse, _⟩
    exact absurd inUse (Nat.not_lt_zero slot)
  have final := simulation (fun _ _ _ accounts keeps => accounts.step tracking keeps) _ _ requests
    initial admitted
  rw [reportsByte_iff final.follows.steady.sound final.agree reports final.unordered,
    final.follows.bytes]

/-- The byte-level machine knows how flushes are rounded and no other option. -/
theorem referenceStep_congr {other : Options}
    (same : other.forceFlushAlign = opts.forceFlushAlign) :
    referenceStep other cacheLineSize = referenceStep opts cacheLineSize := by
  funext memory request
  cases request with
  | flush context base size =>
    unfold referenceStep flushInfo
    rw [same]
  | _ => rfl

/-- Two runs of the same requests report the same bytes, if neither goes wrong and both come to
their reports. -/
theorem runs_report_alike {other : Options} (tracking : PlainTracking opts)
    (tracking' : PlainTracking other) (same : other.forceFlushAlign = opts.forceFlushAlign)
    (requests : List PmemRequest)
    (admitted : AllSteps Tool.serveAccess KeepsAccess
      (initTool opts transactionsOnly redundantLogging cacheLineSize slots) requests)
    (admitted' : AllSteps Tool.serveAccess KeepsAccess
      (initTool other transactionsOnly redundantLogging cacheLineSize slots) requests)
    (reports : ReportsAtExit (requests.foldl Tool.serveAccess
      (initTool opts transactionsOnly redundantLogging cacheLineSize slots)))
    (reports' : ReportsAtExit (requests.foldl Tool.serveAccess
      (initTool other transactionsOnly redundantLogging cacheLineSize slots))) (byte : Nat) :
    ReportsByte (requests.foldl Tool.serveAccess
        (initTool opts transactionsOnly redundantLogging cacheLineSize slots)) byte ↔
      ReportsByte (requests.foldl Tool.serveAccess
        (initTool other transactionsOnly redundantLogging cacheLineSize slots)) byte := by
  rw [run_reports transactionsOnly redundantLogging cacheLineSize slots tracking requests admitted
      reports,
    run_reports transactionsOnly redundantLogging cacheLineSize slots tracking' requests admitted'
      reports',
    referenceStep_congr cacheLineSize same]

/-- Overwrite tracking does not change the reported bytes of a run that goes wrong neither with
it nor without it, if both runs come to their reports. With overwrite tracking a run ends early
when the register of overwrites is full, and either report may die at a record without a
context.

Proof: both runs are compared with the same byte-level machine. Each of them reports what is
unpersisted there. -/
theorem overwrite_tracking_unseen (plain : opts.treeReorganization = false)
    (indiff : opts.storeSbIndiff = 0) (requests : List PmemRequest)
    (tracking : AllSteps Tool.serveAccess KeepsAccess (initTool
      { opts with trackMultipleStores := true } transactionsOnly redundantLogging cacheLineSize
      slots) requests)
    (single : AllSteps Tool.serveAccess KeepsAccess (initTool
      { opts with trackMultipleStores := false } transactionsOnly redundantLogging cacheLineSize
      slots) requests)
    (reports : ReportsAtExit (requests.foldl Tool.serveAccess (initTool
      { opts with trackMultipleStores := true } transactionsOnly redundantLogging cacheLineSize
      slots)))
    (reports' : ReportsAtExit (requests.foldl Tool.serveAccess (initTool
      { opts with trackMultipleStores := false } transactionsOnly redundantLogging cacheLineSize
      slots))) (byte : Nat) :
    ReportsByte (requests.foldl Tool.serveAccess (initTool
        { opts with trackMultipleStores := true } transactionsOnly redundantLogging cacheLineSize
        slots)) byte ↔
      ReportsByte (requests.foldl Tool.serveAccess (initTool
        { opts with trackMultipleStores := false } transactionsOnly redundantLogging cacheLineSize
        slots)) byte := by
  have plainTracking (mult : Bool) : PlainTracking { opts with trackMultipleStores := mult } :=
    ⟨plain, fun _ => indiff⟩
  exact runs_report_alike transactionsOnly redundantLogging cacheLineSize slots (plainTracking true)
    (plainTracking false) rfl requests tracking single reports reports' byte

/-- The end of a store is overwritten before both are flushed. -/
theorem overwrite_tracking_unseen_at_end :
    let opts := { defaultOptions (fun _ => false) with printBugDetail := true }
    let start (mult : Bool) :=
      initTool { opts with trackMultipleStores := mult } false false 64 (fun _ => PmemSt.zero)
    let context : Option ExeContext := some ⟨[7]⟩
    let requests : List PmemRequest := [.registerMapping 64 1024, .store 0 context 100 100 0,
      .store 0 context 180 20 0, .flush context 100 100, .store 0 context 300 8 0, .fence]
    let ended (mult : Bool) := requests.foldl Tool.serveAccess (start mult)
    AllSteps Tool.serveAccess KeepsAccess (start true) requests ∧
      AllSteps Tool.serveAccess KeepsAccess (start false) requests ∧
      ReportsAtExit (ended true) ∧ ReportsAtExit (ended false) ∧ ReportsByte (ended true) 300 ∧
      (ReportsByte (ended true) 150 ↔ ReportsByte (ended false) 150) := by
  intro opts start context requests ended
  have tracking : AllSteps Tool.serveAccess KeepsAccess (start true) requests := by decide +kernel
  have single : AllSteps Tool.serveAccess KeepsAccess (start false) requests := by decide +kernel
  have reports : ReportsAtExit (ended true) := by decide +kernel
  have reports' : ReportsAtExit (ended false) := by decide +kernel
  refine ⟨tracking, single, reports, reports', by decide +kernel, ?_⟩
  exact overwrite_tracking_unseen false false 64 (fun _ => PmemSt.zero) rfl rfl requests tracking
    single reports reports' 150

/-- The part behind the second store goes to the tree outside its bounds. The flush passes it
over, and it is still reported after the fence. -/
theorem overwrite_tracking_unseen_fails :
    let opts := defaultOptions (fun _ => false)
    let start (mult : Bool) :=
      initTool { opts with trackMultipleStores := mult } false false 64 (fun _ => PmemSt.zero)
    let context : Option ExeContext := some ⟨[7]⟩
    let requests : List PmemRequest := [.registerMapping 64 1024, .store 0 context 100 100 0,
      .store 0 context 120 10 0, .flush context 100 100, .fence]
    let ended (mult : Bool) := requests.foldl Tool.serveAccess (start mult)
    AllSteps Tool.serveAccess Admissible (start true) requests ∧
      AllSteps Tool.serveAccess Admissible (start false) requests ∧
      ReportsAtExit (ended true) ∧ ReportsAtExit (ended false) ∧
      ReportsByte (ended true) 150 ∧ ¬ ReportsByte (ended false) 150 := by
  decide +kernel

/-- The size of the store array does not change the reported bytes of a run that goes wrong
with neither size, if both runs come to their reports.

Proof: both runs are compared with the same byte-level machine, which has no array. Each of
them reports what is unpersisted there. -/
theorem capacity_unseen (defaults : DefaultTracking opts) (requests : List PmemRequest)
    (capacity capacity' : Nat)
    (admitted : AllSteps Tool.serveAccess KeepsAccess (initTool
      { opts with maxArrayNum := capacity } transactionsOnly redundantLogging cacheLineSize slots)
      requests)
    (admitted' : AllSteps Tool.serveAccess KeepsAccess (initTool
      { opts with maxArrayNum := capacity' } transactionsOnly redundantLogging cacheLineSize slots)
      requests)
    (reports : ReportsAtExit (requests.foldl Tool.serveAccess (initTool
      { opts with maxArrayNum := capacity } transactionsOnly redundantLogging cacheLineSize slots)))
    (reports' : ReportsAtExit (requests.foldl Tool.serveAccess (initTool
      { opts with maxArrayNum := capacity' } transactionsOnly redundantLogging cacheLineSize
      slots))) (byte : Nat) :
    ReportsByte (requests.foldl Tool.serveAccess (initTool { opts with maxArrayNum := capacity }
        transactionsOnly redundantLogging cacheLineSize slots)) byte ↔
      ReportsByte (requests.foldl Tool.serveAccess (initTool { opts with maxArrayNum := capacity' }
        transactionsOnly redundantLogging cacheLineSize slots)) byte := by
  have tracking (number : Nat) : PlainTracking { opts with maxArrayNum := number } := by
    refine ⟨defaults.plain, fun mult => ?_⟩
    have single : opts.trackMultipleStores = true := mult
    rw [defaults.single] at single
    cases single
  exact runs_report_alike transactionsOnly redundantLogging cacheLineSize slots (tracking capacity)
    (tracking capacity') rfl requests admitted admitted' reports reports' byte

/-- The access leaves the current snippet within its table, which is as long as the array. -/
def StaysInTable (tool : Tool) (request : PmemRequest) : Prop :=
  (tool.step request).pmem.snippetInfoIndex < tool.pmem.opts.maxArrayNum

instance (tool : Tool) (request : PmemRequest) : Decidable (StaysInTable tool request) :=
  inferInstanceAs (Decidable (_ < _))

/-- The third store and what the flush cuts off it go to the tree when there are two slots only. -/
theorem capacity_unseen_two_slots :
    let opts := defaultOptions (fun _ => false)
    let start (capacity : Nat) :=
      initTool { opts with maxArrayNum := capacity } false false 64 (fun _ => PmemSt.zero)
    let context : Option ExeContext := some ⟨[7]⟩
    let requests : List PmemRequest := [.registerMapping 64 1024, .store 0 context 100 8 0,
      .store 0 context 300 8 0, .store 0 context 200 100 0, .flush context 250 50, .fence]
    let ended (capacity : Nat) := requests.foldl Tool.serveAccess (start capacity)
    AllSteps Tool.serveAccess StaysInTable (start 2) requests ∧
      AllSteps Tool.serveAccess KeepsAccess (start 2) requests ∧
      AllSteps Tool.serveAccess KeepsAccess (start 100) requests ∧
      ReportsAtExit (ended 2) ∧ ReportsAtExit (ended 100) ∧ ReportsByte (ended 2) 200 ∧
      (ReportsByte (ended 2) 250 ↔ ReportsByte (ended 100) 250) := by
  intro opts start context requests ended
  have admitted : AllSteps Tool.serveAccess KeepsAccess (start 2) requests := by decide +kernel
  have admitted' : AllSteps Tool.serveAccess KeepsAccess (start 100) requests := by decide +kernel
  have reports : ReportsAtExit (ended 2) := by decide +kernel
  have reports' : ReportsAtExit (ended 100) := by decide +kernel
  refine ⟨by decide +kernel, admitted, admitted', reports, reports', by decide +kernel, ?_⟩
  exact capacity_unseen false false 64 (fun _ => PmemSt.zero) ⟨rfl, rfl⟩ requests 2 100 admitted
    admitted' reports reports' 250

/-- With two slots the pieces that the first flush cuts off go to the tree outside its bounds, and
the second flush passes them over. The table of snippets is long enough with either size. -/
theorem capacity_unseen_fails :
    let opts := defaultOptions (fun _ => false)
    let start (capacity : Nat) :=
      initTool { opts with maxArrayNum := capacity } false false 64 (fun _ => PmemSt.zero)
    let context : Option ExeContext := some ⟨[7]⟩
    let requests : List PmemRequest := [.registerMapping 64 1024, .store 0 context 100 100 0,
      .store 0 context 300 8 0, .flush context 120 10, .flush context 100 100, .fence]
    let ended (capacity : Nat) := requests.foldl Tool.serveAccess (start capacity)
    AllSteps Tool.serveAccess (fun tool request => IsAccess tool request ∧
        StaysInTable tool request) (start 2) requests ∧
      AllSteps Tool.serveAccess (fun tool request => IsAccess tool request ∧
        StaysInTable tool request) (start 100) requests ∧
      ReportsAtExit (ended 2) ∧ ReportsAtExit (ended 100) ∧
      ReportsByte (ended 2) 150 ∧ ¬ ReportsByte (ended 100) 150 := by
  decide +kernel

end Runs

end PmDebugger
