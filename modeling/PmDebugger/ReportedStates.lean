import PmDebugger.ReportedRecords
import PmDebugger.WholeFlushes

/-!
# The states in the detailed report

Every record that enters the detailed report displaces what the report held on its bytes,
and an entry only grows by neighbours of its own state. So the report gives each byte the
state of the last record that covers it, where the records of the array come first and
those of the tree after them.

The last record of a byte need not be that of its last store. A store to bytes that the
tree holds as flushed is dirty, but the report enters the old record after it.
-/

namespace PmDebugger

open OrderedSet OrderedSet.OSet PmemOps Persistency Runs

/-- An entry with this state covers the byte. A byte may be marked with two states by two
entries of one listing. -/
def MarksAs (entries : List PmemSt) (byte : Nat) (state : StoreState) : Prop :=
  ∃ entry ∈ entries, entry.Covers byte ∧ entry.state = state

section Marks

variable {first second : List PmemSt} {store : PmemSt} {byte : Nat} {state : StoreState}

/-- A byte is marked by the first record or by the rest. -/
theorem marksAs_cons : MarksAs (store :: first) byte state ↔
    store.Covers byte ∧ store.state = state ∨ MarksAs first byte state := by
  simp only [MarksAs, List.mem_cons, exists_eq_or_imp]

/-- A byte is marked by one list or the other. -/
theorem marksAs_append : MarksAs (first ++ second) byte state ↔
    MarksAs first byte state ∨ MarksAs second byte state := by
  simp only [MarksAs, List.mem_append, or_and_right, exists_or]

/-- If records are in order, a byte whose last record is flushed has only flushed records.

Proof: by induction on the list. Where the last record lies in the rest, the order says that the
first record is flushed as well, if it covers the byte; otherwise the first record is the only
one. -/
theorem flushed_of_last {records : List PmemSt} {last : PmemSt}
    (inOrder : records.Pairwise InOrder) (isLast : lastRecord byte records = some last)
    (isFlushed : last.state = .flushed) :
    ∀ store ∈ records, store.Covers byte → store.state = .flushed := by
  induction records with
  | nil => simp
  | cons store rest inductionHypothesis =>
    obtain ⟨before, later⟩ := List.pairwise_cons.mp inOrder
    simp only [lastRecord, Option.or_eq_some_iff] at isLast
    intro other isOther covers
    cases isLast with
    | inl isLater =>
      obtain ⟨member, covered⟩ := lastRecord_member isLater
      cases List.mem_cons.mp isOther with
      | inl same =>
        rw [same] at covers ⊢
        exact before last member byte covers covered isFlushed
      | inr isRest => exact inductionHypothesis later isLater other isRest covers
    | inr here =>
      have uncovered := lastRecord_none_iff.mp here.1
      cases List.mem_cons.mp isOther with
      | inl same =>
        rw [same] at covers ⊢
        rw [if_pos covers] at here
        rw [Option.some.inj here.2]
        exact isFlushed
      | inr isRest => exact absurd ⟨other, isRest, covers⟩ uncovered

end Marks

/-- A state is inherited by parts and shared by what is merged. -/
theorem inherited_state (isIpMemsetMemcpy : Nat → Bool) (state : StoreState) :
    Inherited isIpMemsetMemcpy (fun entry => entry.state = state) where
  parts := by
    intro part old same
    simp only [same.state]
  merged := by
    intro region old mergeable
    simp only [isStoreMergeable, Bool.and_eq_true, decide_eq_true_eq] at mergeable
    simp only [mergeable.1]

/-- The entries give every byte the state of the last record that covers it. -/
theorem MarksLast.marks {isIpMemsetMemcpy : Nat → Bool} {records entries : List PmemSt}
    (last : MarksLast isIpMemsetMemcpy records entries) (byte : Nat) (state : StoreState) :
    MarksAs entries byte state ↔ ∃ record ∈ lastRecord byte records, record.state = state :=
  last.shows _ (inherited_state isIpMemsetMemcpy state) byte

/-- A dirty record of the array meets a flushed record of the tree. The report enters the
record of the tree after that of the array, and so calls the shared bytes flushed. -/
def HidesDirty (pmem : PmemOps) : Prop :=
  ∃ first ∈ pmem.liveSlots, first.state ≠ .flushed ∧
    ∃ second ∈ pmem.pmemStores.toList, second.state = .flushed ∧ cmpPmemSt first second = .eq

instance (pmem : PmemOps) : Decidable (HidesDirty pmem) :=
  inferInstanceAs (Decidable (∃ first ∈ pmem.liveSlots, _))

/-- The state that the report owes an unpersisted byte: dirty if no flush followed its last
store, and flushed otherwise. -/
def owedState (memory : Memory Nat) (byte : Nat) : StoreState :=
  if memory byte = .dirty then .dirty else .flushed

/-- Every unpersisted byte has an entry in the detailed report, with the state of its last
store. -/
def ReportsStates (pmem : PmemOps) (memory : Memory Nat) : Prop :=
  ∀ byte, memory.Unpersisted byte → Tracks (reported pmem.printStoreStatsDetail) byte ∧
    ∀ entry ∈ reported pmem.printStoreStatsDetail, entry.Covers byte →
      entry.state = owedState memory byte

section Order

variable {pmem : PmemOps} {memory : Memory Nat}

/-- A slot has one live record at most. -/
theorem mem_slotLive {tag : FlushedState} {store held : PmemSt}
    (member : store ∈ slotLive tag held) : store = settle tag held := by
  unfold slotLive at member
  split at member
  · exact absurd member List.not_mem_nil
  · exact List.mem_singleton.mp member

/-- The live records of the array are in order. -/
theorem Aged.liveSlots_inOrder (aged : Aged pmem) (layout : Layout pmem) :
    pmem.liveSlots.Pairwise InOrder := by
  have pair {sIndex later slot slot' : Nat} {first second : PmemSt}
      (used : sIndex ≤ pmem.snippetInfoIndex) (used' : later ≤ pmem.snippetInfoIndex)
      (inside : InSnippet pmem sIndex slot) (inside' : InSnippet pmem later slot')
      (member : first ∈ slotLive (pmem.snippetInfo sIndex).flushedNum (pmem.slots slot))
      (member' : second ∈ slotLive (pmem.snippetInfo later).flushedNum (pmem.slots slot'))
      (less : slot ≤ slot') : InOrder first second := by
    rw [mem_slotLive member, mem_slotLive member']
    exact aged.slots sIndex used slot inside later used' slot' inside' less
  refine List.pairwise_flatMap.mpr ⟨fun sIndex isIndex => ?_, ?_⟩
  · have used := Nat.le_of_lt_succ (List.mem_range.mp isIndex)
    refine List.pairwise_flatMap.mpr ⟨fun slot isSlot => ?_, ?_⟩
    · unfold slotLive
      split
      · exact List.Pairwise.nil
      · exact List.pairwise_singleton _ _
    · refine List.Pairwise.imp_of_mem ?_ List.pairwise_lt_range'
      intro slot slot' isSlot isSlot' less first member second member'
      exact pair used used (mem_slotRange.mp isSlot) (mem_slotRange.mp isSlot') member member'
        (Nat.le_of_lt less)
  · refine List.Pairwise.imp_of_mem ?_ List.pairwise_lt_range
    intro sIndex later isIndex isLater less first member second member'
    have used := Nat.le_of_lt_succ (List.mem_range.mp isIndex)
    have used' := Nat.le_of_lt_succ (List.mem_range.mp isLater)
    obtain ⟨slot, isSlot, inSlot⟩ := List.mem_flatMap.mp member
    obtain ⟨slot', isSlot', inSlot'⟩ := List.mem_flatMap.mp member'
    have inside := mem_slotRange.mp isSlot
    have inside' := mem_slotRange.mp isSlot'
    refine pair used used' inside inside' inSlot inSlot' ?_
    have ends := layout.apart less used'
    have := inside.2
    have := inside'.1
    omega

/-- All live records are in order when no dirty one is hidden. -/
theorem Aged.live_inOrder (aged : Aged pmem) (well : WellFormed pmem) (shown : ¬ HidesDirty pmem) :
    pmem.live.Pairwise InOrder := by
  refine List.pairwise_append.mpr ⟨aged.liveSlots_inOrder well.layout, ?_, ?_⟩
  · exact List.pairwise_of_forall_mem_list aged.stores
  · intro first member second member' byte inFirst inSecond isFlushed
    have proper := (well.live_pending (List.mem_append_left _ member)).proper
    by_contra dirty
    refine shown ⟨first, member, dirty, second, member', isFlushed, ?_⟩
    exact (cmpPmemSt_eq_iff_shared proper (well.stores second member').proper).mpr
      ⟨byte, inFirst, inSecond⟩

/-- The report in terms of the last live records. -/
theorem reportsStates_iff (well : WellFormed pmem) : ReportsStates pmem memory ↔
    ∀ byte, memory.Unpersisted byte →
      ∃ record ∈ lastRecord byte pmem.live, record.state = owedState memory byte := by
  have last := printStoreStatsDetail_last well.layout
    (fun sIndex used slot inside => (well.slots sIndex used slot inside).proper)
    (fun store member => (well.stores store member).proper)
  refine forall_congr' (fun byte => forall_congr' (fun _ => ?_))
  rw [← last.marks]
  constructor
  · rintro ⟨⟨entry, member, covered⟩, states⟩
    exact ⟨entry, member, covered, states entry member covered⟩
  · rintro ⟨entry, member, covered, isOwed⟩
    refine ⟨⟨entry, member, covered⟩, fun other isOther inside => ?_⟩
    rw [last.ranges.eq_of_shared isOther member inside covered]
    exact isOwed

end Order

section Runs

variable {opts : Options} {flushAlignSize : Nat} {tool : Tool} {memory : Memory Nat}

/-- If nothing is hidden, the last record of a byte is that of its last store. -/
theorem WholeExact.reports (exact : WholeExact opts flushAlignSize tool memory)
    (shown : ¬ HidesDirty tool.pmem) : ReportsStates tool.pmem memory := by
  have well := exact.ready.wellFormed
  rw [reportsStates_iff well]
  intro byte unpersisted
  have inOrder := exact.aged.live_inOrder well shown
  cases last : lastRecord byte tool.pmem.live with
  | none => exact absurd (exact.missed.pending byte unpersisted) (lastRecord_none_iff.mp last)
  | some store =>
    obtain ⟨member, covered⟩ := lastRecord_member last
    refine ⟨store, rfl, ?_⟩
    unfold owedState
    cases isState : store.state with
    | clean => exact absurd isState (well.live_pending member).written
    | dirty =>
      rw [if_pos (exact.invented.dirty store member (by simp [isState]) byte covered)]
    | flushed =>
      rw [if_neg]
      intro isDirty
      obtain ⟨other, isOther, dirty, inside⟩ := exact.missed.dirty byte isDirty
      exact dirty (flushed_of_last inOrder last isState other isOther inside)

/-- A hidden dirty record has a byte that the report shows as flushed. -/
theorem WholeExact.shown (exact : WholeExact opts flushAlignSize tool memory)
    (reports : ReportsStates tool.pmem memory) : ¬ HidesDirty tool.pmem := by
  have well := exact.ready.wellFormed
  rw [reportsStates_iff well] at reports
  rintro ⟨first, member, dirty, second, member', isFlushed, meets⟩
  have isLive : first ∈ tool.pmem.live := List.mem_append_left _ member
  obtain ⟨byte, inFirst, inSecond⟩ := (cmpPmemSt_eq_iff_shared (well.live_pending isLive).proper
    (well.stores second member').proper).mp meets
  have isDirty := exact.invented.dirty first isLive dirty byte inFirst
  obtain ⟨record, isLast, owed⟩ := reports byte (by simp [Memory.Unpersisted, isDirty])
  rw [owedState, if_pos isDirty] at owed
  rw [live, lastRecord_append] at isLast
  cases last : lastRecord byte tool.pmem.pmemStores.toList with
  | none => exact lastRecord_none_iff.mp last ⟨second, member', inSecond⟩
  | some store =>
    obtain ⟨isStore, covered⟩ := lastRecord_member last
    have flushed := exact.aged.stores store isStore second member' byte covered inSecond isFlushed
    rw [last, Option.some_or] at isLast
    cases isLast
    rw [flushed] at owed
    cases owed

variable (defaults : DefaultTracking opts) (transactionsOnly redundantLogging : Bool)
  (cacheLineSize : Nat) (slots : Nat → PmemSt)

include defaults

/-- After every run whose flushes take records whole, the report gives each unpersisted byte
the state of its last store if and only if no dirty record of the array meets a flushed one of
the tree.

Proof: along such a run the array and the tree are each exact, and the array holds what was
stored last. The report enters the array before the tree, so that a record of the tree is the
one shown where both have the byte. This gives the wrong state exactly where the array is dirty
and the tree flushed. -/
theorem reported_states_iff (requests : List PmemRequest)
    (admitted : AllSteps Tool.step
      (fun tool request => Admissible tool request ∧ FlushesWhole tool request)
      (initTool opts transactionsOnly redundantLogging cacheLineSize slots) requests) :
    ReportsStates (requests.foldl Tool.step
        (initTool opts transactionsOnly redundantLogging cacheLineSize slots)).pmem
        (requests.foldl (referenceStep opts cacheLineSize) Memory.clean) ↔
      ¬ HidesDirty (requests.foldl Tool.step
        (initTool opts transactionsOnly redundantLogging cacheLineSize slots)).pmem := by
  have exact := run_wholeExact defaults transactionsOnly redundantLogging cacheLineSize slots
      requests admitted
  exact ⟨exact.shown, exact.reports⟩

omit defaults in
/-- A record of the tree is flushed; another one is stored to again before a flush, and its
bytes are dirty in both places. -/
theorem reported_states_apart :
    let opts := { defaultOptions (fun _ => false) with printBugDetail := true }
    let start := initTool opts false false 64 (fun _ => PmemSt.zero)
    let requests : List PmemRequest := [.registerMapping 64 1024, .store 0 none 100 8 0,
      .store 0 none 200 8 0, .fence, .flush none 100 8, .store 0 none 200 4 0,
        .store 0 none 300 8 0,
      .flush none 300 8]
    let tool := requests.foldl Tool.step start
    let memory := requests.foldl (referenceStep opts 64) Memory.clean
    AllSteps Tool.step (fun tool request => Admissible tool request ∧
      FlushesWhole tool request) start requests ∧ ¬ HidesDirty tool.pmem ∧
      (memory 100 = .flushed ∧ memory 200 = .dirty ∧ memory 300 = .flushed) ∧
      ReportsStates tool.pmem memory := by
  intro opts start requests tool memory
  have admitted : AllSteps Tool.step
      (fun tool request => Admissible tool request ∧ FlushesWhole tool request) start requests := by
    decide +kernel
  have shown : ¬ HidesDirty tool.pmem := by decide +kernel
  refine ⟨admitted, shown, by decide +kernel, ?_⟩
  exact (reported_states_iff ⟨rfl, rfl⟩ false false 64 _ requests admitted).mpr shown

omit defaults in
/-- A store that a fence moved to the tree is flushed, and its bytes are stored to again. They
are dirty, but the report enters the old record last. -/
theorem reported_states_fails :
    let opts := { defaultOptions (fun _ => false) with printBugDetail := true }
    let start := initTool opts false false 64 (fun _ => PmemSt.zero)
    let requests : List PmemRequest := [.registerMapping 64 1024, .store 0 none 100 8 0, .fence,
      .flush none 100 8, .store 0 none 100 8 0]
    let tool := requests.foldl Tool.step start
    let memory := requests.foldl (referenceStep opts 64) Memory.clean
    AllSteps Tool.step (fun tool request => Admissible tool request ∧
      FlushesWhole tool request) start
        requests ∧ memory 104 = .dirty ∧ ¬ ReportsStates tool.pmem memory := by
  intro opts start requests tool memory
  have isDirty : memory 104 = .dirty := by decide +kernel
  have entered : ∃ entry ∈ reported tool.pmem.printStoreStatsDetail,
      entry.Covers 104 ∧ entry.state = .flushed := by
    decide +kernel
  refine ⟨by decide +kernel, isDirty, fun reports => ?_⟩
  obtain ⟨entry, member, covered, isFlushed⟩ := entered
  have owed := (reports 104 (by simp [Memory.Unpersisted, isDirty])).2 entry member covered
  rw [owedState, if_pos isDirty, isFlushed] at owed
  simp at owed

end Runs

end PmDebugger
