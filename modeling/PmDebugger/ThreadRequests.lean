import PmDebugger.Client
import PmDebugger.ThreadMembership

/-!
# Requests of threads to join and leave transactions

A thread can ask to take part in a transaction that another thread started, and to
leave it again. The dispatch sends both requests to `remove_obj_from_tx` with an empty
range, which changes neither the entry of the thread nor a tracked byte. The two
functions of `pmc_tx.c` that do the work are never called.

The ledger says who takes part by the requests made. The code agrees with it exactly
as long as the thread requests ask for what is the case already, and no start reopens
an id that the entry of another thread still holds.
-/

namespace PmDebugger

open OrderedSet OrderedSet.OSet TransactionOps

/-! ## The empty range -/

/-- A walk that meets no element of the region changes nothing. -/
theorem removeRegionLoop_misses (cmp : PmemSt → PmemSt → Ordering) (region : PmemSt) (fuel : Nat)
    (set : OSet PmemSt) (dbIndex : Nat)
    (misses : ∀ entry ∈ set.toList, cmpPmemSt entry region ≠ .eq) :
    (removeRegionLoop cmp region fuel set dbIndex).1.toList = set.toList := by
  induction fuel generalizing set with
  | zero => rfl
  | succ fuel inductionHypothesis =>
    simp only [removeRegionLoop]
    cases advanced : set.next with
    | none => rfl
    | some result =>
      obtain ⟨position, entry, walked⟩ := result
      have step : entry ∈ set.toList ∧ walked.toList = set.toList := by
        simp only [OSet.next] at advanced
        split at advanced
        · cases advanced
        · split at advanced
          · cases advanced
          · next found =>
            simp only [Option.some.injEq, Prod.mk.injEq] at advanced
            obtain ⟨_, rfl, rfl⟩ := advanced
            exact ⟨List.mem_of_getElem? found, rfl⟩
      simp only [if_pos (misses entry step.1)]
      rw [inductionHypothesis walked (by rw [step.2]; exact misses), step.2]

/-- Removing the empty range at zero changes no tracked byte. -/
theorem uncacheRegion_empty {tx : TxInfo} (sound : tx.Sound) (dbIndex : Nat) :
    (uncacheRegion (PmemSt.range 0 0) tx dbIndex).1.Sound ∧
      (uncacheRegion (PmemSt.range 0 0) tx dbIndex).1.txId = tx.txId ∧
      (uncacheRegion (PmemSt.range 0 0) tx dbIndex).1.counter = tx.counter ∧
      ∀ byte, (uncacheRegion (PmemSt.range 0 0) tx dbIndex).1.Tracked byte ↔ tx.Tracked byte := by
  have noEnd : (PmemSt.range 0 0).maxAddr = 0 := rfl
  simp only [uncacheRegion]
  split
  · next cached =>
    have empty : 0 = tx.cachedRegion.addr ∧ 0 = tx.cachedRegion.size := of_decide_eq_true cached
    refine ⟨⟨sound.regions, .inl ⟨rfl, rfl⟩⟩, rfl, rfl, fun byte => ?_⟩
    simp only [TxInfo.Tracked, PmemSt.Covers, ← empty.1, ← empty.2]
  · have below : cmpPmemSt (PmemSt.range 0 0) tx.cachedRegion ≠ .eq := by
      simp [cmpPmemSt, noEnd]
    have misses : ∀ entry ∈ tx.regions.toList, cmpPmemSt entry (PmemSt.range 0 0) ≠ .eq := by
      intro entry member
      have inner := sound.regions.inner entry member
      have behind : cmpPmemSt entry (PmemSt.range 0 0) = .gt := by
        have positive := inner.positive
        have nonempty := inner.nonempty
        simp only [cmpPmemSt, noEnd, PmemSt.range_addr, inner.proper.nonWrapping.maxAddr_eq]
        rw [if_neg (by omega), if_pos (by omega)]
      rw [behind]
      simp
    have same := removeRegionLoop_misses cmpPmemSt (PmemSt.range 0 0) (3 * tx.regions.size + 1)
      tx.regions.resetIter dbIndex misses
    simp only [if_neg below, removeRegion]
    refine ⟨⟨?_, sound.cache⟩, trivial, trivial, fun byte => ?_⟩
    · simp only [same]
      exact sound.regions
    · simp only [TxInfo.Tracked, same]
      exact Iff.rfl

/-- A thread request changes no entry of the log and no thread entry. -/
theorem removeObjFromTx_empty {trans : TransactionOps} {log : TxLog} (refines : Refines trans log)
    (threadId txId : Nat) :
    Refines (trans.removeObjFromTx threadId txId 0 0).2 log ∧
      (trans.removeObjFromTx threadId txId 0 0).2.threads = trans.threads := by
  cases searched : trans.transactions.lookup (txKey txId) with
  | none => simpa [removeObjFromTx, searched] using refines
  | some tx =>
    obtain ⟨member, rfl⟩ := refines.lookup_some.mp searched
    have logs := refines.logged tx member
    obtain ⟨sound, sameId, sameCounter, tracked⟩ :=
      uncacheRegion_empty logs.sound trans.dbPmemStoreIndex
    simp only [removeObjFromTx, searched]
    split
    · refine ⟨(refines.update tx.txId
        (fun _ => (uncacheRegion (PmemSt.range 0 0) tx trans.dbPmemStoreIndex).1) log
        (fun _ _ => sameId) (fun _ _ => ⟨rfl, rfl⟩) Iff.rfl ?_).congr rfl, rfl⟩
      intro other otherMember same _
      refine ⟨sound, ?_, fun byte => ?_⟩
      · rw [sameCounter, sameId]
        exact logs.counter
      · rw [tracked byte, sameId]
        exact logs.tracked byte
    · exact ⟨refines, rfl⟩

/-! ## The ledger of participation -/

/-- How deep each transaction is nested, and who takes part in it by request. It is the ledger
that the thread entries are compared with. -/
structure Participation where
  depth : Nat → Nat
  takesPart : Nat → Nat → Prop

namespace Participation

/-- No transaction is open, and so no thread takes part in any. -/
def none : Participation := { depth := fun _ => 0, takesPart := fun _ _ => False }

/-- A start enters its thread, and nobody else if it opens the transaction. The thread
requests count while the transaction is open. -/
def step (ledger : Participation) : ClientRequest → Participation
  | .startTx threadId _ txId => {
      depth := Function.update ledger.depth txId (ledger.depth txId + 1)
      takesPart := fun thread tested => thread = threadId ∧ tested = txId ∨
        ledger.takesPart thread tested ∧ (tested = txId → ledger.depth txId ≠ 0) }
  | .endTx _ _ txId => { ledger with
      depth := Function.update ledger.depth txId (ledger.depth txId - 1) }
  | .addThreadToTx threadId txId => { ledger with
      takesPart := fun thread tested => ledger.takesPart thread tested ∨
        thread = threadId ∧ tested = txId ∧ ledger.depth txId ≠ 0 }
  | .removeThreadFromTx threadId txId => { ledger with
      takesPart := fun thread tested => ledger.takesPart thread tested ∧
        ¬ (thread = threadId ∧ tested = txId ∧ ledger.depth txId ≠ 0) }
  | _ => ledger

end Participation

/-- The requests that the ledger is about. All others are left out of its runs. -/
def ThreadOrTxRequest : ClientRequest → Prop
  | .startTx _ _ _ | .endTx _ _ _ | .addThreadToTx _ _ | .removeThreadFromTx _ _ => True
  | _ => False

/-- A transaction is open: it has an entry in the table, whatever its counter. -/
def IsOpen (trans : TransactionOps) (txId : Nat) : Prop :=
  ∃ tx ∈ trans.transactions.toList, tx.txId = txId

instance (trans : TransactionOps) (txId : Nat) : Decidable (IsOpen trans txId) :=
  inferInstanceAs (Decidable (∃ tx ∈ trans.transactions.toList, tx.txId = txId))

/-- Threads are accepted in the open transactions as the ledger says, and neither
thread request would change the bytes that any transaction tracks. -/
structure FollowsRequests (pair : Tool × Participation) : Prop where
  accepted : ∀ txId, IsOpen pair.1.trans txId → ∀ threadId,
    pair.1.trans.isTxInThread threadId txId = true ↔ pair.2.takesPart threadId txId
  added : ∀ threadId txId tested byte,
    TrackedBy (pair.1.respond (.addThreadToTx threadId txId)).trans tested byte ↔
      TrackedBy pair.1.trans tested byte
  removed : ∀ threadId txId tested byte,
    TrackedBy (pair.1.respond (.removeThreadFromTx threadId txId)).trans tested byte ↔
      TrackedBy pair.1.trans tested byte

/-- A request to join comes from a thread that is in, a request to leave from one that
is not, and a start that opens an id finds no other thread that still holds it. -/
def AsksForNothing (tool : Tool) : ClientRequest → Prop
  | .addThreadToTx threadId txId => IsOpen tool.trans txId →
      tool.trans.isTxInThread threadId txId = true
  | .removeThreadFromTx threadId txId => IsOpen tool.trans txId →
      tool.trans.isTxInThread threadId txId = false
  | .startTx threadId _ txId => IsOpen tool.trans txId ∨
      ∀ entry ∈ tool.trans.threads.toList, txId ∈ entry.txIds.toList → entry.threadId = threadId
  | _ => True

instance (tool : Tool) : DecidablePred (AsksForNothing tool)
  | .addThreadToTx threadId txId => inferInstanceAs (Decidable (IsOpen tool.trans txId →
      tool.trans.isTxInThread threadId txId = true))
  | .removeThreadFromTx threadId txId => inferInstanceAs (Decidable (IsOpen tool.trans txId →
      tool.trans.isTxInThread threadId txId = false))
  | .startTx threadId _ txId => inferInstanceAs (Decidable (IsOpen tool.trans txId ∨
      ∀ entry ∈ tool.trans.threads.toList, txId ∈ entry.txIds.toList → entry.threadId = threadId))
  | .access _ | .enterBlock | .removeMapping _ _ | .checkIsPmemMapping _ _ | .writeStats
  | .setClean _ _ | .endTx _ _ _ | .addToTx _ _ _ _ _ | .removeFromTx _ _ _ _
  | .addToGlobalTxIgnore _ _ => .isTrue trivial

/-- What the runs keep: the transactions have a log with the depths of the ledger, and
the thread entries are in order. -/
structure Booked (pair : Tool × Participation) : Prop where
  refines : ∃ log, Refines pair.1.trans log ∧ log.depth = pair.2.depth
  keyed : ThreadsKeyed pair.1.trans.threads.toList

/-- The books and the tool agree on which transactions are open. -/
theorem Booked.isOpen_iff {pair : Tool × Participation} (booked : Booked pair) (txId : Nat) :
    IsOpen pair.1.trans txId ↔ pair.2.depth txId ≠ 0 := by
  obtain ⟨log, refines, sameDepth⟩ := booked.refines
  rw [← sameDepth]
  exact refines.isOpen txId

/-- In a booked state the thread requests keep every log entry. -/
theorem callTx_refines {tool : Tool} {log : TxLog} (refines : Refines tool.trans log)
    (threadId txId : Nat) :
    Refines (tool.callTx (removeObjFromTx threadId txId 0 0)).2.trans log ∧
      (tool.callTx (removeObjFromTx threadId txId 0 0)).2.trans.threads = tool.trans.threads := by
  have shared : Refines { tool.trans with dbPmemStoreIndex := tool.pmem.dbPmemStoreIndex } log :=
    refines.congr rfl
  exact removeObjFromTx_empty shared threadId txId

/-- Two states with one log track the same bytes. -/
theorem trackedBy_congr {before after : TransactionOps} {log : TxLog}
    (refinesBefore : Refines before log) (refinesAfter : Refines after log) (txId byte : Nat) :
    TrackedBy after txId byte ↔ TrackedBy before txId byte := by
  by_cases closed : log.depth txId = 0
  · have noneBefore := refinesBefore.lookup_none.mpr closed
    have noneAfter := refinesAfter.lookup_none.mpr closed
    simp [TrackedBy, noneBefore, noneAfter]
  · rw [trackedBy_iff refinesBefore closed, trackedBy_iff refinesAfter closed]

/-- The byte sets take care of themselves, so the property is about acceptance. -/
theorem followsRequests_iff {pair : Tool × Participation} (booked : Booked pair) :
    FollowsRequests pair ↔ ∀ txId, pair.2.depth txId ≠ 0 → ∀ threadId,
      Contributes pair.1.trans.threads.toList threadId txId ↔ pair.2.takesPart threadId txId := by
  obtain ⟨log, refines, _⟩ := booked.refines
  constructor
  · intro follows txId isOpen threadId
    rw [← isTxInThread_iff booked.keyed]
    exact follows.accepted txId ((booked.isOpen_iff txId).mpr isOpen) threadId
  · intro accepted
    refine ⟨fun txId isOpen threadId => ?_, fun threadId txId => ?_, fun threadId txId => ?_⟩
    · rw [isTxInThread_iff booked.keyed]
      exact accepted txId ((booked.isOpen_iff txId).mp isOpen) threadId
    · exact trackedBy_congr refines (callTx_refines refines threadId txId).1
    · exact trackedBy_congr refines (callTx_refines refines threadId txId).1

section Steps

variable {tool : Tool} {ledger : Participation} (booked : Booked (tool, ledger))

include booked

/-- A start is booked. -/
theorem startTx_booked (threadId : Nat) (context : Option ExeContext) (txId : Nat) :
    Booked (tool.startTx threadId context txId, ledger.step (.startTx threadId context txId)) := by
  obtain ⟨log, refines, sameDepth⟩ := booked.refines
  constructor
  · refine ⟨log.start txId, ?_, ?_⟩
    · rw [Tool.startTx_trans]
      exact registerNewTx_refines refines threadId context txId
    · simp only [TxLog.start, Participation.step, sameDepth]
  · rw [Tool.startTx_trans]
    exact (registerNewTx_threads booked.keyed threadId context txId).1

/-- A start keeps the acceptance right exactly if no other thread still holds an id that
it opens. -/
theorem startTx_follows (threadId : Nat) (context : Option ExeContext) (txId : Nat)
    (follows : FollowsRequests (tool, ledger)) :
    FollowsRequests (tool.startTx threadId context txId,
        ledger.step (.startTx threadId context txId)) ↔
      AsksForNothing tool (.startTx threadId context txId) := by
  have before := (followsRequests_iff booked).mp follows
  have contributes := (registerNewTx_threads booked.keyed threadId context txId).2.1
  rw [followsRequests_iff (startTx_booked booked threadId context txId), Tool.startTx_trans]
  simp only [AsksForNothing, booked.isOpen_iff txId, contributes]
  constructor
  · intro accepted
    by_cases isOpen : ledger.depth txId ≠ 0
    · exact .inl isOpen
    · refine .inr (fun entry member held => ?_)
      have stale := (accepted txId (by simp [Participation.step]) entry.threadId).mp
        (.inl ⟨entry, member, rfl, held⟩)
      rcases stale with own | ⟨_, reopened⟩
      · exact own.1
      · exact absurd (reopened rfl) isOpen
  · intro fresh tested isOpen thread
    simp only [Participation.step] at isOpen ⊢
    by_cases same : tested = txId
    · subst same
      by_cases wasOpen : ledger.depth tested ≠ 0
      · rw [before tested wasOpen thread]
        tauto
      · have held : Contributes tool.trans.threads.toList thread tested → thread = threadId := by
          rintro ⟨entry, member, sameThread, inEntry⟩
          rcases fresh with wasOpen' | absent
          · exact absurd wasOpen' wasOpen
          · exact sameThread.symm.trans (absent entry member inEntry)
        tauto
    · have wasOpen : ledger.depth tested ≠ 0 := by simpa [same] using isOpen
      rw [before tested wasOpen thread]
      tauto

/-- An end is booked. -/
theorem endTx_booked (threadId : Nat) (context : Option ExeContext) (txId : Nat) :
    Booked ((tool.endTx context txId).2.2, ledger.step (.endTx threadId context txId)) := by
  obtain ⟨log, refines, sameDepth⟩ := booked.refines
  constructor
  · refine ⟨log.finish txId, ?_, ?_⟩
    · rw [Tool.endTx_trans]
      exact removeTx_refines refines txId
    · simp only [TxLog.finish, Participation.step, sameDepth]
  · rw [Tool.endTx_trans]
    exact removeTx_keyed booked.keyed txId

/-- An end takes no thread out of a transaction that stays open. -/
theorem endTx_follows (threadId : Nat) (context : Option ExeContext) (txId : Nat)
    (follows : FollowsRequests (tool, ledger)) :
    FollowsRequests ((tool.endTx context txId).2.2,
      ledger.step (.endTx threadId context txId)) := by
  have before := (followsRequests_iff booked).mp follows
  obtain ⟨log, refines, sameDepth⟩ := booked.refines
  rw [followsRequests_iff (endTx_booked booked threadId context txId), Tool.endTx_trans]
  intro tested isOpen thread
  have wasOpen : ledger.depth tested ≠ 0 := by
    simp only [Participation.step] at isOpen
    by_cases same : tested = txId
    · subst same
      rw [Function.update_self] at isOpen
      omega
    · simpa [same] using isOpen
  apply Iff.trans _ (before tested wasOpen thread)
  cases searched : tool.trans.transactions.lookup (txKey txId) with
  | none => simp only [removeTx, searched]
  | some tx =>
    obtain ⟨member, sameId⟩ := refines.lookup_some.mp searched
    have counted : tx.counter = ledger.depth txId := by
      rw [← sameDepth, ← sameId]
      exact (refines.logged tx member).counter
    rw [removeTx_threads booked.keyed searched]
    split
    · next last =>
      apply dropWalk_other txId booked.keyed
      rintro rfl
      simp only [Participation.step, Function.update_self] at isOpen
      omega
    · rfl

end Steps

/-- One request: the books stay in order, and the acceptance stays right exactly if the
request asks for nothing. -/
theorem respond_follows {pair : Tool × Participation} {request : ClientRequest}
    (booked : Booked pair) (allowed : ThreadOrTxRequest request) :
    Booked (Runs.both Tool.respond Participation.step pair request) ∧ (FollowsRequests pair →
      (FollowsRequests (Runs.both Tool.respond Participation.step pair request) ↔
        AsksForNothing pair.1 request)) := by
  obtain ⟨tool, ledger⟩ := pair
  obtain ⟨log, refines, sameDepth⟩ := booked.refines
  cases request with
  | startTx threadId context txId =>
    exact ⟨startTx_booked booked threadId context txId,
      startTx_follows booked threadId context txId⟩
  | endTx threadId context txId =>
    exact ⟨endTx_booked booked threadId context txId,
      fun follows => iff_of_true (endTx_follows booked threadId context txId follows) trivial⟩
  | addThreadToTx threadId txId =>
    obtain ⟨refinesAfter, sameThreads⟩ := callTx_refines refines threadId txId
    have bookedAfter : Booked (Runs.both Tool.respond Participation.step (tool, ledger)
        (.addThreadToTx threadId txId)) := by
      refine ⟨⟨log, refinesAfter, sameDepth⟩, ?_⟩
      simp only [Runs.both, Tool.respond, Tool.handleClientRequest, sameThreads]
      exact booked.keyed
    refine ⟨bookedAfter, fun follows => ?_⟩
    have before := (followsRequests_iff booked).mp follows
    rw [followsRequests_iff bookedAfter]
    simp only [Runs.both, Tool.respond, Tool.handleClientRequest, sameThreads, Participation.step,
      AsksForNothing, booked.isOpen_iff txId, isTxInThread_iff booked.keyed]
    constructor
    · intro accepted isOpen
      exact (accepted txId isOpen threadId).mpr (.inr ⟨rfl, rfl, isOpen⟩)
    · intro joined tested isOpen thread
      rw [before tested isOpen thread]
      constructor
      · exact .inl
      · rintro (old | ⟨rfl, rfl, _⟩)
        · exact old
        · exact (before tested isOpen thread).mp (joined isOpen)
  | removeThreadFromTx threadId txId =>
    obtain ⟨refinesAfter, sameThreads⟩ := callTx_refines refines threadId txId
    have bookedAfter : Booked (Runs.both Tool.respond Participation.step (tool, ledger)
        (.removeThreadFromTx threadId txId)) := by
      refine ⟨⟨log, refinesAfter, sameDepth⟩, ?_⟩
      simp only [Runs.both, Tool.respond, Tool.handleClientRequest, sameThreads]
      exact booked.keyed
    refine ⟨bookedAfter, fun follows => ?_⟩
    have before := (followsRequests_iff booked).mp follows
    rw [followsRequests_iff bookedAfter]
    simp only [Runs.both, Tool.respond, Tool.handleClientRequest, sameThreads, Participation.step,
      AsksForNothing, booked.isOpen_iff txId, ← Bool.not_eq_true, isTxInThread_iff booked.keyed]
    constructor
    · intro accepted isOpen held
      exact ((accepted txId isOpen threadId).mp held).2 ⟨rfl, rfl, isOpen⟩
    · intro left tested isOpen thread
      rw [before tested isOpen thread]
      constructor
      · intro held
        refine ⟨held, ?_⟩
        rintro ⟨rfl, rfl, _⟩
        exact left isOpen ((before tested isOpen thread).mpr held)
      · exact And.left
  | _ => exact allowed.elim

section

variable (opts : Options) (transactionsOnly redundantLogging : Bool) (cacheLineSize : Nat)
  (slots : Nat → PmemSt)

/-- Over every run of starts, ends and thread requests by any threads, threads are accepted as
requested in every open transaction and state reached, with no byte set changed by a thread
request, exactly if every request asks for nothing.

Proof: both thread requests are handled as the removal of a region from the transaction, so
that neither changes who takes part. A request that changes what should be accepted is
therefore not followed, and one that asks for nothing may be handled in any way. A start asks
for something where an ended transaction has left its id with another thread, which the start
then lets in. -/
theorem thread_requests_followed_iff (requests : List ClientRequest)
    (allowed : ∀ request ∈ requests, ThreadOrTxRequest request) :
    Runs.Throughout (Runs.both Tool.respond Participation.step) FollowsRequests
        (initTool opts transactionsOnly redundantLogging cacheLineSize slots, Participation.none)
        requests ↔
      Runs.AllSteps Tool.respond AsksForNothing
        (initTool opts transactionsOnly redundantLogging cacheLineSize slots) requests := by
  have booked : Booked (initTool opts transactionsOnly redundantLogging cacheLineSize slots,
      Participation.none) := by
    refine ⟨⟨_, refines_init transactionsOnly redundantLogging, rfl⟩, List.Pairwise.nil, ?_⟩
    intro entry member
    exact absurd member List.not_mem_nil
  rw [← Runs.allSteps_both requests (initTool opts transactionsOnly redundantLogging cacheLineSize
    slots, Participation.none)]
  apply Runs.throughout_iff_allSteps (Runs.both Tool.respond Participation.step)
    (fun _ => ThreadOrTxRequest) (fun pair => AsksForNothing pair.1) FollowsRequests Booked
  · exact fun pair request kept isAllowed => (respond_follows kept isAllowed).1
  · exact fun pair request kept isAllowed => (respond_follows kept isAllowed).2
  · exact booked
  · rw [followsRequests_iff booked]
    intro txId isOpen
    exact absurd rfl isOpen
  · exact Runs.allSteps_of_forall _ allowed

end

/-- Two threads share a transaction. The one that started it second asks to join, and a
third thread asks to leave. -/
theorem thread_requests_followed_idle_run :
    let start := initTool (defaultOptions (fun _ => false)) false false 64 (fun _ => PmemSt.zero)
    let requests : List ClientRequest := [.startTx 1 none 7, .startTx 2 none 7,
      .addThreadToTx 2 7, .removeThreadFromTx 3 7, .endTx 2 none 7, .endTx 1 none 7]
    Runs.AllSteps Tool.respond AsksForNothing start requests ∧
      Runs.Throughout (Runs.both Tool.respond Participation.step) FollowsRequests
        (start, Participation.none) requests := by
  refine ⟨by decide +kernel, ?_⟩
  refine (thread_requests_followed_iff _ false false 64 _ _ ?_).mpr (by decide +kernel)
  simp [ThreadOrTxRequest]

/-- A thread that asks to join the transaction of another is not accepted in it. -/
theorem thread_requests_followed_fails :
    let start := initTool (defaultOptions (fun _ => false)) false false 64 (fun _ => PmemSt.zero)
    let requests : List ClientRequest := [.startTx 1 none 7, .addThreadToTx 2 7]
    (∀ request ∈ requests, ThreadOrTxRequest request) ∧
      ¬ Runs.Throughout (Runs.both Tool.respond Participation.step) FollowsRequests
        (start, Participation.none) requests := by
  intro start requests
  refine ⟨by simp [requests, ThreadOrTxRequest], fun followed => ?_⟩
  have last := followed requests (List.prefix_refl _)
  rw [Runs.foldl_both] at last
  have isOpen : IsOpen (requests.foldl Tool.respond start).trans 7 := by decide +kernel
  have refused : (requests.foldl Tool.respond start).trans.isTxInThread 2 7 = false := by
    decide +kernel
  have requested : (requests.foldl Participation.step Participation.none).takesPart 2 7 := by
    refine .inr ⟨rfl, rfl, ?_⟩
    simp [Participation.step, Participation.none]
  have accepted := (last.accepted 7 isOpen 2).mpr requested
  rw [refused] at accepted
  exact Bool.false_ne_true accepted

end PmDebugger
