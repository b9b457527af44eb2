import PmDebugger.TransactionLog

/-!
# One transaction over a run of registrations and removals

A transaction is followed from the moment it is opened, in any state that earlier
requests can leave behind. Registrations make it track exactly what the log says.
Removals do so under the condition of `RemovesCleanly`, judged in the state that
each removal meets, and a run without a violation is exact in every state it
passes through. No run with a violation is.
-/

namespace PmDebugger

open OrderedSet OrderedSet.OSet TransactionOps

/-- The range that a request registers or removes can be widened without wrapping. Other
requests have no such range. -/
def TxRequest.RegistersInner : TxRequest → Prop
  | .add _ _ _ base size => (PmemSt.range base size).Inner
  | .remove _ _ base size => (PmemSt.range base size).Inner
  | _ => True

instance : DecidablePred TxRequest.RegistersInner
  | .add _ _ _ base size => inferInstanceAs (Decidable (PmemSt.range base size).Inner)
  | .remove _ _ base size => inferInstanceAs (Decidable (PmemSt.range base size).Inner)
  | .start _ _ _ | .finish _ _ | .ignore _ _ | .store _ _ => .isTrue trivial

/-- The state agrees with some log. This leaves open which requests have led to it. -/
def Consistent (trans : TransactionOps) : Prop := ∃ log, Refines trans log

/-- A registration that fails leaves the transactions. -/
theorem addObjToTx_failed {trans : TransactionOps} {threadId txId base size : Nat}
    {context : Option ExeContext}
    (failed : (trans.addObjToTx threadId context txId base size).1 ≠ 0) :
    (trans.addObjToTx threadId context txId base size).2 = trans := by
  unfold addObjToTx at failed ⊢
  split
  · rfl
  · split <;> simp_all

/-- A removal that fails leaves the transactions. -/
theorem removeObjFromTx_failed {trans : TransactionOps} {threadId txId base size : Nat}
    (failed : (trans.removeObjFromTx threadId txId base size).1 ≠ 0) :
    (trans.removeObjFromTx threadId txId base size).2 = trans := by
  unfold removeObjFromTx at failed ⊢
  split
  · rfl
  · split <;> simp_all

/-- A removal succeeds when the transaction is open and the thread contributes to
it. -/
theorem removeObjFromTx_successful {trans : TransactionOps} {threadId txId base size : Nat}
    (successful : (trans.removeObjFromTx threadId txId base size).1 = 0) :
    ∃ tx, trans.transactions.lookup (txKey txId) = some tx ∧
      trans.isTxInThread threadId txId = true := by
  unfold removeObjFromTx at successful
  split at successful
  · simp at successful
  · next tx searched =>
    split at successful
    · next contributes => exact ⟨tx, searched, contributes⟩
    · simp at successful

/-- Every request keeps the state consistent, whether it succeeds or not. -/
theorem consistent_step {trans : TransactionOps} {request : TxRequest}
    (consistent : Consistent trans) (inner : request.RegistersInner) :
    Consistent (txStep trans request) := by
  obtain ⟨log, refines⟩ := consistent
  cases request with
  | start threadId context txId =>
    exact ⟨_, registerNewTx_refines refines threadId context txId⟩
  | finish threadId txId => exact ⟨_, removeTx_refines refines txId⟩
  | add threadId context txId base size =>
    by_cases successful : (trans.addObjToTx threadId context txId base size).1 = 0
    · exact ⟨_, addObjToTx_refines refines threadId context txId base size inner successful⟩
    · simp only [txStep, addObjToTx_failed successful]
      exact ⟨log, refines⟩
  | remove threadId txId base size =>
    by_cases successful : (trans.removeObjFromTx threadId txId base size).1 = 0
    · obtain ⟨tx, searched, contributes⟩ := removeObjFromTx_successful successful
      exact ⟨_, removeObjFromTx_leaves refines threadId txId base size inner searched contributes⟩
    · simp only [txStep, removeObjFromTx_failed successful]
      exact ⟨log, refines⟩
  | ignore base size => exact ⟨log, refines.congr rfl⟩
  | store threadId store => exact ⟨log, handleTxStore_refines refines threadId store⟩

/-- Every reachable state is consistent. -/
theorem consistent_run (transactionsOnly redundantLogging : Bool) (requests : List TxRequest)
    (inner : ∀ request ∈ requests, request.RegistersInner) :
    Consistent (requests.foldl txStep (initTransactions transactionsOnly redundantLogging)) := by
  refine Runs.invariant ?_ _ requests ?_ (Runs.allSteps_of_forall _ inner)
  · exact fun _ _ consistent isInner => consistent_step consistent isInner
  · exact ⟨_, refines_init transactionsOnly redundantLogging⟩

/-- The bytes that the open transaction of an id tracks. There are none if it is not open. -/
def TrackedBy (trans : TransactionOps) (txId byte : Nat) : Prop :=
  ∃ tx, trans.transactions.lookup (txKey txId) = some tx ∧ tx.Tracked byte

instance (trans : TransactionOps) (txId byte : Nat) : Decidable (TrackedBy trans txId byte) :=
  inferInstanceAs (Decidable (∃ tx ∈ trans.transactions.lookup (txKey txId), tx.Tracked byte))

/-- An open transaction tracks what its log entry says. -/
theorem trackedBy_iff {trans : TransactionOps} {log : TxLog} (refines : Refines trans log)
    {txId : Nat} (isOpen : log.depth txId ≠ 0) (byte : Nat) :
    TrackedBy trans txId byte ↔ log.bytes txId byte := by
  obtain ⟨tx, member, sameId⟩ := (refines.isOpen txId).mpr isOpen
  have searched := refines.lookup_some.mpr ⟨member, sameId⟩
  have tracked := (refines.logged tx member).tracked byte
  rw [sameId] at tracked
  rw [← tracked]
  constructor
  · rintro ⟨found, again, inside⟩
    rw [searched, Option.some_inj] at again
    rwa [again]
  · intro inside
    exact ⟨tx, searched, inside⟩

/-- A successful registration or removal in the transaction `txId`, or any store. The runs
about one transaction consist of these once it is open. -/
def CallOn (txId : Nat) (trans : TransactionOps) : TxRequest → Prop
  | .add threadId context id base size => id = txId ∧ (PmemSt.range base size).Inner ∧
      (trans.addObjToTx threadId context id base size).1 = 0
  | .remove threadId id base size => id = txId ∧ (PmemSt.range base size).Inner ∧
      (trans.removeObjFromTx threadId id base size).1 = 0
  | .store _ _ => True
  | _ => False

instance (txId : Nat) (trans : TransactionOps) : DecidablePred (CallOn txId trans)
  | .add _ _ _ _ _ | .remove _ _ _ _ => inferInstanceAs (Decidable (_ ∧ _ ∧ _))
  | .store _ _ => .isTrue trivial
  | .start _ _ _ | .finish _ _ | .ignore _ _ => .isFalse id

/-- A removal meets its transaction in a state where it removes cleanly. Every other request is
fine in every state. -/
def CleanRemoval (trans : TransactionOps) : TxRequest → Prop
  | .remove _ txId base size => ∀ tx ∈ trans.transactions.lookup (txKey txId),
      RemovesCleanly (PmemSt.range base size) tx
  | _ => True

instance (trans : TransactionOps) : DecidablePred (CleanRemoval trans)
  | .remove _ txId base size => inferInstanceAs (Decidable (∀ tx ∈ trans.transactions.lookup
      (txKey txId), RemovesCleanly (PmemSt.range base size) tx))
  | .start _ _ _ | .finish _ _ | .add _ _ _ _ _ | .ignore _ _ | .store _ _ => .isTrue trivial

/-- The transaction `txId` is open in a consistent state. A run about its bytes starts here. -/
def OpenIn (txId : Nat) (trans : TransactionOps) : Prop :=
  ∃ log, Refines trans log ∧ log.depth txId ≠ 0

/-- A call leaves its transaction open. -/
theorem openIn_step {txId : Nat} {trans : TransactionOps} {request : TxRequest}
    (isOpen : OpenIn txId trans) (call : CallOn txId trans request) :
    OpenIn txId (txStep trans request) := by
  obtain ⟨log, refines, positive⟩ := isOpen
  cases request with
  | add threadId context id base size =>
    obtain ⟨_, inner, successful⟩ := call
    exact ⟨_, addObjToTx_refines refines threadId context id base size inner successful, positive⟩
  | remove threadId id base size =>
    obtain ⟨_, inner, successful⟩ := call
    obtain ⟨tx, searched, contributes⟩ := removeObjFromTx_successful successful
    exact ⟨_, removeObjFromTx_leaves refines threadId id base size inner searched contributes,
      positive⟩
  | store threadId store => exact ⟨log, handleTxStore_refines refines threadId store, positive⟩
  | start threadId context id => exact call.elim
  | finish threadId id => exact call.elim
  | ignore base size => exact call.elim

/-- The transaction tracks the bytes that a reference log gives it, no more and no fewer. -/
def Agrees (txId : Nat) (pair : TransactionOps × TxLog) : Prop :=
  ∀ byte, TrackedBy pair.1 txId byte ↔ pair.2.bytes txId byte

/-- One call keeps the agreement exactly when it is a clean removal or no removal. -/
theorem agrees_step_iff {txId : Nat} {trans : TransactionOps} {reference : TxLog}
    {request : TxRequest} (isOpen : OpenIn txId trans) (call : CallOn txId trans request)
    (agrees : Agrees txId (trans, reference)) :
    Agrees txId (txStep trans request, reference.step request) ↔ CleanRemoval trans request := by
  obtain ⟨log, refines, positive⟩ := isOpen
  have same (byte : Nat) : log.bytes txId byte ↔ reference.bytes txId byte :=
    (trackedBy_iff refines positive byte).symm.trans (agrees byte)
  cases request with
  | add threadId context id base size =>
    obtain ⟨rfl, inner, successful⟩ := call
    have after := addObjToTx_refines refines threadId context id base size inner successful
    refine iff_of_true (fun byte => (trackedBy_iff after positive byte).trans ?_) trivial
    simp only [TxLog.step, TxLog.add, TxLog.put, Function.update_self]
    rw [same byte]
  | remove threadId id base size =>
    obtain ⟨rfl, inner, successful⟩ := call
    obtain ⟨tx, searched, contributes⟩ := removeObjFromTx_successful successful
    have after := removeObjFromTx_leaves refines threadId id base size inner searched contributes
    obtain ⟨member, sameId⟩ := refines.lookup_some.mp searched
    have logs := refines.logged tx member
    have before (byte : Nat) : tx.Tracked byte ↔ reference.bytes id byte := by
      rw [logs.tracked byte, sameId]
      exact same byte
    simp only [CleanRemoval, searched, Option.mem_some_iff, forall_eq']
    rw [← uncacheRegion_exact_iff logs.sound inner trans.dbPmemStoreIndex]
    refine forall_congr' (fun byte => ?_)
    rw [show (TrackedBy (txStep trans (.remove threadId id base size)) id byte) ↔
      (uncacheRegion (PmemSt.range base size) tx trans.dbPmemStoreIndex).1.Tracked byte from
        (trackedBy_iff after positive byte).trans (by simp [TxLog.put])]
    simp only [TxLog.step, TxLog.remove, TxLog.put, Function.update_self, before byte]
  | store threadId store =>
    have after := handleTxStore_refines refines threadId store
    exact iff_of_true (fun byte => (trackedBy_iff after positive byte).trans (same byte)) trivial
  | start threadId context id => exact call.elim
  | finish threadId id => exact call.elim
  | ignore base size => exact call.elim

/-- Follow one transaction from its opening through successful registrations and removals,
interleaved with any stores. It tracks the added bytes minus the removed ones in every state of
the run exactly when every removal is clean where it is made.

Proof: an addition goes to the cache or moves the cache into the regions, and in both ways its
bytes are added. A removal that hits the cache exactly empties it without a look at the
regions, and one that merely overlaps it leaves it as it is. That the regions share no byte in
the first case, and that the second does not occur, is what makes a removal clean. -/
theorem tracks_adds_minus_removes_iff (transactionsOnly redundantLogging : Bool)
    (earlier : List TxRequest) (threadId : Nat) (context : Option ExeContext) (txId : Nat)
    (calls : List TxRequest) (opened : TransactionOps)
    (inner : ∀ request ∈ earlier, request.RegistersInner)
    (closed : (earlier.foldl txStep (initTransactions transactionsOnly
      redundantLogging)).transactions.contains (txKey txId) = false)
    (starts : opened = txStep (earlier.foldl txStep (initTransactions transactionsOnly
      redundantLogging)) (.start threadId context txId))
    (successful : Runs.AllSteps txStep (CallOn txId) opened calls) :
    (∀ made, made <+: calls → ∀ byte,
      TrackedBy (made.foldl txStep opened) txId byte ↔
        (made.foldl TxLog.step TxLog.empty).bytes txId byte) ↔
      Runs.AllSteps txStep CleanRemoval opened calls := by
  obtain ⟨log, refines⟩ := consistent_run transactionsOnly redundantLogging earlier inner
  have notOpen : log.depth txId = 0 := by
    rw [← refines.lookup_none]
    simpa [OSet.contains] using closed
  have started := registerNewTx_refines refines threadId context txId
  have positive : (log.start txId).depth txId ≠ 0 := by simp [TxLog.start]
  have isOpen : OpenIn txId opened := by
    rw [starts]
    exact ⟨_, started, positive⟩
  have fresh : Agrees txId (opened, TxLog.empty) := by
    intro byte
    rw [starts]
    refine (trackedBy_iff started positive byte).trans ?_
    simp [TxLog.start, notOpen, TxLog.empty]
  have exact := Runs.throughout_iff_allSteps (Runs.both txStep TxLog.step)
    (fun pair => CallOn txId pair.1) (fun pair => CleanRemoval pair.1)
    (Agrees txId) (fun pair => OpenIn txId pair.1)
    (fun _ _ isOpen call => openIn_step isOpen call)
    (fun _ _ isOpen call agrees => agrees_step_iff isOpen call agrees)
    (opened, TxLog.empty) calls isOpen fresh (Runs.allSteps_both _ _ |>.mpr successful)
  rw [Runs.allSteps_both] at exact
  rw [← exact]
  simp only [Runs.Throughout, Runs.foldl_both, Agrees]

/-- Registrations, a store that flushes the cache and a removal that cuts a region
of the set: the removal is clean, so the transaction is exact throughout. -/
theorem tracks_adds_minus_removes_clean_run :
    let opened := txStep ([.start 2 none 5, .add 2 none 5 100 8].foldl txStep
      (initTransactions false true)) (.start 1 none 7)
    let calls : List TxRequest := [.add 1 none 7 100 16, .store 1 (PmemSt.range 104 4),
      .add 1 none 7 300 8, .remove 1 7 100 4]
    Runs.AllSteps txStep CleanRemoval opened calls ∧
      ∀ made, made <+: calls → ∀ byte, TrackedBy (made.foldl txStep opened) 7 byte ↔
        (made.foldl TxLog.step TxLog.empty).bytes 7 byte := by
  refine ⟨by decide +kernel, ?_⟩
  exact (tracks_adds_minus_removes_iff false true [.start 2 none 5, .add 2 none 5 100 8] 1 none 7
    _ _ (by decide +kernel) (by decide +kernel) rfl (by decide +kernel)).mpr (by decide +kernel)

/-- Removing the front half of the region that was just registered cuts the region
set but leaves the cache, so the removed bytes stay tracked. -/
theorem tracks_adds_minus_removes_fails :
    let opened := txStep (initTransactions false false) (.start 1 none 7)
    let calls : List TxRequest := [.add 1 none 7 100 16, .remove 1 7 100 8]
    Runs.AllSteps txStep (CallOn 7) opened calls ∧
      ¬ ∀ byte, TrackedBy (calls.foldl txStep opened) 7 byte ↔
        (calls.foldl TxLog.step TxLog.empty).bytes 7 byte := by
  refine ⟨by decide +kernel, fun exact => ?_⟩
  have stays := (exact 100).mp (by decide +kernel)
  simp [TxLog.step, TxLog.remove, TxLog.put, PmemSt.Covers, PmemSt.range] at stays

end PmDebugger
