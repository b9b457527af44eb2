import Mathlib.Data.List.Pairwise
import PmDebugger.ThreadMembership

/-!
# Stores outside transactions

The ledger extends the transaction log with the threads that contribute to each
open transaction and with the ignored bytes. It follows the requests alone. When no
transaction id is started by two threads, the thread entries agree with the ledger:
a last end then empties at most one entry, so its walk is complete.

In an agreeing state `handle_tx_store` warns exactly when the ledger says that the
store is neither ignored nor fully registered in one transaction of its thread.
-/

namespace PmDebugger

open OrderedSet OrderedSet.OSet TransactionOps

/-- All bytes of the store were registered in the transaction. They need not have been
registered at once. -/
def TxLog.Holds (log : TxLog) (txId : Nat) (store : PmemSt) : Prop :=
  ∀ byte, store.Covers byte → log.bytes txId byte

/-- `is_store_in_tx` answers whether all bytes of the store are registered. -/
theorem isStoreInTx_iff {trans : TransactionOps} {log : TxLog} (refines : Refines trans log)
    {txId : Nat} (isOpen : log.depth txId ≠ 0) {store : PmemSt} (proper : store.Proper) :
    (trans.isStoreInTx store txId).1 = true ↔ log.Holds txId store := by
  obtain ⟨tx, member, sameId⟩ := (refines.isOpen txId).mpr isOpen
  have searched := refines.lookup_some.mpr ⟨member, sameId⟩
  have logs := refines.logged tx member
  obtain ⟨flushed, _, bytes⟩ := flushCache_exact logs.sound
  have cached := checkOverlap_eq_one_iff proper logs.sound.cache_nonWrapping
  have registered := isInMappingSet_eq_one_iff flushed.regions proper
  have tracked (byte : Nat) : tx.Tracked byte ↔ log.bytes txId byte := by
    rw [logs.tracked byte, sameId]
  simp only [bytes, tracked] at registered
  simp only [isStoreInTx, searched]
  split
  · next within =>
    refine iff_of_true rfl (fun byte inside => (tracked byte).mp (.inl ?_))
    exact cached.mp within byte inside
  · rw [decide_eq_true_eq]
    exact registered

/-- The search finds a transaction that has the store if there is one. -/
theorem searchTxs_iff {trans : TransactionOps} {log : TxLog} (refines : Refines trans log)
    {store : PmemSt} (proper : store.Proper) (txIds : List Nat)
    (isOpen : ∀ txId ∈ txIds, log.depth txId ≠ 0) :
    (searchTxs store txIds trans).1 = true ↔ ∃ txId ∈ txIds, log.Holds txId store := by
  induction txIds generalizing trans with
  | nil => simp [searchTxs]
  | cons txId rest inductionHypothesis =>
    obtain ⟨firstOpen, restOpen⟩ := List.forall_mem_cons.mp isOpen
    have answer := isStoreInTx_iff refines firstOpen proper
    have rest := inductionHypothesis (isStoreInTx_refines refines store txId) restOpen
    simp only [searchTxs]
    rw [List.exists_mem_cons_iff, ← answer, ← rest]
    split <;> simp_all

/-- What the requests alone say: the log of the transactions, the threads that
contribute to an open transaction, and the ignored bytes. -/
structure TxLedger where
  log : TxLog
  contributes : Nat → Nat → Prop
  ignored : Nat → Prop

namespace TxLedger

/-- Nothing was asked for: no transaction is open, no thread contributes and nothing is
ignored. -/
def empty : TxLedger where
  log := TxLog.empty
  contributes := fun _ _ => False
  ignored := fun _ => False

/-- A registration counts if its thread contributes to the transaction. The last end
of an id ends every contribution to it. Removals do not occur in these runs. -/
def step (ledger : TxLedger) : TxRequest → TxLedger
  | .start threadId _ txId => { ledger with
      log := ledger.log.start txId
      contributes := fun thread tested =>
        ledger.contributes thread tested ∨ thread = threadId ∧ tested = txId }
  | .finish _ txId => { ledger with
      log := ledger.log.finish txId
      contributes := fun thread tested =>
        ledger.contributes thread tested ∧ (ledger.log.finish txId).depth tested ≠ 0 }
  | .add threadId _ txId base size => { ledger with
      log := ledger.log.put txId (fun byte => ledger.log.bytes txId byte ∨
        ledger.contributes threadId txId ∧ (PmemSt.range base size).Covers byte) }
  | .remove _ _ _ _ => ledger
  | .ignore base size => { ledger with
      ignored := fun byte => (PmemSt.range base size).Covers byte ∨ ledger.ignored byte }
  | .store _ _ => ledger

/-- The store of the thread deserves a warning. It is not ignored, and the thread contributes
to no transaction under `--tx-only`, or to some but none that holds the store. -/
def Outside (ledger : TxLedger) (transactionsOnly : Bool) (threadId : Nat)
    (store : PmemSt) : Prop :=
  (¬ ∀ byte, store.Covers byte → ledger.ignored byte) ∧
    ((¬ ∃ txId, ledger.contributes threadId txId) ∧ transactionsOnly = true ∨
      (∃ txId, ledger.contributes threadId txId) ∧
        ¬ ∃ txId, ledger.contributes threadId txId ∧ ledger.log.Holds txId store)

end TxLedger

/-- The state agrees with the ledger, and every contribution to a transaction is
made by its owner. -/
structure Mirrors (owner : Nat → Nat) (trans : TransactionOps) (ledger : TxLedger) : Prop where
  refines : Refines trans ledger.log
  keyed : ThreadsKeyed trans.threads.toList
  nonempty : ∀ entry ∈ trans.threads.toList, entry.txIds.toList ≠ []
  contributes : ∀ threadId txId,
    Contributes trans.threads.toList threadId txId ↔ ledger.contributes threadId txId
  live : ∀ threadId txId, ledger.contributes threadId txId → ledger.log.depth txId ≠ 0
  owned : ∀ threadId txId, ledger.contributes threadId txId → threadId = owner txId
  excludes : RegionSet trans.excludes.toList
  ignored : ∀ byte, Tracks trans.excludes.toList byte ↔ ledger.ignored byte

/-- A request with ranges that can be widened without wrapping, no removal, and each
transaction id started by its owner only. -/
def Detects (owner : Nat → Nat) : TxRequest → Prop
  | .start threadId _ txId => threadId = owner txId
  | .finish _ _ => True
  | .add _ _ _ base size => (PmemSt.range base size).Inner
  | .remove _ _ _ _ => False
  | .ignore base size => (PmemSt.range base size).Inner
  | .store _ store => store.Inner

section Steps

variable {owner : Nat → Nat} {trans : TransactionOps} {ledger : TxLedger}

/-- The entry of a thread exists exactly when the thread contributes somewhere. -/
theorem Mirrors.lookup_thread (mirrors : Mirrors owner trans ledger) (threadId : Nat) :
    match trans.threads.lookup (threadKey threadId) with
    | none => ∀ txId, ¬ ledger.contributes threadId txId
    | some entry => entry.txIds.toList ≠ [] ∧
        ∀ txId, txId ∈ entry.txIds.toList ↔ ledger.contributes threadId txId := by
  cases searched : trans.threads.lookup (threadKey threadId) with
  | none =>
    have absent := (lookup_byKey_none mirrors.keyed.keyed).mp searched
    intro txId contributes
    obtain ⟨entry, member, same, _⟩ := (mirrors.contributes threadId txId).mpr contributes
    exact absent entry member same
  | some entry =>
    obtain ⟨member, same⟩ := (lookup_byKey mirrors.keyed.keyed).mp searched
    refine ⟨mirrors.nonempty entry member, fun txId => ?_⟩
    rw [← mirrors.contributes threadId txId]
    constructor
    · exact fun held => ⟨entry, member, same, held⟩
    · rintro ⟨other, otherMember, otherSame, held⟩
      have equal := mirrors.keyed.keyed.unique otherMember member (otherSame.trans same.symm)
      rwa [← equal]

/-- `is_tx_in_thread` answers whether the thread contributes. -/
theorem Mirrors.isTxInThread_iff (mirrors : Mirrors owner trans ledger) (threadId txId : Nat) :
    trans.isTxInThread threadId txId = true ↔ ledger.contributes threadId txId := by
  rw [PmDebugger.isTxInThread_iff mirrors.keyed, mirrors.contributes]

/-- A start opens the transaction of its thread, in the source and in the ledger. That the id
belongs to one thread only is needed here. -/
theorem mirrors_start (mirrors : Mirrors owner trans ledger) {threadId txId : Nat}
    (owns : threadId = owner txId) (context : Option ExeContext) :
    Mirrors owner (trans.registerNewTx threadId context txId)
      (ledger.step (.start threadId context txId)) := by
  obtain ⟨keyed, contributes, nonempty⟩ :=
    registerNewTx_threads mirrors.keyed threadId context txId
  have excludes : (trans.registerNewTx threadId context txId).excludes = trans.excludes := by
    simp only [registerNewTx, createGetThreadEntry]
    split <;> split <;> rfl
  refine ⟨registerNewTx_refines mirrors.refines threadId context txId, keyed,
    nonempty mirrors.nonempty, ?_, ?_, ?_, excludes ▸ mirrors.excludes, excludes ▸ mirrors.ignored⟩
  · intro thread tested
    rw [contributes thread tested, mirrors.contributes thread tested]
    rfl
  · rintro thread tested (old | ⟨_, rfl⟩)
    · have isOpen := mirrors.live thread tested old
      by_cases same : tested = txId <;> simp [TxLedger.step, TxLog.start, same, isOpen]
    · simp [TxLedger.step, TxLog.start]
  · rintro thread tested (old | ⟨rfl, rfl⟩)
    · exact mirrors.owned thread tested old
    · exact owns

/-- With one owner per id no entry that holds only the id stands before another
that holds it. -/
theorem Mirrors.endsCleanly (mirrors : Mirrors owner trans ledger) (txId : Nat) :
    EndsCleanly trans.threads.toList txId := by
  refine List.Pairwise.imp_of_mem ?_ mirrors.keyed.keyed
  intro first second firstMember secondMember less single held
  have firstOwner := mirrors.owned first.threadId txId
    ((mirrors.contributes _ _).mp ⟨first, firstMember, rfl, by simp [single]⟩)
  have secondOwner := mirrors.owned second.threadId txId
    ((mirrors.contributes _ _).mp ⟨second, secondMember, rfl, held⟩)
  omega

/-- An end closes the transaction and leaves the ids of no other. -/
theorem mirrors_finish (mirrors : Mirrors owner trans ledger) (threadId txId : Nat) :
    Mirrors owner (trans.removeTx txId).2 (ledger.step (.finish threadId txId)) := by
  have excludes : (trans.removeTx txId).2.excludes = trans.excludes := by
    unfold removeTx
    split
    · rfl
    · split <;> rfl
  have depth (tested : Nat) (differs : tested ≠ txId) :
      (ledger.log.finish txId).depth tested = ledger.log.depth tested := by
    simp [TxLog.finish, differs]
  -- What the threads hold afterwards, in each of the three outcomes of an end.
  have threads : (∀ entry ∈ (trans.removeTx txId).2.threads.toList, entry.txIds.toList ≠ []) ∧
      ∀ thread tested, Contributes (trans.removeTx txId).2.threads.toList thread tested ↔
        ledger.contributes thread tested ∧ (ledger.log.finish txId).depth tested ≠ 0 := by
    cases searched : trans.transactions.lookup (txKey txId) with
    | none =>
      have closed := mirrors.refines.lookup_none.mp searched
      have same : (trans.removeTx txId).2 = trans := by simp [removeTx, searched]
      rw [same]
      refine ⟨mirrors.nonempty, fun thread tested => ?_⟩
      rw [mirrors.contributes thread tested]
      refine ⟨fun holds => ⟨holds, ?_⟩, fun both => both.1⟩
      have isOpen := mirrors.live thread tested holds
      rwa [depth tested (by rintro rfl; exact isOpen closed)]
    | some tx =>
      obtain ⟨member, sameId⟩ := mirrors.refines.lookup_some.mp searched
      have counted : tx.counter = ledger.log.depth txId :=
        sameId ▸ (mirrors.refines.logged tx member).counter
      have atId : (ledger.log.finish txId).depth txId = ledger.log.depth txId - 1 := by
        simp [TxLog.finish]
      rw [removeTx_threads mirrors.keyed searched]
      split
      · next last =>
        have clean := mirrors.endsCleanly txId
        refine ⟨fun left isLeft => ((dropWalk_clean_iff txId mirrors.keyed
          mirrors.nonempty).mpr clean left isLeft).1, fun thread tested => ?_⟩
        rw [dropWalk_contributes txId mirrors.keyed mirrors.nonempty clean,
          mirrors.contributes thread tested]
        refine and_congr_right (fun holds => ?_)
        constructor
        · intro differs
          rw [depth tested differs]
          exact mirrors.live thread tested holds
        · rintro positive rfl
          omega
      · next nested =>
        refine ⟨mirrors.nonempty, fun thread tested => ?_⟩
        rw [mirrors.contributes thread tested]
        refine ⟨fun holds => ⟨holds, ?_⟩, fun both => both.1⟩
        have isOpen := mirrors.live thread tested holds
        by_cases same : tested = txId
        · rw [same, atId]
          omega
        · rwa [depth tested same]
  exact ⟨removeTx_refines mirrors.refines txId, removeTx_keyed mirrors.keyed txId, threads.1,
    threads.2, fun _ _ both => both.2, fun thread tested both => mirrors.owned thread tested both.1,
    excludes ▸ mirrors.excludes, excludes ▸ mirrors.ignored⟩

/-- A registration adds its bytes to the transaction, or is refused on both sides. -/
theorem mirrors_add (mirrors : Mirrors owner trans ledger) (threadId : Nat)
    (context : Option ExeContext) (txId base size : Nat) (inner : (PmemSt.range base size).Inner) :
    Mirrors owner (trans.addObjToTx threadId context txId base size).2
      (ledger.step (.add threadId context txId base size)) := by
  have frame := addObjToTx_frame threadId context txId base size trans
  have threads : (trans.addObjToTx threadId context txId base size).2.threads = trans.threads := by
    rw [frame]
  have excludes : (trans.addObjToTx threadId context txId base size).2.excludes =
      trans.excludes := by
    rw [frame]
  have refines : Refines (trans.addObjToTx threadId context txId base size).2
      (ledger.step (.add threadId context txId base size)).log := by
    by_cases contributes : ledger.contributes threadId txId
    · have successful : (trans.addObjToTx threadId context txId base size).1 = 0 := by
        have contributing := (mirrors.isTxInThread_iff threadId txId).mpr contributes
        cases searched : trans.transactions.lookup (txKey txId) with
        | none =>
          exact absurd (mirrors.refines.lookup_none.mp searched)
            (mirrors.live threadId txId contributes)
        | some tx => simp [addObjToTx, searched, contributing]
      have added := addObjToTx_refines mirrors.refines threadId context txId base size inner
          successful
      simpa [TxLedger.step, TxLog.add, contributes, or_comm] using added
    · have failed : (trans.addObjToTx threadId context txId base size).1 ≠ 0 := by
        have idle : trans.isTxInThread threadId txId = false := by
          rw [← Bool.not_eq_true, mirrors.isTxInThread_iff threadId txId]
          exact contributes
        cases searched : trans.transactions.lookup (txKey txId) <;>
          simp [addObjToTx, searched, idle]
      rw [addObjToTx_failed failed]
      simpa [TxLedger.step, TxLog.put, contributes] using mirrors.refines
  exact ⟨refines, threads ▸ mirrors.keyed, threads ▸ mirrors.nonempty,
    threads ▸ mirrors.contributes,
    mirrors.live, mirrors.owned, excludes ▸ mirrors.excludes, excludes ▸ mirrors.ignored⟩

/-- One request keeps the ledger and the transactions together, by the lemma on its kind. -/
theorem mirrors_step {request : TxRequest} (mirrors : Mirrors owner trans ledger)
    (detects : Detects owner request) : Mirrors owner (txStep trans request)
      (ledger.step request) := by
  cases request with
  | start threadId context txId => exact mirrors_start mirrors detects context
  | finish threadId txId => exact mirrors_finish mirrors threadId txId
  | add threadId context txId base size =>
    exact mirrors_add mirrors threadId context txId base size detects
  | remove threadId txId base size => exact detects.elim
  | ignore base size =>
    obtain ⟨excludes, ignored, _⟩ := addRegion_exact mirrors.excludes detects
    refine ⟨mirrors.refines.congr rfl, mirrors.keyed, mirrors.nonempty, mirrors.contributes,
      mirrors.live, mirrors.owned, excludes, fun byte => ?_⟩
    rw [txStep, addToGlobalExcludes, ignored byte, mirrors.ignored byte]
    rfl
  | store threadId store =>
    have frame := handleTxStore_frame threadId store trans
    have threads : (trans.handleTxStore threadId store).threads = trans.threads := by rw [frame]
    have excludes : (trans.handleTxStore threadId store).excludes = trans.excludes := by rw [frame]
    simp only [txStep, TxLedger.step]
    exact ⟨handleTxStore_refines mirrors.refines threadId store, threads ▸ mirrors.keyed,
      threads ▸ mirrors.nonempty, threads ▸ mirrors.contributes, mirrors.live, mirrors.owned,
      excludes ▸ mirrors.excludes, excludes ▸ mirrors.ignored⟩

/-- In an agreeing state a store is recorded exactly when the ledger says so. -/
theorem handleTxStore_warns (mirrors : Mirrors owner trans ledger) (threadId : Nat)
    {store : PmemSt} (proper : store.Proper) (room : trans.ootStores.length < maxOotStores) :
    (ledger.Outside trans.transactionsOnly threadId store →
      (trans.handleTxStore threadId store).ootStores = trans.ootStores ++ [store]) ∧
    (¬ ledger.Outside trans.transactionsOnly threadId store →
      (trans.handleTxStore threadId store).ootStores = trans.ootStores) := by
  have ignored := isInMappingSet_eq_one_iff mirrors.excludes proper
  simp only [mirrors.ignored] at ignored
  have recorded (state : TransactionOps) (same : state.ootStores = trans.ootStores) :
      (state.recordStore store).ootStores = trans.ootStores ++ [store] := by
    have notFull : ¬ state.ootStores.length = maxOotStores := by
      rw [same]
      omega
    rw [recordStore, if_neg notFull, ← same]
  have lookup := mirrors.lookup_thread threadId
  unfold TxLedger.Outside handleTxStore
  split
  · next excluded =>
    have within := ignored.mp excluded
    exact ⟨fun outside => absurd within outside.1, fun _ => rfl⟩
  · next notExcluded =>
    have reported : ¬ ∀ byte, store.Covers byte → ledger.ignored byte :=
      fun within => notExcluded (ignored.mpr within)
    cases searched : trans.threads.lookup (threadKey threadId) with
    | none =>
      rw [searched] at lookup
      have idle : ¬ ∃ txId, ledger.contributes threadId txId := by
        rintro ⟨txId, contributes⟩
        exact lookup txId contributes
      simp only
      split
      · next only =>
        refine ⟨fun _ => recorded trans rfl, fun inside => absurd ?_ inside⟩
        exact ⟨reported, .inl ⟨idle, only⟩⟩
      · next notOnly =>
        refine ⟨fun outside => ?_, fun _ => rfl⟩
        rcases outside.2 with ⟨_, only⟩ | ⟨busy, _⟩
        · exact absurd only notOnly
        · exact absurd busy idle
    | some entry =>
      rw [searched] at lookup
      obtain ⟨nonempty, contributes⟩ := lookup
      obtain ⟨some, someMember⟩ := List.exists_mem_of_ne_nil _ nonempty
      have busy : ∃ txId, ledger.contributes threadId txId :=
        ⟨some, (contributes some).mp someMember⟩
      have found := searchTxs_iff mirrors.refines proper entry.txIds.toList
        (fun txId held => mirrors.live threadId txId ((contributes txId).mp held))
      simp only [contributes] at found
      have frame : (searchTxs store entry.txIds.toList trans).2.ootStores = trans.ootStores := by
        rw [searchTxs_frame]
      simp only
      split
      · next hit =>
        refine ⟨fun outside => ?_, fun _ => frame⟩
        rcases outside.2 with ⟨idle, _⟩ | ⟨_, missing⟩
        · exact absurd busy idle
        · exact absurd (found.mp hit) missing
      · next miss =>
        refine ⟨fun _ => recorded _ frame, fun inside => absurd ?_ inside⟩
        exact ⟨reported, .inr ⟨busy, fun held => miss (found.mpr held)⟩⟩

end Steps

/-- A request of the detection runs: every range can be widened without wrapping and
nothing is removed. -/
def InDetectionRun : TxRequest → Prop
  | .start _ _ _ | .finish _ _ => True
  | .add _ _ _ base size => (PmemSt.range base size).Inner
  | .remove _ _ _ _ => False
  | .ignore base size => (PmemSt.range base size).Inner
  | .store _ store => store.Inner

instance : DecidablePred InDetectionRun
  | .start _ _ _ | .finish _ _ => .isTrue trivial
  | .add _ _ _ base size => inferInstanceAs (Decidable (PmemSt.range base size).Inner)
  | .remove _ _ _ _ => .isFalse id
  | .ignore base size => inferInstanceAs (Decidable (PmemSt.range base size).Inner)
  | .store _ store => inferInstanceAs (Decidable store.Inner)

/-- No transaction id is started by two different threads. -/
def SingleOwners (requests : List TxRequest) : Prop :=
  ∀ threadId context txId otherThread otherContext,
    .start threadId context txId ∈ requests → .start otherThread otherContext txId ∈ requests →
      threadId = otherThread

/-- The owner of each id, chosen from the run. -/
theorem SingleOwners.exists_owner {requests : List TxRequest} (single : SingleOwners requests) :
    ∃ owner : Nat → Nat, ∀ threadId context txId,
      .start threadId context txId ∈ requests → threadId = owner txId := by
  have each (txId : Nat) : ∃ owner, ∀ threadId context,
      .start threadId context txId ∈ requests → threadId = owner := by
    by_cases started : ∃ threadId context, .start threadId context txId ∈ requests
    · obtain ⟨owner, ownerContext, owns⟩ := started
      exact ⟨owner, fun threadId context starts =>
        single threadId context txId owner ownerContext starts owns⟩
    · refine ⟨0, fun threadId context starts => ?_⟩
      exact absurd ⟨threadId, context, starts⟩ started
  choose owner owns using each
  exact ⟨owner, fun threadId context txId starts => owns txId threadId context starts⟩

/-- After any interleaving of starts, ends, registrations, ignored ranges and stores over any
threads, in which no id is started by two threads, the next store is recorded once if it is not
entirely ignored and either its thread contributes to no open transaction under `--tx-only`, or
it contributes to some and none of them alone has all its bytes. Otherwise nothing is recorded.

Proof: simulation by a ledger that has the ignored bytes, and for each transaction its thread
and the bytes logged. The search of the thread's transactions may fill the cache of one of
them, which changes no answer. The function then answers for the ledger. -/
theorem store_warning_exact (transactionsOnly redundantLogging : Bool) (requests : List TxRequest)
    (threadId : Nat) (store : PmemSt) (trans : TransactionOps) (ledger : TxLedger)
    (detects : ∀ request ∈ requests, InDetectionRun request) (single : SingleOwners requests)
    (reached : trans = requests.foldl txStep (initTransactions transactionsOnly redundantLogging))
    (recorded : ledger = requests.foldl TxLedger.step TxLedger.empty) (inner : store.Inner)
    (room : trans.ootStores.length < maxOotStores) :
    (ledger.Outside transactionsOnly threadId store →
      (trans.handleTxStore threadId store).ootStores = trans.ootStores ++ [store]) ∧
    (¬ ledger.Outside transactionsOnly threadId store →
      (trans.handleTxStore threadId store).ootStores = trans.ootStores) := by
  obtain ⟨owner, owns⟩ := single.exists_owner
  have admitted : ∀ request ∈ requests, Detects owner request := by
    intro request member
    have inRun := detects request member
    cases request with
    | start threadId context txId => exact owns threadId context txId member
    | finish threadId txId => trivial
    | add threadId context txId base size => exact inRun
    | remove threadId txId base size => exact inRun
    | ignore base size => exact inRun
    | store threadId store => exact inRun
  have initial : Mirrors owner (initTransactions transactionsOnly redundantLogging)
      TxLedger.empty := by
    refine ⟨refines_init transactionsOnly redundantLogging, ⟨List.Pairwise.nil, ?_⟩, ?_, ?_, ?_, ?_,
      regionSet_nil, ?_⟩ <;>
      simp [initTransactions, TxLedger.empty, Contributes, Tracks]
  have mirrors : Mirrors owner trans ledger := by
    rw [reached, recorded]
    refine Runs.simulation ?_ _ _ requests initial (Runs.allSteps_of_forall _ admitted)
    exact fun _ _ _ related isDetecting => mirrors_step related isDetecting
  have option : trans.transactionsOnly = transactionsOnly := by
    rw [reached]
    exact (run_options transactionsOnly redundantLogging requests).1
  have warns := handleTxStore_warns mirrors threadId inner.proper room
  rwa [option] at warns

/-- A store that lies half in one and half in the other of its thread's two
transactions is recorded, although every byte of it is registered somewhere. -/
theorem store_warning_across_transactions :
    let requests : List TxRequest := [.start 1 none 7, .start 1 none 8, .add 1 none 7 100 8,
      .add 1 none 8 108 8, .ignore 500 16, .store 1 (PmemSt.range 100 4)]
    let trans := requests.foldl txStep (initTransactions false false)
    (trans.handleTxStore 1 (PmemSt.range 104 8)).ootStores =
      trans.ootStores ++ [PmemSt.range 104 8] := by
  intro requests trans
  have single : SingleOwners requests := by
    intro threadId context txId otherThread otherContext starts otherStarts
    simp only [requests, List.mem_cons, TxRequest.start.injEq, reduceCtorEq, List.not_mem_nil,
      or_false] at starts otherStarts
    omega
  have outside : (requests.foldl TxLedger.step TxLedger.empty).Outside false 1
      (PmemSt.range 104 8) := by
    refine ⟨fun ignored => ?_, .inr ⟨⟨7, ?_⟩, ?_⟩⟩
    · have := ignored 104 (by decide)
      simp [requests, TxLedger.step, TxLedger.empty] at this
    · simp [requests, TxLedger.step, TxLedger.empty]
    · rintro ⟨txId, contributes, holds⟩
      have first := holds 104 (by decide)
      have last := holds 108 (by decide)
      simp [requests, TxLedger.step, TxLedger.empty] at contributes
      rcases contributes with rfl | rfl <;>
        simp [requests, TxLedger.step, TxLedger.empty, TxLog.put, TxLog.start, TxLog.empty]
          at first last
  exact (store_warning_exact false false requests 1 (PmemSt.range 104 8) trans _ (by decide) single
    rfl rfl (by decide) (by decide +kernel)).1 outside

end PmDebugger
