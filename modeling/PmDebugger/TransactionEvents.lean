import PmDebugger.TransactionLog

/-!
# Events of a registration

A registration walks over all open transactions and appends an event for each one
in which it finds an overlapping region, first in the cache and then in the region
set. Because cache and region set together track exactly the registered bytes, the
events are those of the abstract log: one for each transaction that shares a byte
with the new range.

The registers are bounded. The results assume that they end below their bound, so
that no event was dropped on the way.
-/

namespace PmDebugger

open OrderedSet OrderedSet.OSet TransactionOps

/-- The event that a registration of `reg` in `txId` owes to another transaction: the range
found there, and the new one. Its own transaction gets none of this kind. -/
def crossEventOf (txId : Nat) (reg : PmemSt) (tx : TxInfo) : Option CrossTxEvent :=
  if tx.txId = txId then none
  else (registeredIn reg tx).map (fun original =>
    { original := original, origTxId := tx.txId, duplicate := reg, dupTxId := txId })

/-- The event that it owes to its own transaction, if redundant logging is checked. -/
def redundantEventOf (redundantLogging : Bool) (txId : Nat) (reg : PmemSt) (tx : TxInfo) :
    Option RedundantLoggingTxEvent :=
  if tx.txId = txId ∧ redundantLogging = true then
    (registeredIn reg tx).map (fun original =>
      { original := original, txId := txId, duplicate := reg })
  else none

section Reporting

variable (txId : Nat) (reg : PmemSt)

/-- One visit appends the two owed events unless a register is full. -/
theorem reportOverlap_events (trans : TransactionOps) (tx : TxInfo) :
    (reportOverlap txId reg trans tx).crossTxEvs =
      (if trans.crossTxEvs.length = maxCrossEvs then trans.crossTxEvs
      else trans.crossTxEvs ++ (crossEventOf txId reg tx).toList) ∧
    (reportOverlap txId reg trans tx).redundantLoggingTxEvs =
      (if trans.redundantLoggingTxEvs.length = maxCrossEvs then trans.redundantLoggingTxEvs
      else trans.redundantLoggingTxEvs ++
        (redundantEventOf trans.redundantLogging txId reg tx).toList) := by
  unfold reportOverlap crossEventOf redundantEventOf
  by_cases own : tx.txId = txId
  · by_cases logging : trans.redundantLogging = true
    · cases registeredIn reg tx with
      | none => simp [own, logging]
      | some original =>
        by_cases full : trans.redundantLoggingTxEvs.length = maxCrossEvs
        · simp [own, logging, registerRedundantLoggingEvent, full]
        · simp [own, logging, registerRedundantLoggingEvent, full]
    · simp [own, logging]
  · cases registeredIn reg tx with
    | none => simp [own]
    | some original =>
      by_cases full : trans.crossTxEvs.length = maxCrossEvs
      · simp [own, registerCrossEvent, full]
      · simp [own, registerCrossEvent, full]

/-- The registers never shrink. -/
theorem reportOverlaps_grow (elems : List TxInfo) (trans : TransactionOps) :
    trans.crossTxEvs.length ≤ (elems.foldl (reportOverlap txId reg) trans).crossTxEvs.length ∧
    trans.redundantLoggingTxEvs.length ≤
      (elems.foldl (reportOverlap txId reg) trans).redundantLoggingTxEvs.length := by
  induction elems generalizing trans with
  | nil => exact ⟨Nat.le_refl _, Nat.le_refl _⟩
  | cons tx rest inductionHypothesis =>
    obtain ⟨cross, redundant⟩ := reportOverlap_events txId reg trans tx
    obtain ⟨crossGrows, redundantGrows⟩ := inductionHypothesis (reportOverlap txId reg trans tx)
    rw [cross] at crossGrows
    rw [redundant] at redundantGrows
    constructor
    · refine Nat.le_trans ?_ crossGrows
      split <;> simp
    · refine Nat.le_trans ?_ redundantGrows
      split <;> simp

/-- A walk that ends below the bounds appended every owed event, in the order of the
transactions. -/
theorem reportOverlaps_events (elems : List TxInfo) (trans : TransactionOps)
    (crossRoom : (elems.foldl (reportOverlap txId reg) trans).crossTxEvs.length < maxCrossEvs)
    (redundantRoom : (elems.foldl (reportOverlap txId reg) trans).redundantLoggingTxEvs.length <
      maxCrossEvs) :
    (elems.foldl (reportOverlap txId reg) trans).crossTxEvs =
      trans.crossTxEvs ++ elems.filterMap (crossEventOf txId reg) ∧
    (elems.foldl (reportOverlap txId reg) trans).redundantLoggingTxEvs =
      trans.redundantLoggingTxEvs ++
        elems.filterMap (redundantEventOf trans.redundantLogging txId reg) := by
  induction elems generalizing trans with
  | nil => simp
  | cons tx rest inductionHypothesis =>
    have grown := reportOverlaps_grow txId reg (tx :: rest) trans
    obtain ⟨cross, redundant⟩ := reportOverlap_events txId reg trans tx
    rw [if_neg (by omega)] at cross redundant
    obtain ⟨crossRest, redundantRest⟩ := inductionHypothesis (reportOverlap txId reg trans tx)
      crossRoom redundantRoom
    rw [List.foldl_cons, crossRest, redundantRest, cross, redundant]
    have option : (reportOverlap txId reg trans tx).redundantLogging = trans.redundantLogging := by
      rw [reportOverlap_frame]
    rw [option]
    constructor
    · cases owed : crossEventOf txId reg tx <;> simp [owed]
    · cases owed : redundantEventOf trans.redundantLogging txId reg tx <;> simp [owed]

/-- What a registration appends names it: the new range is the duplicate, and its transaction is
that of the event. A cross event has its original in another transaction. -/
structure EventsName (txId : Nat) (reg : PmemSt) (before after : TransactionOps) : Prop where
  redundant : ∀ event ∈ after.redundantLoggingTxEvs, event ∈ before.redundantLoggingTxEvs ∨
    event.txId = txId ∧ event.duplicate = reg
  cross : ∀ event ∈ after.crossTxEvs, event ∈ before.crossTxEvs ∨
    event.dupTxId = txId ∧ event.duplicate = reg ∧ event.origTxId ≠ txId

/-- One visit. A full register gets no event. -/
theorem reportOverlap_names (trans : TransactionOps) (tx : TxInfo) :
    EventsName txId reg trans (reportOverlap txId reg trans tx) := by
  obtain ⟨cross, redundant⟩ := reportOverlap_events txId reg trans tx
  constructor
  · intro event member
    rw [redundant] at member
    split at member
    · exact .inl member
    · refine (List.mem_append.mp member).imp_right (fun owed => ?_)
      rw [Option.mem_toList, redundantEventOf] at owed
      split at owed
      · obtain ⟨original, _, rfl⟩ := Option.map_eq_some_iff.mp owed
        exact ⟨rfl, rfl⟩
      · cases owed
  · intro event member
    rw [cross] at member
    split at member
    · exact .inl member
    · refine (List.mem_append.mp member).imp_right (fun owed => ?_)
      rw [Option.mem_toList, crossEventOf] at owed
      split at owed
      · cases owed
      · next differs =>
        obtain ⟨original, _, rfl⟩ := Option.map_eq_some_iff.mp owed
        exact ⟨rfl, rfl, differs⟩

/-- The whole walk. -/
theorem reportOverlaps_names (elems : List TxInfo) (trans : TransactionOps) :
    EventsName txId reg trans (elems.foldl (reportOverlap txId reg) trans) := by
  induction elems generalizing trans with
  | nil => exact ⟨fun _ => .inl, fun _ => .inl⟩
  | cons tx rest inductionHypothesis =>
    have first := reportOverlap_names txId reg trans tx
    have later := inductionHypothesis (reportOverlap txId reg trans tx)
    constructor
    · intro event member
      exact (later.redundant event member).elim (first.redundant event) .inr
    · intro event member
      exact (later.cross event member).elim (first.cross event) .inr

/-- Every event that a registration appends names the new range and its transaction, whether the
registration succeeds or not. -/
theorem addObjToTx_names (trans : TransactionOps) (threadId : Nat) (context : Option ExeContext)
    (base size : Nat) : EventsName txId { PmemSt.range base size with context := context } trans
      (trans.addObjToTx threadId context txId base size).2 := by
  have unchanged : EventsName txId { PmemSt.range base size with context := context } trans trans :=
    ⟨fun _ => .inl, fun _ => .inl⟩
  unfold addObjToTx
  split
  · exact unchanged
  · split
    · obtain ⟨redundant, cross⟩ := reportOverlaps_names txId
        { PmemSt.range base size with context := context } trans.transactions.toList trans
      exact ⟨redundant, cross⟩
    · exact unchanged

end Reporting

/-- A transaction has an original registration exactly when it tracks a byte of the
new range. -/
theorem registeredIn_isSome_iff {tx : TxInfo} (sound : tx.Sound) {reg : PmemSt}
    (inner : reg.Inner) :
    (registeredIn reg tx).isSome = true ↔ ∃ byte, reg.Covers byte ∧ tx.Tracked byte := by
  have meets := cmpPmemSt_eq_iff inner.proper.nonWrapping sound.cache_nonWrapping
  unfold registeredIn
  by_cases cached : cmpPmemSt reg tx.cachedRegion = .eq
  · rw [if_pos cached]
    refine iff_of_true rfl ⟨max reg.addr tx.cachedRegion.addr, ?_⟩
    rw [meets] at cached
    have := inner.nonempty
    unfold TxInfo.Tracked PmemSt.Covers
    refine ⟨by omega, .inl ?_⟩
    rcases sound.cache with empty | cacheInner
    · omega
    · have := cacheInner.nonempty
      omega
  · have apart (byte : Nat) (inside : reg.Covers byte) : ¬ tx.cachedRegion.Covers byte := by
      rw [meets] at cached
      unfold PmemSt.Covers at *
      omega
    have absent := isInMappingSet_eq_zero_iff sound.regions inner.proper
    rw [if_neg cached]
    by_cases missing : isInMappingSet reg tx.regions = 0
    · rw [if_neg (not_not.mpr missing)]
      rw [absent] at missing
      simp only [Option.isSome_none, Bool.false_eq_true, TxInfo.Tracked, false_iff, not_exists,
        not_and]
      intro byte inside tracked
      exact tracked.elim (apart byte inside) (missing byte inside)
    · rw [if_pos missing]
      have found : (tx.regions.lookup (cmpPmemSt reg)).isSome = true := by
        unfold isInMappingSet at missing
        split at missing
        · exact absurd rfl missing
        · next searched => simp [searched]
      rw [absent] at missing
      push Not at missing
      obtain ⟨byte, inside, tracked⟩ := missing
      exact iff_of_true found ⟨byte, inside, .inr tracked⟩

/-- The new range shares a byte with what was registered in a transaction, whichever
registrations that byte came from. -/
def TxLog.Shares (log : TxLog) (txId base size : Nat) : Prop :=
  ∃ byte, (PmemSt.range base size).Covers byte ∧ log.bytes txId byte

/-- A request of a run without removals whose registrations all succeed. The ranges can be
widened by a byte on either side. -/
def Registering (trans : TransactionOps) : TxRequest → Prop
  | .add threadId context txId base size => (PmemSt.range base size).Inner ∧
      (trans.addObjToTx threadId context txId base size).1 = 0
  | .remove _ _ _ _ => False
  | _ => True

instance (trans : TransactionOps) : DecidablePred (Registering trans)
  | .add _ _ _ _ _ => inferInstanceAs (Decidable (_ ∧ _))
  | .remove _ _ _ _ => .isFalse id
  | .start _ _ _ | .finish _ _ | .ignore _ _ | .store _ _ => .isTrue trivial

/-- Such a request acts on the log as on the state. -/
theorem registering_refines {trans : TransactionOps} {log : TxLog} {request : TxRequest}
    (refines : Refines trans log) (registering : Registering trans request) :
    Refines (txStep trans request) (log.step request) := by
  cases request with
  | start threadId context txId => exact registerNewTx_refines refines threadId context txId
  | finish threadId txId => exact removeTx_refines refines txId
  | add threadId context txId base size =>
    exact addObjToTx_refines refines threadId context txId base size registering.1 registering.2
  | remove threadId txId base size => exact registering.elim
  | ignore base size => exact refines.congr rfl
  | store threadId store => exact handleTxStore_refines refines threadId store

/-- The walk owes another open transaction one event or none. -/
theorem crossEvents_count {elems : List TxInfo} (keyed : Keyed TxInfo.txId elems) {tx : TxInfo}
    (member : tx ∈ elems) {txId : Nat} (differs : tx.txId ≠ txId) (reg : PmemSt) :
    (elems.filterMap (crossEventOf txId reg)).countP (fun event => event.origTxId = tx.txId) =
      if (registeredIn reg tx).isSome then 1 else 0 := by
  rw [List.countP_filterMap, keyed.countP_eq member]
  · cases original : registeredIn reg tx <;> simp [crossEventOf, differs, original]
  · intro other _ owed
    unfold crossEventOf at owed
    split at owed
    · simp at owed
    · cases original : registeredIn reg other <;> simp_all

/-- The walk owes its own transaction one event or none. -/
theorem redundantEvents_count {elems : List TxInfo} (keyed : Keyed TxInfo.txId elems) {tx : TxInfo}
    (member : tx ∈ elems) (reg : PmemSt) :
    (elems.filterMap (redundantEventOf true tx.txId reg)).length =
      if (registeredIn reg tx).isSome then 1 else 0 := by
  rw [List.length_filterMap_eq_countP, keyed.countP_eq member]
  · cases original : registeredIn reg tx <;> simp [redundantEventOf, original]
  · intro other _ owed
    unfold redundantEventOf at owed
    split at owed
    · next own => exact own.1
    · simp at owed

/-- A logged transaction has an original registration exactly when the log shares a
byte with the new range. -/
theorem Logs.registeredIn_iff {log : TxLog} {tx : TxInfo} (logs : Logs log tx) {reg : PmemSt}
    (inner : reg.Inner) :
    (registeredIn reg tx).isSome = true ↔ log.Shares tx.txId reg.addr reg.size := by
  rw [registeredIn_isSome_iff logs.sound inner]
  refine exists_congr (fun byte => ?_)
  rw [logs.tracked byte]
  rfl

/-- The events of one successful registration in any consistent state. -/
theorem addObjToTx_events {trans : TransactionOps} {log : TxLog} (refines : Refines trans log)
    {threadId txId base size : Nat} {context : Option ExeContext}
    (inner : (PmemSt.range base size).Inner)
    (successful : (trans.addObjToTx threadId context txId base size).1 = 0)
    (crossRoom : (trans.addObjToTx threadId context txId base size).2.crossTxEvs.length <
      maxCrossEvs)
    (redundantRoom : (trans.addObjToTx threadId context txId base
      size).2.redundantLoggingTxEvs.length < maxCrossEvs) :
    ∃ cross redundant,
      (trans.addObjToTx threadId context txId base size).2.crossTxEvs =
        trans.crossTxEvs ++ cross ∧
      (trans.addObjToTx threadId context txId base size).2.redundantLoggingTxEvs =
        trans.redundantLoggingTxEvs ++ redundant ∧
      (trans.redundantLogging = true → (log.Shares txId base size → redundant.length = 1) ∧
        (¬ log.Shares txId base size → redundant = [])) ∧
      ∀ other, other ≠ txId → log.depth other ≠ 0 →
        (log.Shares other base size →
          cross.countP (fun event => event.origTxId = other) = 1) ∧
        (¬ log.Shares other base size →
          cross.countP (fun event => event.origTxId = other) = 0) := by
  cases searched : trans.transactions.lookup (txKey txId) with
  | none => simp [addObjToTx, searched] at successful
  | some tx =>
    obtain ⟨member, rfl⟩ := refines.lookup_some.mp searched
    by_cases contributes : trans.isTxInThread threadId tx.txId = true
    · simp only [addObjToTx, searched, contributes, if_true] at crossRoom redundantRoom ⊢
      obtain ⟨cross, redundant⟩ := reportOverlaps_events tx.txId _ _ trans crossRoom redundantRoom
      have regInner : ({ PmemSt.range base size with context := context } : PmemSt).Inner :=
        ⟨inner.positive, inner.nonempty, inner.below⟩
      refine ⟨_, _, cross, redundant, ?_, ?_⟩
      · intro logging
        have count := redundantEvents_count refines.keyed member
          { PmemSt.range base size with context := context }
        have shares := (refines.logged tx member).registeredIn_iff regInner
        rw [logging]
        refine ⟨fun shared => count.trans (if_pos (shares.mpr shared)), fun unshared => ?_⟩
        exact List.eq_nil_of_length_eq_zero
          (count.trans (if_neg (fun registered => unshared (shares.mp registered))))
      · intro other differs isOpen
        obtain ⟨tested, testedMember, rfl⟩ := (refines.isOpen other).mpr isOpen
        have count := crossEvents_count refines.keyed testedMember differs
          { PmemSt.range base size with context := context }
        have shares := (refines.logged tested testedMember).registeredIn_iff regInner
        exact ⟨fun shared => count.trans (if_pos (shares.mpr shared)),
          fun unshared => count.trans (if_neg (fun registered => unshared (shares.mp registered)))⟩
    · simp [addObjToTx, searched, contributes] at successful

/-- After any interleaving of starts, ends, stores and successful registrations the next
successful registration appends exactly the events that the log calls for. With redundant
logging it appends one event for its own transaction if it shares a byte with an earlier
registration there and none otherwise; for every other open transaction it appends one event if
they share a byte and none otherwise.

Proof: simulation by a log of the bytes of each open transaction. The walk over the open
transactions comes to each of them once, and compares the region with the regions and the cache
of that one, which have the bytes of the log. -/
theorem registration_events_exact (transactionsOnly redundantLogging : Bool)
    (requests : List TxRequest) (threadId : Nat) (context : Option ExeContext)
    (txId base size : Nat) (trans : TransactionOps) (log : TxLog)
    (admitted : Runs.AllSteps txStep Registering
      (initTransactions transactionsOnly redundantLogging) requests)
    (reached : trans = requests.foldl txStep (initTransactions transactionsOnly redundantLogging))
    (logged : log = requests.foldl TxLog.step TxLog.empty)
    (inner : (PmemSt.range base size).Inner)
    (successful : (trans.addObjToTx threadId context txId base size).1 = 0)
    (crossRoom : (trans.addObjToTx threadId context txId base size).2.crossTxEvs.length <
      maxCrossEvs)
    (redundantRoom : (trans.addObjToTx threadId context txId base
      size).2.redundantLoggingTxEvs.length < maxCrossEvs) :
    ∃ cross redundant,
      (trans.addObjToTx threadId context txId base size).2.crossTxEvs =
        trans.crossTxEvs ++ cross ∧
      (trans.addObjToTx threadId context txId base size).2.redundantLoggingTxEvs =
        trans.redundantLoggingTxEvs ++ redundant ∧
      (redundantLogging = true → (log.Shares txId base size → redundant.length = 1) ∧
        (¬ log.Shares txId base size → redundant = [])) ∧
      ∀ other, other ≠ txId → log.depth other ≠ 0 →
        (log.Shares other base size →
          cross.countP (fun event => event.origTxId = other) = 1) ∧
        (¬ log.Shares other base size →
          cross.countP (fun event => event.origTxId = other) = 0) := by
  have refines : Refines trans log := by
    rw [reached, logged]
    refine Runs.simulation ?_ _ _ requests (refines_init transactionsOnly redundantLogging) admitted
    exact fun _ _ _ related registering => registering_refines related registering
  have option : trans.redundantLogging = redundantLogging := by
    rw [reached]
    exact (run_options transactionsOnly redundantLogging requests).2
  have events := addObjToTx_events refines inner successful crossRoom redundantRoom
  rwa [option] at events

/-- Two threads, two transactions, and a store that flushes a cache: a range that
reaches into both transactions owes each of them one event. -/
theorem registration_events_two_transactions :
    let requests : List TxRequest := [.start 1 none 7, .start 2 none 8, .add 1 none 7 100 8,
      .add 2 none 8 200 8, .store 1 (PmemSt.range 104 4), .add 1 none 7 108 8]
    let trans := requests.foldl txStep (initTransactions false true)
    ∃ cross redundant,
      (trans.addObjToTx 1 none 7 104 100).2.crossTxEvs = trans.crossTxEvs ++ cross ∧
      (trans.addObjToTx 1 none 7 104 100).2.redundantLoggingTxEvs =
        trans.redundantLoggingTxEvs ++ redundant ∧
      redundant.length = 1 ∧ cross.countP (fun event => event.origTxId = 8) = 1 := by
  intro requests trans
  have ownShare : (requests.foldl TxLog.step TxLog.empty).Shares 7 104 100 := by
    refine ⟨104, by decide, ?_⟩
    simp [requests, TxLog.step, TxLog.add, TxLog.put, TxLog.start, TxLog.empty, PmemSt.Covers,
      PmemSt.range]
  have otherShare : (requests.foldl TxLog.step TxLog.empty).Shares 8 104 100 := by
    refine ⟨200, by decide, ?_⟩
    simp [requests, TxLog.step, TxLog.add, TxLog.put, TxLog.start, TxLog.empty, PmemSt.Covers,
      PmemSt.range]
  have otherOpen : (requests.foldl TxLog.step TxLog.empty).depth 8 ≠ 0 := by
    simp [requests, TxLog.step, TxLog.add, TxLog.put, TxLog.start, TxLog.empty]
  obtain ⟨cross, redundant, crossEvs, redundantEvs, own, others⟩ :=
    registration_events_exact false true requests 1 none 7 104 100 trans _ (by decide +kernel) rfl
      rfl (by decide) (by decide +kernel) (by decide +kernel) (by decide +kernel)
  exact ⟨cross, redundant, crossEvs, redundantEvs, (own rfl).1 ownShare,
    (others 8 (by decide) otherOpen).1 otherShare⟩

end PmDebugger
