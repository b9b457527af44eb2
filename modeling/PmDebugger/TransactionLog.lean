import PmDebugger.Library.Runs
import PmDebugger.Transactions

/-!
# What a transaction tracks

The abstract log knows, for every transaction id, how deep it is nested and which
bytes were registered since it was opened. The cached region together with the
region set of an open transaction tracks exactly those bytes, through the three
overlap cases of a registration and through the cache flushes caused by stores.

Removal is the exception. Its two shortcuts forget either the region set or the
cache, so a removal is exact under a condition on the transaction it meets, and
only then.
-/

namespace PmDebugger

open OrderedSet OrderedSet.OSet TransactionOps

/-- Bytes tracked by a transaction: the cached region and the region set. The range that was
registered last may be in the cache alone. -/
def TxInfo.Tracked (tx : TxInfo) (byte : Nat) : Prop :=
  tx.cachedRegion.Covers byte ∨ Tracks tx.regions.toList byte

instance (tx : TxInfo) (byte : Nat) : Decidable (tx.Tracked byte) :=
  inferInstanceAs (Decidable (_ ∨ _))

/-- The regions form a region set and the cache is empty or holds a region that
could be added to it. -/
structure TxInfo.Sound (tx : TxInfo) : Prop where
  regions : RegionSet tx.regions.toList
  cache : tx.cachedRegion.addr = 0 ∧ tx.cachedRegion.size = 0 ∨ tx.cachedRegion.Inner

/-- An empty cache covers nothing. -/
theorem not_covers_empty {store : PmemSt} (empty : store.size = 0) (byte : Nat) :
    ¬ store.Covers byte := by
  unfold PmemSt.Covers
  omega

/-- The cached region of a sound transaction never wraps. -/
theorem TxInfo.Sound.cache_nonWrapping {tx : TxInfo} (sound : tx.Sound) :
    tx.cachedRegion.NonWrapping := by
  rcases sound.cache with ⟨addr, size⟩ | inner
  · unfold PmemSt.NonWrapping
    omega
  · exact inner.proper.nonWrapping

/-- Flushing the cache moves its bytes to the region set. -/
theorem flushCache_exact {tx : TxInfo} (sound : tx.Sound) :
    (flushCache tx).Sound ∧ (flushCache tx).cachedRegion.size = 0 ∧
      ∀ byte, Tracks (flushCache tx).regions.toList byte ↔ tx.Tracked byte := by
  rcases sound.cache with empty | inner
  · have same : flushCache tx = tx := by simp [flushCache, empty]
    rw [same]
    refine ⟨sound, empty.2, fun byte => ?_⟩
    simp [TxInfo.Tracked, not_covers_empty empty.2]
  · have notEmpty : ¬ (tx.cachedRegion.addr = 0 ∧ tx.cachedRegion.size = 0) := by
      have := inner.nonempty
      omega
    obtain ⟨regions, bytes, _⟩ := addRegion_exact sound.regions inner
    rw [flushCache, if_neg notEmpty]
    exact ⟨⟨regions, .inl ⟨rfl, rfl⟩⟩, rfl, bytes⟩

/-- To move the cache into the regions tracks the same bytes. -/
theorem flushCache_tracked {tx : TxInfo} (sound : tx.Sound) (byte : Nat) :
    (flushCache tx).Tracked byte ↔ tx.Tracked byte := by
  obtain ⟨_, empty, bytes⟩ := flushCache_exact sound
  rw [TxInfo.Tracked, bytes byte]
  simp [not_covers_empty empty]

/-- The transaction keeps its id. -/
@[simp] theorem flushCache_txId (tx : TxInfo) : (flushCache tx).txId = tx.txId := by
  unfold flushCache
  split <;> rfl

/-- The transaction keeps its depth. -/
@[simp] theorem flushCache_counter (tx : TxInfo) : (flushCache tx).counter = tx.counter := by
  unfold flushCache
  split <;> rfl

/-- A registration adds exactly its bytes. In the first overlap case the old cache
moves to the region set, in the second it is cut around the new region, and in the
third it lies within the new region and is dropped. -/
theorem cacheRegion_exact {tx : TxInfo} (sound : tx.Sound) {reg : PmemSt} (inner : reg.Inner)
    (dbIndex : Nat) :
    (cacheRegion reg tx dbIndex).1.Sound ∧
      ∀ byte, (cacheRegion reg tx dbIndex).1.Tracked byte ↔ reg.Covers byte ∨ tx.Tracked byte := by
  obtain ⟨flushed, _, bytes⟩ := flushCache_exact sound
  by_cases cached : tx.cachedRegion.addr ≠ 0 ∧ tx.cachedRegion.size ≠ 0
  · have cacheInner : tx.cachedRegion.Inner := sound.cache.resolve_left (by omega)
    by_cases apart : checkOverlap tx.cachedRegion reg = 0
    · have result : cacheRegion reg tx dbIndex =
          ({ flushCache tx with cachedRegion := reg }, dbIndex) := by
        rw [cacheRegion, if_pos cached, if_pos apart]
      rw [result]
      refine ⟨⟨flushed.regions, .inr inner⟩, fun byte => ?_⟩
      simp only [TxInfo.Tracked, bytes byte]
    · by_cases crossing : checkOverlap tx.cachedRegion reg = 2
      · obtain ⟨rest, restBytes, _⟩ := removeRegion_exact flushed.regions inner.proper dbIndex
        have result : (cacheRegion reg tx dbIndex).1 =
            { flushCache tx with
              regions := (removeRegion cmpPmemSt reg (flushCache tx).regions dbIndex).1
              cachedRegion := reg } := by
          simp only [cacheRegion, if_pos cached, if_neg apart, if_pos crossing]
        rw [result]
        refine ⟨⟨rest, .inr inner⟩, fun byte => ?_⟩
        simp only [TxInfo.Tracked, restBytes byte, bytes byte]
        tauto
      · have result : (cacheRegion reg tx dbIndex).1 = { tx with cachedRegion := reg } := by
          simp only [cacheRegion, if_pos cached, if_neg apart, if_neg crossing]
        have contained : ∀ byte, tx.cachedRegion.Covers byte → reg.Covers byte := by
          rw [← checkOverlap_eq_one_iff cacheInner.proper inner.proper.nonWrapping]
          unfold checkOverlap at apart crossing ⊢
          grind
        rw [result]
        refine ⟨⟨sound.regions, .inr inner⟩, fun byte => ?_⟩
        simp only [TxInfo.Tracked]
        have := contained byte
        tauto
  · have empty : tx.cachedRegion.size = 0 := by
      rcases sound.cache with zero | cacheInner
      · exact zero.2
      · have := cacheInner.positive
        have := cacheInner.nonempty
        omega
    have result : (cacheRegion reg tx dbIndex).1 = { tx with cachedRegion := reg } := by
      simp only [cacheRegion, if_neg cached]
    rw [result]
    refine ⟨⟨sound.regions, .inr inner⟩, fun byte => ?_⟩
    simp [TxInfo.Tracked, not_covers_empty empty]

/-- A registration keeps the id. -/
@[simp] theorem cacheRegion_txId (reg : PmemSt) (tx : TxInfo) (dbIndex : Nat) :
    (cacheRegion reg tx dbIndex).1.txId = tx.txId := by
  unfold cacheRegion
  split
  · simp only
    split
    · simp
    · split <;> simp
  · rfl

/-- A registration keeps the depth. -/
@[simp] theorem cacheRegion_counter (reg : PmemSt) (tx : TxInfo) (dbIndex : Nat) :
    (cacheRegion reg tx dbIndex).1.counter = tx.counter := by
  unfold cacheRegion
  split
  · simp only
    split
    · simp
    · split <;> simp
  · rfl

/-- When a removal finds the region in the cache the region set must not share a
byte with it, and otherwise the cache must not overlap it. -/
def RemovesCleanly (reg : PmemSt) (tx : TxInfo) : Prop :=
  if isInCache reg tx then isInMappingSet reg tx.regions = 0
  else cmpPmemSt reg tx.cachedRegion ≠ .eq

instance (reg : PmemSt) (tx : TxInfo) : Decidable (RemovesCleanly reg tx) :=
  inferInstanceAs (Decidable (ite _ _ _))

/-- A removal keeps the transaction sound. -/
theorem uncacheRegion_sound {tx : TxInfo} (sound : tx.Sound) {reg : PmemSt} (inner : reg.Inner)
    (dbIndex : Nat) : (uncacheRegion reg tx dbIndex).1.Sound := by
  unfold uncacheRegion
  split
  · exact ⟨sound.regions, .inl ⟨rfl, rfl⟩⟩
  · have regions : RegionSet (if cmpPmemSt reg tx.cachedRegion = .eq
        then addRegion tx.cachedRegion tx.regions else tx.regions).toList := by
      split
      · next meets =>
        rcases sound.cache with empty | cacheInner
        · rw [cmpPmemSt_eq_iff inner.proper.nonWrapping sound.cache_nonWrapping] at meets
          omega
        · exact (addRegion_exact sound.regions cacheInner).1
      · exact sound.regions
    exact ⟨(removeRegion_exact regions inner.proper dbIndex).1, sound.cache⟩

/-- A removal takes away exactly its bytes if and only if it removes cleanly. When
it does not, some byte of the removed region stays tracked: in the region set after
the exact-match shortcut, in the cache after the partial one. -/
theorem uncacheRegion_exact_iff {tx : TxInfo} (sound : tx.Sound) {reg : PmemSt} (inner : reg.Inner)
    (dbIndex : Nat) :
    (∀ byte, (uncacheRegion reg tx dbIndex).1.Tracked byte ↔
      tx.Tracked byte ∧ ¬ reg.Covers byte) ↔ RemovesCleanly reg tx := by
  by_cases exactMatch : isInCache reg tx = true
  · have sameRange : reg.addr = tx.cachedRegion.addr ∧ reg.size = tx.cachedRegion.size := by
      simpa [isInCache] using exactMatch
    have sameBytes : ∀ byte, tx.cachedRegion.Covers byte ↔ reg.Covers byte := by
      intro byte
      simp only [PmemSt.Covers, sameRange]
    simp only [RemovesCleanly, uncacheRegion, exactMatch, if_true, TxInfo.Tracked, sameBytes]
    rw [isInMappingSet_eq_zero_iff sound.regions inner.proper]
    constructor
    · intro exact byte inside tracked
      exact ((exact byte).mp (.inr tracked)).2 inside
    · intro clear byte
      have none : ¬ ({ tx.cachedRegion with addr := 0, size := 0 } : PmemSt).Covers byte :=
        not_covers_empty rfl byte
      have := clear byte
      tauto
  · have differs : isInCache reg tx = false := by simpa using exactMatch
    simp only [RemovesCleanly, uncacheRegion, differs, Bool.false_eq_true, if_false]
    by_cases meets : cmpPmemSt reg tx.cachedRegion = .eq
    · simp only [meets, ne_eq, not_true_eq_false, iff_false]
      intro exact
      have overlap := (cmpPmemSt_eq_iff inner.proper.nonWrapping sound.cache_nonWrapping).mp meets
      have := inner.nonempty
      have shared : tx.cachedRegion.Covers (max reg.addr tx.cachedRegion.addr) := by
        have cache := sound.cache
        unfold PmemSt.Covers
        rcases cache with empty | cacheInner
        · omega
        · have := cacheInner.nonempty
          omega
      refine ((exact (max reg.addr tx.cachedRegion.addr)).mp (.inl shared)).2 ?_
      unfold PmemSt.Covers
      omega
    · simp only [meets, if_false, ne_eq, not_false_eq_true, iff_true]
      obtain ⟨_, bytes, _⟩ := removeRegion_exact sound.regions inner.proper dbIndex
      intro byte
      have outside : reg.Covers byte → ¬ tx.cachedRegion.Covers byte := by
        rw [cmpPmemSt_eq_iff inner.proper.nonWrapping sound.cache_nonWrapping] at meets
        unfold PmemSt.Covers
        omega
      simp only [TxInfo.Tracked, bytes byte]
      tauto

/-- A removal keeps the id. -/
@[simp] theorem uncacheRegion_txId (reg : PmemSt) (tx : TxInfo) (dbIndex : Nat) :
    (uncacheRegion reg tx dbIndex).1.txId = tx.txId := by
  unfold uncacheRegion
  split <;> rfl

/-- A removal keeps the depth. -/
@[simp] theorem uncacheRegion_counter (reg : PmemSt) (tx : TxInfo) (dbIndex : Nat) :
    (uncacheRegion reg tx dbIndex).1.counter = tx.counter := by
  unfold uncacheRegion
  split <;> rfl

/-- The abstract log: the nesting depth of every transaction id, zero when it is
not open, and the bytes registered since it was opened. -/
structure TxLog where
  depth : Nat → Nat
  bytes : Nat → Nat → Prop

namespace TxLog

/-- No transaction is open, and no bytes are registered. -/
def empty : TxLog := { depth := fun _ => 0, bytes := fun _ _ => False }

/-- Opening forgets what an earlier transaction of the same id registered. -/
def start (txId : Nat) (log : TxLog) : TxLog where
  depth := Function.update log.depth txId (log.depth txId + 1)
  bytes := if log.depth txId = 0 then Function.update log.bytes txId (fun _ => False) else log.bytes

/-- The depth goes down by one. A transaction that ends keeps its bytes here, since the next
one of the same id starts without them. -/
def finish (txId : Nat) (log : TxLog) : TxLog :=
  { log with depth := Function.update log.depth txId (log.depth txId - 1) }

/-- Replace the bytes of one transaction. The others and all depths stay. -/
def put (txId : Nat) (bytes : Nat → Prop) (log : TxLog) : TxLog :=
  { log with bytes := Function.update log.bytes txId bytes }

/-- The bytes of the range are added to those of the transaction. -/
def add (txId base size : Nat) (log : TxLog) : TxLog :=
  log.put txId (fun byte => (PmemSt.range base size).Covers byte ∨ log.bytes txId byte)

/-- The bytes of the range are taken off, wherever they were registered. -/
def remove (txId base size : Nat) (log : TxLog) : TxLog :=
  log.put txId (fun byte => log.bytes txId byte ∧ ¬ (PmemSt.range base size).Covers byte)

/-- Every registration and removal counts, as in a run whose calls all succeed. Stores and
ignored ranges leave the log alone. -/
def step (log : TxLog) : TxRequest → TxLog
  | .start _ _ txId => log.start txId
  | .finish _ txId => log.finish txId
  | .add _ _ txId base size => log.add txId base size
  | .remove _ txId base size => log.remove txId base size
  | .ignore _ _ => log
  | .store _ _ => log

end TxLog

/-- A concrete transaction agrees with the log entry of its id: on its depth, and on each byte. -/
structure Logs (log : TxLog) (tx : TxInfo) : Prop where
  sound : tx.Sound
  counter : tx.counter = log.depth tx.txId
  tracked : ∀ byte, tx.Tracked byte ↔ log.bytes tx.txId byte

/-- The open transactions are exactly those with a positive depth, and each agrees
with the log. -/
structure Refines (trans : TransactionOps) (log : TxLog) : Prop where
  keyed : Keyed TxInfo.txId trans.transactions.toList
  logged : ∀ tx ∈ trans.transactions.toList, Logs log tx
  isOpen : ∀ txId, (∃ tx ∈ trans.transactions.toList, tx.txId = txId) ↔ log.depth txId ≠ 0

/-- At the start there is no transaction, and the log is empty. -/
theorem refines_init (transactionsOnly redundantLogging : Bool) :
    Refines (initTransactions transactionsOnly redundantLogging) TxLog.empty where
  keyed := List.Pairwise.nil
  logged tx member := by simp [initTransactions] at member
  isOpen txId := by simp [initTransactions, TxLog.empty]

namespace Refines

variable {trans : TransactionOps} {log : TxLog}

/-- A lookup returns the open transaction of that id. -/
theorem lookup_some (refines : Refines trans log) {txId : Nat} {tx : TxInfo} :
    trans.transactions.lookup (txKey txId) = some tx ↔
      tx ∈ trans.transactions.toList ∧ tx.txId = txId :=
  lookup_byKey refines.keyed

/-- A lookup fails exactly for closed ids. -/
theorem lookup_none (refines : Refines trans log) {txId : Nat} :
    trans.transactions.lookup (txKey txId) = none ↔ log.depth txId = 0 := by
  rw [show txKey txId = byKey TxInfo.txId txId from rfl, lookup_byKey_none refines.keyed,
    ← not_iff_not, ← ne_eq (log.depth txId), ← refines.isOpen txId]
  simp

/-- Only the transaction set matters for refinement. -/
theorem congr {other : TransactionOps} (refines : Refines trans log)
    (same : other.transactions = trans.transactions) : Refines other log where
  keyed := same ▸ refines.keyed
  logged := same ▸ refines.logged
  isOpen := same ▸ refines.isOpen

/-- Editing one open transaction changes one entry of the log. -/
theorem update (refines : Refines trans log) (txId : Nat) (edit : TxInfo → TxInfo)
    (after : TxLog) (kept : ∀ tx, tx.txId = txId → (edit tx).txId = txId)
    (others : ∀ other, other ≠ txId →
      after.depth other = log.depth other ∧ after.bytes other = log.bytes other)
    (stays : after.depth txId ≠ 0 ↔ log.depth txId ≠ 0)
    (edited : ∀ tx ∈ trans.transactions.toList, tx.txId = txId → Logs log tx →
      Logs after (edit tx)) :
    Refines { trans with transactions := trans.transactions.update (txKey txId) edit } after := by
  have listed : (trans.transactions.update (txKey txId) edit).toList =
      trans.transactions.toList.map (fun tx => if tx.txId = txId then edit tx else tx) :=
    update_byKey refines.keyed txId edit
  have sameId (tx : TxInfo) : (if tx.txId = txId then edit tx else tx).txId = tx.txId := by
    split
    · next same => rw [kept tx same, same]
    · rfl
  refine ⟨?_, ?_, ?_⟩
  · rw [listed]
    exact refines.keyed.map sameId
  · intro tx member
    rw [listed] at member
    obtain ⟨before, beforeMember, rfl⟩ := List.mem_map.mp member
    split
    · next same => exact edited before beforeMember same (refines.logged before beforeMember)
    · next differs =>
      obtain ⟨sound, counter, tracked⟩ := refines.logged before beforeMember
      obtain ⟨sameDepth, sameBytes⟩ := others before.txId differs
      exact ⟨sound, by rw [counter, sameDepth], by rw [sameBytes]; exact tracked⟩
  · intro tested
    rw [listed]
    simp only [List.mem_map, exists_exists_and_eq_and, sameId]
    rw [refines.isOpen tested]
    by_cases same : tested = txId
    · rw [same, stays]
    · rw [(others tested same).1]

end Refines

section Steps

variable {trans : TransactionOps} {log : TxLog}

/-- Starting a transaction opens it or nests it one level deeper. -/
theorem registerNewTx_refines (refines : Refines trans log) (threadId : Nat)
    (context : Option ExeContext) (txId : Nat) :
    Refines (trans.registerNewTx threadId context txId) (log.start txId) := by
  have entered (opened : TransactionOps) :
      (opened.createGetThreadEntry threadId).transactions = opened.transactions := by
    unfold createGetThreadEntry
    split <;> rfl
  by_cases present : trans.transactions.contains (txKey txId) = true
  · have positive : log.depth txId ≠ 0 := by
      rw [← refines.isOpen txId]
      exact (contains_byKey refines.keyed).mp present
    refine (refines.update txId (fun tx => { tx with counter := tx.counter + 1 })
      (log.start txId) (fun tx same => same) ?_ ?_ ?_).congr ?_
    · intro other differs
      simp [TxLog.start, positive, differs]
    · simp [TxLog.start, positive]
    · intro tx member same logs
      refine ⟨⟨logs.sound.regions, logs.sound.cache⟩, ?_, ?_⟩
      · simp [TxLog.start, same, logs.counter]
      · intro byte
        simp only [TxLog.start, positive, if_false]
        exact logs.tracked byte
    · simp only [registerNewTx, present, if_true, entered]
  · have absent : ∀ tx ∈ trans.transactions.toList, tx.txId ≠ txId := by
      intro tx member same
      exact present ((contains_byKey refines.keyed).mpr ⟨tx, member, same⟩)
    have closed : log.depth txId = 0 := by
      by_contra positive
      obtain ⟨tx, member, same⟩ := (refines.isOpen txId).mpr positive
      exact absent tx member same
    obtain ⟨keyed, members⟩ := insert_byKey refines.keyed (newTx txId context) absent
    have listed := update_byKey keyed txId (fun tx : TxInfo =>
        { tx with counter := tx.counter + 1 })
    have transactions : (trans.registerNewTx threadId context txId).transactions =
        (trans.transactions.insert (txKey txId) (newTx txId context)).update (txKey txId)
          (fun tx => { tx with counter := tx.counter + 1 }) := by
      simp only [registerNewTx, present, Bool.false_eq_true, if_false, entered]
    have final : (trans.registerNewTx threadId context txId).transactions.toList =
        (trans.transactions.insert (txKey txId) (newTx txId context)).toList.map
          (fun tx => if tx.txId = txId then { tx with counter := tx.counter + 1 } else tx) := by
      rw [transactions]
      exact listed
    have sameId (tx : TxInfo) : (if tx.txId = txId then { tx with counter := tx.counter + 1 }
        else tx).txId = tx.txId := by
      split <;> rfl
    refine ⟨?_, ?_, ?_⟩
    · rw [final]
      exact keyed.map sameId
    · intro tx member
      rw [final] at member
      obtain ⟨before, beforeMember, rfl⟩ := List.mem_map.mp member
      rcases (members before).mp beforeMember with rfl | old
      · have fresh : ∀ byte, ¬ (newTx txId context).Tracked byte := by
          intro byte
          have none : ¬ PmemSt.zero.Covers byte := not_covers_empty rfl byte
          simp [TxInfo.Tracked, newTx, none]
        simp only [newTx, if_true]
        refine ⟨⟨regionSet_nil, .inl ⟨rfl, rfl⟩⟩, by simp [TxLog.start, closed], ?_⟩
        intro byte
        simp only [TxLog.start, closed, if_true, Function.update_self, iff_false]
        exact fresh byte
      · have differs := absent before old
        obtain ⟨sound, counter, tracked⟩ := refines.logged before old
        rw [if_neg differs]
        exact ⟨sound, by simp [TxLog.start, differs, counter],
          by simpa [TxLog.start, closed, differs] using tracked⟩
    · intro tested
      rw [final]
      simp only [List.mem_map, exists_exists_and_eq_and, sameId]
      by_cases same : tested = txId
      · subst same
        have nested : (log.start tested).depth tested ≠ 0 := by simp [TxLog.start]
        exact iff_of_true ⟨newTx tested context, (members _).mpr (.inl rfl), rfl⟩ nested
      · rw [show (log.start txId).depth tested = log.depth tested by simp [TxLog.start, same],
          ← refines.isOpen tested]
        constructor
        · rintro ⟨tx, member, rfl⟩
          rcases (members tx).mp member with rfl | old
          · exact absurd rfl same
          · exact ⟨tx, old, rfl⟩
        · rintro ⟨tx, member, rfl⟩
          exact ⟨tx, (members tx).mpr (.inr member), rfl⟩

/-- Ending a transaction closes it or leaves one level of nesting. -/
theorem removeTx_refines (refines : Refines trans log) (txId : Nat) :
    Refines (trans.removeTx txId).2 (log.finish txId) := by
  cases searched : trans.transactions.lookup (txKey txId) with
  | none =>
    have closed := refines.lookup_none.mp searched
    have same : log.finish txId = log := by
      have depth : Function.update log.depth txId (log.depth txId - 1) = log.depth :=
        Function.update_eq_self_iff.mpr (by omega)
      simp only [TxLog.finish, depth]
    rw [same]
    simpa only [removeTx, searched] using refines
  | some tx =>
    obtain ⟨member, rfl⟩ := refines.lookup_some.mp searched
    have counted := (refines.logged tx member).counter
    simp only [removeTx, searched]
    split
    · next nested =>
      refine refines.update tx.txId (fun tx => { tx with counter := tx.counter - 1 })
        (log.finish tx.txId) (fun _ same => same) ?_ ?_ ?_
      · intro other differs
        simp [TxLog.finish, differs]
      · simp only [TxLog.finish, Function.update_self]
        omega
      · intro other _ same logs
        refine ⟨⟨logs.sound.regions, logs.sound.cache⟩, ?_, ?_⟩
        · simp [TxLog.finish, same, logs.counter]
        · exact logs.tracked
    · next last =>
      have listed : (trans.transactions.remove (fun other => txKey other.txId)
          (txKey tx.txId)).toList = trans.transactions.toList.filter
            (fun other => other.txId ≠ tx.txId) :=
        remove_byKey refines.keyed tx.txId
      refine ⟨?_, ?_, ?_⟩
      · simp only [listed]
        exact refines.keyed.sublist List.filter_sublist
      · intro other stays
        simp only [listed, List.mem_filter, decide_eq_true_eq] at stays
        obtain ⟨sound, counter, tracked⟩ := refines.logged other stays.1
        exact ⟨sound, by simp [TxLog.finish, stays.2, counter], tracked⟩
      · intro tested
        simp only [listed, List.mem_filter, decide_eq_true_eq]
        by_cases same : tested = tx.txId
        · subst same
          simp only [TxLog.finish, Function.update_self, ne_eq]
          have : log.depth tx.txId - 1 = 0 := by omega
          simp only [this, not_true_eq_false, iff_false, not_exists, not_and]
          rintro other ⟨_, differs⟩ same
          exact differs same
        · rw [show (log.finish tx.txId).depth tested = log.depth tested by
            simp [TxLog.finish, same], ← refines.isOpen tested]
          constructor
          · rintro ⟨other, ⟨stays, _⟩, rfl⟩
            exact ⟨other, stays, rfl⟩
          · rintro ⟨other, stays, rfl⟩
            exact ⟨other, ⟨stays, same⟩, rfl⟩

/-- A successful registration extends the log entry of its transaction. -/
theorem addObjToTx_refines (refines : Refines trans log) (threadId : Nat)
    (context : Option ExeContext) (txId base size : Nat) (inner : (PmemSt.range base size).Inner)
    (successful : (trans.addObjToTx threadId context txId base size).1 = 0) :
    Refines (trans.addObjToTx threadId context txId base size).2 (log.add txId base size) := by
  cases searched : trans.transactions.lookup (txKey txId) with
  | none => simp [addObjToTx, searched] at successful
  | some tx =>
    obtain ⟨member, sameId⟩ := refines.lookup_some.mp searched
    by_cases contributes : trans.isTxInThread threadId txId = true
    · refine (refines.update txId
        (fun _ => (cacheRegion { PmemSt.range base size with context := context } tx
          trans.dbPmemStoreIndex).1) (log.add txId base size) ?_ ?_ Iff.rfl ?_).congr ?_
      · intro _ _
        simp [sameId]
      · intro other differs
        simp [TxLog.add, TxLog.put, differs]
      · intro other otherMember otherId logs
        have same : other = tx := refines.keyed.unique otherMember member
            (otherId.trans sameId.symm)
        subst same
        have regInner : ({ PmemSt.range base size with context := context } : PmemSt).Inner :=
          ⟨inner.positive, inner.nonempty, inner.below⟩
        obtain ⟨sound, bytes⟩ := cacheRegion_exact logs.sound regInner trans.dbPmemStoreIndex
        refine ⟨sound, by simp [TxLog.add, TxLog.put, logs.counter], ?_⟩
        intro byte
        rw [bytes byte, cacheRegion_txId, logs.tracked byte, sameId]
        simp [TxLog.add, TxLog.put, PmemSt.Covers]
      · simp only [addObjToTx, searched, contributes, if_true]
        rw [reportOverlaps_frame]
    · simp [addObjToTx, searched, contributes] at successful

/-- A successful removal changes the log entry of its transaction to whatever it
leaves tracked. -/
theorem removeObjFromTx_leaves (refines : Refines trans log) (threadId txId base size : Nat)
    (inner : (PmemSt.range base size).Inner) {tx : TxInfo}
    (searched : trans.transactions.lookup (txKey txId) = some tx)
    (contributes : trans.isTxInThread threadId txId = true) :
    Refines (trans.removeObjFromTx threadId txId base size).2 (log.put txId
      (uncacheRegion (PmemSt.range base size) tx trans.dbPmemStoreIndex).1.Tracked) := by
  obtain ⟨member, sameId⟩ := refines.lookup_some.mp searched
  refine (refines.update txId
    (fun _ => (uncacheRegion (PmemSt.range base size) tx trans.dbPmemStoreIndex).1)
    (log.put txId (uncacheRegion (PmemSt.range base size) tx trans.dbPmemStoreIndex).1.Tracked)
    ?_ ?_ Iff.rfl ?_).congr ?_
  · intro _ _
    simp [sameId]
  · intro other differs
    simp [TxLog.put, differs]
  · intro other otherMember otherId logs
    have same : other = tx := refines.keyed.unique otherMember member (otherId.trans sameId.symm)
    subst same
    refine ⟨uncacheRegion_sound logs.sound inner _, by simp [TxLog.put, logs.counter], ?_⟩
    intro byte
    simp [TxLog.put, sameId]
  · simp only [removeObjFromTx, searched, contributes, if_true]

/-- Asking whether a store is in a transaction changes no tracked byte. -/
theorem isStoreInTx_refines (refines : Refines trans log) (store : PmemSt) (txId : Nat) :
    Refines (trans.isStoreInTx store txId).2 log := by
  unfold isStoreInTx
  split
  · exact refines
  · split
    · exact refines
    · refine refines.update txId flushCache log (fun tx same => (flushCache_txId tx).trans same)
        (fun _ _ => ⟨rfl, rfl⟩) Iff.rfl ?_
      intro tx _ _ logs
      refine ⟨(flushCache_exact logs.sound).1, by simp [logs.counter], ?_⟩
      intro byte
      rw [flushCache_tracked logs.sound, flushCache_txId]
      exact logs.tracked byte

/-- A search through transactions may flush caches, which the log does not see. -/
theorem searchTxs_refines (refines : Refines trans log) (store : PmemSt) (txIds : List Nat) :
    Refines (searchTxs store txIds trans).2 log := by
  induction txIds generalizing trans with
  | nil => exact refines
  | cons txId rest inductionHypothesis =>
    simp only [searchTxs]
    split
    · exact isStoreInTx_refines refines store txId
    · exact inductionHypothesis (isStoreInTx_refines refines store txId)

/-- A store changes no tracked byte. -/
theorem handleTxStore_refines (refines : Refines trans log) (threadId : Nat) (store : PmemSt) :
    Refines (trans.handleTxStore threadId store) log := by
  unfold handleTxStore
  split
  · exact refines
  · split
    · split
      · exact refines.congr (by rw [recordStore_frame])
      · exact refines
    · next entry _ =>
      have searched := searchTxs_refines refines store entry.txIds.toList
      simp only
      split
      · exact searched
      · exact searched.congr (by rw [recordStore_frame])

end Steps

end PmDebugger
