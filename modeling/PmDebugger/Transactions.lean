import PmDebugger.Library.KeyedSet
import PmDebugger.Regions

/-!
# Transaction tracking

The state and the operations of `pmc_tx.c`: open transactions with their nesting
counters and registered regions, the threads that contribute to them, the global
exclude list and the three registers of events. The running thread and the
recorded execution context are arguments, since the source asks the core for
them. Debug output under `verbose` is left out; it changes no state.

A full register makes the source print its contents and leave the process through
`VG_(exit)`. The model keeps the register as it is and raises `exited`.
-/

namespace PmDebugger

open OrderedSet OrderedSet.OSet

/-- `MAX_OOT_STORES`. The register of stores outside of transactions is full with as many
entries. -/
def maxOotStores : Nat := 10000

/-- `MAX_CROSS_EVS`. The registers of overlapping and of redundant registrations have this size
each. -/
def maxCrossEvs : Nat := 1000

/-- `struct tx_info`. The counter is the depth of nesting, and the cached region is the one
registered last, which is not among the regions yet. -/
structure TxInfo where
  txId : Nat
  counter : Nat
  context : Option ExeContext
  regions : OSet PmemSt
  cachedRegion : PmemSt
deriving DecidableEq, Repr

/-- `struct thread_info`: the transactions to which a thread contributes, by their ids. -/
structure ThreadInfo where
  threadId : Nat
  txIds : OSet Nat
deriving DecidableEq, Repr

/-- `struct cross_tx_event`: one range that is registered with two transactions. Both ranges
are kept, each with its transaction. -/
structure CrossTxEvent where
  original : PmemSt
  origTxId : Nat
  duplicate : PmemSt
  dupTxId : Nat
deriving DecidableEq, Repr

/-- `struct redundant_logging_tx_event`: one range that is registered with a transaction twice.
Both ranges are kept. -/
structure RedundantLoggingTxEvent where
  original : PmemSt
  txId : Nat
  duplicate : PmemSt
deriving DecidableEq, Repr

/-- `struct transaction_ops`. The register counters are the lengths of the event
lists. `dbPmemStoreIndex` is the shared index counter that `remove_region` draws
from; `exited` records a call of `VG_(exit)`. -/
structure TransactionOps where
  transactions : OSet TxInfo
  threads : OSet ThreadInfo
  ootStores : List PmemSt
  transactionsOnly : Bool
  excludes : OSet PmemSt
  crossTxEvs : List CrossTxEvent
  redundantLoggingTxEvs : List RedundantLoggingTxEvent
  redundantLogging : Bool
  dbPmemStoreIndex : Nat
  exited : Bool
deriving DecidableEq, Repr

/-- `init_transactions`. No transaction is open, no thread has an entry and the registers are
empty. -/
def initTransactions (transactionsOnly redundantLogging : Bool) : TransactionOps where
  transactions := create
  threads := create
  ootStores := []
  transactionsOnly := transactionsOnly
  excludes := create
  crossTxEvs := []
  redundantLoggingTxEvs := []
  redundantLogging := redundantLogging
  dbPmemStoreIndex := 0
  exited := false

/-- Search key of a transaction, which is its id. -/
def txKey (txId : Nat) : TxInfo → Ordering := byKey TxInfo.txId txId

/-- Search key of a thread entry, which is the number of the thread. -/
def threadKey (threadId : Nat) : ThreadInfo → Ordering := byKey ThreadInfo.threadId threadId

/-- Search key of a plain word, which is the word. -/
def wordKey (number : Nat) : Nat → Ordering := byKey id number

namespace TransactionOps

/-- `register_cross_event`. A full register ends the process instead. -/
def registerCrossEvent (orig : PmemSt) (origTx : Nat) (dup : PmemSt) (dupTx : Nat)
    (trans : TransactionOps) : TransactionOps :=
  if trans.crossTxEvs.length = maxCrossEvs then { trans with exited := true }
  else { trans with crossTxEvs := trans.crossTxEvs ++ [{
    original := orig
    origTxId := origTx
    duplicate := dup
    dupTxId := dupTx }] }

/-- `register_redundant_logging_event`. A full register ends the process instead. -/
def registerRedundantLoggingEvent (orig dup : PmemSt) (txId : Nat) (trans : TransactionOps) :
    TransactionOps :=
  if trans.redundantLoggingTxEvs.length = maxCrossEvs then { trans with exited := true }
  else { trans with redundantLoggingTxEvs := trans.redundantLoggingTxEvs ++ [{
    original := orig
    duplicate := dup
    txId := txId }] }

/-- `create_get_thread_entry`: make sure that the thread has an entry. A new one has no
transactions. -/
def createGetThreadEntry (threadId : Nat) (trans : TransactionOps) : TransactionOps :=
  if trans.threads.contains (threadKey threadId) then trans
  else { trans with
    threads := trans.threads.insert (threadKey threadId) { threadId := threadId, txIds := create } }

/-- Add a transaction id to the set of a thread unless it is there. A nested start finds it
there. -/
def addTxId (txId : Nat) (entry : ThreadInfo) : ThreadInfo :=
  if entry.txIds.contains (wordKey txId) then entry
  else { entry with txIds := entry.txIds.insert (wordKey txId) txId }

/-- A transaction as `register_new_tx` creates it. Its depth is zero until the start has
counted itself. -/
def newTx (txId : Nat) (context : Option ExeContext) : TxInfo where
  txId := txId
  counter := 0
  context := context
  regions := create
  cachedRegion := PmemSt.zero

/-- `register_new_tx` by the thread `threadId`. A start of an open transaction raises its
depth, whichever thread has opened it, and the thread contributes from here on. -/
def registerNewTx (threadId : Nat) (context : Option ExeContext) (txId : Nat)
    (trans : TransactionOps) : TransactionOps :=
  let opened :=
    if trans.transactions.contains (txKey txId) then trans
    else { trans with transactions := trans.transactions.insert (txKey txId) (newTx txId context) }
  let entered := opened.createGetThreadEntry threadId
  { entered with
    threads := entered.threads.update (threadKey threadId) (addTxId txId)
    transactions := entered.transactions.update (txKey txId)
      (fun tx => { tx with counter := tx.counter + 1 }) }

/-- `is_nest_trans`. A transaction is nested if it was started more than once and not ended as
often; one that is not open is not nested. -/
def isNestTrans (txId : Nat) (trans : TransactionOps) : Bool :=
  match trans.transactions.lookup (txKey txId) with
  | none => false
  | some tx => decide (tx.counter > 1)

/-- `remove_thread_entry`. An entry that is not there is no error. -/
def removeThreadEntry (entry : ThreadInfo) (threads : OSet ThreadInfo) : OSet ThreadInfo :=
  if threads.contains (threadKey entry.threadId) then
    threads.remove (fun other => threadKey other.threadId) (threadKey entry.threadId)
  else threads

/-- `OSetWord_Remove` on the transaction ids of an entry. An id that is not there is no error. -/
def dropTxId (txId : Nat) (entry : ThreadInfo) : ThreadInfo :=
  { entry with txIds := entry.txIds.remove wordKey (wordKey txId) }

/-- The walk of `remove_tx` over the threads. Each entry loses the id, and one that is empty
then is removed. Removing an entry discards the walk that found it, so that the entries behind
it keep the id. -/
def removeTxLoop (txId : Nat) : Nat → OSet ThreadInfo → OSet ThreadInfo
  | 0, threads => threads
  | fuel + 1, threads =>
      match threads.next with
      | none => threads
      | some (position, entry, walked) =>
          let edited := walked.modifyAt position (dropTxId txId)
          if (dropTxId txId entry).txIds.size = 0 then
            removeTxLoop txId fuel (removeThreadEntry (dropTxId txId entry) edited)
          else removeTxLoop txId fuel edited

/-- `remove_tx`: the return value and the new state. The end of a nested transaction lowers its
depth, and the last end removes it. -/
def removeTx (txId : Nat) (trans : TransactionOps) : Nat × TransactionOps :=
  match trans.transactions.lookup (txKey txId) with
  | none => (1, trans)
  | some tx =>
      if tx.counter - 1 > 0 then
        (0, { trans with
          transactions := trans.transactions.update (txKey txId)
            (fun tx => { tx with counter := tx.counter - 1 }) })
      else
        (0, { trans with
          threads := removeTxLoop txId (trans.threads.size + 1) trans.threads.resetIter
          transactions := trans.transactions.remove (fun other => txKey other.txId) (txKey txId) })

/-- `is_tx_in_thread` for the running thread. A thread without an entry contributes to nothing. -/
def isTxInThread (threadId txId : Nat) (trans : TransactionOps) : Bool :=
  match trans.threads.lookup (threadKey threadId) with
  | none => false
  | some entry => entry.txIds.contains (wordKey txId)

/-- `flush_cache`. The cached region joins the regions, and its range is set to zero, which
stands for an empty cache. -/
def flushCache (tx : TxInfo) : TxInfo :=
  if tx.cachedRegion.addr = 0 ∧ tx.cachedRegion.size = 0 then tx
  else { tx with
    regions := addRegion tx.cachedRegion tx.regions
    cachedRegion := { tx.cachedRegion with addr := 0, size := 0 } }

/-- The original registration that `add_obj_to_tx` finds in a transaction: the
cached region if it overlaps, else an overlapping element of the regions. -/
def registeredIn (reg : PmemSt) (tx : TxInfo) : Option PmemSt :=
  if cmpPmemSt reg tx.cachedRegion = .eq then some tx.cachedRegion
  else if isInMappingSet reg tx.regions ≠ 0 then tx.regions.lookup (cmpPmemSt reg)
  else none

/-- The body of the walk of `add_obj_to_tx` over the open transactions. An overlap with another
transaction is always registered, and one with the same transaction if redundant logging is
checked. -/
def reportOverlap (txId : Nat) (reg : PmemSt) (trans : TransactionOps) (tx : TxInfo) :
    TransactionOps :=
  if tx.txId = txId then
    if trans.redundantLogging then
      match registeredIn reg tx with
      | none => trans
      | some original => trans.registerRedundantLoggingEvent original reg txId
    else trans
  else
    match registeredIn reg tx with
    | none => trans
    | some original => trans.registerCrossEvent original tx.txId reg txId

/-- The registration itself: the cache is flushed unless the new region contains
it, and the new region becomes the cached one. The second component is the index
counter. -/
def cacheRegion (reg : PmemSt) (tx : TxInfo) (dbIndex : Nat) : TxInfo × Nat :=
  if tx.cachedRegion.addr ≠ 0 ∧ tx.cachedRegion.size ≠ 0 then
    let overlap := checkOverlap tx.cachedRegion reg
    if overlap = 0 then ({ flushCache tx with cachedRegion := reg }, dbIndex)
    else if overlap = 2 then
      let flushed := flushCache tx
      let (regions, index) := removeRegion cmpPmemSt reg flushed.regions dbIndex
      ({ flushed with regions := regions, cachedRegion := reg }, index)
    else ({ tx with cachedRegion := reg }, dbIndex)
  else ({ tx with cachedRegion := reg }, dbIndex)

/-- `add_obj_to_tx` by the thread `threadId`. It answers 1 if the transaction is not open and 2
if the thread does not contribute to it, and changes nothing then. -/
def addObjToTx (threadId : Nat) (context : Option ExeContext) (txId base size : Nat)
    (trans : TransactionOps) : Nat × TransactionOps :=
  match trans.transactions.lookup (txKey txId) with
  | none => (1, trans)
  | some tx =>
      if trans.isTxInThread threadId txId then
        let reg := { PmemSt.range base size with context := context }
        let reported := trans.transactions.toList.foldl (reportOverlap txId reg) trans
        let (cached, index) := cacheRegion reg tx trans.dbPmemStoreIndex
        (0, { reported with
          transactions := reported.transactions.update (txKey txId) (fun _ => cached)
          dbPmemStoreIndex := index })
      else (2, trans)

/-- `is_in_cache`. The range must be the cached one exactly. -/
def isInCache (store : PmemSt) (tx : TxInfo) : Bool :=
  decide (store.addr = tx.cachedRegion.addr ∧ store.size = tx.cachedRegion.size)

/-- What `remove_obj_from_tx` does to the transaction. The cached region stays in
the cache when it merely overlaps the removed one. -/
def uncacheRegion (reg : PmemSt) (tx : TxInfo) (dbIndex : Nat) : TxInfo × Nat :=
  if isInCache reg tx then
    ({ tx with cachedRegion := { tx.cachedRegion with addr := 0, size := 0 } }, dbIndex)
  else
    let regions :=
      if cmpPmemSt reg tx.cachedRegion = .eq then addRegion tx.cachedRegion tx.regions
      else tx.regions
    let (rest, index) := removeRegion cmpPmemSt reg regions dbIndex
    ({ tx with regions := rest }, index)

/-- `remove_obj_from_tx` by the thread `threadId`. It answers 1 if the transaction is not open
and 2 if the thread does not contribute to it, and changes nothing then. -/
def removeObjFromTx (threadId txId base size : Nat) (trans : TransactionOps) :
    Nat × TransactionOps :=
  match trans.transactions.lookup (txKey txId) with
  | none => (1, trans)
  | some tx =>
      if trans.isTxInThread threadId txId then
        let (rest, index) := uncacheRegion (PmemSt.range base size) tx trans.dbPmemStoreIndex
        (0, { trans with
          transactions := trans.transactions.update (txKey txId) (fun _ => rest)
          dbPmemStoreIndex := index })
      else (2, trans)

/-- `is_store_in_tx`: the answer and the state with the cache possibly flushed. The cache is
asked first, and flushed unless it has the whole store. -/
def isStoreInTx (store : PmemSt) (txId : Nat) (trans : TransactionOps) : Bool × TransactionOps :=
  match trans.transactions.lookup (txKey txId) with
  | none => (false, trans)
  | some tx =>
      if checkOverlap store tx.cachedRegion = 1 then (true, trans)
      else
        let flushed := flushCache tx
        (decide (isInMappingSet store flushed.regions = 1),
          { trans with transactions := trans.transactions.update (txKey txId) flushCache })

/-- `record_store`. A full register ends the process instead. -/
def recordStore (store : PmemSt) (trans : TransactionOps) : TransactionOps :=
  if trans.ootStores.length = maxOotStores then { trans with exited := true }
  else { trans with ootStores := trans.ootStores ++ [store] }

/-- The walk of `handle_tx_store` over the transaction ids of the thread: it stops
at the first transaction that has the store. -/
def searchTxs (store : PmemSt) : List Nat → TransactionOps → Bool × TransactionOps
  | [], current => (false, current)
  | txId :: rest, current =>
      let (found, checked) := current.isStoreInTx store txId
      if found then (true, checked) else searchTxs store rest checked

/-- `handle_tx_store` for the running thread. An ignored store is passed over. A thread without
transactions is warned about under `--tx-only`, and any other thread if none of its
transactions has the store. -/
def handleTxStore (threadId : Nat) (store : PmemSt) (trans : TransactionOps) : TransactionOps :=
  if isInMappingSet store trans.excludes = 1 then trans
  else
    match trans.threads.lookup (threadKey threadId) with
    | none => if trans.transactionsOnly then trans.recordStore store else trans
    | some entry =>
        let (found, searched) := searchTxs store entry.txIds.toList trans
        if found then searched else searched.recordStore store

/-- `add_to_global_excludes`. What is ignored stays ignored, since no request takes a range out
again. -/
def addToGlobalExcludes (region : PmemSt) (trans : TransactionOps) : TransactionOps :=
  { trans with excludes := addRegion region trans.excludes }

end TransactionOps

/-- What a client can ask of the transaction module. `START_TX` and `END_TX` are the
requests whose id is the number of the running thread. -/
inductive TxRequest where
  | start (threadId : Nat) (context : Option ExeContext) (txId : Nat)
  | finish (threadId txId : Nat)
  | add (threadId : Nat) (context : Option ExeContext) (txId base size : Nat)
  | remove (threadId txId base size : Nat)
  | ignore (base size : Nat)
  | store (threadId : Nat) (store : PmemSt)
deriving DecidableEq, Repr

open TransactionOps

/-- Dispatch of one request, without its answer. `handle_tx_store` is among them, since a
traced store reaches the transactions, too. -/
def txStep (trans : TransactionOps) : TxRequest → TransactionOps
  | .start threadId context txId => trans.registerNewTx threadId context txId
  | .finish _ txId => (trans.removeTx txId).2
  | .add threadId context txId base size => (trans.addObjToTx threadId context txId base size).2
  | .remove threadId txId base size => (trans.removeObjFromTx threadId txId base size).2
  | .ignore base size => trans.addToGlobalExcludes (PmemSt.range base size)
  | .store threadId store => trans.handleTxStore threadId store

/-! ## What the operations leave alone -/

/-- Reporting overlaps changes only the two event registers. -/
theorem reportOverlap_frame (txId : Nat) (reg : PmemSt) (trans : TransactionOps) (tx : TxInfo) :
    reportOverlap txId reg trans tx = { trans with
      crossTxEvs := (reportOverlap txId reg trans tx).crossTxEvs
      redundantLoggingTxEvs := (reportOverlap txId reg trans tx).redundantLoggingTxEvs
      exited := (reportOverlap txId reg trans tx).exited } := by
  unfold reportOverlap registerRedundantLoggingEvent registerCrossEvent
  split
  · split
    · split
      · rfl
      · split <;> rfl
    · rfl
  · split
    · rfl
    · split <;> rfl

/-- The comparison with the other transactions writes to two registers. -/
theorem reportOverlaps_frame (txId : Nat) (reg : PmemSt) (elems : List TxInfo)
    (trans : TransactionOps) :
    elems.foldl (reportOverlap txId reg) trans = { trans with
      crossTxEvs := (elems.foldl (reportOverlap txId reg) trans).crossTxEvs
      redundantLoggingTxEvs := (elems.foldl (reportOverlap txId reg) trans).redundantLoggingTxEvs
      exited := (elems.foldl (reportOverlap txId reg) trans).exited } := by
  induction elems generalizing trans with
  | nil => rfl
  | cons tx rest inductionHypothesis =>
    rw [List.foldl_cons, inductionHypothesis, reportOverlap_frame]

/-- A recorded store is written to one register. -/
theorem recordStore_frame (store : PmemSt) (trans : TransactionOps) :
    trans.recordStore store = { trans with
      ootStores := (trans.recordStore store).ootStores
      exited := (trans.recordStore store).exited } := by
  unfold recordStore
  split <;> rfl

/-- Searching for a store changes only the transactions. -/
theorem searchTxs_frame (store : PmemSt) (txIds : List Nat) (trans : TransactionOps) :
    (searchTxs store txIds trans).2 = { trans with
      transactions := (searchTxs store txIds trans).2.transactions } := by
  induction txIds generalizing trans with
  | nil => rfl
  | cons txId rest inductionHypothesis =>
    have one : (trans.isStoreInTx store txId).2 = { trans with
        transactions := (trans.isStoreInTx store txId).2.transactions } := by
      unfold isStoreInTx
      split
      · rfl
      · split <;> rfl
    simp only [searchTxs]
    split
    · exact one
    · rw [inductionHypothesis, one]

/-- A registration changes the transactions, the registers and the index counter. -/
theorem addObjToTx_frame (threadId : Nat) (context : Option ExeContext) (txId base size : Nat)
    (trans : TransactionOps) :
    (trans.addObjToTx threadId context txId base size).2 = { trans with
      transactions := (trans.addObjToTx threadId context txId base size).2.transactions
      crossTxEvs := (trans.addObjToTx threadId context txId base size).2.crossTxEvs
      redundantLoggingTxEvs :=
        (trans.addObjToTx threadId context txId base size).2.redundantLoggingTxEvs
      dbPmemStoreIndex := (trans.addObjToTx threadId context txId base size).2.dbPmemStoreIndex
      exited := (trans.addObjToTx threadId context txId base size).2.exited } := by
  unfold addObjToTx
  split
  · rfl
  · split
    · simp only
      rw [reportOverlaps_frame]
    · rfl

/-- A store changes the transactions and the register of stores. -/
theorem handleTxStore_frame (threadId : Nat) (store : PmemSt) (trans : TransactionOps) :
    trans.handleTxStore threadId store = { trans with
      transactions := (trans.handleTxStore threadId store).transactions
      ootStores := (trans.handleTxStore threadId store).ootStores
      exited := (trans.handleTxStore threadId store).exited } := by
  unfold handleTxStore
  split
  · rfl
  · split
    · split
      · rw [recordStore_frame]
      · rfl
    · simp only
      split
      · rw [searchTxs_frame]
      · rw [recordStore_frame, searchTxs_frame]

/-- The options never change. -/
theorem txStep_options (trans : TransactionOps) (request : TxRequest) :
    (txStep trans request).transactionsOnly = trans.transactionsOnly ∧
      (txStep trans request).redundantLogging = trans.redundantLogging := by
  cases request with
  | start threadId context txId =>
    simp only [txStep, registerNewTx, createGetThreadEntry]
    split <;> split <;> exact ⟨rfl, rfl⟩
  | finish threadId txId =>
    simp only [txStep, removeTx]
    split
    · exact ⟨rfl, rfl⟩
    · split <;> exact ⟨rfl, rfl⟩
  | add threadId context txId base size =>
    rw [txStep, addObjToTx_frame]
    exact ⟨rfl, rfl⟩
  | remove threadId txId base size =>
    simp only [txStep, removeObjFromTx]
    split
    · exact ⟨rfl, rfl⟩
    · split <;> exact ⟨rfl, rfl⟩
  | ignore base size => exact ⟨rfl, rfl⟩
  | store threadId store =>
    rw [txStep, handleTxStore_frame]
    exact ⟨rfl, rfl⟩

/-- No request changes the options. -/
theorem run_options (transactionsOnly redundantLogging : Bool) (requests : List TxRequest) :
    (requests.foldl txStep (initTransactions transactionsOnly redundantLogging)).transactionsOnly =
        transactionsOnly ∧
      (requests.foldl txStep (initTransactions transactionsOnly
        redundantLogging)).redundantLogging = redundantLogging := by
  refine List.foldlRecOn (motive := fun state => state.transactionsOnly = transactionsOnly ∧
    state.redundantLogging = redundantLogging) requests txStep ?_ ?_
  · exact ⟨rfl, rfl⟩
  · intro state kept request _
    rw [(txStep_options state request).1, (txStep_options state request).2]
    exact kept

end PmDebugger
