import PmDebugger.TransactionTracking

/-!
# Threads and the transactions they contribute to

A start enters the transaction id into the entry of the running thread. The last
end of an id walks over all entries and drops the id; an entry that becomes empty
is removed from the set being walked. `OSetGen_Remove` discards the walk, so the
entries behind it keep the id.

The walk is described on the listing of the entries. From that description follow
the condition under which a last end cleans up completely, and that without the
condition some entry refers to a dead transaction.
-/

namespace PmDebugger

open OrderedSet OrderedSet.OSet TransactionOps

/-- Thread entries in the order of their threads, each with its ids in order. Lookups by thread
and by id then find what is there. -/
structure ThreadsKeyed (entries : List ThreadInfo) : Prop where
  keyed : Keyed ThreadInfo.threadId entries
  ids : ∀ entry ∈ entries, Keyed id entry.txIds.toList

/-- The entry of the thread holds the transaction id. This is what `is_tx_in_thread` asks for. -/
def Contributes (entries : List ThreadInfo) (threadId txId : Nat) : Prop :=
  ∃ entry ∈ entries, entry.threadId = threadId ∧ txId ∈ entry.txIds.toList

/-- An entry loses one id and keeps the others in their order. -/
theorem dropTxId_toList {entry : ThreadInfo} (keyed : Keyed id entry.txIds.toList) (txId : Nat) :
    (dropTxId txId entry).txIds.toList = entry.txIds.toList.filter (· ≠ txId) :=
  remove_byKey keyed txId

/-- What the walk of `remove_tx` leaves of the entries it has not reached yet: it
stops at the first entry that it empties. -/
def dropWalk (txId : Nat) : List ThreadInfo → List ThreadInfo
  | [] => []
  | entry :: rest =>
      if (dropTxId txId entry).txIds.size = 0 then rest
      else dropTxId txId entry :: dropWalk txId rest

/-- Removing an entry closes its gap and discards the walk. -/
theorem removeThreadEntry_listing {threads : OSet ThreadInfo} {before after : List ThreadInfo}
    {entry : ThreadInfo} (listed : threads.toList = before ++ entry :: after)
    (keyed : Keyed ThreadInfo.threadId threads.toList) :
    (removeThreadEntry entry threads).toList = before ++ after ∧
      (removeThreadEntry entry threads).iter = none := by
  have searched : threads.lookup (threadKey entry.threadId) = some entry :=
    (lookup_byKey keyed).mpr ⟨by simp [listed], rfl⟩
  have present : threads.contains (threadKey entry.threadId) = true := by
    simp [OSet.contains, searched]
  have reflexive : byKey ThreadInfo.threadId entry.threadId entry = .eq := byKey_eq_iff.mpr rfl
  rw [removeThreadEntry, if_pos present]
  exact ⟨(remove_match listed keyed.ordered reflexive searched).1, remove_discards searched⟩

/-- A discarded walk changes nothing more. -/
theorem removeTxLoop_discarded (txId fuel : Nat) {threads : OSet ThreadInfo}
    (walk : threads.iter = none) : removeTxLoop txId fuel threads = threads := by
  cases fuel with
  | zero => rfl
  | succ fuel => simp [removeTxLoop, next_discarded walk]

/-- The walk leaves the entries it has passed and treats the others by `dropWalk`. -/
theorem removeTxLoop_listing (txId : Nat) (fuel : Nat) (threads : OSet ThreadInfo)
    (passed rest : List ThreadInfo) (listed : threads.toList = passed ++ rest)
    (walk : threads.iter = some passed.length) (keyed : Keyed ThreadInfo.threadId threads.toList)
    (enough : rest.length < fuel) :
    (removeTxLoop txId fuel threads).toList = passed ++ dropWalk txId rest := by
  induction fuel generalizing threads passed rest with
  | zero => omega
  | succ fuel inductionHypothesis =>
    cases rest with
    | nil =>
      have ends : threads.next = none := next_end (by simpa [listed] using walk)
      simp [removeTxLoop, ends, listed, dropWalk]
    | cons entry rest =>
      have edited : ({ threads with iter := some (passed.length + 1) } : OSet ThreadInfo).toList =
          passed ++ entry :: rest := listed
      have written := modifyAt_match edited (dropTxId txId)
      have editedKeyed : Keyed ThreadInfo.threadId (passed ++ dropTxId txId entry :: rest) := by
        rw [listed] at keyed
        simpa [Keyed, List.pairwise_append, dropTxId] using keyed
      simp only [removeTxLoop, next_some listed walk, dropWalk]
      split
      · -- The emptied entry is removed and the walk ends with it.
        obtain ⟨removed, walk⟩ := removeThreadEntry_listing written
          (by rw [written]; exact editedKeyed)
        rw [removeTxLoop_discarded txId fuel walk, removed]
      · next stays =>
        rw [inductionHypothesis _ (passed ++ [dropTxId txId entry]) rest]
        · simp
        · simpa using written
        · simp [OSet.modifyAt]
        · rw [written]
          exact editedKeyed
        · simp only [List.length_cons] at enough
          omega

/-- An entry that loses its last id held only that one. -/
theorem dropTxId_empty_iff {entry : ThreadInfo} (keyed : Keyed id entry.txIds.toList)
    (nonempty : entry.txIds.toList ≠ []) (txId : Nat) :
    (dropTxId txId entry).txIds.size = 0 ↔ entry.txIds.toList = [txId] := by
  rw [OSet.size, dropTxId_toList keyed txId, List.length_eq_zero_iff, List.filter_eq_nil_iff]
  constructor
  · intro only
    have nodup : entry.txIds.toList.Nodup := List.Pairwise.imp Nat.ne_of_lt keyed
    refine (List.perm_singleton.mp ?_)
    refine (List.perm_ext_iff_of_nodup nodup (by simp)).mpr (fun tested => ?_)
    obtain ⟨member, isMember⟩ := List.exists_mem_of_ne_nil _ nonempty
    have same : ∀ other ∈ entry.txIds.toList, other = txId := by simpa using only
    rw [List.mem_singleton]
    exact ⟨same tested, fun equal => by rw [equal, ← same member isMember]; exact isMember⟩
  · intro single
    simp [single]

/-- No entry that holds only the id stands before another entry that holds it. Removing the
first would discard the walk, and the second would keep the id. -/
def EndsCleanly (entries : List ThreadInfo) (txId : Nat) : Prop :=
  entries.Pairwise (fun first second =>
    first.txIds.toList = [txId] → txId ∉ second.txIds.toList)

instance (entries : List ThreadInfo) (txId : Nat) : Decidable (EndsCleanly entries txId) :=
  inferInstanceAs (Decidable (List.Pairwise _ _))

section Walk

variable {entries : List ThreadInfo} (txId : Nat)

/-- What is left of an entry is the same thread with fewer ids. -/
theorem dropWalk_origin (keyed : ∀ entry ∈ entries, Keyed id entry.txIds.toList) :
    ∀ left ∈ dropWalk txId entries, ∃ entry ∈ entries, left.threadId = entry.threadId ∧
      left.txIds.toList.Sublist entry.txIds.toList := by
  induction entries with
  | nil => simp [dropWalk]
  | cons entry rest inductionHypothesis =>
    obtain ⟨entryKeyed, restKeyed⟩ := List.forall_mem_cons.mp keyed
    unfold dropWalk
    split
    · intro left member
      exact ⟨left, List.mem_cons_of_mem _ member, rfl, List.Sublist.refl _⟩
    · intro left member
      rcases List.mem_cons.mp member with rfl | later
      · refine ⟨entry, List.mem_cons_self, rfl, ?_⟩
        rw [dropTxId_toList entryKeyed]
        exact List.filter_sublist
      · obtain ⟨origin, originMember, facts⟩ := inductionHypothesis restKeyed left later
        exact ⟨origin, List.mem_cons_of_mem _ originMember, facts⟩

/-- The walk keeps the order of the entries and of their ids. -/
theorem dropWalk_keyed (keyed : ThreadsKeyed entries) : ThreadsKeyed (dropWalk txId entries) := by
  refine ⟨?_, fun left member => ?_⟩
  · obtain ⟨keyed, ids⟩ := keyed
    induction entries with
    | nil => exact List.Pairwise.nil
    | cons entry rest inductionHypothesis =>
      obtain ⟨later, restKeyed⟩ := List.pairwise_cons.mp keyed
      obtain ⟨_, restIds⟩ := List.forall_mem_cons.mp ids
      unfold dropWalk
      split
      · exact restKeyed
      · refine List.pairwise_cons.mpr ⟨fun left member => ?_, inductionHypothesis restKeyed restIds⟩
        obtain ⟨origin, originMember, sameThread, _⟩ := dropWalk_origin txId restIds left member
        rw [sameThread]
        exact later origin originMember
  · obtain ⟨origin, originMember, _, fewer⟩ := dropWalk_origin txId keyed.ids left member
    exact (keyed.ids origin originMember).sublist fewer

/-- The walk leaves no entry empty and no entry with the id exactly when it is not
cut short before an entry with the id. -/
theorem dropWalk_clean_iff (keyed : ThreadsKeyed entries)
    (nonempty : ∀ entry ∈ entries, entry.txIds.toList ≠ []) :
    (∀ left ∈ dropWalk txId entries, left.txIds.toList ≠ [] ∧ txId ∉ left.txIds.toList) ↔
      EndsCleanly entries txId := by
  induction entries with
  | nil => simp [dropWalk, EndsCleanly]
  | cons entry rest inductionHypothesis =>
    obtain ⟨later, restKeyed⟩ := List.pairwise_cons.mp keyed.keyed
    have entryKeyed := keyed.ids entry List.mem_cons_self
    have restSound : ThreadsKeyed rest :=
      ⟨restKeyed, fun other member => keyed.ids other (List.mem_cons_of_mem _ member)⟩
    have restNonempty := fun other member => nonempty other (List.mem_cons_of_mem _ member)
    have emptied := dropTxId_empty_iff entryKeyed (nonempty entry List.mem_cons_self) txId
    rw [EndsCleanly, List.pairwise_cons]
    unfold dropWalk
    by_cases single : entry.txIds.toList = [txId]
    · rw [if_pos (emptied.mpr single)]
      constructor
      · intro clean
        exact ⟨fun other member _ => (clean other member).2,
          List.Pairwise.imp_of_mem (fun _ isMember _ _ => (clean _ isMember).2)
            (List.pairwise_of_forall (fun _ _ => trivial))⟩
      · rintro ⟨absent, _⟩ other member
        exact ⟨restNonempty other member, absent other member single⟩
    · have kept := fun empty => single (emptied.mp empty)
      rw [if_neg kept, List.forall_mem_cons, inductionHypothesis restSound restNonempty]
      have entryClean : (dropTxId txId entry).txIds.toList ≠ [] ∧
          txId ∉ (dropTxId txId entry).txIds.toList := by
        refine ⟨fun empty => kept (by simp [OSet.size, empty]), ?_⟩
        simp [dropTxId_toList entryKeyed]
      exact ⟨fun both => ⟨fun _ _ holds => absurd holds single, both.2⟩,
        fun both => ⟨entryClean, both.2⟩⟩

/-- A walk that is cut short or not takes no other id away from a thread. -/
theorem dropWalk_other (keyed : ThreadsKeyed entries) (threadId : Nat) {tested : Nat}
    (differs : tested ≠ txId) :
    Contributes (dropWalk txId entries) threadId tested ↔ Contributes entries threadId tested := by
  constructor
  · rintro ⟨left, member, sameThread, held⟩
    obtain ⟨origin, originMember, originThread, fewer⟩ := dropWalk_origin txId keyed.ids left member
    exact ⟨origin, originMember, originThread.symm.trans sameThread, fewer.subset held⟩
  · rintro ⟨entry, member, sameThread, held⟩
    have ids := keyed.ids
    clear keyed
    -- An entry that holds another id is not removed, whether the walk reaches it or not.
    induction entries with
    | nil => simp at member
    | cons first rest inductionHypothesis =>
      obtain ⟨firstKeyed, restIds⟩ := List.forall_mem_cons.mp ids
      unfold dropWalk
      rcases List.mem_cons.mp member with rfl | later
      · have stillHeld : tested ∈ (dropTxId txId entry).txIds.toList := by
          simpa [dropTxId_toList firstKeyed, differs] using held
        have kept : ¬ (dropTxId txId entry).txIds.size = 0 := by
          rw [OSet.size, List.length_eq_zero_iff]
          exact List.ne_nil_of_mem stillHeld
        rw [if_neg kept]
        exact ⟨_, List.mem_cons_self, sameThread, stillHeld⟩
      · split
        · exact ⟨entry, later, sameThread, held⟩
        · obtain ⟨left, leftMember, facts⟩ := inductionHypothesis later restIds
          exact ⟨left, List.mem_cons_of_mem _ leftMember, facts⟩

/-- A complete walk takes the id away from every thread and nothing else. -/
theorem dropWalk_contributes (keyed : ThreadsKeyed entries)
    (nonempty : ∀ entry ∈ entries, entry.txIds.toList ≠ []) (clean : EndsCleanly entries txId)
    (threadId tested : Nat) :
    Contributes (dropWalk txId entries) threadId tested ↔
      Contributes entries threadId tested ∧ tested ≠ txId := by
  by_cases same : tested = txId
  · subst same
    have absent : ¬ Contributes (dropWalk tested entries) threadId tested := by
      rintro ⟨left, member, _, held⟩
      exact ((dropWalk_clean_iff tested keyed nonempty).mpr clean left member).2 held
    simp [absent]
  · rw [dropWalk_other txId keyed threadId same]
    simp [same]

end Walk

/-- `is_tx_in_thread` answers whether the entry of the thread holds the id. -/
theorem isTxInThread_iff {trans : TransactionOps} (keyed : ThreadsKeyed trans.threads.toList)
    (threadId txId : Nat) :
    trans.isTxInThread threadId txId = true ↔ Contributes trans.threads.toList threadId txId := by
  cases searched : trans.threads.lookup (threadKey threadId) with
  | none =>
    have absent := (lookup_byKey_none keyed.keyed).mp searched
    simp only [isTxInThread, searched, Bool.false_eq_true, false_iff]
    rintro ⟨entry, member, same, _⟩
    exact absent entry member same
  | some entry =>
    obtain ⟨member, same⟩ := (lookup_byKey keyed.keyed).mp searched
    simp only [isTxInThread, searched]
    rw [wordKey, contains_byKey (keyed.ids entry member)]
    constructor
    · rintro ⟨held, heldMember, rfl⟩
      exact ⟨entry, member, same, heldMember⟩
    · rintro ⟨other, otherMember, otherSame, held⟩
      rw [keyed.keyed.unique otherMember member (otherSame.trans same.symm)] at held
      exact ⟨txId, held, rfl⟩

/-- Entering an id keeps the others, in order. -/
theorem addTxId_exact {entry : ThreadInfo} (keyed : Keyed id entry.txIds.toList) (txId : Nat) :
    Keyed id (addTxId txId entry).txIds.toList ∧
      ∀ tested, tested ∈ (addTxId txId entry).txIds.toList ↔
        tested = txId ∨ tested ∈ entry.txIds.toList := by
  unfold addTxId
  split
  · next present =>
    obtain ⟨held, member, same⟩ := (contains_byKey keyed).mp present
    refine ⟨keyed, fun tested => ⟨.inr, ?_⟩⟩
    rintro (rfl | old)
    · exact (show held = tested from same) ▸ member
    · exact old
  · next absent =>
    refine insert_byKey keyed txId (fun held member same => absent ?_)
    exact (contains_byKey keyed).mpr ⟨held, member, same⟩

/-- `create_get_thread_entry` adds at most an empty entry of the thread. The other entries stay
as they are. -/
structure Entered (threadId : Nat) (before after : List ThreadInfo) : Prop where
  keyed : ThreadsKeyed after
  present : ∃ entry ∈ after, entry.threadId = threadId
  kept : ∀ entry ∈ before, entry ∈ after
  added : ∀ entry ∈ after, entry ∈ before ∨ entry.threadId = threadId ∧ entry.txIds.toList = []

/-- The thread has an entry afterwards: the one that it had, or an empty one. -/
theorem createGetThreadEntry_exact {trans : TransactionOps}
    (keyed : ThreadsKeyed trans.threads.toList) (threadId : Nat) :
    Entered threadId trans.threads.toList
      (trans.createGetThreadEntry threadId).threads.toList := by
  unfold createGetThreadEntry
  split
  · next present =>
    exact ⟨keyed, (contains_byKey keyed.keyed).mp present, fun _ => id, fun _ => .inl⟩
  · next absent =>
    have fresh : ∀ entry ∈ trans.threads.toList, entry.threadId ≠ threadId :=
      fun entry member same => absent ((contains_byKey keyed.keyed).mpr ⟨entry, member, same⟩)
    obtain ⟨insertedKeyed, members⟩ :=
      insert_byKey keyed.keyed { threadId := threadId, txIds := create } fresh
    refine ⟨⟨insertedKeyed, fun entry member => ?_⟩, ⟨_, (members _).mpr (.inl rfl), rfl⟩,
      fun entry member => (members entry).mpr (.inr member), fun entry member => ?_⟩
    · rcases (members entry).mp member with rfl | old
      · exact List.Pairwise.nil
      · exact keyed.ids entry old
    · rcases (members entry).mp member with rfl | old
      · exact .inr ⟨rfl, rfl⟩
      · exact .inl old

/-- A start keeps the entries in order, enters exactly its thread and id, and leaves
no entry empty that was not empty before. -/
theorem registerNewTx_threads {trans : TransactionOps} (keyed : ThreadsKeyed trans.threads.toList)
    (threadId : Nat) (context : Option ExeContext) (txId : Nat) :
    ThreadsKeyed (trans.registerNewTx threadId context txId).threads.toList ∧
      (∀ thread tested,
        Contributes (trans.registerNewTx threadId context txId).threads.toList thread tested ↔
          Contributes trans.threads.toList thread tested ∨ thread = threadId ∧ tested = txId) ∧
      ((∀ entry ∈ trans.threads.toList, entry.txIds.toList ≠ []) →
        ∀ entry ∈ (trans.registerNewTx threadId context txId).threads.toList,
          entry.txIds.toList ≠ []) := by
  have entered := createGetThreadEntry_exact keyed threadId
  have edited := update_byKey entered.keyed.keyed threadId (addTxId txId)
  have listed : (trans.registerNewTx threadId context txId).threads.toList =
      (trans.createGetThreadEntry threadId).threads.toList.map (fun entry =>
        if entry.threadId = threadId then addTxId txId entry else entry) := by
    rw [← edited]
    simp only [registerNewTx, createGetThreadEntry]
    split <;> split <;> rfl
  have sameThread (entry : ThreadInfo) : (if entry.threadId = threadId then addTxId txId entry
      else entry).threadId = entry.threadId := by
    unfold addTxId
    split
    · split <;> rfl
    · rfl
  rw [listed]
  refine ⟨⟨entered.keyed.keyed.map sameThread, ?_⟩, ?_, ?_⟩
  · rw [List.forall_mem_map]
    intro entry member
    have ids := entered.keyed.ids entry member
    split
    · exact (addTxId_exact ids txId).1
    · exact ids
  · intro thread tested
    constructor
    · rintro ⟨_, member, same, held⟩
      obtain ⟨entry, entryMember, rfl⟩ := List.mem_map.mp member
      rw [sameThread] at same
      have old (inside : tested ∈ entry.txIds.toList) :
          Contributes trans.threads.toList thread tested := by
        rcases entered.added entry entryMember with before | ⟨_, empty⟩
        · exact ⟨entry, before, same, inside⟩
        · simp [empty] at inside
      split at held
      · next own =>
        rcases ((addTxId_exact (entered.keyed.ids entry entryMember) txId).2 tested).mp held with
          rfl | inside
        · exact .inr ⟨same.symm.trans own, rfl⟩
        · exact .inl (old inside)
      · exact .inl (old held)
    · intro holds
      have found : ∃ entry ∈ (trans.createGetThreadEntry threadId).threads.toList,
          entry.threadId = thread ∧ (tested ∈ entry.txIds.toList ∨
            entry.threadId = threadId ∧ tested = txId) := by
        rcases holds with ⟨entry, member, same, held⟩ | ⟨rfl, rfl⟩
        · exact ⟨entry, entered.kept entry member, same, .inl held⟩
        · obtain ⟨entry, member, same⟩ := entered.present
          exact ⟨entry, member, same, .inr ⟨same, rfl⟩⟩
      obtain ⟨entry, member, same, held⟩ := found
      refine ⟨_, List.mem_map.mpr ⟨entry, member, rfl⟩, (sameThread entry).trans same, ?_⟩
      split
      · refine ((addTxId_exact (entered.keyed.ids entry member) txId).2 tested).mpr ?_
        tauto
      · tauto
  · intro nonempty
    rw [List.forall_mem_map]
    intro entry member
    split
    · refine List.ne_nil_of_mem (a := txId) ?_
      exact ((addTxId_exact (entered.keyed.ids entry member) txId).2 txId).mpr (.inl rfl)
    · next differs =>
      rcases entered.added entry member with old | ⟨own, _⟩
      · exact nonempty entry old
      · exact absurd own differs

/-- The last end of an id leaves what the walk leaves. -/
theorem removeTx_threads {trans : TransactionOps} (keyed : ThreadsKeyed trans.threads.toList)
    {txId : Nat} {tx : TxInfo} (searched : trans.transactions.lookup (txKey txId) = some tx) :
    (trans.removeTx txId).2.threads.toList =
      if tx.counter ≤ 1 then dropWalk txId trans.threads.toList else trans.threads.toList := by
  have walked := removeTxLoop_listing txId (trans.threads.size + 1) trans.threads.resetIter []
    trans.threads.toList rfl rfl keyed.keyed (by simp [OSet.size])
  simp only [removeTx, searched]
  by_cases last : tx.counter ≤ 1
  · rw [if_pos last, if_neg (by omega)]
    exact walked
  · rw [if_neg last, if_pos (by omega)]

/-- Every id in every thread entry is open, and no entry is empty. A thread thus contributes to
open transactions only. -/
def ThreadsLive (trans : TransactionOps) : Prop :=
  ∀ entry ∈ trans.threads.toList, entry.txIds.toList ≠ [] ∧
    ∀ txId ∈ entry.txIds.toList, ∃ tx ∈ trans.transactions.toList, tx.txId = txId

instance (trans : TransactionOps) : Decidable (ThreadsLive trans) :=
  inferInstanceAs (Decidable (∀ entry ∈ trans.threads.toList, _ ∧ _))

/-- The entries are live if and only if the log has every id in them open. -/
theorem threadsLive_iff {trans : TransactionOps} {log : TxLog} (refines : Refines trans log) :
    ThreadsLive trans ↔ ∀ entry ∈ trans.threads.toList, entry.txIds.toList ≠ [] ∧
      ∀ txId ∈ entry.txIds.toList, log.depth txId ≠ 0 := by
  simp only [ThreadsLive, refines.isOpen]

/-- `START_TX` and `END_TX`, with or without an explicit id. Runs of these requests alone leave
every thread entry to the starts and the ends. -/
def StartsOrEnds : TxRequest → Prop
  | .start _ _ _ | .finish _ _ => True
  | _ => False

instance : DecidablePred StartsOrEnds
  | .start _ _ _ | .finish _ _ => .isTrue trivial
  | .add _ _ _ _ _ | .remove _ _ _ _ | .ignore _ _ | .store _ _ => .isFalse id

/-- A last end of an id meets thread entries that its walk cleans up completely. -/
def LastEndClean (trans : TransactionOps) : TxRequest → Prop
  | .finish _ txId => ∀ tx ∈ trans.transactions.lookup (txKey txId),
      tx.counter ≤ 1 → EndsCleanly trans.threads.toList txId
  | _ => True

instance (trans : TransactionOps) : DecidablePred (LastEndClean trans)
  | .finish _ txId => inferInstanceAs (Decidable (∀ tx ∈ trans.transactions.lookup (txKey txId),
      tx.counter ≤ 1 → EndsCleanly trans.threads.toList txId))
  | .start _ _ _ | .add _ _ _ _ _ | .remove _ _ _ _ | .ignore _ _ | .store _ _ => .isTrue trivial

/-- A consistent state with thread entries in order. Starts and ends keep it. -/
def Orderly (trans : TransactionOps) : Prop :=
  Consistent trans ∧ ThreadsKeyed trans.threads.toList

/-- Ending a transaction keeps the entries in order. -/
theorem removeTx_keyed {trans : TransactionOps} (keyed : ThreadsKeyed trans.threads.toList)
    (txId : Nat) : ThreadsKeyed (trans.removeTx txId).2.threads.toList := by
  cases searched : trans.transactions.lookup (txKey txId) with
  | none => simpa [removeTx, searched] using keyed
  | some tx =>
    rw [removeTx_threads keyed searched]
    split
    · exact dropWalk_keyed txId keyed
    · exact keyed

/-- Starts and ends keep the entries in order. -/
theorem orderly_step {trans : TransactionOps} {request : TxRequest} (orderly : Orderly trans)
    (allowed : StartsOrEnds request) : Orderly (txStep trans request) := by
  obtain ⟨consistent, keyed⟩ := orderly
  cases request with
  | start threadId context txId =>
    exact ⟨consistent_step consistent trivial,
      (registerNewTx_threads keyed threadId context txId).1⟩
  | finish threadId txId => exact ⟨consistent_step consistent trivial, removeTx_keyed keyed txId⟩
  | add threadId context txId base size => exact allowed.elim
  | remove threadId txId base size => exact allowed.elim
  | ignore base size => exact allowed.elim
  | store threadId store => exact allowed.elim

/-- A start keeps every reference alive. -/
theorem registerNewTx_live {trans : TransactionOps} {log : TxLog} (refines : Refines trans log)
    (keyed : ThreadsKeyed trans.threads.toList) (live : ThreadsLive trans) (threadId : Nat)
    (context : Option ExeContext) (txId : Nat) :
    ThreadsLive (trans.registerNewTx threadId context txId) := by
  obtain ⟨_, contributes, nonempty⟩ := registerNewTx_threads keyed threadId context txId
  rw [threadsLive_iff refines] at live
  rw [threadsLive_iff (registerNewTx_refines refines threadId context txId)]
  intro entry member
  refine ⟨nonempty (fun old oldMember => (live old oldMember).1) entry member, ?_⟩
  intro tested held
  rcases (contributes entry.threadId tested).mp ⟨entry, member, rfl, held⟩ with old | ⟨_, rfl⟩
  · obtain ⟨before, beforeMember, _, beforeHeld⟩ := old
    have isOpen := (live before beforeMember).2 tested beforeHeld
    by_cases same : tested = txId
    · simp [TxLog.start, same]
    · simpa [TxLog.start, same] using isOpen
  · simp [TxLog.start]

/-- An end keeps every reference alive exactly when its walk is complete. -/
theorem removeTx_live_iff {trans : TransactionOps} {log : TxLog} (refines : Refines trans log)
    (keyed : ThreadsKeyed trans.threads.toList) (live : ThreadsLive trans) (threadId txId : Nat) :
    ThreadsLive (trans.removeTx txId).2 ↔ LastEndClean trans (.finish threadId txId) := by
  cases searched : trans.transactions.lookup (txKey txId) with
  | none =>
    refine iff_of_true ?_ (by simp [LastEndClean, searched])
    simpa [removeTx, searched] using live
  | some tx =>
    obtain ⟨member, sameId⟩ := refines.lookup_some.mp searched
    have counted : tx.counter = log.depth txId := sameId ▸ (refines.logged tx member).counter
    rw [threadsLive_iff refines] at live
    rw [threadsLive_iff (removeTx_refines refines txId), removeTx_threads keyed searched]
    simp only [LastEndClean, searched, Option.mem_some_iff, forall_eq']
    by_cases last : tx.counter ≤ 1
    · simp only [last, if_true, forall_const]
      rw [← dropWalk_clean_iff txId keyed (fun entry isEntry => (live entry isEntry).1)]
      refine forall₂_congr (fun left isLeft => and_congr_right (fun _ => ?_))
      obtain ⟨origin, originMember, _, fewer⟩ := dropWalk_origin txId keyed.ids left isLeft
      have closed : (log.finish txId).depth txId = 0 := by
        simp only [TxLog.finish, Function.update_self]
        omega
      constructor
      · intro isOpen held
        exact isOpen txId held closed
      · intro absent tested held
        have differs : tested ≠ txId := by
          rintro rfl
          exact absent held
        simpa [TxLog.finish, differs] using (live origin originMember).2 tested (fewer.subset held)
    · refine iff_of_true ?_ (fun atMost => absurd atMost last)
      rw [if_neg last]
      intro entry isEntry
      refine ⟨(live entry isEntry).1, fun tested held => ?_⟩
      have isOpen := (live entry isEntry).2 tested held
      by_cases same : tested = txId
      · simp only [TxLog.finish, same, Function.update_self]
        omega
      · simpa [TxLog.finish, same] using isOpen

/-- Over any interleaving of starts and ends by any threads, every id in every thread entry is
open and no entry is empty, in every state reached, exactly when each last end meets entries
that its walk cleans up completely.

Proof: a start adds an id that it opens. An end that is not the last leaves the id open. A last
end walks over the entries and takes the id out of each, but to remove an entry that has become
empty ends the walk, and the entries behind it keep the id. Whether there are any is a
condition on the state before. -/
theorem threads_live_iff (transactionsOnly redundantLogging : Bool) (requests : List TxRequest)
    (allowed : ∀ request ∈ requests, StartsOrEnds request) :
    (∀ made, made <+: requests →
      ThreadsLive (made.foldl txStep (initTransactions transactionsOnly redundantLogging))) ↔
      Runs.AllSteps txStep LastEndClean (initTransactions transactionsOnly redundantLogging)
        requests := by
  refine Runs.throughout_iff_allSteps txStep (fun _ => StartsOrEnds) LastEndClean
    ThreadsLive Orderly (fun _ _ => orderly_step) ?_ _ requests ?_ ?_ ?_
  · intro trans request orderly isAllowed live
    obtain ⟨⟨log, refines⟩, keyed⟩ := orderly
    cases request with
    | start threadId context txId =>
      exact iff_of_true (registerNewTx_live refines keyed live threadId context txId) trivial
    | finish threadId txId => exact removeTx_live_iff refines keyed live threadId txId
    | add threadId context txId base size => exact isAllowed.elim
    | remove threadId txId base size => exact isAllowed.elim
    | ignore base size => exact isAllowed.elim
    | store threadId store => exact isAllowed.elim
  · exact ⟨⟨_, refines_init transactionsOnly redundantLogging⟩, List.Pairwise.nil,
      by simp [initTransactions]⟩
  · simp [ThreadsLive, initTransactions]
  · exact Runs.allSteps_of_forall _ allowed

/-- Two threads share a transaction and the first of them has another one open, so
the last end cleans up both. -/
theorem threads_live_shared_run :
    let requests : List TxRequest := [.start 1 none 7, .start 1 none 8, .start 2 none 7,
      .finish 1 7, .finish 2 7, .finish 1 8]
    Runs.AllSteps txStep LastEndClean (initTransactions false false) requests ∧
      ∀ made, made <+: requests →
        ThreadsLive (made.foldl txStep (initTransactions false false)) := by
  refine ⟨by decide +kernel, ?_⟩
  exact (threads_live_iff false false _ (by decide)).mpr (by decide +kernel)

/-- Two threads contribute only to the same transaction. Its last end removes the
entry of the first thread, which ends the walk, and the second thread still refers
to the dead transaction. -/
theorem threads_live_fails :
    let requests : List TxRequest := [.start 1 none 7, .start 2 none 7, .finish 1 7, .finish 2 7]
    (∀ request ∈ requests, StartsOrEnds request) ∧
      ¬ ThreadsLive (requests.foldl txStep (initTransactions false false)) := by
  decide +kernel

end PmDebugger
