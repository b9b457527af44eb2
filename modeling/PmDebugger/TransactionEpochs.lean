import PmDebugger.Registers

/-!
# Epochs that follow transactions

With the check of epoch durability, a start that is not nested opens the epoch and an
end that is not nested marks a fence and closes it. Both look at the counter of their
own transaction id, and the epoch is one flag for all ids.

An epoch that is open exactly while some transaction is can therefore be lost only by
an end that closes its transaction while another one is open. The run theorem says so
for every interleaving in which the client opens and closes no epoch itself.
-/

namespace PmDebugger

open OrderedSet OrderedSet.OSet TransactionOps

/-- The open transactions stand in the order of their ids, each with a positive
counter. -/
structure Counted (trans : TransactionOps) : Prop where
  keyed : Keyed TxInfo.txId trans.transactions.toList
  positive : ∀ tx ∈ trans.transactions.toList, 1 ≤ tx.counter

/-- The open transactions with their counters, in the order of the table. -/
def depths (trans : TransactionOps) : List (Nat × Nat) :=
  trans.transactions.toList.map (fun tx => (tx.txId, tx.counter))

/-- Whether the transactions are counted can be read off their ids and counters. -/
theorem Counted.of_depths {before after : TransactionOps} (counted : Counted before)
    (same : depths after = depths before) : Counted after := by
  have counters : ∀ tx ∈ after.transactions.toList,
      ∃ old ∈ before.transactions.toList, old.counter = tx.counter := by
    intro tx member
    have listed : (tx.txId, tx.counter) ∈ depths after := List.mem_map.mpr ⟨tx, member, rfl⟩
    rw [same] at listed
    obtain ⟨old, oldMember, equal⟩ := List.mem_map.mp listed
    exact ⟨old, oldMember, congrArg Prod.snd equal⟩
  constructor
  · have keyed : Keyed Prod.fst (depths before) := List.pairwise_map.mpr counted.keyed
    rw [← same, Keyed, depths, List.pairwise_map] at keyed
    exact keyed
  · intro tx member
    obtain ⟨old, oldMember, equal⟩ := counters tx member
    rw [← equal]
    exact counted.positive old oldMember

/-- Writing a transaction that keeps its id and its counter keeps all counters. -/
theorem depths_update {trans : TransactionOps} (counted : Counted trans) {tx : TxInfo}
    (member : tx ∈ trans.transactions.toList) {written : TxInfo} (sameId : written.txId = tx.txId)
    (sameCounter : written.counter = tx.counter) :
    (trans.transactions.update (txKey tx.txId) (fun _ => written)).toList.map
      (fun other => (other.txId, other.counter)) = depths trans := by
  have edited : (trans.transactions.update (txKey tx.txId) (fun _ => written)).toList = _ :=
    update_byKey counted.keyed tx.txId (fun _ => written)
  rw [edited, List.map_map]
  apply List.map_congr_left
  intro other otherMember
  simp only [Function.comp]
  split
  · next same =>
    have unique : other = tx := counted.keyed.unique otherMember member same
    rw [sameId, sameCounter, unique]
  · rfl

/-- A cache may be flushed without a change to any counter. -/
theorem depths_flushCache {trans : TransactionOps} (counted : Counted trans) (txId : Nat) :
    (trans.transactions.update (txKey txId) flushCache).toList.map
      (fun other => (other.txId, other.counter)) = depths trans := by
  have edited : (trans.transactions.update (txKey txId) flushCache).toList = _ :=
    update_byKey counted.keyed txId flushCache
  rw [edited, List.map_map]
  apply List.map_congr_left
  intro other _
  simp only [Function.comp, flushCache]
  split
  · split <;> rfl
  · rfl

section Calls

variable {trans : TransactionOps} (counted : Counted trans)

include counted

/-- A registration changes no counter. -/
theorem addObjToTx_depths (threadId : Nat) (context : Option ExeContext) (txId base size : Nat) :
    depths (trans.addObjToTx threadId context txId base size).2 = depths trans := by
  simp only [addObjToTx]
  cases searched : trans.transactions.lookup (txKey txId) with
  | none => rfl
  | some tx =>
    obtain ⟨member, rfl⟩ := (lookup_byKey counted.keyed).mp searched
    simp only
    split
    · have kept (reg : PmemSt) (dbIndex : Nat) : (cacheRegion reg tx dbIndex).1.txId = tx.txId ∧
          (cacheRegion reg tx dbIndex).1.counter = tx.counter := by
        have flushed : (flushCache tx).txId = tx.txId ∧ (flushCache tx).counter = tx.counter := by
          simp only [flushCache]
          split <;> exact ⟨rfl, rfl⟩
        simp only [cacheRegion]
        split
        · split
          · exact flushed
          · split
            · exact flushed
            · exact ⟨rfl, rfl⟩
        · exact ⟨rfl, rfl⟩
      rw [reportOverlaps_frame]
      exact depths_update counted member (kept _ _).1 (kept _ _).2
    · rfl

/-- A removal changes no counter. -/
theorem removeObjFromTx_depths (threadId txId base size : Nat) :
    depths (trans.removeObjFromTx threadId txId base size).2 = depths trans := by
  simp only [removeObjFromTx]
  cases searched : trans.transactions.lookup (txKey txId) with
  | none => rfl
  | some tx =>
    obtain ⟨member, rfl⟩ := (lookup_byKey counted.keyed).mp searched
    simp only
    split
    · have kept (reg : PmemSt) (dbIndex : Nat) : (uncacheRegion reg tx dbIndex).1.txId = tx.txId ∧
          (uncacheRegion reg tx dbIndex).1.counter = tx.counter := by
        simp only [uncacheRegion]
        split <;> exact ⟨rfl, rfl⟩
      exact depths_update counted member (kept _ _).1 (kept _ _).2
    · rfl

/-- To look a store up in a transaction may flush its cache, which changes no counter. -/
theorem isStoreInTx_depths (store : PmemSt) (txId : Nat) :
    depths (trans.isStoreInTx store txId).2 = depths trans := by
  simp only [isStoreInTx]
  split
  · rfl
  · split
    · rfl
    · exact depths_flushCache counted txId

omit counted in
/-- A search through transactions changes no counter, by induction on the ids. -/
theorem searchTxs_depths (store : PmemSt) (txIds : List Nat) {current : TransactionOps}
    (currentCounted : Counted current) :
    depths (searchTxs store txIds current).2 = depths current := by
  induction txIds generalizing current with
  | nil => rfl
  | cons txId rest inductionHypothesis =>
    have one := isStoreInTx_depths currentCounted store txId
    simp only [searchTxs]
    split
    · exact one
    · exact (inductionHypothesis (currentCounted.of_depths one)).trans one

/-- A store changes no counter. -/
theorem handleTxStore_depths (threadId : Nat) (store : PmemSt) :
    depths (trans.handleTxStore threadId store) = depths trans := by
  have recorded (state : TransactionOps) : depths (state.recordStore store) = depths state := by
    simp only [recordStore]
    split <;> rfl
  simp only [handleTxStore]
  split
  · rfl
  · split
    · split
      · exact recorded trans
      · rfl
    · split
      · exact searchTxs_depths store _ counted
      · exact (recorded _).trans (searchTxs_depths store _ counted)

/-- A transaction is nested if its counter is above one. -/
theorem isNestTrans_iff (txId : Nat) : trans.isNestTrans txId = true ↔
    ∃ tx ∈ trans.transactions.toList, tx.txId = txId ∧ 1 < tx.counter := by
  simp only [isNestTrans]
  cases searched : trans.transactions.lookup (txKey txId) with
  | none =>
    have absent := (lookup_byKey_none counted.keyed).mp searched
    simp only [Bool.false_eq_true, false_iff]
    rintro ⟨tx, member, same, _⟩
    exact absent tx member same
  | some found =>
    obtain ⟨foundMember, rfl⟩ := (lookup_byKey counted.keyed).mp searched
    simp only [decide_eq_true_eq]
    constructor
    · intro deep
      exact ⟨found, foundMember, rfl, deep⟩
    · rintro ⟨tx, member, same, deep⟩
      rwa [← counted.keyed.unique member foundMember same]

/-- A start leaves its transaction open, and nested only if it was open before. -/
theorem registerNewTx_counted (threadId : Nat) (context : Option ExeContext) (txId : Nat) :
    Counted (trans.registerNewTx threadId context txId) ∧
      (trans.registerNewTx threadId context txId).transactions.toList ≠ [] ∧
      ((trans.registerNewTx threadId context txId).isNestTrans txId = true →
        trans.transactions.toList ≠ []) := by
  have entered (opened : TransactionOps) :
      (opened.createGetThreadEntry threadId).transactions = opened.transactions := by
    simp only [createGetThreadEntry]
    split <;> rfl
  -- The listing before the counter is raised: the transaction is in it.
  obtain ⟨opened, keyed, present, positive, listed⟩ : ∃ opened : OSet TxInfo,
      Keyed TxInfo.txId opened.toList ∧ (∃ tx ∈ opened.toList, tx.txId = txId) ∧
      (∀ tx ∈ opened.toList,
        tx ∈ trans.transactions.toList ∨ tx.txId = txId ∧ tx.counter = 0) ∧
      (trans.registerNewTx threadId context txId).transactions =
        opened.update (txKey txId) (fun tx => { tx with counter := tx.counter + 1 }) := by
    by_cases contained : trans.transactions.contains (txKey txId) = true
    · refine ⟨trans.transactions, counted.keyed, (contains_byKey counted.keyed).mp contained,
        fun tx member => .inl member, ?_⟩
      simp only [registerNewTx, contained, if_true, entered]
    · have fresh : ∀ tx ∈ trans.transactions.toList, tx.txId ≠ (newTx txId context).txId :=
        fun tx member same => contained ((contains_byKey counted.keyed).mpr ⟨tx, member, same⟩)
      obtain ⟨insertedKeyed, members⟩ := insert_byKey counted.keyed (newTx txId context) fresh
      refine ⟨_, insertedKeyed, ⟨_, (members _).mpr (.inl rfl), rfl⟩, ?_, ?_⟩
      · intro tx member
        rcases (members tx).mp member with rfl | old
        · exact .inr ⟨rfl, rfl⟩
        · exact .inl old
      · simp only [registerNewTx, contained, entered]
        rfl
  have edited : (trans.registerNewTx threadId context txId).transactions.toList =
      opened.toList.map (fun tx =>
        if tx.txId = txId then { tx with counter := tx.counter + 1 } else tx) := by
    rw [listed]
    exact update_byKey keyed txId _
  have newCounted : Counted (trans.registerNewTx threadId context txId) := by
    constructor
    · rw [edited]
      apply keyed.map
      intro tx
      split <;> rfl
    · rw [edited]
      intro tx member
      obtain ⟨old, oldMember, rfl⟩ := List.mem_map.mp member
      split
      · simp
      · next differs =>
        rcases positive old oldMember with before | ⟨fresh, _⟩
        · exact counted.positive old before
        · exact absurd fresh differs
  refine ⟨newCounted, ?_, ?_⟩
  · obtain ⟨tx, member, _⟩ := present
    rw [edited]
    exact List.ne_nil_of_mem (List.mem_map.mpr ⟨tx, member, rfl⟩)
  · rw [isNestTrans_iff newCounted, edited]
    rintro ⟨_, member, sameId, deep⟩
    obtain ⟨old, oldMember, rfl⟩ := List.mem_map.mp member
    rcases positive old oldMember with before | ⟨fresh, zero⟩
    · exact List.ne_nil_of_mem before
    · simp [fresh, zero] at deep

/-- An end of an open transaction takes it out of the listing if it is not nested. -/
theorem removeTx_counted {tx : TxInfo} (member : tx ∈ trans.transactions.toList) :
    Counted (trans.removeTx tx.txId).2 ∧
      if 1 < tx.counter then (trans.removeTx tx.txId).2.transactions.toList ≠ []
      else (trans.removeTx tx.txId).2.transactions.toList =
        trans.transactions.toList.filter (fun other => other.txId ≠ tx.txId) := by
  have searched : trans.transactions.lookup (txKey tx.txId) = some tx :=
    (lookup_byKey counted.keyed).mpr ⟨member, rfl⟩
  by_cases deep : 1 < tx.counter
  · have edited : (trans.removeTx tx.txId).2.transactions.toList =
        trans.transactions.toList.map (fun other => if other.txId = tx.txId then
          { other with counter := other.counter - 1 } else other) := by
      simp only [removeTx, searched, if_pos (show tx.counter - 1 > 0 by omega)]
      exact update_byKey counted.keyed tx.txId _
    rw [if_pos deep, edited]
    refine ⟨⟨?_, ?_⟩, List.ne_nil_of_mem (List.mem_map.mpr ⟨tx, member, rfl⟩)⟩
    · rw [edited]
      apply counted.keyed.map
      intro other
      split <;> rfl
    · rw [edited]
      intro left leftMember
      obtain ⟨other, otherMember, rfl⟩ := List.mem_map.mp leftMember
      split
      · next same =>
        rw [counted.keyed.unique otherMember member same]
        exact Nat.le_sub_one_of_lt deep
      · exact counted.positive other otherMember
  · have removed : (trans.removeTx tx.txId).2.transactions.toList =
        trans.transactions.toList.filter (fun other => other.txId ≠ tx.txId) := by
      simp only [removeTx, searched, if_neg (show ¬ tx.counter - 1 > 0 by omega)]
      exact remove_byKey counted.keyed tx.txId
    rw [if_neg deep]
    refine ⟨⟨?_, ?_⟩, removed⟩
    · rw [removed]
      exact counted.keyed.sublist List.filter_sublist
    · rw [removed]
      intro other stays
      exact counted.positive other (List.mem_filter.mp stays).1

end Calls

/-! ## Requests and runs -/

/-- What the check at the end of an epoch lists: the records with the epoch mark. -/
def PmemOps.epochRecords (pmem : PmemOps) : List PmemSt :=
  pmem.pmemStores.toList.filter PmemSt.inEpoch ++
    (pmem.usedSlots.filter pmem.reportsSlot).map pmem.slots

/-- The epoch is open exactly while a transaction is. So a store that is made while one
is open is marked, and an end that closes a transaction runs the durability check. -/
structure EpochFollows (tool : Tool) : Prop where
  epoch : tool.pmem.epoch = true ↔ tool.trans.transactions.toList ≠ []
  marks : tool.trans.transactions.toList ≠ [] → ∀ addr size value context,
    (tool.pmem.trackStore addr size value context).2.inEpoch = true
  checks : ∀ tx ∈ tool.trans.transactions.toList, tx.counter = 1 → ∀ context,
    (tool.endTx context tx.txId).2.1 = tool.pmem.epochRecords

/-- The region keeps its mark while the tree makes room for it. -/
theorem makeRoom_inEpoch (isIpMemsetMemcpy : Nat → Bool) (region : PmemSt) (set : OSet PmemSt)
    (dbIndex : Nat) : (makeRoom isIpMemsetMemcpy region set dbIndex).1.inEpoch =
      region.inEpoch := by
  have merged (search grown : PmemSt) (rest : OSet PmemSt) :
      (mergeNeighbour isIpMemsetMemcpy search grown rest).1.inEpoch = grown.inEpoch := by
    simp only [mergeNeighbour]
    split
    · rfl
    · split <;> rfl
  simp only [makeRoom]
  rw [merged, merged]

/-- A store in an open epoch is marked, wherever it is put. -/
theorem trackStore_inEpoch {pmem : PmemOps} (opened : pmem.epoch = true) (addr size value : Nat)
    (context : Option ExeContext) :
    (pmem.trackStore addr size value context).2.inEpoch = true := by
  have entered (store : PmemSt) (state : PmemOps) :
      (state.insertStore store).2.inEpoch = store.inEpoch := by
    simp only [PmemOps.insertStore, PmemOps.addAndMergeStore]
    split
    · exact makeRoom_inEpoch _ _ _ _
    · rfl
  simp only [PmemOps.trackStore]
  split
  · simp [PmemOps.writeStore, opened]
  · simp only [entered]
    simp [PmemOps.writeStore, opened]

/-- A fence mark changes neither the epoch nor what its end would report. -/
theorem markEpochFence_epochRecords (context : Option ExeContext) (pmem : PmemOps) :
    (pmem.markEpochFence context).epoch = pmem.epoch ∧
      (pmem.markEpochFence context).epochRecords = pmem.epochRecords := by
  simp only [PmemOps.markEpochFence]
  split
  · split
    · exact ⟨rfl, rfl⟩
    · split <;> exact ⟨rfl, rfl⟩
  · exact ⟨rfl, rfl⟩

/-- The mark of a fence changes no option. -/
theorem markEpochFence_opts (context : Option ExeContext) (pmem : PmemOps) :
    (pmem.markEpochFence context).opts = pmem.opts := by
  simp only [PmemOps.markEpochFence]
  split
  · split
    · rfl
    · split <;> rfl
  · rfl

/-- The end of an epoch closes it unless it is nested. -/
theorem epochEnd_epoch (nested : Bool) (pmem : PmemOps) :
    (pmem.epochEnd nested).2.epoch = (pmem.epoch && nested) ∧
      (pmem.epochEnd nested).2.opts = pmem.opts := by
  simp only [PmemOps.epochEnd]
  split
  · exact ⟨(PmemOps.unmarkSlots_registers _ _).epoch, (PmemOps.unmarkSlots_registers _ _).opts⟩
  · next closed => simp [closed]

section Steps

variable {tool : Tool} (counted : Counted tool.trans)
  (durability : tool.pmem.opts.epochDurabilityFence = true)

include counted durability

/-- An end that closes its transaction runs the check if the epoch is open. -/
theorem endTx_closes {tx : TxInfo} (member : tx ∈ tool.trans.transactions.toList)
    (single : tx.counter = 1) (context : Option ExeContext) :
    (tool.pmem.epoch = true → (tool.endTx context tx.txId).2.1 = tool.pmem.epochRecords) ∧
      (tool.endTx context tx.txId).2.2.pmem.epoch = false ∧
      (tool.endTx context tx.txId).2.2.pmem.opts = tool.pmem.opts := by
  have notNested : tool.trans.isNestTrans tx.txId = false := by
    rw [Bool.eq_false_iff, ne_eq, isNestTrans_iff counted]
    rintro ⟨other, otherMember, same, deep⟩
    rw [counted.keyed.unique otherMember member same] at deep
    omega
  obtain ⟨removedCounted, removed⟩ := removeTx_counted counted member
  rw [if_neg (by omega)] at removed
  have gone : (tool.trans.removeTx tx.txId).2.isNestTrans tx.txId = false := by
    rw [Bool.eq_false_iff, ne_eq, isNestTrans_iff removedCounted, removed]
    rintro ⟨other, otherMember, same, _⟩
    simp [same] at otherMember
  obtain ⟨sameEpoch, sameRecords⟩ := markEpochFence_epochRecords context tool.pmem
  have ended := epochEnd_epoch false (tool.pmem.markEpochFence context)
  have sameOpts := markEpochFence_opts context tool.pmem
  simp only [Tool.endTx, notNested, durability, and_self, if_true, gone]
  refine ⟨?_, ?_, ended.2.trans sameOpts⟩
  · intro opened
    rw [← sameRecords]
    simp only [PmemOps.epochEnd, sameEpoch, opened, if_true]
    rfl
  · rw [ended.1, Bool.and_false]

/-- The consequences of an epoch that is open while a transaction is. -/
theorem epochFollows_iff : EpochFollows tool ↔
    (tool.pmem.epoch = true ↔ tool.trans.transactions.toList ≠ []) := by
  constructor
  · exact EpochFollows.epoch
  · intro epoch
    refine ⟨epoch, fun opened addr size value context => ?_, fun tx member single context => ?_⟩
    · exact trackStore_inEpoch (epoch.mpr opened) addr size value context
    · exact (endTx_closes counted durability member single context).1
        (epoch.mpr (List.ne_nil_of_mem member))

end Steps

/-- What a run keeps: counted transactions and the option `--epoch-durability`. -/
structure CountedTool (tool : Tool) : Prop where
  counted : Counted tool.trans
  durability : tool.pmem.opts.epochDurabilityFence = true

/-- A request that changes neither the epoch, nor the option, nor a counter. -/
theorem epochFollows_same {before after : Tool} (kept : CountedTool before)
    (sameEpoch : after.pmem.epoch = before.pmem.epoch)
      (sameOpts : after.pmem.opts = before.pmem.opts)
    (sameDepths : depths after.trans = depths before.trans) :
    CountedTool after ∧ (EpochFollows before → EpochFollows after) := by
  have keptAfter : CountedTool after :=
    ⟨kept.counted.of_depths sameDepths, by rw [sameOpts]; exact kept.durability⟩
  refine ⟨keptAfter, fun follows => ?_⟩
  have sameLength : after.trans.transactions.toList.length =
      before.trans.transactions.toList.length := by
    simpa [depths] using congrArg List.length sameDepths
  rw [epochFollows_iff keptAfter.counted keptAfter.durability, sameEpoch, follows.epoch,
    ← List.length_pos_iff, ← List.length_pos_iff, sameLength]

/-- The client opens and closes no epoch and starts no strand, and it ends only
transactions that are open. -/
def BalancedTx (tool : Tool) : ClientRequest → Prop
  | .access .epochBegin | .access (.epochEnd _) | .access (.newStrand _ _) => False
  | .endTx _ _ txId => ∃ tx ∈ tool.trans.transactions.toList, tx.txId = txId
  | _ => True

instance (tool : Tool) : DecidablePred (BalancedTx tool)
  | .access .epochBegin | .access (.epochEnd _) | .access (.newStrand _ _) => .isFalse id
  | .endTx _ _ txId =>
      inferInstanceAs (Decidable (∃ tx ∈ tool.trans.transactions.toList, tx.txId = txId))
  | .access (.store _ _ _ _ _) | .access (.flush _ _ _) | .access .fence
  | .access (.registerMapping _ _) | .access (.orderGuarantee _ _ _ _) | .access (.fenceMark _)
  | .enterBlock | .removeMapping _ _ | .checkIsPmemMapping _ _ | .writeStats | .setClean _ _
  | .startTx _ _ _ | .addToTx _ _ _ _ _ | .removeFromTx _ _ _ _ | .addThreadToTx _ _
  | .removeThreadFromTx _ _ | .addToGlobalTxIgnore _ _ => .isTrue trivial

/-- An end that closes its transaction meets no other open one. Only then does the epoch end
together with the last transaction. -/
def ClosesLast (tool : Tool) : ClientRequest → Prop
  | .endTx _ _ txId => ∀ tx ∈ tool.trans.transactions.toList, tx.txId = txId → tx.counter = 1 →
      ∀ other ∈ tool.trans.transactions.toList, other.txId = txId
  | _ => True

instance (tool : Tool) : DecidablePred (ClosesLast tool)
  | .endTx _ _ txId => inferInstanceAs (Decidable (∀ tx ∈ tool.trans.transactions.toList,
      tx.txId = txId → tx.counter = 1 → ∀ other ∈ tool.trans.transactions.toList,
        other.txId = txId))
  | .access _ | .enterBlock | .removeMapping _ _ | .checkIsPmemMapping _ _ | .writeStats
  | .setClean _ _ | .startTx _ _ _ | .addToTx _ _ _ _ _ | .removeFromTx _ _ _ _
  | .addThreadToTx _ _ | .removeThreadFromTx _ _ | .addToGlobalTxIgnore _ _ => .isTrue trivial

/-- A start keeps the epoch with the transactions. -/
theorem startTx_epochFollows {tool : Tool} (kept : CountedTool tool) (threadId : Nat)
    (context : Option ExeContext) (txId : Nat) :
    CountedTool (tool.respond (.startTx threadId context txId)) ∧ (EpochFollows tool →
      (EpochFollows (tool.respond (.startTx threadId context txId)) ↔
        ClosesLast tool (.startTx threadId context txId))) := by
  obtain ⟨counted, nonempty, nested⟩ := registerNewTx_counted kept.counted threadId context txId
  have sameTrans := Tool.startTx_trans threadId context txId tool
  have sameOpts : (tool.startTx threadId context txId).pmem.opts = tool.pmem.opts := by
    simp only [Tool.startTx]
    split <;> rfl
  have keptAfter : CountedTool (tool.startTx threadId context txId) := by
    refine ⟨?_, ?_⟩
    · rw [sameTrans]
      exact counted
    · rw [sameOpts]
      exact kept.durability
  refine ⟨keptAfter, fun follows => iff_of_true ?_ trivial⟩
  apply (epochFollows_iff keptAfter.counted keptAfter.durability).mpr
  rw [sameTrans]
  refine iff_of_true ?_ nonempty
  simp only [Tool.startTx]
  split
  · rfl
  · next deep =>
    -- A nested start leaves the epoch alone, and it was open already.
    have isNested : (tool.trans.registerNewTx threadId context txId).isNestTrans txId = true := by
      simpa [kept.durability] using deep
    exact follows.epoch.mpr (nested isNested)

/-- An end keeps the epoch with the transactions unless it closes one of several. -/
theorem endTx_epochFollows {tool : Tool} (kept : CountedTool tool) (threadId : Nat)
    (context : Option ExeContext) {tx : TxInfo} (member : tx ∈ tool.trans.transactions.toList) :
    CountedTool (tool.respond (.endTx threadId context tx.txId)) ∧ (EpochFollows tool →
      (EpochFollows (tool.respond (.endTx threadId context tx.txId)) ↔
        ClosesLast tool (.endTx threadId context tx.txId))) := by
  obtain ⟨counted, removed⟩ := removeTx_counted kept.counted member
  have unique : ∀ other ∈ tool.trans.transactions.toList, other.txId = tx.txId → other = tx :=
    fun other otherMember same => kept.counted.keyed.unique otherMember member same
  by_cases deep : 1 < tx.counter
  · rw [if_pos deep] at removed
    have isNested := (isNestTrans_iff kept.counted tx.txId).mpr ⟨tx, member, rfl, deep⟩
    have left : (tool.endTx context tx.txId).2.2 =
        { tool with trans := (tool.trans.removeTx tx.txId).2 } := by
      simp [Tool.endTx, isNested]
    have keptAfter : CountedTool (tool.endTx context tx.txId).2.2 := by
      rw [left]
      exact ⟨counted, kept.durability⟩
    refine ⟨keptAfter, fun follows => iff_of_true ?_ ?_⟩
    · apply (epochFollows_iff keptAfter.counted keptAfter.durability).mpr
      rw [left]
      exact iff_of_true (follows.epoch.mpr (List.ne_nil_of_mem member)) removed
    · intro other otherMember same single
      rw [unique other otherMember same] at single
      omega
  · have single : tx.counter = 1 := by
      have := kept.counted.positive tx member
      omega
    rw [if_neg deep] at removed
    have sameTrans := Tool.endTx_trans context tx.txId tool
    obtain ⟨_, closed, sameOpts⟩ :=
      endTx_closes kept.counted kept.durability member single context
    have keptAfter : CountedTool (tool.endTx context tx.txId).2.2 := by
      refine ⟨?_, ?_⟩
      · rw [sameTrans]
        exact counted
      · rw [sameOpts]
        exact kept.durability
    refine ⟨keptAfter, fun follows => ?_⟩
    have exact := epochFollows_iff keptAfter.counted keptAfter.durability
    rw [closed, sameTrans, removed] at exact
    refine exact.trans ?_
    simp only [Bool.false_eq_true, false_iff, not_not, List.filter_eq_nil_iff, ClosesLast]
    constructor
    · intro none other otherMember same _ third thirdMember
      simpa using none third thirdMember
    · intro last other otherMember
      simpa using last tx member rfl single other otherMember

/-- One balanced request: the counters stay sound, and the epoch goes on following the
transactions exactly if the request closes no transaction while another one is open. -/
theorem respond_epochFollows {tool : Tool} {request : ClientRequest} (kept : CountedTool tool)
    (balanced : BalancedTx tool request) :
    CountedTool (tool.respond request) ∧ (EpochFollows tool →
      (EpochFollows (tool.respond request) ↔ ClosesLast tool request)) := by
  have quiet (sameEpoch : (tool.respond request).pmem.epoch = tool.pmem.epoch)
      (sameOpts : (tool.respond request).pmem.opts = tool.pmem.opts)
      (sameDepths : depths (tool.respond request).trans = depths tool.trans)
      (closes : ClosesLast tool request) : CountedTool (tool.respond request) ∧
        (EpochFollows tool →
          (EpochFollows (tool.respond request) ↔ ClosesLast tool request)) := by
    obtain ⟨keptAfter, carried⟩ := epochFollows_same kept sameEpoch sameOpts sameDepths
    exact ⟨keptAfter, fun follows => iff_of_true (carried follows) closes⟩
  have called : Counted { tool.trans with dbPmemStoreIndex := tool.pmem.dbPmemStoreIndex } :=
    kept.counted.of_depths rfl
  cases request with
  | access request =>
    cases request with
    | store threadId context addr size value =>
      have stored := PmemOps.trackStore_registers addr size value context tool.pmem
      by_cases access : tool.pmem.isPmemAccess addr size = true
      · have moved : tool.respond (.access (.store threadId context addr size value)) =
            { tool with
              pmem := (tool.pmem.trackStore addr size value context).1
              trans := tool.trans.handleTxStore threadId
                (tool.pmem.trackStore addr size value context).2 } := by
          simp [Tool.respond, Tool.handleClientRequest, Tool.step, Tool.tracePmemStore, access]
        apply quiet
        · rw [moved]
          exact stored.epoch
        · rw [moved]
          exact stored.opts
        · rw [moved]
          exact handleTxStore_depths kept.counted threadId _
        · exact trivial
      · have same : tool.respond (.access (.store threadId context addr size value)) = tool := by
          simp [Tool.respond, Tool.handleClientRequest, Tool.step, Tool.tracePmemStore, access]
        apply quiet
        · rw [same]
        · rw [same]
        · rw [same]
        · exact trivial
    | flush context base size =>
      have flushed := PmemOps.doFlush_registers base size context tool.strandId tool.pmem
      exact quiet flushed.epoch flushed.opts rfl trivial
    | fence =>
      have fenced := PmemOps.doFence_registers tool.pmem
      exact quiet fenced.epoch fenced.opts rfl trivial
    | registerMapping base size => exact quiet rfl rfl rfl trivial
    | orderGuarantee addrA sizeA addrB sizeB => exact quiet rfl rfl rfl trivial
    | fenceMark context =>
      exact quiet (markEpochFence_epochRecords context tool.pmem).1
        (markEpochFence_opts context tool.pmem) rfl trivial
    | epochBegin => exact balanced.elim
    | epochEnd threadId => exact balanced.elim
    | newStrand cacheLineSize slots => exact balanced.elim
  | enterBlock => exact quiet rfl rfl rfl trivial
  | removeMapping base size =>
    have removed := PmemOps.removeMapping_registers base size tool.pmem
    exact quiet removed.epoch removed.opts rfl trivial
  | checkIsPmemMapping base size => exact quiet rfl rfl rfl trivial
  | writeStats =>
    have printed := PmemOps.printPmemStats_registers tool.trans.summaryContexts tool.pmem
    exact quiet printed.epoch printed.opts rfl trivial
  | setClean base size =>
    have cleaned := PmemOps.setClean_registers base size tool.pmem
    exact quiet cleaned.epoch cleaned.opts rfl trivial
  | startTx threadId context txId => exact startTx_epochFollows kept threadId context txId
  | endTx threadId context txId =>
    obtain ⟨tx, member, rfl⟩ := balanced
    exact endTx_epochFollows kept threadId context member
  | addToTx threadId context txId base size =>
    exact quiet rfl rfl (addObjToTx_depths called threadId context txId base size) trivial
  | removeFromTx threadId txId base size =>
    exact quiet rfl rfl (removeObjFromTx_depths called threadId txId base size) trivial
  | addThreadToTx threadId txId =>
    exact quiet rfl rfl (removeObjFromTx_depths called threadId txId 0 0) trivial
  | removeThreadFromTx threadId txId =>
    exact quiet rfl rfl (removeObjFromTx_depths called threadId txId 0 0) trivial
  | addToGlobalTxIgnore base size => exact quiet rfl rfl rfl trivial

section

variable (opts : Options) (transactionsOnly redundantLogging : Bool) (cacheLineSize : Nat)
  (slots : Nat → PmemSt)

/-- Over every balanced interleaving of starts, ends and other requests, to any depth and over
any ids, the epoch follows the transactions in every state reached exactly if each end that
closes its transaction meets no other open one.

Proof: a start opens the epoch, and so does a nested one. An end closes it if its own
transaction is not nested, whatever others are open, and then the epoch is closed too early if
and only if there is another one. -/
theorem epoch_follows_iff (durability : opts.epochDurabilityFence = true)
    (requests : List ClientRequest)
    (balanced : Runs.AllSteps Tool.respond BalancedTx
      (initTool opts transactionsOnly redundantLogging cacheLineSize slots) requests) :
    Runs.Throughout Tool.respond EpochFollows
        (initTool opts transactionsOnly redundantLogging cacheLineSize slots) requests ↔
      Runs.AllSteps Tool.respond ClosesLast
        (initTool opts transactionsOnly redundantLogging cacheLineSize slots) requests := by
  have started : CountedTool
      (initTool opts transactionsOnly redundantLogging cacheLineSize slots) := by
    refine ⟨⟨List.Pairwise.nil, ?_⟩, durability⟩
    intro tx member
    exact absurd member List.not_mem_nil
  apply Runs.throughout_iff_allSteps Tool.respond BalancedTx ClosesLast EpochFollows CountedTool
  · exact fun tool request kept allowed => (respond_epochFollows kept allowed).1
  · exact fun tool request kept allowed => (respond_epochFollows kept allowed).2
  · exact started
  · rw [epochFollows_iff started.counted started.durability]
    exact iff_of_false (by simp [initTool, initPmem]) (fun opened => opened rfl)
  · exact balanced

end

/-- Two transactions one after the other, the first of them nested and with a store. -/
theorem epoch_follows_nested_run :
    let start := initTool { defaultOptions (fun _ => false) with epochDurabilityFence := true }
      false false 64 (fun _ => PmemSt.zero)
    let requests : List ClientRequest := [.access (.registerMapping 4096 4096),
      .startTx 1 none 7, .startTx 2 none 7, .access (.store 1 none 4096 8 1), .endTx 1 none 7,
      .endTx 1 none 7, .startTx 2 none 8, .endTx 2 none 8]
    Runs.AllSteps Tool.respond ClosesLast start requests ∧
      Runs.Throughout Tool.respond EpochFollows start requests := by
  refine ⟨by decide +kernel, ?_⟩
  exact (epoch_follows_iff _ false false 64 _ rfl _ (by decide +kernel)).mpr (by decide +kernel)

/-- With two transactions open, the end of the first one closes the epoch of the
second. -/
theorem epoch_follows_fails :
    let start := initTool { defaultOptions (fun _ => false) with epochDurabilityFence := true }
      false false 64 (fun _ => PmemSt.zero)
    let requests : List ClientRequest := [.startTx 1 none 1, .startTx 1 none 2, .endTx 1 none 1]
    Runs.AllSteps Tool.respond BalancedTx start requests ∧
      ¬ Runs.Throughout Tool.respond EpochFollows start requests := by
  intro start requests
  refine ⟨by decide +kernel, fun follows => ?_⟩
  have last := (follows requests (List.prefix_refl _)).epoch
  have closed : (requests.foldl Tool.respond start).pmem.epoch = false := by decide +kernel
  have isOpen : (requests.foldl Tool.respond start).trans.transactions.toList ≠ [] := by
    decide +kernel
  rw [closed] at last
  exact Bool.false_ne_true (last.mpr isOpen)

end PmDebugger
