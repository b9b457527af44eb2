import PmDebugger.TreeIntegrity

/-!
# What a fence does to the live records

The fence walks the tree and removes what is flushed, then moves what is still pending
in the array to the end of the tree and empties the array. Of the live records exactly
the dirty ones are left, each with a new index if it came from the array.
-/

namespace PmDebugger

open OrderedSet OrderedSet.OSet PmemOps

/-- The bounds of a box after a store enclose the store. -/
theorem widen_encloses {store : PmemSt} (proper : store.Proper) (minAdd maxAdd : Nat) :
    (widen store minAdd maxAdd).1 ≤ store.addr ∧
      store.addr + store.size ≤ (widen store minAdd maxAdd).2 := by
  unfold widen
  rw [proper.nonWrapping.maxAddr_eq]
  split <;> simp only <;> omega

/-- What lay within the bounds still does. A proper record never has an empty box
around it. -/
theorem widen_keeps {store other : PmemSt} (proper : store.Proper) (otherProper : other.Proper)
    {minAdd maxAdd : Nat}
    (inside : minAdd ≤ other.addr ∧ other.addr + other.size ≤ maxAdd) :
    (widen store minAdd maxAdd).1 ≤ other.addr ∧
      other.addr + other.size ≤ (widen store minAdd maxAdd).2 := by
  have size := otherProper.nonempty
  have fits := otherProper.nonWrapping
  unfold PmemSt.NonWrapping at fits
  unfold widen
  rw [proper.nonWrapping.maxAddr_eq]
  split
  · next isEmpty =>
    unfold Word64.minusOne at isEmpty
    omega
  · simp only
    omega

/-- The tree in the course of a fence. It is ordered by index, the counter of records is beyond
it, and its records are proper. -/
structure TidyTree (pmem : PmemOps) : Prop where
  plain : pmem.opts.treeReorganization = false
  indexed : Indexed pmem
  proper : ∀ store ∈ pmem.pmemStores.toList, store.Proper

/-- The records before a point of the walk lie within the bounds found so far. -/
def BoundedPart (pmem : PmemOps) (stores : List PmemSt) : Prop :=
  ∀ store ∈ stores, pmem.minAddPmemStore ≤ store.addr ∧
    store.addr + store.size ≤ pmem.maxAddPmemStore

/-- The bounds are widened by the new record, and hold for it and for those before. -/
theorem BoundedPart.widened {pmem : PmemOps} {stores : List PmemSt}
    (bounded : BoundedPart pmem stores) (proper : ∀ store ∈ stores, store.Proper) {new : PmemSt}
    (newProper : new.Proper) :
    BoundedPart (pmem.updateOsetPmemStoresMinandmax new) (stores ++ [new]) := by
  intro store member
  rcases List.mem_append.mp member with old | isNew
  · exact widen_keeps newProper (proper store old) (bounded store old)
  · rw [List.mem_singleton.mp isNew]
    exact widen_encloses newProper _ _

/-- A tidy tree is a sound one, ordered by index. -/
theorem TidyTree.sound {pmem : PmemOps} (tidy : TidyTree pmem) :
    TreeSound pmem.opts pmem.dbPmemStoreIndex pmem.pmemStores where
  proper := tidy.proper
  keyed _ := tidy.indexed.keyed
  fresh _ := tidy.indexed.fresh
  disjoint reorganised := by
    rw [tidy.plain] at reorganised
    cases reorganised

/-- A sound tree that is ordered by index is tidy. -/
theorem TreeSound.tidy {pmem : PmemOps}
    (sound : TreeSound pmem.opts pmem.dbPmemStoreIndex pmem.pmemStores)
    (plain : pmem.opts.treeReorganization = false) : TidyTree pmem :=
  ⟨plain, ⟨sound.keyed plain, sound.fresh plain⟩, sound.proper⟩

/-- The walk of `do_fence` keeps what is not flushed, under either order of the tree. -/
theorem fenceTree_exact (fuel : Nat) (pmem : PmemOps) (done rest : List PmemSt)
    (enough : rest.length < fuel) (listed : pmem.pmemStores.toList = done ++ rest)
    (walk : pmem.pmemStores.iter = some done.length)
    (sound : TreeSound pmem.opts pmem.dbPmemStoreIndex pmem.pmemStores)
    (bounded : BoundedPart pmem done) :
    (fenceTree fuel pmem).pmemStores.toList = done ++ rest.filter (fun store =>
        store.state ≠ .flushed) ∧
      fenceTree fuel pmem = { pmem with
        pmemStores := (fenceTree fuel pmem).pmemStores
        minAddPmemStore := (fenceTree fuel pmem).minAddPmemStore
        maxAddPmemStore := (fenceTree fuel pmem).maxAddPmemStore } ∧
      TreeSound pmem.opts pmem.dbPmemStoreIndex (fenceTree fuel pmem).pmemStores ∧
      Bounded (fenceTree fuel pmem) := by
  induction fuel generalizing pmem done rest with
  | zero => omega
  | succ fuel inductionHypothesis =>
    cases rest with
    | nil =>
      rw [List.append_nil] at listed
      have finished : pmem.pmemStores.next = none := next_end (by rw [walk, listed])
      simp only [fenceTree, finished]
      refine ⟨by simpa using listed, trivial, sound, ?_⟩
      unfold Bounded
      rw [listed]
      exact bounded
    | cons being rest =>
      have member : being ∈ pmem.pmemStores.toList := by simp [listed]
      simp only [List.length_cons] at enough
      simp only [fenceTree, next_some listed walk]
      split
      · next isFlushed =>
        have walkedListed : ({ pmem.pmemStores with
            iter := some (done.length + 1) } : OSet PmemSt).toList = done ++ being :: rest := listed
        obtain ⟨removed, resumed, _⟩ := remove_resume walkedListed sound.ordered
          (sound.reflexive member)
        have sublist : (done ++ rest).Sublist (done ++ being :: rest) :=
          List.Sublist.append (List.Sublist.refl _) (List.sublist_cons_self _ _)
        generalize (({ pmem.pmemStores with iter := some (done.length + 1) } : OSet PmemSt).remove
          (treeCmp pmem.opts) (treeCmp pmem.opts being)).resetIterAt
            (treeCmp pmem.opts being) = left
          at *
        have stillSound : TreeSound pmem.opts pmem.dbPmemStoreIndex left := by
          refine sound.sublist ?_
          rw [removed, listed]
          exact sublist
        obtain ⟨resultListed, frame, resultSound, resultBounded⟩ :=
          inductionHypothesis { pmem with pmemStores := left } done rest (by omega) removed resumed
            stillSound bounded
        refine ⟨?_, ?_, resultSound, resultBounded⟩
        · rw [resultListed]
          simp [isFlushed]
        · rw [frame]
      · next isPending =>
        have walkedSound : TreeSound pmem.opts pmem.dbPmemStoreIndex
            { pmem.pmemStores with iter := some (done.length + 1) } :=
          sound.congr rfl (Nat.le_refl _)
        obtain ⟨resultListed, frame, resultSound, resultBounded⟩ :=
          inductionHypothesis ({ pmem with pmemStores := { pmem.pmemStores with
            iter := some (done.length + 1) } }.updateOsetPmemStoresMinandmax being)
            (done ++ [being]) rest (by omega) (listed.trans (List.append_cons ..))
            (by simp [updateOsetPmemStoresMinandmax]) walkedSound
            (BoundedPart.widened bounded (fun store isStore => sound.proper store (by
              rw [listed]
              exact List.mem_append_left _ isStore)) (sound.proper being member))
        refine ⟨?_, ?_, resultSound, resultBounded⟩
        · rw [resultListed]
          simp [isPending]
        · rw [frame]
          rfl

/-- A loop that moves records, whatever it is to move them. -/
theorem moves_loop (moves : List PmemSt → PmemOps → Prop) {step : PmemOps → Nat → PmemOps}
    {recordsOf : Nat → List PmemSt} {start : PmemOps} (inputs : List Nat) (initial : moves [] start)
    (each : ∀ input ∈ inputs, ∀ passed state, moves passed state →
      moves (passed ++ recordsOf input) (step state input)) :
    moves (inputs.flatMap recordsOf) (inputs.foldl step start) := by
  have fold (passed : List PmemSt) (ahead : List Nat) (part : ∀ input ∈ ahead, input ∈ inputs)
      (state : PmemOps) (moved : moves passed state) :
      moves (passed ++ ahead.flatMap recordsOf) (ahead.foldl step state) := by
    induction ahead generalizing passed state with
    | nil => simpa using moved
    | cons input rest inductionHypothesis =>
      have next := each input (part input List.mem_cons_self) passed state moved
      have further := inductionHypothesis _ (fun other member =>
        part other (List.mem_cons_of_mem _ member)) _ next
      rw [List.append_assoc] at further
      exact further
  exact fold [] inputs (fun _ member => member) start initial

/-- Records are moved to the end of the tree, in order, under new indices. The array is not
touched by that. -/
structure Moved (records : List PmemSt) (before after : PmemOps) : Prop where
  frame : after = { before with
    pmemStores := after.pmemStores
    minAddPmemStore := after.minAddPmemStore
    maxAddPmemStore := after.maxAddPmemStore
    dbPmemStoreIndex := after.dbPmemStoreIndex }
  listed : ∃ added, after.pmemStores.toList = before.pmemStores.toList ++ added ∧
    Paired SameRecord added records
  tidy : TidyTree after
  bounded : Bounded after

namespace Moved

variable {records more : List PmemSt} {before middle after : PmemOps}

/-- Nothing is moved. -/
theorem refl (tidy : TidyTree before) (bounded : Bounded before) : Moved [] before before :=
  ⟨rfl, ⟨[], (List.append_nil _).symm, Paired.nil⟩, tidy, bounded⟩

/-- Two moves are one, of the records of both. -/
theorem trans (first : Moved records before middle) (second : Moved more middle after) :
    Moved (records ++ more) before after := by
  obtain ⟨added, listed, pairs⟩ := first.listed
  obtain ⟨later, laterListed, laterPairs⟩ := second.listed
  refine ⟨?_, ⟨added ++ later, ?_, pairs.append laterPairs⟩, second.tidy, second.bounded⟩
  · rw [second.frame, first.frame]
  · rw [laterListed, listed, List.append_assoc]

/-- A loop that moves the records of one input after the other. -/
theorem loop {step : PmemOps → Nat → PmemOps} {recordsOf : Nat → List PmemSt} (start : PmemOps)
    (inputs : List Nat)
    (each : ∀ input ∈ inputs, ∀ state, TidyTree state → Bounded state →
      state.slots = start.slots → state.snippetInfo = start.snippetInfo →
        Moved (recordsOf input) state (step state input))
    (tidy : TidyTree start) (bounded : Bounded start) :
    Moved (inputs.flatMap recordsOf) start (inputs.foldl step start) := by
  refine moves_loop (fun passed state => Moved passed start state) inputs (refl tidy bounded)
    (fun input member passed state moved => ?_)
  exact moved.trans (each input member state moved.tidy moved.bounded (by rw [moved.frame])
    (by rw [moved.frame]))

end Moved

/-- The record that a fence moves from a slot, if any. Flushed records and deleted ones are not
moved. -/
def slotPending (store : PmemSt) : List PmemSt :=
  if store.state = .flushed ∨ store.isDelete then [] else [store]

/-- The fence moves one slot. -/
theorem fenceSlot_moved {pmem : PmemOps} (tidy : TidyTree pmem) (bounded : Bounded pmem)
    {slot : Nat} (proper : (pmem.slots slot).Proper) :
    Moved (slotPending (pmem.slots slot)) pmem (pmem.fenceSlot slot) := by
  unfold slotPending fenceSlot
  simp only
  split
  · exact Moved.refl tidy bounded
  · simp only [insertStore, tidy.plain, Bool.false_eq_true, if_false]
    have newProper : ({ pmem.slots slot with index := pmem.dbPmemStoreIndex } : PmemSt).Proper :=
      ⟨proper.nonempty, proper.nonWrapping⟩
    generalize isNew : ({ pmem.slots slot with index := pmem.dbPmemStoreIndex } : PmemSt) = new
    have index : new.index = pmem.dbPmemStoreIndex := by rw [← isNew]
    have same : SameRecord new (pmem.slots slot) := by
      rw [← isNew]
      rfl
    rw [isNew] at newProper
    have fresh : ∀ store ∈ pmem.pmemStores.toList, store.index < new.index := by
      rw [index]
      exact tidy.indexed.fresh
    have inserted : (pmem.pmemStores.insert (cmpPmemOwnSt new) new).toList =
        pmem.pmemStores.toList ++ [new] := (insert_byKey_last new fresh).1
    refine ⟨rfl, ⟨[new], inserted, Paired.single same⟩, ⟨tidy.plain, ⟨?_, ?_⟩, ?_⟩, ?_⟩
    · refine (congrArg (Keyed PmemSt.index) inserted).mpr ?_
      exact List.pairwise_append.mpr ⟨tidy.indexed.keyed, List.pairwise_singleton _ _,
        by simpa using fresh⟩
    · intro store member
      show store.index < pmem.dbPmemStoreIndex + 1
      rcases List.mem_append.mp (inserted ▸ member) with old | isLast
      · have := tidy.indexed.fresh store old
        omega
      · rw [List.mem_singleton.mp isLast]
        omega
    · intro store member
      rcases List.mem_append.mp (inserted ▸ member) with old | isLast
      · exact tidy.proper store old
      · rw [List.mem_singleton.mp isLast]
        exact newProper
    · have part : BoundedPart pmem pmem.pmemStores.toList := bounded
      intro store member
      exact part.widened tidy.proper newProper store (inserted ▸ member)

/-- The records that a fence moves from a snippet. Of a snippet that is tagged as a whole there
are none. -/
def snippetPending (pmem : PmemOps) (sIndex : Nat) : List PmemSt :=
  if (pmem.snippetInfo sIndex).flushedNum = .allFlushed then []
  else (slotRange (pmem.snippetInfo sIndex)).flatMap (fun slot => slotPending (pmem.slots slot))

/-- The fence moves one snippet. -/
theorem fenceSnippet_moved {pmem : PmemOps} (tidy : TidyTree pmem) (bounded : Bounded pmem)
    {sIndex : Nat} (proper : ∀ slot, InSnippet pmem sIndex slot → (pmem.slots slot).Proper) :
    Moved (snippetPending pmem sIndex) pmem (pmem.fenceSnippet sIndex) := by
  unfold snippetPending fenceSnippet
  simp only
  split
  · exact Moved.refl tidy bounded
  · refine Moved.loop pmem _ ?_ tidy bounded
    intro slot inside state stateTidy stateBounded slots _
    rw [← slots]
    exact fenceSlot_moved stateTidy stateBounded
      (by rw [slots]; exact proper slot (mem_slotRange.mp inside))

/-- What the fence moves are the dirty records among the live ones of the array. -/
theorem mem_snippetPending {pmem : PmemOps} {store : PmemSt} :
    store ∈ (List.range (pmem.snippetInfoIndex + 1)).flatMap (snippetPending pmem) ↔
      ∃ sIndex ≤ pmem.snippetInfoIndex, ∃ slot, InSnippet pmem sIndex slot ∧
        (pmem.slots slot).isDelete = false ∧
        store = settle (pmem.snippetInfo sIndex).flushedNum (pmem.slots slot) ∧
        store.state ≠ .flushed := by
  simp only [List.mem_flatMap, List.mem_range, Nat.lt_succ_iff]
  constructor
  · rintro ⟨sIndex, used, member⟩
    unfold snippetPending at member
    split at member
    · simp at member
    · next notAll =>
      obtain ⟨slot, inside, isStore⟩ := List.mem_flatMap.mp member
      unfold slotPending at isStore
      split at isStore
      · simp at isStore
      · next pending =>
        rw [not_or] at pending
        rw [List.mem_singleton] at isStore
        exact ⟨sIndex, used, slot, mem_slotRange.mp inside, by simpa using pending.2,
          by rw [settle_of_ne notAll]; exact isStore, by rw [isStore]; exact pending.1⟩
  · rintro ⟨sIndex, used, slot, inside, undeleted, rfl, dirty⟩
    rw [ne_eq, settle_flushed_iff, not_or] at dirty
    refine ⟨sIndex, used, ?_⟩
    rw [snippetPending, if_neg dirty.2, settle_of_ne dirty.2]
    refine List.mem_flatMap.mpr ⟨slot, mem_slotRange.mpr inside, ?_⟩
    rw [slotPending, if_neg (by simp [dirty.1, undeleted])]
    exact List.mem_singleton.mpr rfl

/-- What a fence does to the live records: those that are not flushed stay, all of them in the
tree, and the array is empty. -/
structure FenceEffect (before after : PmemOps) : Prop where
  frame : after = { before with
    pmemStores := after.pmemStores
    minAddPmemStore := after.minAddPmemStore
    maxAddPmemStore := after.maxAddPmemStore
    snippetInfoIndex := 0
    snippetInfo := after.snippetInfo
    pmemTimeRecords := if before.opts.orderGuarantee
      then before.pmemTimeRecords.map (endTime before) else before.pmemTimeRecords
    globalTimeStamp := if before.opts.orderGuarantee
      then Word64.add before.globalTimeStamp 1 else before.globalTimeStamp
    dbPmemStoreIndex := after.dbPmemStoreIndex }
  emptied : after.snippetInfo 0 = emptySnippet 0
  wellFormed : WellFormed after
  live : Paired SameRecord after.live (before.live.filter (fun store => store.state ≠ .flushed))

/-- With an empty array only the tree is live. -/
theorem live_of_emptied {pmem : PmemOps} (first : pmem.snippetInfoIndex = 0)
    (emptied : pmem.snippetInfo 0 = emptySnippet 0) : pmem.live = pmem.pmemStores.toList := by
  unfold live liveSlots
  rw [first]
  simp [emptied, snippetLive, slotRange, emptySnippet]

/-- An empty array and a tidy tree of pending records make a well-formed tracker. -/
theorem wellFormed_of_emptied {pmem : PmemOps} (tidy : TidyTree pmem) (bounded : Bounded pmem)
    (single : pmem.opts.trackMultipleStores = false) (first : pmem.snippetInfoIndex = 0)
    (emptied : pmem.snippetInfo 0 = emptySnippet 0)
    (stores : ∀ store ∈ pmem.pmemStores.toList, Pending store) : WellFormed pmem := by
  refine ⟨tidy.plain, single, ⟨?_, ?_, ?_⟩, ?_, ?_, ?_, tidy.indexed, stores, bounded, ?_⟩
  · rw [emptied]
    rfl
  · intro sIndex below
    omega
  · intro sIndex used
    rw [show sIndex = 0 by omega, emptied]
    exact Nat.le_refl _
  · rw [current, first, emptied]
    rfl
  · intro sIndex below
    omega
  · intro sIndex used slot inside
    unfold InSnippet at inside
    rw [show sIndex = 0 by omega, emptied] at inside
    exact absurd inside.2 (Nat.not_lt.mpr (Nat.zero_le _))
  · intro slot inside
    unfold InSnippet at inside
    rw [first, emptied] at inside
    exact absurd inside.2 (Nat.not_lt.mpr (Nat.zero_le _))

/-- The fence ends times if orders are checked, and does nothing else at first. -/
theorem fenceTimes_frame (pmem : PmemOps) : pmem.fenceTimes = { pmem with
    pmemTimeRecords := if pmem.opts.orderGuarantee
      then pmem.pmemTimeRecords.map (endTime pmem) else pmem.pmemTimeRecords } := by
  unfold fenceTimes
  split
  · rfl
  · rfl

/-- The loop over the snippets moves all pending records of the array. -/
theorem fenceSnippets_moved {pmem : PmemOps} (tidy : TidyTree pmem) (bounded : Bounded pmem)
    (proper : ∀ sIndex ≤ pmem.snippetInfoIndex, ∀ slot, InSnippet pmem sIndex slot →
      (pmem.slots slot).Proper) :
    Moved ((List.range (pmem.snippetInfoIndex + 1)).flatMap (snippetPending pmem)) pmem
      ((List.range (pmem.snippetInfoIndex + 1)).foldl fenceSnippet pmem) := by
  refine Moved.loop pmem _ ?_ tidy bounded
  intro sIndex used state stateTidy stateBounded slots snippets
  have same : snippetPending pmem sIndex = snippetPending state sIndex := by
    unfold snippetPending
    rw [slots, snippets]
  rw [same]
  refine fenceSnippet_moved stateTidy stateBounded ?_
  intro slot inside
  unfold InSnippet at inside
  rw [snippets] at inside
  rw [slots]
  exact proper sIndex (Nat.le_of_lt_succ (List.mem_range.mp used)) slot inside

/-- The state in which the fence starts its walk over the tree: the times are ended, and the
bounds and the iterator are reset. -/
def enteredFence (pmem : PmemOps) : PmemOps := { pmem.fenceTimes with
  minAddPmemStore := Word64.minusOne
  maxAddPmemStore := Word64.minusOne
  pmemStores := pmem.fenceTimes.pmemStores.resetIter }

/-- The walk over the tree drops the flushed records of the tree, and nothing else happens. -/
structure TreeFenced (before fenced : PmemOps) : Prop where
  frame : fenced = { before with
    pmemStores := fenced.pmemStores
    minAddPmemStore := fenced.minAddPmemStore
    maxAddPmemStore := fenced.maxAddPmemStore
    pmemTimeRecords := if before.opts.orderGuarantee
      then before.pmemTimeRecords.map (endTime before) else before.pmemTimeRecords }
  tidy : TidyTree fenced
  bounded : Bounded fenced
  listed : fenced.pmemStores.toList =
    before.pmemStores.toList.filter (fun store => store.state ≠ .flushed)

/-- The walk over the tree of a well-formed tracker. -/
theorem fenceTree_fenced {pmem : PmemOps} (well : WellFormed pmem) :
    TreeFenced pmem (fenceTree (pmem.fenceTimes.pmemStores.size + 1) (enteredFence pmem)) := by
  have entered : enteredFence pmem = { pmem with
      minAddPmemStore := Word64.minusOne
      maxAddPmemStore := Word64.minusOne
      pmemStores := pmem.pmemStores.resetIter
      pmemTimeRecords := if pmem.opts.orderGuarantee
        then pmem.pmemTimeRecords.map (endTime pmem) else pmem.pmemTimeRecords } := by
    simp only [enteredFence, fenceTimes_frame]
  have tidy : TidyTree (enteredFence pmem) := by
    rw [entered]
    exact ⟨well.plain, ⟨well.indexed.keyed, well.indexed.fresh⟩,
      fun store member => (well.stores store member).proper⟩
  have start : (enteredFence pmem).pmemStores.toList = pmem.pmemStores.toList := by
    rw [entered]
    rfl
  obtain ⟨listed, frame, sound, bounded⟩ :=
    fenceTree_exact (pmem.fenceTimes.pmemStores.size + 1) (enteredFence pmem) []
      pmem.pmemStores.toList (by rw [fenceTimes_frame]; exact Nat.lt_succ_self _) start rfl
      tidy.sound (by simp [BoundedPart])
  generalize fenceTree (pmem.fenceTimes.pmemStores.size + 1) (enteredFence pmem) = fenced at *
  refine ⟨?_, TreeSound.tidy ?_ ?_, bounded, ?_⟩
  · rw [frame, entered]
  · rw [frame]
    exact sound
  · rw [frame]
    exact tidy.plain
  · rw [listed, List.nil_append]

/-- The two loops of the fence, and what comes after them: the array is cleared, and the
time goes on. -/
theorem doFence_frame {pmem done : PmemOps}
    (isDone : done =
      let fenced := fenceTree (pmem.fenceTimes.pmemStores.size + 1) (enteredFence pmem)
      (List.range (fenced.snippetInfoIndex + 1)).foldl fenceSnippet fenced)
    (frame : done = { pmem with
      pmemStores := done.pmemStores
      minAddPmemStore := done.minAddPmemStore
      maxAddPmemStore := done.maxAddPmemStore
      pmemTimeRecords := if pmem.opts.orderGuarantee
        then pmem.pmemTimeRecords.map (endTime pmem) else pmem.pmemTimeRecords
      dbPmemStoreIndex := done.dbPmemStoreIndex }) :
    pmem.doFence = { pmem with
      pmemStores := done.pmemStores
      minAddPmemStore := done.minAddPmemStore
      maxAddPmemStore := done.maxAddPmemStore
      snippetInfoIndex := 0
      snippetInfo := fun tested => if tested = 0 then emptySnippet 0 else pmem.snippetInfo tested
      pmemTimeRecords := if pmem.opts.orderGuarantee
        then pmem.pmemTimeRecords.map (endTime pmem) else pmem.pmemTimeRecords
      globalTimeStamp := if pmem.opts.orderGuarantee
        then Word64.add pmem.globalTimeStamp 1 else pmem.globalTimeStamp
      dbPmemStoreIndex := done.dbPmemStoreIndex } := by
  have entire : pmem.doFence = (
      if done.clearArray.opts.orderGuarantee
        then { done.clearArray with
          globalTimeStamp := Word64.add done.clearArray.globalTimeStamp 1 }
        else done.clearArray) := by
    rw [isDone]
    rfl
  rw [entire, frame]
  by_cases order : pmem.opts.orderGuarantee = true
  · simp [clearArray, setSnippet, order]
  · simp [clearArray, setSnippet, order]

/-- After the two loops the tree holds what was live and not flushed: the rest of the tree,
and what was moved from the array. -/
theorem Moved.live {pmem fenced done : PmemOps} (tree : TreeFenced pmem fenced)
    (moved : Moved ((List.range (fenced.snippetInfoIndex + 1)).flatMap (snippetPending fenced))
      fenced done) :
    Paired SameRecord done.pmemStores.toList
      (pmem.live.filter (fun store => store.state ≠ .flushed)) := by
  obtain ⟨added, listed, pairs⟩ := moved.listed
  rw [listed, tree.listed]
  refine ((Paired.refl SameRecord.refl _).append pairs).congr ?_
  intro store
  have sameRecords : (∃ sIndex ≤ fenced.snippetInfoIndex, ∃ slot, InSnippet fenced sIndex slot ∧
      (fenced.slots slot).isDelete = false ∧
      store = settle (fenced.snippetInfo sIndex).flushedNum (fenced.slots slot) ∧
      store.state ≠ .flushed) ↔ ∃ sIndex ≤ pmem.snippetInfoIndex, ∃ slot,
      InSnippet pmem sIndex slot ∧ (pmem.slots slot).isDelete = false ∧
      store = settle (pmem.snippetInfo sIndex).flushedNum (pmem.slots slot) ∧
      store.state ≠ .flushed := by
    rw [tree.frame]
    exact Iff.rfl
  rw [List.mem_append, mem_snippetPending.trans sameRecords, List.mem_filter, List.mem_filter,
    mem_live]
  simp only [decide_eq_true_eq]
  constructor
  · rintro (⟨inTree, dirty⟩ | ⟨sIndex, used, slot, inside, undeleted, same, dirty⟩)
    · exact ⟨.inr inTree, dirty⟩
    · exact ⟨.inl ⟨sIndex, used, slot, inside, undeleted, same⟩, dirty⟩
  · rintro ⟨⟨sIndex, used, slot, inside, undeleted, same⟩ | inTree, dirty⟩
    · exact .inr ⟨sIndex, used, slot, inside, undeleted, same, dirty⟩
    · exact .inl ⟨inTree, dirty⟩

/-- `do_fence` on a well-formed tracker.

Proof: the walk over the tree drops the flushed records, the loop over the snippets moves
the pending records of the array into the tree, and the array is emptied. What is live
afterwards is the tree alone, hence the records that were live and not flushed. -/
theorem doFence_effect {pmem : PmemOps} (well : WellFormed pmem) :
    FenceEffect pmem pmem.doFence := by
  have tree := fenceTree_fenced well
  have final := @doFence_frame pmem _ rfl
  simp only at final
  generalize fenceTree (pmem.fenceTimes.pmemStores.size + 1) (enteredFence pmem) = fenced at *
  have moved := fenceSnippets_moved tree.tidy tree.bounded (by
    rw [tree.frame]
    exact fun sIndex used slot inside => (well.slots sIndex used slot inside).proper)
  generalize (List.range (fenced.snippetInfoIndex + 1)).foldl fenceSnippet fenced = done at *
  have live := moved.live tree
  have stores : ∀ store ∈ done.pmemStores.toList, Pending store := by
    intro store member
    obtain ⟨old, isOld, same⟩ := live.left store member
    have pending := well.live_pending (List.mem_filter.mp isOld).1
    rw [same]
    exact ⟨⟨pending.proper.nonempty, pending.proper.nonWrapping⟩, pending.undeleted,
      pending.written⟩
  rw [final (by rw [moved.frame, tree.frame])]
  refine ⟨rfl, rfl, wellFormed_of_emptied ?_ ?_ well.single rfl rfl stores, ?_⟩
  · exact ⟨well.plain, ⟨moved.tidy.indexed.keyed, moved.tidy.indexed.fresh⟩, moved.tidy.proper⟩
  · exact moved.bounded
  · rw [live_of_emptied rfl rfl]
    exact live

end PmDebugger
