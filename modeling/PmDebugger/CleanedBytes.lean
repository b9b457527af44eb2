import PmDebugger.Insertions
import PmDebugger.RegionRemoval
import PmDebugger.TreeBytes

/-!
# What clearing a range does to the bytes

A record that sticks out of the region at one end is shortened in place, and one within
the region is deleted. What is left keeps its state, its snippet and its delete mark, so
the bytes outside the region keep their status. Two things go wrong otherwise.

The part behind a region in the middle of a record is a new record: an array slot, of
which the state and the delete mark are those of an earlier use, or a node of the tree
that is zeroed. And a snippet whose box the region misses is passed over, although the box
encloses neither the pieces that flushes cut off nor the parts that this request appends.
-/

namespace PmDebugger

open OrderedSet OrderedSet.OSet PmemOps Loops Runs

/-- Some record in the state covers the byte. Records of the array may overlap, so that a byte
may be in several states. -/
def StateIn (state : StoreState) (stores : List PmemSt) (byte : Nat) : Prop :=
  ∃ store ∈ stores, store.state = state ∧ store.Covers byte

/-- The byte is covered, and by flushed records only. This is the state that a fence completes. -/
def FlushedIn (stores : List PmemSt) (byte : Nat) : Prop :=
  Tracks stores byte ∧ ∀ store ∈ stores, store.Covers byte → store.state = .flushed

instance (stores : List PmemSt) (byte : Nat) : Decidable (FlushedIn stores byte) :=
  inferInstanceAs (Decidable (_ ∧ ∀ store ∈ stores, _ → _))

/-- The region is clean afterwards, and the other bytes are dirty, flushed or clean as they
were. -/
structure CleansRange (region : PmemSt) (before after : PmemOps) : Prop where
  cleaned : ∀ byte, region.Covers byte → ¬ Tracks after.live byte
  dirty : ∀ byte, ¬ region.Covers byte → (DirtyIn after.live byte ↔ DirtyIn before.live byte)
  flushed : ∀ byte, ¬ region.Covers byte → (FlushedIn after.live byte ↔ FlushedIn before.live byte)
  clean : ∀ byte, ¬ region.Covers byte → (Tracks after.live byte ↔ Tracks before.live byte)

/-- The region lies in the middle of no record, and no snippet with a record that it meets
is passed over. -/
structure CutsAtEnds (region : PmemSt) (pmem : PmemOps) : Prop where
  array : ∀ slot ∈ List.range pmem.current.index, ¬ cutsMiddle region (pmem.slots slot)
  tree : ∀ store ∈ pmem.pmemStores.toList,
    ¬ (store.addr < region.addr ∧ store.maxAddr > region.maxAddr)
  boxed : ∀ slot ∈ List.range pmem.current.index, ¬ Untouched region (pmem.slots slot) →
    slot ∈ reachedSlots region pmem

instance (region : PmemSt) (pmem : PmemOps) : Decidable (CutsAtEnds region pmem) :=
  decidable_of_iff ((∀ slot ∈ List.range pmem.current.index,
    ¬ cutsMiddle region (pmem.slots slot)) ∧ (∀ store ∈ pmem.pmemStores.toList,
      ¬ (store.addr < region.addr ∧ store.maxAddr > region.maxAddr)) ∧
    ∀ slot ∈ List.range pmem.current.index, ¬ Untouched region (pmem.slots slot) →
      slot ∈ reachedSlots region pmem)
    ⟨fun all => ⟨all.1, all.2.1, all.2.2⟩, fun cuts => ⟨cuts.array, cuts.tree, cuts.boxed⟩⟩

/-! ## One record -/

section Record

variable {region entry : PmemSt} {pmem : PmemOps}

/-- A record after the request, if the region is not in the middle of it. -/
def cleanedRecord (region entry : PmemSt) : PmemSt :=
  if Untouched region entry then entry
  else if entry.addr > region.addr ∧ entry.maxAddr < region.maxAddr then
    { entry with isDelete := true }
  else if entry.addr ≥ region.addr ∧ entry.maxAddr > region.maxAddr then backPart region entry
  else if entry.maxAddr ≤ region.maxAddr ∧ region.addr > entry.addr then frontPart region entry
  else { entry with isDelete := true }

/-- What the request leaves of a record: its bytes outside the region, in the same state. -/
structure Leaves (region old new : PmemSt) : Prop where
  state : new.state = old.state
  bytes : ∀ byte, new.isDelete = false ∧ new.Covers byte ↔
    (old.isDelete = false ∧ old.Covers byte) ∧ ¬ region.Covers byte

/-- A record outside the region is left as it is. -/
theorem leaves_untouched (regionProper : region.Proper) (proper : entry.Proper)
    (untouched : Untouched region entry) : Leaves region entry entry := by
  refine ⟨rfl, fun byte => (and_iff_left_of_imp ?_).symm⟩
  rintro ⟨undeleted, inside⟩ inRegion
  rcases untouched with deleted | misses
  · rw [undeleted] at deleted
    cases deleted
  · exact misses ((cmpPmemSt_eq_iff_shared regionProper proper).mpr ⟨byte, inRegion, inside⟩)

/-- A record that the region meets at an end loses that end. -/
theorem cleanedRecord_leaves (regionProper : region.Proper) (proper : entry.Proper)
    (atEnd : ¬ cutsMiddle region entry) : Leaves region entry (cleanedRecord region entry) := by
  by_cases untouched : Untouched region entry
  · rw [cleanedRecord, if_pos untouched]
    exact leaves_untouched regionProper proper untouched
  · have touched := untouched
    unfold Untouched at touched
    rw [not_or, not_not] at touched
    have visible : entry.isDelete = false := by simpa using touched.1
    have meets : cmpPmemSt entry region = .eq := by
      rw [cmpPmemSt_eq_iff proper.nonWrapping regionProper.nonWrapping]
      exact ((cmpPmemSt_eq_iff regionProper.nonWrapping proper.nonWrapping).mp touched.2).symm
    have excised := remainders_excised regionProper proper 0 meets
    have notMiddle : ¬ (entry.addr < region.addr ∧ entry.maxAddr > region.maxAddr) :=
      fun both => atEnd ⟨visible, both⟩
    have deletes (gone : remainders region entry 0 = []) :
        Leaves region entry { entry with isDelete := true } := by
      refine ⟨rfl, fun byte => ?_⟩
      rw [gone] at excised
      refine iff_of_false (fun both => Bool.noConfusion both.1) ?_
      rintro ⟨⟨_, inside⟩, outside⟩
      exact tracks_nil byte ((excised.bytes byte).mpr ⟨inside, outside⟩)
    have shortens (part : PmemSt) (only : remainders region entry 0 = [part])
        (state : part.state = entry.state) (mark : part.isDelete = entry.isDelete) :
        Leaves region entry part := by
      rw [only] at excised
      refine ⟨state, fun byte => ?_⟩
      have bytes := excised.bytes byte
      rw [tracks_cons, or_iff_left (tracks_nil byte)] at bytes
      rw [mark, bytes, and_assoc]
    simp only [cleanedRecord, if_neg untouched]
    split
    · next within => exact deletes (by simp only [remainders, if_pos within])
    · next notWithin =>
      split
      · next behind =>
        exact shortens _ (by simp only [remainders, if_neg notWithin, if_neg notMiddle,
          if_pos behind]) rfl rfl
      · next notBehind =>
        split
        · next before =>
          exact shortens _ (by simp only [remainders, if_neg notWithin, if_neg notMiddle,
            if_neg notBehind, if_pos before]) rfl rfl
        · next notBefore =>
          exact deletes (by simp only [remainders, if_neg notWithin, if_neg notMiddle,
            if_neg notBehind, if_neg notBefore])

/-- The body of the array loop writes that record. -/
theorem cleanSlot_eq {index : Nat} (atEnd : ¬ cutsMiddle region (pmem.slots index)) :
    pmem.cleanSlot region index =
      pmem.setSlot index (cleanedRecord region (pmem.slots index)) := by
  by_cases untouched : Untouched region (pmem.slots index)
  · rw [cleanSlot_untouched untouched, cleanedRecord, if_pos untouched]
    have same : (fun tested => if tested = index then pmem.slots index else pmem.slots tested) =
        pmem.slots := by
      funext tested
      split
      · next isIndex => rw [isIndex]
      · rfl
    simp only [setSlot, same]
  · have notMiddle : ¬ ((pmem.slots index).addr < region.addr ∧
        (pmem.slots index).maxAddr > region.maxAddr) := by
      intro both
      refine atEnd ⟨?_, both⟩
      unfold Untouched at untouched
      rw [not_or] at untouched
      simpa using untouched.1
    simp only [cleanSlot, cleanedRecord]
    rw [if_neg (show ¬ ((pmem.slots index).isDelete = true ∨
      cmpPmemSt region (pmem.slots index) ≠ .eq) from untouched), if_neg untouched]
    split
    · rfl
    · split
      · rfl
      · split <;> rfl

/-- Cleaning distinct slots writes those records and nothing else. -/
theorem cleanSlots_written (slots : List Nat) (distinct : slots.Nodup)
    (atEnds : ∀ slot ∈ slots, ¬ cutsMiddle region (pmem.slots slot)) :
    slots.foldl (fun state slot => cleanSlot region slot state) pmem = { pmem with
      slots := fun slot => if slot ∈ slots then cleanedRecord region (pmem.slots slot)
        else pmem.slots slot } := by
  induction slots generalizing pmem with
  | nil => simp
  | cons slot rest inductionHypothesis =>
    obtain ⟨fresh, restDistinct⟩ := List.nodup_cons.mp distinct
    have others (other : Nat) (member : other ∈ rest) : other ≠ slot :=
      fun same => fresh (same ▸ member)
    rw [List.foldl_cons, cleanSlot_eq (atEnds slot List.mem_cons_self),
      inductionHypothesis restDistinct (fun other member => by
        rw [setSlot_slots, if_neg (others other member)]
        exact atEnds other (List.mem_cons_of_mem _ member))]
    simp only [setSlot]
    congr 1
    funext tested
    by_cases isSlot : tested = slot
    · rw [isSlot, if_neg fresh, if_pos rfl, if_pos List.mem_cons_self]
    · simp only [List.mem_cons, isSlot, false_or, if_false]

end Record

/-! ## The tree -/

section Walk

variable {opts : Options} {dbIndex : Nat} {region entry : PmemSt}
  {original done rest : List PmemSt} {set : OSet PmemSt}

/-- The walk of `remove_region` over a tree of which the region cuts no record in the
middle. -/
structure Trimming (opts : Options) (dbIndex : Nat) (region : PmemSt)
    (original done rest : List PmemSt) (set : OSet PmemSt) : Prop where
  sound : TreeSound opts dbIndex set
  listed : set.toList = done ++ rest
  walk : set.iter = some done.length
  passed : ∀ elem ∈ done, cmpPmemSt elem region ≠ .eq
  atEnds : ∀ elem ∈ rest, ¬ (elem.addr < region.addr ∧ elem.maxAddr > region.maxAddr)
  same : set.toList.flatMap (cutOut region) = original.flatMap (cutOut region)

/-- An element that the region misses is passed. -/
theorem Trimming.pass (trimming : Trimming opts dbIndex region original done (entry :: rest) set)
    (misses : cmpPmemSt entry region ≠ .eq) :
    Trimming opts dbIndex region original (done ++ [entry]) rest
      { set with iter := some (done.length + 1) } where
  sound := trimming.sound.congr rfl (Nat.le_refl _)
  listed := by simpa using trimming.listed
  walk := by simp
  passed elem member := by
    rcases List.mem_append.mp member with early | here
    · exact trimming.passed elem early
    · rw [List.mem_singleton.mp here]
      exact misses
  atEnds elem member := trimming.atEnds elem (List.mem_cons_of_mem _ member)
  same := trimming.same

/-- An element without a byte outside the region is removed. -/
theorem Trimming.drop (trimming : Trimming opts dbIndex region original done (entry :: rest) set)
    (meets : cmpPmemSt entry region = .eq) (gone : remainders region entry 0 = []) :
    Trimming opts dbIndex region original done rest
      ((({ set with iter := some (done.length + 1) } : OSet PmemSt).remove (treeCmp opts)
        (treeCmp opts entry)).resetIterAt (treeCmp opts entry)) := by
  have aheadListed : ({ set with iter := some (done.length + 1) } : OSet PmemSt).toList =
      done ++ entry :: rest := trimming.listed
  obtain ⟨removed, resumed, _⟩ := remove_resume aheadListed trimming.sound.ordered
    (trimming.sound.reflexive (by simp [trimming.listed]))
  refine ⟨trimming.sound.sublist ?_, removed, resumed, trimming.passed,
    fun elem member => trimming.atEnds elem (List.mem_cons_of_mem _ member), ?_⟩
  · rw [removed, trimming.listed]
    exact List.Sublist.append_left (List.sublist_cons_self entry rest) done
  · rw [← trimming.same, removed, trimming.listed]
    simp [cutOut, meets, gone]

/-- An element that sticks out at one end is shortened in place. -/
theorem Trimming.shorten (regionProper : region.Proper)
    (trimming : Trimming opts dbIndex region original done (entry :: rest) set)
    (meets : cmpPmemSt entry region = .eq) {part : PmemSt}
    (only : remainders region entry 0 = [part]) (sameIndex : part.index = entry.index) :
    Trimming opts dbIndex region original (done ++ [part]) rest
      (({ set with iter := some (done.length + 1) } : OSet PmemSt).modifyAt done.length
        (fun _ => part)) := by
  have aheadListed : ({ set with iter := some (done.length + 1) } : OSet PmemSt).toList =
      done ++ entry :: rest := trimming.listed
  have edited := modifyAt_match aheadListed (fun _ => part)
  have excised := remainders_excised regionProper
    (trimming.sound.proper entry (by simp [trimming.listed])) 0 meets
  rw [only] at excised
  have clear : cmpPmemSt part region ≠ .eq := excised.beside regionProper part (by simp)
  refine ⟨?_, by simpa using edited, by simp [OSet.modifyAt], fun elem member => ?_,
    fun elem member => trimming.atEnds elem (List.mem_cons_of_mem _ member), ?_⟩
  · exact trimming.sound.trimmed trimming.listed edited (excised.trims (by simp)) sameIndex
  · rcases List.mem_append.mp member with early | here
    · exact trimming.passed elem early
    · rw [List.mem_singleton.mp here]
      exact clear
  · rw [← trimming.same, edited, trimming.listed]
    simp [cutOut, meets, only, clear]

/-- A turn of the walk leaves a shorter rest. -/
theorem Trimming.turn (regionProper : region.Proper)
    (trimming : Trimming opts dbIndex region original done (entry :: rest) set) (index : Nat) :
    ∃ next, removeRegionTurn (treeCmp opts) region (set, index) = some next ∧
      ∃ done', Trimming opts dbIndex region original done' rest next.1 := by
  simp only [removeRegionTurn, next_some trimming.listed trimming.walk]
  by_cases misses : cmpPmemSt entry region ≠ .eq
  · rw [if_pos misses]
    exact ⟨_, rfl, _, trimming.pass misses⟩
  have meets := not_not.mp misses
  rw [if_neg misses]
  by_cases inside : entry.addr > region.addr ∧ entry.maxAddr < region.maxAddr
  · rw [if_pos inside]
    exact ⟨_, rfl, _, trimming.drop meets (by simp only [remainders, if_pos inside])⟩
  have atEnd := trimming.atEnds entry List.mem_cons_self
  rw [if_neg inside, if_neg atEnd]
  by_cases tail : entry.addr ≥ region.addr ∧ entry.maxAddr > region.maxAddr
  · rw [if_pos tail]
    exact ⟨_, rfl, _, trimming.shorten regionProper meets
      (by simp only [remainders, if_neg inside, if_neg atEnd, if_pos tail]) rfl⟩
  rw [if_neg tail]
  by_cases head : entry.maxAddr ≤ region.maxAddr ∧ region.addr > entry.addr
  · rw [if_pos head]
    exact ⟨_, rfl, _, trimming.shorten regionProper meets
      (by simp only [remainders, if_neg inside, if_neg atEnd, if_neg tail, if_pos head]) rfl⟩
  · rw [if_neg head]
    exact ⟨_, rfl, _, trimming.drop meets
      (by simp only [remainders, if_neg inside, if_neg atEnd, if_neg tail, if_neg head])⟩

/-- `remove_region` cuts the region out of each record. -/
theorem removeRegion_trims (regionProper : region.Proper) (sound : TreeSound opts dbIndex set)
    (atEnds : ∀ elem ∈ set.toList, ¬ (elem.addr < region.addr ∧ elem.maxAddr > region.maxAddr))
    (index : Nat) :
    (removeRegion (treeCmp opts) region set index).1.toList =
      set.toList.flatMap (cutOut region) := by
  obtain ⟨result, left, finished, _, done, rest, trimming, _⟩ := within_ends
    (removeRegionTurn (treeCmp opts) region)
    (fun rank state => ∃ done rest, Trimming opts dbIndex region set.toList done rest state.1 ∧
      rest.length = rank)
    (fun rank state next stands turned => by
      obtain ⟨done, rest, trimming, isRank⟩ := stands
      cases rest with
      | nil =>
        have ended : state.1.next = none := next_end
            (by simpa [trimming.listed] using trimming.walk)
        simp only [removeRegionTurn, ended] at turned
        cases turned
      | cons entry rest =>
        obtain ⟨later, isLater, done', goesOn⟩ := trimming.turn regionProper state.2
        rw [isLater] at turned
        cases turned
        exact ⟨rest.length, by rw [← isRank]; exact Nat.lt_succ_self _, done', rest, goesOn, rfl⟩)
    (set.resetIter, index)
    ⟨[], set.toList, ⟨sound.congr rfl (Nat.le_refl _), rfl, rfl, by simp, atEnds, rfl⟩, rfl⟩
    (show set.toList.length < 3 * set.size + 1 by
      unfold OSet.size
      omega)
  have isResult : result = removeRegion (treeCmp opts) region set index := within_bounded
    (removeRegionTurn (treeCmp opts) region)
    (fun fuel state => removeRegionLoop (treeCmp opts) region fuel state.1 state.2)
    (fun fuel state => removeRegionLoop_succ (treeCmp opts) region fuel state.1 state.2) left
  rw [← isResult]
  cases rest with
  | nil =>
    have listed := trimming.listed
    rw [List.append_nil] at listed
    have clear : result.1.toList.flatMap (cutOut region) = result.1.toList := by
      have each : result.1.toList.flatMap (cutOut region) =
          result.1.toList.flatMap (fun elem => [elem]) :=
        List.flatMap_congr (fun elem member => if_neg (trimming.passed elem (listed ▸ member)))
      rw [each, List.flatMap_singleton']
    rw [← trimming.same, clear]
  | cons entry rest =>
    obtain ⟨_, more, _⟩ := trimming.turn regionProper result.2
    rw [finished] at more
    cases more

end Walk

/-! ## The request -/

section Request

variable {region : PmemSt} {before after pmem : PmemOps}

/-- A byte is tracked if some record has it, in whatever state. -/
theorem tracks_iff_stateIn (stores : List PmemSt) (byte : Nat) :
    Tracks stores byte ↔ ∃ state, StateIn state stores byte := by
  constructor
  · rintro ⟨store, member, inside⟩
    exact ⟨store.state, store, member, rfl, inside⟩
  · rintro ⟨_, store, member, _, inside⟩
    exact ⟨store, member, inside⟩

/-- A byte is flushed if it is covered, and by no record in another state. -/
theorem flushedIn_iff (stores : List PmemSt) (byte : Nat) :
    FlushedIn stores byte ↔
      StateIn .flushed stores byte ∧ ¬ StateIn .dirty stores byte ∧
        ¬ StateIn .clean stores byte := by
  constructor
  · rintro ⟨⟨store, member, inside⟩, only⟩
    refine ⟨⟨store, member, only store member inside, inside⟩, ?_, ?_⟩
    · rintro ⟨other, isOther, isDirty, covered⟩
      rw [only other isOther covered] at isDirty
      cases isDirty
    · rintro ⟨other, isOther, isClean, covered⟩
      rw [only other isOther covered] at isClean
      cases isClean
  · rintro ⟨⟨store, member, _, inside⟩, notDirty, notClean⟩
    refine ⟨⟨store, member, inside⟩, fun other isOther covered => ?_⟩
    cases state : other.state with
    | flushed => rfl
    | dirty => exact absurd ⟨other, isOther, state, covered⟩ notDirty
    | clean => exact absurd ⟨other, isOther, state, covered⟩ notClean

/-- If every record keeps its bytes outside the region and its state, so do the bytes. -/
theorem cleansRange_of_states (each : ∀ state byte, StateIn state after.live byte ↔
    StateIn state before.live byte ∧ ¬ region.Covers byte) : CleansRange region before after where
  cleaned byte inside isTracked := by
    obtain ⟨state, isIn⟩ := (tracks_iff_stateIn _ byte).mp isTracked
    exact ((each state byte).mp isIn).2 inside
  dirty byte outside := (each .dirty byte).trans (and_iff_left outside)
  flushed byte outside := by
    simp only [flushedIn_iff, each, outside, not_false_eq_true, and_true]
  clean byte outside := by
    simp only [tracks_iff_stateIn, each, outside, not_false_eq_true, and_true]

/-- The state in effect depends on the state and the tag only. -/
theorem settle_state_congr (tag : FlushedState) {old new : PmemSt} (same : new.state = old.state) :
    (settle tag new).state = (settle tag old).state := by
  unfold settle
  split
  · rfl
  · exact same

/-- What is left of the records of the tree. -/
theorem cutOut_states (regionProper : region.Proper) {stores : List PmemSt}
    (proper : ∀ store ∈ stores, store.Proper)
    (atEnds : ∀ store ∈ stores, ¬ (store.addr < region.addr ∧ store.maxAddr > region.maxAddr))
    (state : StoreState) (byte : Nat) :
    StateIn state (stores.flatMap (cutOut region)) byte ↔
      StateIn state stores byte ∧ ¬ region.Covers byte := by
  have keeps (store : PmemSt) (member : store ∈ stores) (part : PmemSt)
      (isPart : part ∈ cutOut region store) : part.state = store.state := by
    have atEnd := atEnds store member
    simp only [cutOut, remainders, if_neg atEnd] at isPart
    repeat' split at isPart
    all_goals simp only [List.not_mem_nil, List.mem_singleton] at isPart
    all_goals rw [isPart]
    all_goals rfl
  have bytes (store : PmemSt) (member : store ∈ stores) :
      Tracks (cutOut region store) byte ↔ store.Covers byte ∧ ¬ region.Covers byte :=
    cutOut_bytes regionProper (proper store member) byte
  constructor
  · rintro ⟨part, isPart, isState, inside⟩
    obtain ⟨store, member, isPart⟩ := List.mem_flatMap.mp isPart
    obtain ⟨covered, outside⟩ := (bytes store member).mp ⟨part, isPart, inside⟩
    exact ⟨⟨store, member, (keeps store member part isPart).symm.trans isState, covered⟩, outside⟩
  · rintro ⟨⟨store, member, isState, covered⟩, outside⟩
    obtain ⟨part, isPart, inside⟩ := (bytes store member).mpr ⟨covered, outside⟩
    exact ⟨part, List.mem_flatMap.mpr ⟨store, member, isPart⟩,
      (keeps store member part isPart).trans isState, inside⟩

/-- A range that cuts records at their ends only is cut out of the records one by one. -/
theorem setClean_written {base size : Nat} (regionProper : (PmemSt.range base size).Proper)
    (sound : Sound pmem) (cuts : CutsAtEnds (PmemSt.range base size) pmem) :
    pmem.setClean base size = { pmem with
      slots := fun slot => if slot ∈ reachedSlots (PmemSt.range base size) pmem
        then cleanedRecord (PmemSt.range base size) (pmem.slots slot) else pmem.slots slot
      pmemStores := (pmem.setClean base size).pmemStores
      dbPmemStoreIndex := (pmem.setClean base size).dbPmemStoreIndex } ∧
    (pmem.setClean base size).pmemStores.toList =
      pmem.pmemStores.toList.flatMap (cutOut (PmemSt.range base size)) := by
  simp only [setClean]
  generalize PmemSt.range base size = region at *
  obtain ⟨distinct, inUse⟩ := reachedSlots_inUse region sound.layout
  have array : (List.range (pmem.snippetInfoIndex + 1)).foldl (cleanSnippet region) pmem =
      { pmem with slots := fun slot => if slot ∈ reachedSlots region pmem
        then cleanedRecord region (pmem.slots slot) else pmem.slots slot } := by
    rw [cleanSnippets_eq regionProper sound (pmem.snippetInfoIndex + 1) (Nat.le_refl _)]
    exact cleanSlots_written (reachedSlots region pmem) distinct
      (fun slot member => cuts.array slot (List.mem_range.mpr (inUse slot member)))
  rw [array]
  exact And.intro rfl (removeRegion_trims regionProper sound.tree cuts.tree pmem.dbPmemStoreIndex)

/-- A range that cuts records at their ends only, and passes over none, is cleaned, and
nothing else is. -/
theorem setClean_cleansRange {base size : Nat} (regionProper : (PmemSt.range base size).Proper)
    (sound : Sound pmem) (cuts : CutsAtEnds (PmemSt.range base size) pmem) :
    CleansRange (PmemSt.range base size) pmem (pmem.setClean base size) := by
  obtain ⟨written, tree⟩ := setClean_written regionProper sound cuts
  rw [written]
  generalize (pmem.setClean base size).pmemStores = stores at *
  generalize (pmem.setClean base size).dbPmemStoreIndex = index at *
  generalize PmemSt.range base size = region at *
  -- What each slot in use holds now.
  have leaves (slot : Nat) (used : slot < pmem.current.index) :
      Leaves region (pmem.slots slot) (if slot ∈ reachedSlots region pmem
        then cleanedRecord region (pmem.slots slot) else pmem.slots slot) := by
    have proper := sound.slots slot used
    split
    · exact cleanedRecord_leaves regionProper proper (cuts.array slot (List.mem_range.mpr used))
    · next passed =>
      apply leaves_untouched regionProper proper
      by_contra touched
      exact passed (cuts.boxed slot (List.mem_range.mpr used) touched)
  apply cleansRange_of_states
  intro state byte
  have treeStates := cutOut_states regionProper sound.tree.proper cuts.tree state byte
  rw [← tree] at treeStates
  constructor
  · rintro ⟨store, member, isState, inside⟩
    rcases mem_live.mp member with ⟨sIndex, used, slot, inSlot, undeleted, rfl⟩ | inTree
    · have left := leaves slot (sound.layout.inUse_iff.mpr ⟨sIndex, used, inSlot⟩)
      obtain ⟨⟨visible, covered⟩, outside⟩ :=
        (left.bytes byte).mp ⟨undeleted, (settle_covers _ _ _).mp inside⟩
      refine ⟨⟨_, mem_live.mpr (.inl ⟨sIndex, used, slot, inSlot, visible, rfl⟩), ?_,
        (settle_covers _ _ _).mpr covered⟩, outside⟩
      exact (settle_state_congr _ left.state).symm.trans isState
    · obtain ⟨⟨old, isOld, oldState, covered⟩, outside⟩ :=
        treeStates.mp ⟨store, inTree, isState, inside⟩
      exact ⟨⟨old, mem_live.mpr (.inr isOld), oldState, covered⟩, outside⟩
  · rintro ⟨⟨store, member, isState, inside⟩, outside⟩
    rcases mem_live.mp member with ⟨sIndex, used, slot, inSlot, undeleted, rfl⟩ | inTree
    · have left := leaves slot (sound.layout.inUse_iff.mpr ⟨sIndex, used, inSlot⟩)
      obtain ⟨visible, covered⟩ :=
        (left.bytes byte).mpr ⟨⟨undeleted, (settle_covers _ _ _).mp inside⟩, outside⟩
      refine ⟨_, mem_live.mpr (.inl ⟨sIndex, used, slot, inSlot, visible, rfl⟩), ?_,
        (settle_covers _ _ _).mpr covered⟩
      exact (settle_state_congr _ left.state).trans isState
    · obtain ⟨new, isNew, newState, covered⟩ :=
        treeStates.mpr ⟨⟨store, inTree, isState, inside⟩, outside⟩
      exact ⟨new, mem_live.mpr (.inr isNew), newState, covered⟩

end Request

/-- In every state that stores, flushes, fences and such requests lead to, a request cleans its
range and nothing else, if the range cuts records at their ends only and passes over none.

Proof: soundness of the tracker is an invariant of such runs. In a sound state the loop over
the array treats every slot once, and the walk over the tree every record that the range meets.
A slot that the range cuts in the middle would leave its tail in a slot with the state of an
older record, and this is what the condition excludes. -/
theorem setClean_exact (opts : Options) (transactionsOnly redundantLogging : Bool)
    (cacheLineSize : Nat) (slots : Nat → PmemSt) (requests : List ClientRequest)
    (admitted : AllSteps Tool.serve RecordRequest
      (initTool opts transactionsOnly redundantLogging cacheLineSize slots) requests)
    (made : List ClientRequest) (made_first : made <+: requests) {base size : Nat}
    (proper : (PmemSt.range base size).Proper)
    (cuts : CutsAtEnds (PmemSt.range base size) (made.foldl Tool.serve
      (initTool opts transactionsOnly redundantLogging cacheLineSize slots)).pmem) :
    CleansRange (PmemSt.range base size)
      (made.foldl Tool.serve
        (initTool opts transactionsOnly redundantLogging cacheLineSize slots)).pmem
      ((made.foldl Tool.serve
        (initTool opts transactionsOnly redundantLogging cacheLineSize slots)).pmem.setClean base
          size) := by
  have madeSteps := allSteps_of_prefix made_first admitted
  have kept (tool : Tool) (request : ClientRequest) (sound : Sound tool.pmem)
      (allowed : RecordRequest tool request) : Sound (tool.serve request).pmem :=
    serve_sound sound allowed
  have sound := invariant kept _ made
    (initTool_sound opts transactionsOnly redundantLogging cacheLineSize slots) madeSteps
  exact setClean_cleansRange proper sound cuts

/-- A record is cut at its front, another at its back, a third is deleted and a record of the
tree loses its front. -/
theorem setClean_exact_three :
    let start := initTool (defaultOptions (fun _ => false)) false false 64 (fun _ => PmemSt.zero)
    let requests : List ClientRequest := [.access (.registerMapping 64 1024), storeTo 160 40,
      .access .fence, storeTo 100 20, storeTo 124 8, storeTo 140 100]
    let pmem := (requests.foldl Tool.serve start).pmem
    AllSteps Tool.serve RecordRequest start requests ∧
      CutsAtEnds (PmemSt.range 110 60) pmem ∧
      CleansRange (PmemSt.range 110 60) pmem (pmem.setClean 110 60) := by
  intro start requests pmem
  have admitted : AllSteps Tool.serve RecordRequest start requests := by decide +kernel
  have cuts : CutsAtEnds (PmemSt.range 110 60) pmem := by decide +kernel
  refine ⟨admitted, cuts, ?_⟩
  exact setClean_exact _ false false 64 _ requests admitted requests (List.prefix_refl _)
    (by decide) cuts

/-- Clearing ten bytes in the middle of a dirty record makes the bytes behind them clean: the
slot that they get still has the state of its last use. -/
theorem setClean_loses_tail :
    let start := initTool (defaultOptions (fun _ => false)) false false 64 (fun _ => PmemSt.zero)
    let requests : List ClientRequest := [.access (.registerMapping 64 1024), storeTo 100 100]
    let pmem := (requests.foldl Tool.serve start).pmem
    AllSteps Tool.serve RecordRequest start requests ∧
      ¬ CleansRange (PmemSt.range 120 10) pmem (pmem.setClean 120 10) := by
  intro start requests pmem
  have admitted : AllSteps Tool.serve RecordRequest start requests := by decide +kernel
  refine ⟨admitted, fun cleans => ?_⟩
  have before : DirtyIn pmem.live 150 := by decide +kernel
  have after : ¬ DirtyIn (pmem.setClean 120 10).live 150 := by decide +kernel
  exact after ((cleans.dirty 150 (by decide)).mpr before)

end PmDebugger
