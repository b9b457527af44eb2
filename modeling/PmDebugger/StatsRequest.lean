import PmDebugger.ComparedRuns
import PmDebugger.ReportedStates

/-!
# Requests for statistics

The detailed report hands the records of the tracker themselves to
`db_add_and_merge_store`, which merges a record with its neighbours in the report. The
records may grow that way, over others and out of the box of their snippet. They only grow
by bytes that live records of the same state cover, so the pending and the dirty bytes are
what they were, and the tracker still follows the byte-level machine.

The damage shows later: a flush may cut or miss a record because it has grown.
-/

namespace PmDebugger

open OrderedSet OrderedSet.OSet PmemOps Persistency Runs

/-- The record has grown by bytes that are covered with its own state anyway. So no byte
changes its state when the detailed report merges records in the tree. -/
structure Grown (entries : List PmemSt) (old new : PmemSt) : Prop where
  proper : new.Proper
  state : new.state = old.state
  isDelete : new.isDelete = old.isDelete
  index : new.index = old.index
  covers : ∀ byte, old.Covers byte → new.Covers byte
  grown : ∀ byte, new.Covers byte → old.Covers byte ∨ MarksAs entries byte old.state

section Records

variable {entries : List PmemSt} {old new : PmemSt}

/-- More marks allow for the same growth. -/
theorem Grown.mono (isGrown : Grown entries old new) {all : List PmemSt}
    (more : ∀ byte state, MarksAs entries byte state → MarksAs all byte state) :
      Grown all old new :=
  ⟨isGrown.proper, isGrown.state, isGrown.isDelete, isGrown.index, isGrown.covers,
    fun byte inside => (isGrown.grown byte inside).imp_right (more byte old.state)⟩

/-- A region grows by the parts of the set that are merged with it. -/
theorem makeRoom_grown (isIpMemsetMemcpy : Nat → Bool) {region : PmemSt} (proper : region.Proper)
    {set : OSet PmemSt} (ranges : Ranges set.toList) (dbIndex : Nat) :
    Grown set.toList region (makeRoom isIpMemsetMemcpy region set dbIndex).1 := by
  obtain ⟨_, cutParts⟩ := cutOverlaps_keeps proper (set.size + 1) set dbIndex ranges
  refine (makeRoom_rule isIpMemsetMemcpy proper ranges dbIndex
    (P := fun merged rest => Grown set.toList region merged ∧ ∀ elem ∈ rest.toList,
      ∃ old ∈ set.toList, SameMarks elem old ∧ ∀ byte, elem.Covers byte → old.Covers byte)
    ⟨⟨proper, rfl, rfl, rfl, fun _ => id, fun _ => .inl⟩, cutParts⟩ ?_).2.1
  rintro search merged rest beside touch ⟨isGrown, parts⟩
  obtain ⟨_, _, fewer⟩ := mergeNeighbour_keeps isIpMemsetMemcpy search merged beside.ranges
  refine ⟨?_, fun elem member => parts elem (fewer elem member)⟩
  unfold mergeNeighbour
  cases searched : rest.lookup (cmpPmemSt search) with
  | none => exact isGrown
  | some old =>
    simp only
    split
    · next mergeable =>
      obtain ⟨member, meets⟩ := lookup_sound searched
      obtain ⟨newProper, _, bytes⟩ := mergeStores_exact beside.proper
        (beside.ranges.proper old member) (touch old member meets)
      obtain ⟨origin, isOrigin, same, within⟩ := parts old member
      have sameState : merged.state = old.state := by
        simp only [isStoreMergeable, Bool.and_eq_true, decide_eq_true_eq] at mergeable
        exact mergeable.1
      refine ⟨newProper, isGrown.state, isGrown.isDelete, isGrown.index, ?_, ?_⟩
      · exact fun byte inside => (bytes byte).mpr (.inl (isGrown.covers byte inside))
      · intro byte inside
        cases (bytes byte).mp inside with
        | inl inMerged => exact isGrown.grown byte inMerged
        | inr inOld =>
          refine .inr ⟨origin, isOrigin, within byte inOld, ?_⟩
          rw [← same.state, ← sameState, isGrown.state]
    · exact isGrown

/-- The counter of indices does not go back. -/
theorem cutOverlaps_index (region : PmemSt) (fuel : Nat) (set : OSet PmemSt) (dbIndex : Nat) :
    dbIndex ≤ (cutOverlaps region fuel set dbIndex).2 := by
  induction fuel generalizing set dbIndex with
  | zero => exact Nat.le_refl _
  | succ fuel inductionHypothesis =>
    simp only [cutOverlaps]
    split
    · exact Nat.le_refl _
    · split
      · exact Nat.le_refl _
      · split
        · exact inductionHypothesis _ _
        · exact inductionHypothesis _ _
        · exact Nat.le_of_succ_le (inductionHypothesis _ _)

/-- The report takes indices and gives none back. -/
theorem reportStore_index (store : PmemSt) (pmem : PmemOps) :
    pmem.dbPmemStoreIndex ≤ (pmem.reportStore store).1.dbPmemStoreIndex := by
  have cut := cutOverlaps_index store ((pmem.debugMemoryMerge.getD create).size + 1)
    (pmem.debugMemoryMerge.getD create) pmem.dbPmemStoreIndex
  simp only [reportStore, dbAddAndMergeStore, makeRoom]
  exact Nat.le_succ_of_le cut

/-- Entering a record into the report. -/
theorem reportStore_grown {pmem : PmemOps} {records : List PmemSt} {store : PmemSt}
    (last : MarksLast pmem.opts.isIpMemsetMemcpy records (reported pmem)) (proper : store.Proper)
    {all : List PmemSt} (listed : ∀ record ∈ records, record ∈ all) :
    Grown all store (pmem.reportStore store).2 := by
  apply (makeRoom_grown pmem.opts.isIpMemsetMemcpy proper last.ranges pmem.dbPmemStoreIndex).mono
  intro byte state marks
  obtain ⟨record, isLast, isState⟩ := (last.marks byte state).mp marks
  obtain ⟨member, covered⟩ := lastRecord_member isLast
  exact ⟨record, listed record member, covered, isState⟩

end Records

/-- A slot after the report: a deleted record is left alone, another one is settled and may
have grown. -/
def SlotRefreshed (all : List PmemSt) (tag : FlushedState) (old new : PmemSt) : Prop :=
  if old.isDelete then new = old else Grown all (settle tag old) new

section Loops

variable {start state : PmemOps} {bound : Nat} {records all : List PmemSt}

/-- The body of the inner loop rewrites its slot. -/
theorem Marking.slot_refreshed (marking : Marking start bound records state) (tag : FlushedState)
    (proper : (start.slots bound).Proper) (listed : ∀ record ∈ records, record ∈ all) :
    SlotRefreshed all tag (start.slots bound) ((state.reportSlot tag bound).slots bound) ∧
      (∀ slot ≠ bound, (state.reportSlot tag bound).slots slot = state.slots slot) ∧
      state.dbPmemStoreIndex ≤ (state.reportSlot tag bound).dbPmemStoreIndex := by
  have held := marking.ahead bound (Nat.le_refl _)
  unfold reportSlot SlotRefreshed
  simp only [held]
  split
  · exact ⟨held, fun _ _ => rfl, Nat.le_refl _⟩
  · refine ⟨?_, fun slot differs => ?_, ?_⟩
    · rw [setSlot_slots, if_pos rfl]
      exact reportStore_grown marking.last ((settle_proper tag _).mpr proper) listed
    · rw [setSlot_slots, if_neg differs]
      rfl
    · exact reportStore_index _ state

/-- The inner loop. -/
theorem Marking.slots_refreshed (tag : FlushedState) (count : Nat)
    (marking : Marking start bound records state)
    (proper : ∀ slot ∈ List.range' bound count, (start.slots slot).Proper)
    (listed : ∀ record ∈ records ++ (List.range' bound count).flatMap
      (fun slot => slotLive tag (start.slots slot)), record ∈ all) :
    (∀ slot ∈ List.range' bound count, SlotRefreshed all tag (start.slots slot)
        (((List.range' bound count).foldl (reportSlot tag) state).slots slot)) ∧
      (∀ slot < bound, ((List.range' bound count).foldl (reportSlot tag) state).slots slot =
        state.slots slot) ∧
      state.dbPmemStoreIndex ≤
        ((List.range' bound count).foldl (reportSlot tag) state).dbPmemStoreIndex := by
  induction count generalizing bound records state with
  | zero =>
    rw [List.range'_zero, List.foldl_nil]
    exact ⟨fun _ none => absurd none List.not_mem_nil, fun _ _ => rfl, Nat.le_refl _⟩
  | succ count inductionHypothesis =>
    rw [List.range'_succ] at proper listed ⊢
    rw [List.flatMap_cons, ← List.append_assoc] at listed
    have properHere := proper bound List.mem_cons_self
    obtain ⟨here, others, index⟩ := marking.slot_refreshed tag properHere
      (fun record member => listed record (List.mem_append_left _ (List.mem_append_left _ member)))
    obtain ⟨later, earlier, laterIndex⟩ := inductionHypothesis (marking.slot tag properHere)
      (fun slot member => proper slot (List.mem_cons_of_mem _ member)) listed
    rw [List.foldl_cons]
    refine ⟨fun slot member => ?_, fun slot below => ?_, Nat.le_trans index laterIndex⟩
    · cases List.mem_cons.mp member with
      | inl same =>
        rw [same, earlier bound (Nat.lt_succ_self bound)]
        exact here
      | inr rest => exact later slot rest
    · rw [earlier slot (Nat.lt_succ_of_lt below)]
      exact others slot (Nat.ne_of_lt below)

/-- The outer loop. -/
theorem reportSnippets_refreshed (layout : Layout start) (fresh : reported start = [])
    (proper : ∀ sIndex ≤ start.snippetInfoIndex, ∀ slot, InSnippet start sIndex slot →
      (start.slots slot).Proper)
    (listed : ∀ sIndex ≤ start.snippetInfoIndex, ∀ record ∈ snippetLive start sIndex, record ∈ all)
    {count : Nat} (used : count ≤ start.snippetInfoIndex) :
    (∀ sIndex ≤ count, ∀ slot, InSnippet start sIndex slot →
      SlotRefreshed all (start.snippetInfo sIndex).flushedNum (start.slots slot)
        (((List.range (count + 1)).foldl reportSnippet start).slots slot)) ∧
      start.dbPmemStoreIndex ≤
        ((List.range (count + 1)).foldl reportSnippet start).dbPmemStoreIndex := by
  induction count with
  | zero =>
    have entered : Marking start (start.snippetInfo 0).startIndex [] start :=
      Marking.begun fresh _
    obtain ⟨here, _, index⟩ := entered.slots_refreshed (start.snippetInfo 0).flushedNum
      ((start.snippetInfo 0).index - (start.snippetInfo 0).startIndex)
      (fun slot member => proper 0 used slot (mem_slotRange.mp member))
      (listed 0 used)
    refine ⟨fun sIndex isFirst slot inside => ?_, index⟩
    rw [Nat.le_zero.mp isFirst] at inside ⊢
    exact here slot (mem_slotRange.mpr inside)
  | succ count inductionHypothesis =>
    obtain ⟨earlier, index⟩ := inductionHypothesis (Nat.le_of_succ_le used)
    have before := Marking.loop layout fresh proper (Nat.le_of_succ_le used)
    rw [← layout.chained count used] at before
    rw [List.range_succ, List.foldl_append]
    generalize (List.range (count + 1)).foldl reportSnippet start = state at *
    have entered (record : PmemSt) (member : record ∈ (List.range (count + 1)).flatMap
        (snippetLive start) ++ snippetLive start (count + 1)) : record ∈ all := by
      cases List.mem_append.mp member with
      | inl old =>
        obtain ⟨sIndex, isIndex, inside⟩ := List.mem_flatMap.mp old
        have := List.mem_range.mp isIndex
        exact listed sIndex (by omega) record inside
      | inr new => exact listed (count + 1) used record new
    obtain ⟨here, below, nextIndex⟩ := before.slots_refreshed
      (start.snippetInfo (count + 1)).flushedNum
      ((start.snippetInfo (count + 1)).index - (start.snippetInfo (count + 1)).startIndex)
      (fun slot member => proper (count + 1) used slot (mem_slotRange.mp member)) entered
    have walked : [count + 1].foldl reportSnippet state =
        (slotRange (start.snippetInfo (count + 1))).foldl
          (reportSlot (start.snippetInfo (count + 1)).flushedNum) state := by
      rw [List.foldl_cons, List.foldl_nil, reportSnippet, before.snippets]
    rw [walked]
    refine ⟨fun sIndex bounded slot inside => ?_, Nat.le_trans index nextIndex⟩
    by_cases isLast : sIndex = count + 1
    · rw [isLast] at inside ⊢
      exact here slot (mem_slotRange.mpr inside)
    · have less : sIndex < count + 1 := by omega
      have ahead : slot < (start.snippetInfo (count + 1)).startIndex :=
        Nat.lt_of_lt_of_le inside.2 (layout.apart less used)
      unfold slotRange
      rw [below slot ahead]
      exact earlier sIndex (Nat.le_of_lt_succ less) slot inside

/-- The walk over the tree rewrites the nodes ahead of it. -/
theorem reportTree_grown {opts : Options} (fuel : Nat) (pmem : PmemOps)
    (done rest records : List PmemSt) (sameOpts : pmem.opts = opts) (enough : rest.length < fuel)
      (listed : pmem.pmemStores.toList = done ++ rest)
    (walk : pmem.pmemStores.iter = some done.length) (proper : ∀ store ∈ rest, store.Proper)
    (last : MarksLast opts.isIpMemsetMemcpy records (reported pmem))
    (within : ∀ record ∈ records ++ rest, record ∈ all) :
    ∃ nodes, (reportTree fuel pmem).pmemStores.toList = done ++ nodes ∧
      List.Forall₂ (Grown all) rest nodes ∧
      pmem.dbPmemStoreIndex ≤ (reportTree fuel pmem).dbPmemStoreIndex ∧
      reportTree fuel pmem = { pmem with
        pmemStores := (reportTree fuel pmem).pmemStores
        debugMemoryMerge := (reportTree fuel pmem).debugMemoryMerge
        dbPmemStoreIndex := (reportTree fuel pmem).dbPmemStoreIndex } := by
  induction fuel generalizing pmem done rest records with
  | zero => omega
  | succ fuel inductionHypothesis =>
    cases rest with
    | nil =>
      rw [List.append_nil] at listed
      have finished : pmem.pmemStores.next = none := next_end (by rw [walk, listed])
      simp only [reportTree, finished]
      exact ⟨[], by rw [listed, List.append_nil], .nil, Nat.le_refl _, trivial⟩
    | cons store rest =>
      simp only [List.length_cons] at enough
      simp only [reportTree, next_some listed walk]
      let walked : OSet PmemSt := { pmem.pmemStores with iter := some (done.length + 1) }
      have walkedListed : walked.toList = done ++ store :: rest := listed
      have storeProper := proper store List.mem_cons_self
      have lastWalked : MarksLast ({ pmem with pmemStores :=
          walked } : PmemOps).opts.isIpMemsetMemcpy
          records (reported { pmem with pmemStores := walked }) := by
        rw [← sameOpts] at last
        exact last
      have entered : MarksLast opts.isIpMemsetMemcpy (records ++ [store])
          (reported (({ pmem with pmemStores := walked } : PmemOps).reportStore store).1) := by
        rw [← sameOpts]
        exact lastWalked.enter storeProper
      have isGrown : Grown all store (({ pmem with pmemStores := walked } : PmemOps).reportStore
          store).2 :=
        reportStore_grown lastWalked storeProper
          (fun record member => within record (List.mem_append_left _ member))
      have index := reportStore_index store { pmem with pmemStores := walked }
      have frame := (reportStore_exact { pmem with pmemStores := walked } storeProper last.ranges).1
      have keptOpts : (({ pmem with pmemStores := walked } : PmemOps).reportStore store).1.opts =
          opts := sameOpts
      generalize ({ pmem with pmemStores := walked } : PmemOps).reportStore store = result at *
      have edited := modifyAt_match walkedListed (fun _ => result.2)
      obtain ⟨nodes, isNodes, pairs, laterIndex, laterFrame⟩ := inductionHypothesis { result.1 with
          pmemStores := walked.modifyAt done.length (fun _ => result.2) } (done ++ [result.2]) rest
        (records ++ [store]) keptOpts (by omega) (edited.trans (List.append_cons ..))
        (by simp [OSet.modifyAt, walked])
        (fun other member => proper other (List.mem_cons_of_mem _ member)) entered
        (by rwa [List.append_assoc, List.singleton_append])
      refine ⟨result.2 :: nodes, ?_, .cons isGrown pairs, Nat.le_trans index laterIndex, ?_⟩
      · rw [isNodes, List.append_assoc, List.singleton_append]
      · rw [laterFrame, frame]

end Loops

/-- What the detailed report does to the tracker. Slots that are not deleted get the states of
their snippets, and all records may grow over bytes that are listed with their states. -/
structure StatsReported (before after : PmemOps) : Prop where
  frame : after = { before with
    slots := after.slots
    pmemStores := after.pmemStores
    debugMemoryMerge := after.debugMemoryMerge
    dbPmemStoreIndex := after.dbPmemStoreIndex
    notPmemNum := after.notPmemNum
    exited := after.exited }
  slots : ∀ sIndex ≤ before.snippetInfoIndex, ∀ slot, InSnippet before sIndex slot →
    SlotRefreshed before.live (before.snippetInfo sIndex).flushedNum (before.slots slot)
      (after.slots slot)
  stores : List.Forall₂ (Grown before.live) before.pmemStores.toList after.pmemStores.toList
  index : before.dbPmemStoreIndex ≤ after.dbPmemStoreIndex

/-- The report moves the records of the array into the tree, where they cover what they covered
before. -/
theorem printStoreStatsDetail_reported {pmem : PmemOps} (sound : Sound pmem) :
    StatsReported pmem pmem.printStoreStatsDetail := by
  let start : PmemOps := { pmem with debugMemoryMerge := some create, notPmemNum := 0 }
  have layout : Layout start := ⟨sound.layout.first, sound.layout.chained, sound.layout.ordered⟩
  have proper (sIndex : Nat) (used : sIndex ≤ start.snippetInfoIndex) (slot : Nat)
      (inside : InSnippet start sIndex slot) : (start.slots slot).Proper :=
    sound.slots slot (sound.layout.inUse_iff.mpr ⟨sIndex, used, inside⟩)
  have listed (sIndex : Nat) (used : sIndex ≤ start.snippetInfoIndex) (record : PmemSt)
      (member : record ∈ snippetLive start sIndex) : record ∈ pmem.live :=
    List.mem_append_left _ (List.mem_flatMap.mpr
      ⟨sIndex, List.mem_range.mpr (Nat.lt_succ_of_le used), member⟩)
  have marking := Marking.loop layout rfl proper (Nat.le_refl _)
  have array := (reportSnippets_exact proper rfl).frame
  obtain ⟨refreshed, index⟩ := reportSnippets_refreshed layout rfl proper listed (Nat.le_refl _)
  have printed : pmem.printStoreStatsDetail =
      let entered := (List.range (start.snippetInfoIndex + 1)).foldl reportSnippet start
      let reporting := reportTree (entered.pmemStores.size + 1)
        { entered with pmemStores := entered.pmemStores.resetIter }
      let dies := listingDies pmem.opts (reported reporting)
      { reporting with
        notPmemNum := if dies then 0 else (reported reporting).length
        exited := reporting.exited || dies } := rfl
  rw [printed]
  dsimp only
  generalize (List.range (start.snippetInfoIndex + 1)).foldl reportSnippet start = entered at *
  have sameStores : entered.pmemStores = pmem.pmemStores := marking.stores
  obtain ⟨nodes, isNodes, pairs, nextIndex, frame⟩ := reportTree_grown (entered.pmemStores.size + 1)
    { entered with pmemStores := entered.pmemStores.resetIter } [] pmem.pmemStores.toList
    ((List.range (start.snippetInfoIndex + 1)).flatMap (snippetLive start)) rfl
    (by rw [sameStores]; exact Nat.lt_succ_self _) (by rw [sameStores]; rfl) rfl sound.tree.proper
    marking.last (fun _ member => member)
  generalize reportTree (entered.pmemStores.size + 1)
    { entered with pmemStores := entered.pmemStores.resetIter } = final at *
  have sameSlots : final.slots = entered.slots := by rw [frame]
  refine ⟨?_, ?_, ?_, Nat.le_trans index nextIndex⟩
  · rw [frame, array]
  · show ∀ sIndex ≤ start.snippetInfoIndex, _
    rw [sameSlots]
    exact refreshed
  · show List.Forall₂ _ _ final.pmemStores.toList
    rw [isNodes]
    exact pairs

/-- What the whole report does to the tracker, if it is the detailed one. Its further parts may end
the process. -/
theorem printPmemStats_reported {pmem : PmemOps} (sound : Sound pmem)
    (detail : pmem.opts.printBugDetail = true) (summary : List (Option ExeContext)) :
    StatsReported pmem (pmem.printPmemStats summary).2 := by
  obtain ⟨frame, slots, stores, index⟩ := printStoreStatsDetail_reported sound
  simp only [printPmemStats, if_pos detail]
  constructor
  · rw [frame]
  · exact slots
  · exact stores
  · exact index

/-- Settling a record twice is settling it once. -/
theorem settle_settle (tag : FlushedState) (store : PmemSt) :
    settle tag (settle tag store) = settle tag store := by
  unfold settle
  split <;> rfl

section Effect

variable {all olds news : List PmemSt} {before after : PmemOps}

/-- Grown records cover the bytes that they covered, and others that are covered with the same
state. -/
theorem grown_marksAs (pairs : List.Forall₂ (Grown all) olds news) (byte : Nat)
    (state : StoreState) : (MarksAs olds byte state → MarksAs news byte state) ∧
      (MarksAs news byte state → MarksAs olds byte state ∨ MarksAs all byte state) := by
  induction pairs with
  | nil => exact ⟨id, .inl⟩
  | @cons old new olds news isGrown rest inductionHypothesis =>
    simp only [marksAs_cons, isGrown.state]
    constructor
    · rintro (⟨covered, isState⟩ | later)
      · exact .inl ⟨isGrown.covers byte covered, isState⟩
      · exact .inr (inductionHypothesis.1 later)
    · rintro (⟨covered, isState⟩ | later)
      · cases isGrown.grown byte covered with
        | inl wasCovered => exact .inl (.inl ⟨wasCovered, isState⟩)
        | inr marks => exact .inr (isState ▸ marks)
      · exact (inductionHypothesis.2 later).imp_left .inr

/-- Grown records keep what depends on their marks alone. -/
theorem grown_forall (pairs : List.Forall₂ (Grown all) olds news) {holds : PmemSt → Prop}
    (kept : ∀ old new, Grown all old new → holds old → holds new) (each : ∀ old ∈ olds, holds old) :
    ∀ new ∈ news, holds new := by
  induction pairs with
  | nil => exact fun _ none => absurd none List.not_mem_nil
  | @cons old new olds news isGrown rest inductionHypothesis =>
    rw [List.forall_mem_cons] at each ⊢
    exact ⟨kept old new isGrown each.1, inductionHypothesis each.2⟩

/-- The nodes of the tree keep their indices. -/
theorem grown_indices (pairs : List.Forall₂ (Grown all) olds news) :
    news.map PmemSt.index = olds.map PmemSt.index := by
  induction pairs with
  | nil => rfl
  | cons isGrown rest inductionHypothesis =>
    rw [List.map_cons, List.map_cons, isGrown.index, inductionHypothesis]

namespace StatsReported

/-- The report keeps the tracker in shape. -/
theorem steady (stats : StatsReported before after) (steady : Steady before) : Steady after := by
  have sound := steady.sound
  have snippets : after.snippetInfo = before.snippetInfo := by rw [stats.frame]
  have used : after.snippetInfoIndex = before.snippetInfoIndex := by rw [stats.frame]
  have opts : after.opts = before.opts := by rw [stats.frame]
  have isCurrent : after.current = before.current := by rw [current, snippets, used, current]
  have slots (slot : Nat) (inUse : slot < before.current.index) :
      (after.slots slot).Proper ∧ (after.slots slot).state ≠ .clean := by
    obtain ⟨sIndex, isUsed, inside⟩ := sound.layout.inUse_iff.mp inUse
    have refreshed := stats.slots sIndex isUsed slot inside
    unfold SlotRefreshed at refreshed
    split at refreshed
    · rw [refreshed]
      exact ⟨sound.slots slot inUse, steady.slots slot inUse⟩
    · refine ⟨refreshed.proper, ?_⟩
      rw [refreshed.state]
      unfold settle
      split
      · simp
      · exact steady.slots slot inUse
  refine ⟨opts ▸ steady.plain, ⟨⟨?_, ?_, ?_⟩, ?_, ?_⟩, ?_, ?_, ?_, ?_⟩
  · rw [snippets]
    exact sound.layout.first
  · rw [snippets, used]
    exact sound.layout.chained
  · rw [snippets, used]
    exact sound.layout.ordered
  · rw [isCurrent]
    exact fun slot inUse => (slots slot inUse).1
  · refine ⟨?_, fun plain => ?_, fun plain => ?_, fun reorganised => ?_⟩
    · exact grown_forall stats.stores (fun _ _ isGrown _ => isGrown.proper) sound.tree.proper
    · have keyed := sound.tree.keyed steady.plain
      unfold Keyed at keyed ⊢
      rw [← List.pairwise_map] at keyed ⊢
      rwa [grown_indices stats.stores]
    · refine grown_forall stats.stores (fun old new isGrown less => ?_) (fun store member =>
        Nat.lt_of_lt_of_le (sound.tree.fresh steady.plain store member) stats.index)
      rw [isGrown.index]
      exact less
    · rw [opts, steady.plain] at reorganised
      cases reorganised
  · rw [isCurrent]
    exact steady.opened
  · rw [snippets, used]
    exact steady.closed
  · rw [isCurrent]
    exact fun slot inUse => (slots slot inUse).2
  · refine grown_forall stats.stores (fun old new isGrown notClean => ?_) steady.stores
    rw [isGrown.state]
    exact notClean

/-- Every byte is covered in the same states as before. -/
theorem live_marksAs (stats : StatsReported before after) (byte : Nat) (state : StoreState) :
    MarksAs after.live byte state ↔ MarksAs before.live byte state := by
  have snippets : after.snippetInfo = before.snippetInfo := by rw [stats.frame]
  have used : after.snippetInfoIndex = before.snippetInfoIndex := by rw [stats.frame]
  obtain ⟨toTree, fromTree⟩ := grown_marksAs stats.stores byte state
  have inTree {pmem : PmemOps} (marks : MarksAs pmem.pmemStores.toList byte state) :
      MarksAs pmem.live byte state := marksAs_append.mpr (.inr marks)
  have sameState {tag : FlushedState} {old new : PmemSt}
      (isGrown : Grown before.live (settle tag old) new) :
      (settle tag new).state = (settle tag old).state := by
    rw [settle_state_congr tag isGrown.state, settle_settle]
  constructor
  · rintro ⟨store, member, covered, rfl⟩
    rcases mem_live.mp member with ⟨sIndex, isUsed, slot, inside, undeleted, rfl⟩ | isNode
    · rw [used] at isUsed
      unfold InSnippet at inside
      rw [snippets] at inside
      have refreshed := stats.slots sIndex isUsed slot inside
      unfold SlotRefreshed at refreshed
      rw [snippets] at covered ⊢
      split at refreshed
      · next deleted =>
        rw [refreshed, deleted] at undeleted
        cases undeleted
      · next kept =>
        rw [sameState refreshed]
        cases refreshed.grown byte ((settle_covers _ _ _).mp covered) with
        | inl wasCovered =>
          exact ⟨_, mem_live.mpr (.inl ⟨sIndex, isUsed, slot, inside, by simpa using kept, rfl⟩),
            wasCovered, rfl⟩
        | inr marks => exact marks
    · cases fromTree ⟨store, isNode, covered, rfl⟩ with
      | inl old => exact inTree old
      | inr marks => exact marks
  · rintro ⟨store, member, covered, rfl⟩
    rcases mem_live.mp member with ⟨sIndex, isUsed, slot, inside, undeleted, rfl⟩ | isNode
    · have refreshed := stats.slots sIndex isUsed slot inside
      unfold SlotRefreshed at refreshed
      rw [if_neg (by simp [undeleted])] at refreshed
      have inAfter : InSnippet after sIndex slot := by
        unfold InSnippet
        rw [snippets]
        exact inside
      have newUndeleted : (after.slots slot).isDelete = false := by
        rw [refreshed.isDelete]
        unfold settle
        split <;> exact undeleted
      refine ⟨_, mem_live.mpr (.inl ⟨sIndex, by rwa [used], slot, inAfter, newUndeleted, rfl⟩),
        ?_, ?_⟩
      · exact (settle_covers _ _ _).mpr (refreshed.covers byte covered)
      · rw [snippets]
        exact sameState refreshed
    · exact inTree (toTree ⟨store, isNode, covered, rfl⟩)

end StatsReported

end Effect

section Runs

variable {opts : Options} {flushAlignSize : Nat} {tool : Tool} {memory : Memory Nat}

/-- A request for the detailed report changes nothing that the byte-level machine knows. -/
theorem Follows.reported (follows : Follows opts flushAlignSize tool memory)
    (detail : opts.printBugDetail = true) :
    Follows opts flushAlignSize (tool.respond .writeStats) memory := by
  have stats : StatsReported tool.pmem (tool.respond .writeStats).pmem := by
    apply printPmemStats_reported follows.steady.sound
    rw [follows.opts]
    exact detail
  have marks := stats.live_marksAs
  constructor
  · exact stats.steady follows.steady
  · rw [stats.frame]
    exact follows.opts
  · rw [stats.frame]
    exact follows.align
  · intro byte
    rw [← follows.bytes]
    constructor
    · rintro ⟨store, member, covered⟩
      obtain ⟨old, isOld, inside, _⟩ := (marks byte store.state).mp ⟨store, member, covered, rfl⟩
      exact ⟨old, isOld, inside⟩
    · rintro ⟨store, member, covered⟩
      obtain ⟨new, isNew, inside, _⟩ := (marks byte store.state).mpr ⟨store, member, covered, rfl⟩
      exact ⟨new, isNew, inside⟩
  · intro byte
    rw [← follows.dirty]
    constructor
    · rintro ⟨store, member, isDirty, covered⟩
      obtain ⟨old, isOld, inside, wasDirty⟩ :=
        (marks byte .dirty).mp ⟨store, member, covered, isDirty⟩
      exact ⟨old, isOld, wasDirty, inside⟩
    · rintro ⟨store, member, isDirty, covered⟩
      obtain ⟨new, isNew, inside, stillDirty⟩ :=
        (marks byte .dirty).mpr ⟨store, member, covered, isDirty⟩
      exact ⟨new, isNew, stillDirty, inside⟩

/-- The detailed report lists the unpersisted bytes, if the tool comes to it. -/
theorem Follows.reportsByte_iff (follows : Follows opts flushAlignSize tool memory)
    (detail : opts.printBugDetail = true) (reports : ReportsAtExit tool)
    (unordered : tool.pmem.pmemOrderRecords.toList = []) (byte : Nat) :
    ReportsByte tool byte ↔ memory.Unpersisted byte := by
  have sound := follows.steady.sound
  have listed : tool.fini.2 = statsListing tool.pmem := by
    apply fini_stores sound.layout _ sound.tree.proper reports unordered
    exact fun sIndex used slot inside =>
      sound.slots slot (sound.layout.inUse_iff.mpr ⟨sIndex, used, inside⟩)
  have detailed : statsListing tool.pmem = PmDebugger.reported tool.pmem.printStoreStatsDetail := by
    rw [statsListing, follows.opts, if_pos detail]
  rw [ReportsByte, listed, detailed, printStoreStatsDetail_shown sound, ← sound.tracks_live,
    follows.bytes]

/-- A request that is followed asks for no orders, and neither does one for statistics. -/
theorem serve_unordered {request : ClientRequest}
    (unordered : tool.pmem.pmemOrderRecords.toList = [])
    (allowed : TrackedRequest tool request ∨ request = .writeStats) :
    (tool.serve request).pmem.pmemOrderRecords.toList = [] := by
  rcases serve_orders tool request with kept | ⟨addrA, sizeA, addrB, sizeB, rfl, _⟩
  · rw [kept.orders]
    exact unordered
  · rcases allowed with access | isStats
    · exact absurd access id
    · cases isStats

/-- Followed steps ask for no orders. -/
theorem run_unordered {requests : List ClientRequest}
    (unordered : tool.pmem.pmemOrderRecords.toList = [])
    (admitted : AllSteps Tool.serve FollowedStep tool requests) :
    (requests.foldl Tool.serve tool).pmem.pmemOrderRecords.toList = [] := by
  have kept (state : Tool) (request : ClientRequest)
      (held : state.pmem.pmemOrderRecords.toList = []) (step : FollowedStep state request) :
      (state.serve request).pmem.pmemOrderRecords.toList = [] :=
    serve_unordered held (.inl step.1)
  exact invariant kept tool requests unordered admitted

variable (tracking : PlainTracking opts) (detail : opts.printBugDetail = true)
  (transactionsOnly redundantLogging : Bool) (cacheLineSize : Nat) (slots : Nat → PmemSt)

include tracking detail

/-- A request for statistics does not change the bytes that are reported in the end, in a run
that goes wrong neither with it nor without it and that comes to its report both times.

Proof: up to the request the tracker follows the byte-level machine, the request keeps that, and
so does the rest of the run from either state. Both reports then list the unpersisted bytes of
the same memory. -/
theorem stats_request_unseen (made later : List ClientRequest)
    (admitted : AllSteps Tool.serve FollowedStep
      (initTool opts transactionsOnly redundantLogging cacheLineSize slots) (made ++ later))
    (admitted' : AllSteps Tool.serve FollowedStep ((made.foldl Tool.serve
      (initTool opts transactionsOnly redundantLogging cacheLineSize slots)).serve .writeStats)
      later)
    (reports : ReportsAtExit ((made ++ later).foldl Tool.serve
      (initTool opts transactionsOnly redundantLogging cacheLineSize slots)))
    (reports' : ReportsAtExit ((made ++ .writeStats :: later).foldl Tool.serve
      (initTool opts transactionsOnly redundantLogging cacheLineSize slots))) (byte : Nat) :
    ReportsByte ((made ++ later).foldl Tool.serve
        (initTool opts transactionsOnly redundantLogging cacheLineSize slots)) byte ↔
      ReportsByte ((made ++ .writeStats :: later).foldl Tool.serve
        (initTool opts transactionsOnly redundantLogging cacheLineSize slots)) byte := by
  have start := initTool_follows tracking transactionsOnly redundantLogging cacheLineSize slots
  have fresh : (initTool opts transactionsOnly redundantLogging cacheLineSize
      slots).pmem.pmemOrderRecords.toList = [] := rfl
  generalize initTool opts transactionsOnly redundantLogging cacheLineSize slots = tool at *
  have whole := start.serve tracking (made ++ later) admitted reports.alive
  have wholeUnordered := run_unordered fresh admitted
  -- The state in which the request is made, and the one that it leaves.
  have before := (allSteps_append.mp admitted).1
  have reachedAlive := alive_before reports.alive
  have reached := start.serve tracking made before reachedAlive
  have reachedUnordered := run_unordered fresh before
  have resumes : (made ++ .writeStats :: later).foldl Tool.serve tool =
      later.foldl Tool.serve ((made.foldl Tool.serve tool).serve .writeStats) := by
    rw [List.foldl_append, List.foldl_cons]
  rw [resumes] at reports' ⊢
  generalize made.foldl Tool.serve tool = state at *
  have served : state.serve .writeStats = state.respond .writeStats := by
    rw [Tool.serve, reachedAlive]
    rfl
  have stats : Follows opts cacheLineSize (state.serve .writeStats)
      (made.foldl (referenceRespond opts cacheLineSize) Memory.clean) := by
    rw [served]
    exact reached.reported detail
  have resumed := stats.serve tracking later admitted' reports'.alive
  have resumedUnordered := run_unordered (serve_unordered reachedUnordered (.inr rfl)) admitted'
  rw [whole.reportsByte_iff detail reports wholeUnordered,
    resumed.reportsByte_iff detail reports' resumedUnordered, List.foldl_append]

omit tracking detail in
/-- The record of the tree grows over the one in the array, and both are flushed. -/
theorem stats_request_unseen_grown :
    let opts := { defaultOptions (fun _ => false) with printBugDetail := true }
    let start := initTool opts false false 64 (fun _ => PmemSt.zero)
    let context : Option ExeContext := some ⟨[7]⟩
    let made : List ClientRequest := [.access (.registerMapping 64 1024),
      .access (.store 0 context 100 8 0), .access .fence, .access (.store 0 context 108 8 0)]
    let later : List ClientRequest := [.access (.flush context 100 16), .access .fence,
      .access (.store 0 context 300 8 0)]
    let requested := (made.foldl Tool.serve start).serve .writeStats
    let without := (made ++ later).foldl Tool.serve start
    let ended := (made ++ .writeStats :: later).foldl Tool.serve start
    AllSteps Tool.serve FollowedStep start (made ++ later) ∧
      AllSteps Tool.serve FollowedStep requested later ∧
      (∃ store ∈ requested.pmem.pmemStores.toList, store.addr = 100 ∧ store.size = 16) ∧
      ReportsAtExit without ∧ ReportsAtExit ended ∧ ReportsByte without 300 ∧
      (ReportsByte without 110 ↔ ReportsByte ended 110) := by
  intro opts start context made later requested without ended
  have admitted : AllSteps Tool.serve FollowedStep start (made ++ later) := by decide +kernel
  have admitted' : AllSteps Tool.serve FollowedStep requested later := by decide +kernel
  have reports : ReportsAtExit without := by decide +kernel
  have reports' : ReportsAtExit ended := by decide +kernel
  refine ⟨admitted, admitted', by decide +kernel, reports, reports', by decide +kernel, ?_⟩
  exact stats_request_unseen ⟨rfl, fun _ => rfl⟩ rfl false false 64 (fun _ => PmemSt.zero)
    made later admitted admitted' reports reports' 110

omit tracking detail in
/-- Without the request, the flush of seven bytes persists them. With it, the last record of the
array has grown over these bytes and out of the box of its snippet, and the flush passes over
it. Both runs come to their reports. -/
theorem stats_request_unseen_fails :
    let opts := { defaultOptions (fun _ => false) with printBugDetail := true }
    let start := initTool opts false false 64 (fun _ => PmemSt.zero)
    let context : Option ExeContext := some ⟨[7]⟩
    let made : List ClientRequest := [.access (.registerMapping 64 1024),
      .access (.store 0 context 300 8 0), .access (.store 0 context 100 8 0),
      .access (.flush context 300 8), .access (.store 0 context 108 8 0)]
    let later : List ClientRequest := [.access (.flush context 100 7), .access .fence]
    let without := (made ++ later).foldl Tool.serve start
    let ended := (made ++ .writeStats :: later).foldl Tool.serve start
    AllSteps Tool.serve TrackedRequest start (made ++ later) ∧
      AllSteps Tool.serve TrackedRequest ((made.foldl Tool.serve start).serve .writeStats) later ∧
      ReportsAtExit without ∧ ReportsAtExit ended ∧
      ¬ ReportsByte without 104 ∧ ReportsByte ended 104 := by
  decide +kernel

end Runs

end PmDebugger
