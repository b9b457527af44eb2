import PmDebugger.InsertMerge
import PmDebugger.SnippetFlush

/-!
# What the detailed report takes from the records

Every record that enters the detailed report displaces what the report held on its bytes,
and an entry only grows by neighbours that are merged with it. So the report says of each
byte what the last record that covers it says, where the records of the array come first
and those of the tree after them. This holds of everything that the parts of a record
inherit and that merged records share, such as the state, or whether there is a context.
-/

namespace PmDebugger

open OrderedSet OrderedSet.OSet PmemOps

/-- The last of the records that covers the byte. Records that come later take precedence,
whatever their state. -/
def lastRecord (byte : Nat) : List PmemSt → Option PmemSt
  | [] => none
  | store :: rest => (lastRecord byte rest).or (if store.Covers byte then some store else none)

section Last

variable {records first second : List PmemSt} {store : PmemSt} {byte : Nat}

/-- Records that come later take precedence. -/
theorem lastRecord_append (byte : Nat) (first second : List PmemSt) :
    lastRecord byte (first ++ second) = (lastRecord byte second).or (lastRecord byte first) := by
  induction first with
  | nil => simp [lastRecord]
  | cons store rest inductionHypothesis =>
    simp only [List.cons_append, lastRecord, inductionHypothesis, Option.or_assoc]

/-- A byte has no last record exactly if no record covers it. -/
theorem lastRecord_none_iff : lastRecord byte records = none ↔ ¬ Tracks records byte := by
  induction records with
  | nil => simp [lastRecord]
  | cons store rest inductionHypothesis =>
    simp only [lastRecord, Option.or_eq_none_iff, inductionHypothesis, tracks_cons, not_or]
    rw [and_comm]
    simp

/-- The last record is one of the records, and it covers the byte. -/
theorem lastRecord_member (last : lastRecord byte records = some store) :
    store ∈ records ∧ store.Covers byte := by
  induction records with
  | nil => simp [lastRecord] at last
  | cons record rest inductionHypothesis =>
    simp only [lastRecord, Option.or_eq_some_iff] at last
    rcases last with later | ⟨_, here⟩
    · obtain ⟨member, covered⟩ := inductionHypothesis later
      exact ⟨List.mem_cons_of_mem _ member, covered⟩
    · split at here
      · next covered =>
        cases here
        exact ⟨List.mem_cons_self, covered⟩
      · simp at here

end Last

/-- The entries are disjoint ranges, and they say of each byte what the last record that covers
it says, in all that is inherited. -/
structure MarksLast (isIpMemsetMemcpy : Nat → Bool) (records entries : List PmemSt) : Prop where
  ranges : Ranges entries
  shows : ∀ kind, Inherited isIpMemsetMemcpy kind → ∀ byte,
    Shows kind entries byte ↔ ∃ record ∈ lastRecord byte records, kind record

/-- Entering one more record. Its own bytes say what it says, the others what they said.

Proof: the law of the insertion splits on whether the record covers the byte, and so does the
last record of the longer list. -/
theorem MarksLast.enter {records : List PmemSt} {pmem : PmemOps} {store : PmemSt}
    (last : MarksLast pmem.opts.isIpMemsetMemcpy records (reported pmem)) (proper : store.Proper) :
    MarksLast pmem.opts.isIpMemsetMemcpy (records ++ [store])
      (reported (pmem.reportStore store).1) := by
  obtain ⟨_, ranges, _⟩ := reportStore_exact pmem proper last.ranges
  constructor
  · exact ranges
  · intro kind inherited byte
    have entered : Shows kind (reported (pmem.reportStore store).1) byte ↔
        store.Covers byte ∧ kind store ∨ Shows kind (reported pmem) byte ∧ ¬ store.Covers byte :=
      (insert_merged inherited proper last.ranges pmem.dbPmemStoreIndex
        (makeRoom pmem.opts.isIpMemsetMemcpy store (pmem.debugMemoryMerge.getD create)
          pmem.dbPmemStoreIndex).2.2).2.2 byte
    rw [entered, last.shows kind inherited, lastRecord_append]
    by_cases covered : store.Covers byte
    · simp [lastRecord, covered]
    · simp [lastRecord, covered]

/-- The report in the course of the array loops: the slots from `bound` on have not been
visited, and the records so far are entered. -/
structure Marking (start : PmemOps) (bound : Nat) (records : List PmemSt) (state : PmemOps) :
    Prop where
  opts : state.opts = start.opts
  snippets : state.snippetInfo = start.snippetInfo
  stores : state.pmemStores = start.pmemStores
  ahead : ∀ slot, bound ≤ slot → state.slots slot = start.slots slot
  last : MarksLast state.opts.isIpMemsetMemcpy records (reported state)

namespace Marking

variable {start state : PmemOps} {bound : Nat} {records : List PmemSt}

/-- Slots may be left out. -/
theorem mono (marking : Marking start bound records state) {later : Nat} (less : bound ≤ later) :
    Marking start later records state :=
  ⟨marking.opts, marking.snippets, marking.stores,
    fun slot above => marking.ahead slot (Nat.le_trans less above), marking.last⟩

/-- Nothing is entered yet. -/
theorem begun (fresh : reported start = []) (bound : Nat) : Marking start bound [] start := by
  refine ⟨rfl, rfl, rfl, fun _ _ => rfl, ?_⟩
  rw [fresh]
  exact ⟨ranges_nil, fun kind _ byte => by simp [Shows, lastRecord]⟩

/-- The body of the inner loop. -/
theorem slot (marking : Marking start bound records state) (tag : FlushedState)
    (proper : (start.slots bound).Proper) :
    Marking start (bound + 1) (records ++ slotLive tag (start.slots bound))
      (state.reportSlot tag bound) := by
  have held := marking.ahead bound (Nat.le_refl _)
  unfold reportSlot slotLive
  simp only [held]
  split
  · rw [List.append_nil]
    exact marking.mono (Nat.le_succ _)
  · have settled := (settle_proper tag (start.slots bound)).mpr proper
    have frame := (reportStore_exact state settled marking.last.ranges).1
    have entered := marking.last.enter settled
    generalize state.reportStore (settle tag (start.slots bound)) = result at *
    have unchanged : result.1.slots = state.slots := by rw [frame]
    have sameOpts : result.1.opts = state.opts := by rw [frame]
    rw [← sameOpts] at entered
    constructor
    · exact sameOpts.trans marking.opts
    · rw [frame]
      exact marking.snippets
    · rw [frame]
      exact marking.stores
    · intro slot above
      rw [setSlot_slots, if_neg (Nat.ne_of_gt above), unchanged]
      exact marking.ahead slot (Nat.le_of_succ_le above)
    · exact entered

/-- The inner loop. -/
theorem slots (tag : FlushedState) (count : Nat) (marking : Marking start bound records state)
    (proper : ∀ slot ∈ List.range' bound count, (start.slots slot).Proper) :
    Marking start (bound + count)
      (records ++ (List.range' bound count).flatMap (fun slot => slotLive tag (start.slots slot)))
      ((List.range' bound count).foldl (reportSlot tag) state) := by
  induction count generalizing bound records state with
  | zero => simpa using marking
  | succ count inductionHypothesis =>
    rw [List.range'_succ] at proper ⊢
    have first := marking.slot tag (proper bound List.mem_cons_self)
    rw [List.flatMap_cons, ← List.append_assoc, List.foldl_cons, Nat.add_comm count 1,
      ← Nat.add_assoc]
    exact inductionHypothesis first (fun later member =>
      proper later (List.mem_cons_of_mem _ member))

/-- The outer loop enters the snippets one behind the other. -/
theorem snippet (layout : Layout start) {count : Nat} (used : count ≤ start.snippetInfoIndex)
    (proper : ∀ slot, InSnippet start count slot → (start.slots slot).Proper)
    (marking : Marking start (start.snippetInfo count).startIndex records state) :
    Marking start (start.snippetInfo count).index (records ++ snippetLive start count)
      (state.reportSnippet count) := by
  have whole := marking.slots (start.snippetInfo count).flushedNum
    ((start.snippetInfo count).index - (start.snippetInfo count).startIndex)
    (fun slot member => proper slot (mem_slotRange.mp member))
  rw [Nat.add_sub_cancel' (layout.ordered count used)] at whole
  unfold reportSnippet
  rw [marking.snippets]
  exact whole

/-- The loops over all snippets up to one of them. -/
theorem loop (layout : Layout start) (fresh : reported start = [])
    (proper : ∀ sIndex ≤ start.snippetInfoIndex, ∀ slot, InSnippet start sIndex slot →
      (start.slots slot).Proper) {count : Nat} (used : count ≤ start.snippetInfoIndex) :
    Marking start (start.snippetInfo count).index
      ((List.range (count + 1)).flatMap (snippetLive start))
      ((List.range (count + 1)).foldl reportSnippet start) := by
  induction count with
  | zero =>
    have entered := Marking.begun fresh (start.snippetInfo 0).startIndex
    simpa using entered.snippet layout used (proper 0 used)
  | succ count inductionHypothesis =>
    have before := inductionHypothesis (Nat.le_of_succ_le used)
    rw [← layout.chained count used] at before
    rw [List.range_succ, List.flatMap_append, List.foldl_append, List.flatMap_singleton]
    exact before.snippet layout used (proper (count + 1) used)

end Marking

/-- The detailed report says of every byte what the last live record that covers it says.

Proof: the array loops enter the live records of the array in their order, each slot once, since
the snippets lie one behind the other; then the walk over the tree enters its records, and each
record so entered takes its bytes over. -/
theorem printStoreStatsDetail_last {pmem : PmemOps} (layout : Layout pmem)
    (slots : ∀ sIndex ≤ pmem.snippetInfoIndex, ∀ slot, InSnippet pmem sIndex slot →
      (pmem.slots slot).Proper)
    (stores : ∀ store ∈ pmem.pmemStores.toList, store.Proper) :
    MarksLast pmem.opts.isIpMemsetMemcpy pmem.live (reported pmem.printStoreStatsDetail) := by
  let start : PmemOps := { pmem with debugMemoryMerge := some create, notPmemNum := 0 }
  have begins : Layout start := ⟨layout.first, layout.chained, layout.ordered⟩
  have array : Marking start (start.snippetInfo start.snippetInfoIndex).index start.liveSlots
      ((List.range (start.snippetInfoIndex + 1)).foldl reportSnippet start) :=
    Marking.loop begins rfl slots (Nat.le_refl _)
  have printed : reported pmem.printStoreStatsDetail = reported (
      let entered := (List.range (start.snippetInfoIndex + 1)).foldl reportSnippet start
      reportTree (entered.pmemStores.size + 1)
        { entered with pmemStores := entered.pmemStores.resetIter }) := rfl
  rw [printed, live]
  simp only
  have sameOpts : start.opts = pmem.opts := rfl
  rw [← sameOpts]
  generalize (List.range (start.snippetInfoIndex + 1)).foldl reportSnippet start = entered at *
  have sameStores : entered.pmemStores = pmem.pmemStores := array.stores
  have last := array.last
  rw [array.opts] at last
  -- The walk keeps the options, so that all insertions merge by the same comparison.
  apply reportTree_rule (P := MarksLast start.opts.isIpMemsetMemcpy) _
    (entered.pmemStores.size + 1) { entered with pmemStores := entered.pmemStores.resetIter } []
    pmem.pmemStores.toList _ array.opts (by rw [sameStores]; exact Nat.lt_succ_self _)
    (by rw [sameStores]; rfl) rfl stores last
  intro records pmem store same proper before
  rw [← same] at before ⊢
  exact before.enter proper

end PmDebugger
