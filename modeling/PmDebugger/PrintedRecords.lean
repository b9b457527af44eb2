import Mathlib.Data.List.TakeWhile
import PmDebugger.ReportedRecords

/-!
# How far a report is printed

With `--tree-reorganization` or `--print-debug-detail` a report prints the context of every
record that it lists, through a pointer that nothing checks. The listing then ends at the first
record without a context, and so does the process. A flush that cuts the back off a record of the
tree leaves such a record behind, and so may a request to clear a range.

The plain report lists the records of the tracker themselves. The detailed one lists the entries
that it has built, and an entry has its context from the last live records of its bytes. Either
way the records of the tracker decide whether the listing is printed to its end.
-/

namespace PmDebugger

open OrderedSet OrderedSet.OSet PmemOps

section Listings

variable {opts : Options} {listed : List PmemSt}

/-- A listing is printed to its end if no context is printed, or if all its records have one. -/
theorem listingDies_iff : listingDies opts listed = false ↔
    (opts.printsContexts = true → ∀ store ∈ listed, store.context ≠ none) := by
  unfold listingDies Options.diesAt
  cases opts.printsContexts with
  | false => simp
  | true => simp [Option.isNone_iff_eq_none]

/-- A listing that is printed to its end is printed as a whole. -/
theorem printedRecords_eq (lives : listingDies opts listed = false) :
    printedRecords opts listed = listed := by
  unfold listingDies at lives
  rw [List.any_eq_false] at lives
  apply List.takeWhile_eq_self_iff.mpr
  intro store member
  simpa using lives store member

end Listings

/-- Every record that the plain report goes through has a context. Deleted records of the array
are among them. -/
def ListedHaveContexts (pmem : PmemOps) : Prop :=
  (∀ slot ∈ pmem.usedSlots, (pmem.slots slot).context ≠ none) ∧
    ∀ store ∈ pmem.pmemStores.toList, store.context ≠ none

instance (pmem : PmemOps) : Decidable (ListedHaveContexts pmem) :=
  inferInstanceAs (Decidable (_ ∧ _))

/-- The last live record of every byte has a context, where later records are those that the
detailed report enters later. -/
def LastHaveContexts (pmem : PmemOps) : Prop :=
  ∀ byte, ∀ store ∈ lastRecord byte pmem.live, store.context ≠ none

/-- Only the bytes of live records have a last record. -/
theorem lastHaveContexts_iff {pmem : PmemOps} : LastHaveContexts pmem ↔
    ∀ record ∈ pmem.live, ∀ byte ∈ List.range' record.addr record.size,
      ∀ store ∈ lastRecord byte pmem.live, store.context ≠ none := by
  constructor
  · intro haveContexts record _ byte _
    exact haveContexts byte
  · intro haveContexts byte store isLast
    obtain ⟨member, covered⟩ := lastRecord_member isLast
    apply haveContexts store member byte _ store isLast
    rw [List.mem_range'_1]
    exact covered

instance (pmem : PmemOps) : Decidable (LastHaveContexts pmem) :=
  decidable_of_iff _ lastHaveContexts_iff.symm

/-- The report prints the list of the pending stores to its end. The detailed report prints a
context with every entry, the plain one with every record if the tree is reorganised. -/
structure PrintsThrough (pmem : PmemOps) : Prop where
  detailed : pmem.opts.printBugDetail = true → LastHaveContexts pmem
  plain : pmem.opts.printBugDetail = false → pmem.opts.treeReorganization = true →
    ListedHaveContexts pmem

/-- Which records the report prints with their contexts depends on its form. -/
theorem printsThrough_iff {pmem : PmemOps} : PrintsThrough pmem ↔
    (pmem.opts.printBugDetail = true → LastHaveContexts pmem) ∧
      (pmem.opts.printBugDetail = false → pmem.opts.treeReorganization = true →
        ListedHaveContexts pmem) :=
  ⟨fun through => ⟨through.detailed, through.plain⟩, fun both => ⟨both.1, both.2⟩⟩

instance (pmem : PmemOps) : Decidable (PrintsThrough pmem) :=
  decidable_of_iff _ printsThrough_iff.symm

/-! ## The plain report -/

/-- Bringing the records up to date changes states only. -/
theorem settleSnippets_exact (pmem : PmemOps) :
    let settled := (List.range (pmem.snippetInfoIndex + 1)).foldl settleSnippet pmem
    settled = { pmem with slots := settled.slots } ∧
      ∀ slot, (settled.slots slot).addr = (pmem.slots slot).addr ∧
        (settled.slots slot).size = (pmem.slots slot).size ∧
        (settled.slots slot).context = (pmem.slots slot).context := by
  let Updated (state : PmemOps) : Prop := state = { pmem with slots := state.slots } ∧
    ∀ slot, (state.slots slot).addr = (pmem.slots slot).addr ∧
      (state.slots slot).size = (pmem.slots slot).size ∧
      (state.slots slot).context = (pmem.slots slot).context
  have once (state : PmemOps) (updated : Updated state) (tag : FlushedState) (index : Nat) :
      Updated (state.setSlot index (settle tag (state.slots index))) := by
    obtain ⟨frame, same⟩ := updated
    constructor
    · rw [frame]
      rfl
    · intro slot
      rw [setSlot_slots]
      split
      · next isIndex =>
        rw [isIndex, ← (same index).1, ← (same index).2.1, ← (same index).2.2]
        unfold settle
        split <;> exact ⟨rfl, rfl, rfl⟩
      · exact same slot
  have snippet (state : PmemOps) (updated : Updated state) (sIndex : Nat) :
      Updated (state.settleSnippet sIndex) :=
    List.foldlRecOn (motive := Updated) _ _ updated (fun inner kept index _ =>
      once inner kept _ index)
  exact List.foldlRecOn (motive := Updated) _ _ ⟨rfl, fun _ => ⟨rfl, rfl, rfl⟩⟩
    (fun state kept sIndex _ => snippet state kept sIndex)

/-- The plain report goes through the slots in use, whose ranges and contexts it leaves alone, and
through the tree. -/
theorem plainListing_exact (pmem : PmemOps) : ∃ slots : Nat → PmemSt,
    (∀ slot, (slots slot).addr = (pmem.slots slot).addr ∧
      (slots slot).size = (pmem.slots slot).size ∧
      (slots slot).context = (pmem.slots slot).context) ∧
    pmem.plainListing.1 = pmem.usedSlots.map slots ++ pmem.pmemStores.toList ∧
    pmem.plainListing.2 = { pmem with slots := slots } := by
  obtain ⟨frame, same⟩ := settleSnippets_exact pmem
  unfold plainListing
  simp only
  generalize (List.range (pmem.snippetInfoIndex + 1)).foldl settleSnippet pmem = settled at *
  apply Exists.intro settled.slots
  have stores : settled.pmemStores = pmem.pmemStores := by rw [frame]
  have used : settled.usedSlots = pmem.usedSlots := by
    unfold usedSlots
    rw [frame]
  exact ⟨same, by rw [stores, used], frame⟩

/-- The records of the tracker decide whether the plain report dies. -/
theorem plainListing_contexts {pmem : PmemOps} :
    (∀ store ∈ pmem.plainListing.1, store.context ≠ none) ↔ ListedHaveContexts pmem := by
  obtain ⟨slots, same, listed, _⟩ := plainListing_exact pmem
  rw [listed, ListedHaveContexts]
  simp only [List.mem_append, or_imp, forall_and, List.mem_map, forall_exists_index, and_imp,
    forall_apply_eq_imp_iff₂, (same _).2.2]

/-- The plain report prints its records, up to the first one at which the process dies. -/
theorem printStoreStats_printed (pmem : PmemOps) :
    pmem.printStoreStats.1 = printedRecords pmem.opts pmem.plainListing.1 := rfl

/-! ## The detailed report -/

/-- The detailed report leaves the options alone. -/
theorem printStoreStatsDetail_opts (pmem : PmemOps) :
    pmem.printStoreStatsDetail.opts = pmem.opts := by
  have slot (tag : FlushedState) (state : PmemOps) (index : Nat) :
      (state.reportSlot tag index).opts = state.opts := by
    simp only [reportSlot]
    split <;> rfl
  have snippet (state : PmemOps) (sIndex : Nat) :
      (state.reportSnippet sIndex).opts = state.opts :=
    List.foldlRecOn (motive := fun inner : PmemOps => inner.opts = state.opts) _ _ rfl
      (fun inner kept index _ => (slot _ inner index).trans kept)
  have array : ((List.range (pmem.snippetInfoIndex + 1)).foldl reportSnippet
      { pmem with debugMemoryMerge := some create, notPmemNum := 0 }).opts = pmem.opts :=
    List.foldlRecOn (motive := fun state : PmemOps => state.opts = pmem.opts) _ _ rfl
      (fun state kept sIndex _ => (snippet state sIndex).trans kept)
  have tree (fuel : Nat) (state : PmemOps) : (reportTree fuel state).opts = state.opts := by
    induction fuel generalizing state with
    | zero => rfl
    | succ fuel inductionHypothesis =>
      simp only [reportTree]
      split
      · rfl
      · rw [inductionHypothesis]
        rfl
  exact (tree _ _).trans array

/-- Whether there is a context is inherited by parts and shared by what is merged. -/
theorem inherited_contextless (isIpMemsetMemcpy : Nat → Bool) :
    Inherited isIpMemsetMemcpy (fun entry => entry.context = none) where
  parts := by
    intro part old same
    simp only [same.context]
  merged := by
    intro region old mergeable
    simp only [isStoreMergeable, Bool.and_eq_true] at mergeable
    have compared := mergeable.2
    cases first : region.context with
    | none => simp [cmpExeContext, first] at compared
    | some context =>
      cases second : old.context with
      | none => simp [cmpExeContext, second] at compared
      | some other => simp

/-- The entries of the detailed report have contexts iff the last live records of all bytes have.

Proof: an entry covers its first byte, and says of it what the last live record that covers it
says. -/
theorem printStoreStatsDetail_contexts {pmem : PmemOps} (layout : Layout pmem)
    (slots : ∀ sIndex ≤ pmem.snippetInfoIndex, ∀ slot, InSnippet pmem sIndex slot →
      (pmem.slots slot).Proper)
    (stores : ∀ store ∈ pmem.pmemStores.toList, store.Proper) :
    (∀ entry ∈ reported pmem.printStoreStatsDetail, entry.context ≠ none) ↔
      LastHaveContexts pmem := by
  have last := printStoreStatsDetail_last layout slots stores
  have shows := last.shows _ (inherited_contextless pmem.opts.isIpMemsetMemcpy)
  constructor
  · intro haveContexts byte store isLast contextless
    obtain ⟨entry, member, _, none⟩ := (shows byte).mpr ⟨store, isLast, contextless⟩
    exact haveContexts entry member none
  · intro haveContexts entry member contextless
    have nonempty := (last.ranges.proper entry member).nonempty
    have covered : entry.Covers entry.addr := ⟨Nat.le_refl _, Nat.lt_add_of_pos_right nonempty⟩
    obtain ⟨store, isLast, none⟩ := (shows entry.addr).mp ⟨entry, member, covered, contextless⟩
    exact haveContexts entry.addr store isLast none

/-! ## Either report -/

/-- What the report prints when nothing stops it: the merged entries in the detailed form, and
otherwise all slots in use, deleted ones among them, and then the tree. -/
def statsListing (pmem : PmemOps) : List PmemSt :=
  if pmem.opts.printBugDetail = true then reported pmem.printStoreStatsDetail
  else pmem.plainListing.1

/-- The report prints its listing, up to the first record at which the process dies. -/
theorem printPmemStats_printed (summary : List (Option ExeContext)) (pmem : PmemOps) :
    (pmem.printPmemStats summary).1 = printedRecords pmem.opts (statsListing pmem) := by
  by_cases detail : pmem.opts.printBugDetail = true
  · simp only [printPmemStats, statsListing, if_pos detail]
  · simp only [printPmemStats, statsListing, if_neg detail]
    exact printStoreStats_printed pmem

/-- The listing of a tracker is printed to its end iff its records say so. -/
theorem statsListing_through_iff {pmem : PmemOps} (layout : Layout pmem)
    (slots : ∀ sIndex ≤ pmem.snippetInfoIndex, ∀ slot, InSnippet pmem sIndex slot →
      (pmem.slots slot).Proper)
    (stores : ∀ store ∈ pmem.pmemStores.toList, store.Proper) :
    listingDies pmem.opts (statsListing pmem) = false ↔ PrintsThrough pmem := by
  rw [listingDies_iff, printsThrough_iff, statsListing, Options.printsContexts]
  cases pmem.opts.printBugDetail with
  | true => simpa using printStoreStatsDetail_contexts layout slots stores
  | false => simpa using imp_congr_right (fun _ => plainListing_contexts)

/-- A report that nothing stops prints all of its listing. -/
theorem printPmemStats_through {pmem : PmemOps} (layout : Layout pmem)
    (slots : ∀ sIndex ≤ pmem.snippetInfoIndex, ∀ slot, InSnippet pmem sIndex slot →
      (pmem.slots slot).Proper)
    (stores : ∀ store ∈ pmem.pmemStores.toList, store.Proper) (through : PrintsThrough pmem)
    (summary : List (Option ExeContext)) : (pmem.printPmemStats summary).1 = statsListing pmem := by
  rw [printPmemStats_printed]
  exact printedRecords_eq ((statsListing_through_iff layout slots stores).mpr through)

/-- Without order requests the check of the orders finds and changes nothing. -/
theorem checkPmemOrder_unordered {pmem : PmemOps}
    (unordered : pmem.pmemOrderRecords.toList = []) : pmem.checkPmemOrder = ([], pmem) := by
  simp [checkPmemOrder, unordered]

/-- The tool is there at exit, and its report prints the list of the pending stores to the end. -/
structure ReportsAtExit (tool : Tool) : Prop where
  alive : tool.exited = false
  through : PrintsThrough tool.pmem

/-- A tool comes to its report if it has not exited, and through it if every context that is
printed is there. -/
theorem reportsAtExit_iff {tool : Tool} :
    ReportsAtExit tool ↔ tool.exited = false ∧ PrintsThrough tool.pmem :=
  ⟨fun reports => ⟨reports.alive, reports.through⟩, fun both => ⟨both.1, both.2⟩⟩

instance (tool : Tool) : Decidable (ReportsAtExit tool) :=
  decidable_of_iff _ reportsAtExit_iff.symm

/-- Without order requests the report at exit lists what the tracker goes through. -/
theorem fini_stores {tool : Tool} (layout : Layout tool.pmem)
    (slots : ∀ sIndex ≤ tool.pmem.snippetInfoIndex, ∀ slot, InSnippet tool.pmem sIndex slot →
      (tool.pmem.slots slot).Proper)
    (stores : ∀ store ∈ tool.pmem.pmemStores.toList, store.Proper) (reports : ReportsAtExit tool)
    (unordered : tool.pmem.pmemOrderRecords.toList = []) :
    tool.fini.2 = statsListing tool.pmem := by
  have alive := reports.alive
  unfold Tool.exited at alive
  rw [Bool.or_eq_false_iff] at alive
  have printed : tool.fini.2 = (tool.pmem.printPmemStats tool.trans.summaryContexts).1 := by
    simp [Tool.fini, checkPmemOrder_unordered unordered, alive.1, alive.2]
  rw [printed]
  exact printPmemStats_through layout slots stores reports.through tool.trans.summaryContexts

/-- Where no contexts are printed, the check of the orders ends no process. -/
theorem checkPmemOrder_silent {pmem : PmemOps} (silent : pmem.opts.printsContexts = false) :
    pmem.checkPmemOrder.2.exited = pmem.exited := by
  simp [checkPmemOrder, diesAtOrder, Options.diesAt, silent]

/-- Where no contexts are printed, the report at exit lists what the tracker goes through after
the check of the orders. -/
theorem fini_silent {tool : Tool} (alive : tool.exited = false)
    (silent : tool.pmem.opts.printsContexts = false) : tool.fini.2 = statsListing
      (if tool.pmem.opts.orderGuarantee then tool.pmem.checkPmemOrder.2 else tool.pmem) := by
  unfold Tool.exited at alive
  rw [Bool.or_eq_false_iff] at alive
  have printed {pmem : PmemOps} (sameOpts : pmem.opts = tool.pmem.opts) :
      (pmem.printPmemStats tool.trans.summaryContexts).1 = statsListing pmem := by
    rw [printPmemStats_printed]
    apply printedRecords_eq
    rw [listingDies_iff, sameOpts, silent]
    simp
  by_cases ordered : tool.pmem.opts.orderGuarantee = true
  · simp only [Tool.fini, if_pos ordered, checkPmemOrder_silent silent, alive.1, alive.2,
      Bool.or_self, Bool.false_eq_true, if_false]
    exact printed rfl
  · simp only [Tool.fini, if_neg ordered, alive.1, alive.2, Bool.or_self, Bool.false_eq_true,
      if_false]
    exact printed rfl

end PmDebugger
