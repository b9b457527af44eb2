import PmDebugger.SnippetTable

/-!
# The number of snippets

The table has one entry for each slot of the array, and nothing checks that it suffices. A closed
snippet holds at least one record, so that the current snippet is numbered at most by the slot it
starts at. The last record of a full array may still be alone in its snippet, though. A flush of
that record opens a snippet behind the table.
-/

namespace PmDebugger

open PmemOps Runs

/-- A partitioned array whose closed snippets hold a record each. The box of an empty snippet is
the initial one. -/
structure SnippetsCounted (pmem : PmemOps) : Prop where
  partitioned : Partitioned pmem
  filled : ∀ sIndex < pmem.snippetInfoIndex,
    (pmem.snippetInfo sIndex).startIndex < (pmem.snippetInfo sIndex).index
  blank : pmem.current.startIndex = pmem.current.index → pmem.current.maxAdd = Word64.minusOne

/-- Every slot of the array is used, one in each snippet. A flush of the record in the last one
then opens a snippet behind the table. -/
def OneEach (pmem : PmemOps) : Prop :=
  pmem.current.index = pmem.opts.maxArrayNum ∧
    ∀ sIndex ∈ List.range (pmem.snippetInfoIndex + 1),
      (pmem.snippetInfo sIndex).index = (pmem.snippetInfo sIndex).startIndex + 1

instance (pmem : PmemOps) : Decidable (OneEach pmem) := inferInstanceAs (Decidable (_ ∧ _))

section Count

variable {before after pmem : PmemOps}

/-- Each snippet before another one takes at least one slot. -/
theorem SnippetsCounted.spaced (counted : SnippetsCounted pmem) {first second : Nat}
    (ordered : first ≤ second) (used : second ≤ pmem.snippetInfoIndex) :
    (pmem.snippetInfo first).startIndex + (second - first) ≤
      (pmem.snippetInfo second).startIndex := by
  induction second with
  | zero =>
    obtain rfl : first = 0 := by omega
    exact le_refl _
  | succ second inductionHypothesis =>
    by_cases same : first = second + 1
    · rw [same, Nat.sub_self]
      exact le_refl _
    · have earlier := inductionHypothesis (by omega) (by omega)
      have taken := counted.filled second (by omega)
      rw [counted.partitioned.layout.chained second (by omega)]
      omega

/-- When the current snippet is in use, the table is full exactly when every slot of the array is
used, one in each snippet. -/
theorem SnippetsCounted.full_iff (counted : SnippetsCounted pmem)
    (inUse : pmem.current.startIndex < pmem.current.index) :
    pmem.snippetInfoIndex + 1 = pmem.opts.maxArrayNum ↔ OneEach pmem := by
  have layout := counted.partitioned.layout
  have fits := counted.partitioned.fits
  constructor
  · intro full
    have starts (sIndex : Nat) (used : sIndex ≤ pmem.snippetInfoIndex) :
        (pmem.snippetInfo sIndex).startIndex = sIndex := by
      have low := counted.spaced (Nat.zero_le sIndex) used
      have high := counted.spaced used (le_refl _)
      have last : (pmem.snippetInfo pmem.snippetInfoIndex).startIndex < pmem.current.index := inUse
      rw [layout.first] at low
      omega
    have lastStart : pmem.current.startIndex = pmem.snippetInfoIndex := starts _ (le_refl _)
    have lastEnd : pmem.current.index = pmem.opts.maxArrayNum := by omega
    refine ⟨lastEnd, fun sIndex member => ?_⟩
    have used : sIndex ≤ pmem.snippetInfoIndex := Nat.le_of_lt_succ (List.mem_range.mp member)
    rw [starts sIndex used]
    by_cases isLast : sIndex = pmem.snippetInfoIndex
    · rw [isLast]
      exact lastEnd.trans full.symm
    · rw [← layout.chained sIndex (by omega), starts (sIndex + 1) (by omega)]
  · rintro ⟨lastEnd, single⟩
    have ends (sIndex : Nat) (used : sIndex ≤ pmem.snippetInfoIndex) :
        (pmem.snippetInfo sIndex).index = sIndex + 1 := by
      induction sIndex with
      | zero =>
        rw [single 0 (List.mem_range.mpr (by omega)), layout.first]
      | succ sIndex inductionHypothesis =>
        rw [single (sIndex + 1) (List.mem_range.mpr (by omega)),
          layout.chained sIndex (by omega), inductionHypothesis (by omega)]
    have last : pmem.current.index = pmem.snippetInfoIndex + 1 := ends _ (le_refl _)
    omega

/-- A flush that ends below the last address closes only a snippet in use. -/
theorem SnippetsCounted.inUse_of_closes (counted : SnippetsCounted pmem) {flush : PmemSt}
    (below : flush.addr + flush.size < 2 ^ 64 - 1) (closes : closesCurrent flush pmem) :
    pmem.current.startIndex < pmem.current.index := by
  rcases closes with ⟨covers, _⟩ | ⟨_, slot, member, _⟩
  · have ordered : pmem.current.startIndex ≤ pmem.current.index :=
      counted.partitioned.layout.ordered pmem.snippetInfoIndex (le_refl _)
    have flushEnd : flush.maxAddr = flush.addr + flush.size := Word64.add_eq (by omega)
    by_contra empty
    rw [counted.blank (by omega), flushEnd] at covers
    unfold Word64.minusOne at covers
    omega
  · have inside : pmem.current.startIndex ≤ slot ∧ slot < pmem.current.index :=
      mem_slotRange.mp member
    omega

/-- Growth that does not tag the current snippet keeps the count. -/
theorem TableGrown.counted (grown : TableGrown (fun _ => False) before after)
    (counted : SnippetsCounted before) : SnippetsCounted after := by
  refine ⟨grown.partitioned counted.partitioned, ?_, ?_⟩
  · intro sIndex below
    rw [grown.used] at below
    rw [grown.starts, grown.ends sIndex (by omega)]
    exact counted.filled sIndex below
  · intro empty
    have same := grown.current_eq id
    have longer := grown.longer
    have ordered : before.current.startIndex ≤ before.current.index :=
      counted.partitioned.layout.ordered before.snippetInfoIndex (le_refl _)
    have start : after.current.startIndex = before.current.startIndex := by rw [same]
    rw [same]
    exact counted.blank (by omega)

/-- The array is empty. -/
theorem counted_empty (used : pmem.snippetInfoIndex = 0)
    (empty : pmem.snippetInfo 0 = emptySnippet 0) : SnippetsCounted pmem := by
  refine ⟨partitioned_empty used empty, fun sIndex below => by omega, fun _ => ?_⟩
  unfold current
  rw [used, empty]
  rfl

/-- A wider box of a snippet in use. -/
theorem updatePmemStoresHeadMinandmax_counted (store : PmemSt) (counted : SnippetsCounted pmem)
    (inUse : pmem.current.startIndex < pmem.current.index) :
    SnippetsCounted (pmem.updatePmemStoresHeadMinandmax store) := by
  have last : (pmem.updatePmemStoresHeadMinandmax store).current.startIndex =
        pmem.current.startIndex ∧
      (pmem.updatePmemStoresHeadMinandmax store).current.index = pmem.current.index := by
    have updated : (pmem.updatePmemStoresHeadMinandmax store).current = { pmem.current with
        minAdd := (widen store pmem.current.minAdd pmem.current.maxAdd).1
        maxAdd := (widen store pmem.current.minAdd pmem.current.maxAdd).2 } := if_pos rfl
    rw [updated]
    exact ⟨rfl, rfl⟩
  refine ⟨updatePmemStoresHeadMinandmax_partitioned store counted.partitioned, ?_, ?_⟩
  · intro sIndex below
    have same : (pmem.updatePmemStoresHeadMinandmax store).snippetInfo sIndex =
        pmem.snippetInfo sIndex := if_neg (Nat.ne_of_lt below)
    rw [same]
    exact counted.filled sIndex below
  · intro empty
    omega

/-- After a flush, closed snippets hold a record still; the number of the current one is higher
by one exactly when the flush closes a snippet. -/
theorem doFlush_counted (counted : SnippetsCounted pmem) {base size : Nat}
    (context : Option ExeContext) (strandId : Nat)
    (below : (flushInfo pmem.opts pmem.flushAlignSize base size).addr +
      (flushInfo pmem.opts pmem.flushAlignSize base size).size < 2 ^ 64 - 1) :
    SnippetsCounted (pmem.doFlush base size context strandId) ∧
      (pmem.doFlush base size context strandId).snippetInfoIndex = pmem.snippetInfoIndex +
        if closesCurrent (flushInfo pmem.opts pmem.flushAlignSize base size) pmem then
          1 else 0 := by
  have layout := counted.partitioned.layout
  obtain ⟨middle, grown, closes, flushed⟩ :=
    doFlush_table layout counted.partitioned.opened base size context strandId
  have fits : middle.current.index ≤ middle.opts.maxArrayNum := by
    rw [grown.opts]
    exact grown.fits counted.partitioned.fits
  have partitioned := closeSnippet_partitioned (grown.layout layout) fits
  have filled (sIndex : Nat) (earlier : sIndex < pmem.snippetInfoIndex) :
      (middle.snippetInfo sIndex).startIndex < (middle.snippetInfo sIndex).index := by
    rw [grown.starts, grown.ends sIndex (by omega)]
    exact counted.filled sIndex earlier
  have longer := grown.longer
  have start : middle.current.startIndex = pmem.current.startIndex := by
    unfold current
    rw [grown.used, grown.starts]
  rw [flushed]
  by_cases closing : closesCurrent (flushInfo pmem.opts pmem.flushAlignSize base size) pmem
  · have inUse := counted.inUse_of_closes below closing
    have opens : middle.closeSnippet = middle.initSnippetInfo := if_pos (closes.mpr closing)
    rw [if_pos closing]
    rw [opens] at partitioned ⊢
    refine ⟨⟨partitioned, ?_, ?_⟩, congrArg (· + 1) grown.used⟩
    · intro sIndex earlier
      have used : sIndex < middle.snippetInfoIndex + 1 := earlier
      have same : middle.initSnippetInfo.snippetInfo sIndex = middle.snippetInfo sIndex :=
        if_neg (by omega)
      rw [same]
      by_cases isLast : sIndex = pmem.snippetInfoIndex
      · have last : (middle.snippetInfo sIndex) = middle.current := by
          rw [isLast, ← grown.used]
          rfl
        rw [last]
        omega
      · exact filled sIndex (by rw [grown.used] at used; omega)
    · intro _
      exact congrArg ArrSnippet.maxAdd (if_pos rfl)
  · have stays : middle.closeSnippet = middle := if_neg (fun tagged => closing (closes.mp tagged))
    rw [if_neg closing]
    rw [stays] at partitioned ⊢
    refine ⟨⟨partitioned, ?_, ?_⟩, grown.used⟩
    · intro sIndex earlier
      exact filled sIndex (by rwa [grown.used] at earlier)
    · intro empty
      have ordered : pmem.current.startIndex ≤ pmem.current.index :=
        layout.ordered pmem.snippetInfoIndex (le_refl _)
      have box : middle.current.maxAdd = pmem.current.maxAdd := by
        unfold current
        rw [grown.used]
        exact (grown.boxes pmem.snippetInfoIndex).2
      rw [box]
      exact counted.blank (by omega)

end Count

/-- A store, a flush, a fence, a request to clear a range or the like, where the range of a flush
ends below the last address. -/
def TableRequest (tool : Tool) : ClientRequest → Prop
  | .access (.flush _ base size) =>
      (flushRange tool base size).addr + (flushRange tool base size).size < 2 ^ 64 - 1
  | request => TrackerRequest request

instance (tool : Tool) : (request : ClientRequest) → Decidable (TableRequest tool request)
  | .access (.flush _ base size) => inferInstanceAs (Decidable
      ((flushRange tool base size).addr + (flushRange tool base size).size < 2 ^ 64 - 1))
  | .access (.store _ _ _ _ _) | .access .fence | .access (.registerMapping _ _) | .setClean _ _
  | .enterBlock => .isTrue trivial
  | .access (.orderGuarantee _ _ _ _) | .access (.fenceMark _) | .access .epochBegin
  | .access (.epochEnd _) | .access (.newStrand _ _) | .removeMapping _ _ | .checkIsPmemMapping _ _
  | .writeStats | .startTx _ _ _ | .endTx _ _ _ | .addToTx _ _ _ _ _ | .removeFromTx _ _ _ _
  | .addThreadToTx _ _ | .removeThreadFromTx _ _ | .addToGlobalTxIgnore _ _ => .isFalse id

/-- A flush does not close the current snippet of a full array with one record in each
snippet. -/
def KeepsTable (tool : Tool) : ClientRequest → Prop
  | .access (.flush _ base size) => tool.exited = false →
      closesCurrent (flushRange tool base size) tool.pmem → ¬ OneEach tool.pmem
  | _ => True

instance (tool : Tool) : (request : ClientRequest) → Decidable (KeepsTable tool request)
  | .access (.flush _ _ _) => inferInstanceAs (Decidable (_ → _ → _))
  | .access (.store _ _ _ _ _) | .access .fence | .access (.registerMapping _ _) | .setClean _ _
  | .enterBlock | .access (.orderGuarantee _ _ _ _) | .access (.fenceMark _) | .access .epochBegin
  | .access (.epochEnd _) | .access (.newStrand _ _) | .removeMapping _ _ | .checkIsPmemMapping _ _
  | .writeStats | .startTx _ _ _ | .endTx _ _ _ | .addToTx _ _ _ _ _ | .removeFromTx _ _ _ _
  | .addThreadToTx _ _ | .removeThreadFromTx _ _ | .addToGlobalTxIgnore _ _ => .isTrue trivial

section Step

variable {tool : Tool} {request : ClientRequest}

/-- A request of such a run is one that the tracker serves. -/
theorem TableRequest.tracker (allowed : TableRequest tool request) : TrackerRequest request := by
  cases request with
  | access access =>
    cases access with
    | flush => exact trivial
    | _ => exact allowed
  | _ => exact allowed

/-- A request that is not a flush of a living process counts no further snippet. -/
theorem TableGrown.keeps {before after : PmemOps} (grown : TableGrown (fun _ => False) before after)
    (room : before.snippetInfoIndex < before.opts.maxArrayNum) :
    after.snippetInfoIndex < before.opts.maxArrayNum := by
  rw [grown.used]
  exact room

/-- Every request keeps the count and the options. -/
theorem serve_counted (allowed : TableRequest tool request) (counted : SnippetsCounted tool.pmem) :
    SnippetsCounted (tool.serve request).pmem ∧
      (tool.serve request).pmem.opts = tool.pmem.opts := by
  rcases serve_tracker tool allowed.tracker with ⟨_, context, addr, size, value, _, _, result⟩ |
    ⟨context, base, size, rfl, _, result⟩ | ⟨_, result⟩ | ⟨base, size, _, _, result⟩ | idle
  · refine ⟨?_, ?_⟩
    · rw [result]
      rcases trackStore_table addr size value context tool.pmem with
        grown | ⟨middle, store, grown, longer, widened⟩
      · exact grown.counted counted
      · have start : middle.current.startIndex = tool.pmem.current.startIndex := by
          rw [grown.current_eq id]
        have ordered : tool.pmem.current.startIndex ≤ tool.pmem.current.index :=
          counted.partitioned.layout.ordered tool.pmem.snippetInfoIndex (le_refl _)
        rw [widened]
        exact updatePmemStoresHeadMinandmax_counted store (grown.counted counted) (by omega)
    · rw [result]
      exact (trackStore_access addr size value context tool.pmem).opts
  · rw [result]
    exact ⟨(doFlush_counted counted context tool.strandId allowed).1,
      (doFlush_access base size context tool.strandId tool.pmem).opts⟩
  · obtain ⟨used, empty⟩ := doFence_table tool.pmem
    rw [result]
    exact ⟨counted_empty used empty, (doFence_access tool.pmem).opts⟩
  · have grown := setClean_grown base size tool.pmem
    rw [result]
    exact ⟨grown.counted counted, grown.opts⟩
  · have grown : TableGrown (fun _ => False) tool.pmem (tool.serve request).pmem :=
      TableGrown.same idle.same.opts idle.same.used idle.snippets
    exact ⟨grown.counted counted, grown.opts⟩

/-- A request leaves the current snippet in the table exactly under the condition. -/
theorem serve_keepsTable (allowed : TableRequest tool request) (counted : SnippetsCounted tool.pmem)
    (room : tool.pmem.snippetInfoIndex < tool.pmem.opts.maxArrayNum) :
    (tool.serve request).pmem.snippetInfoIndex < tool.pmem.opts.maxArrayNum ↔
      KeepsTable tool request := by
  rcases serve_tracker tool allowed.tracker with ⟨_, context, addr, size, value, rfl, _, result⟩ |
    ⟨context, base, size, rfl, present, result⟩ | ⟨rfl, result⟩ | ⟨base, size, rfl, _,
      result⟩ | idle
  · refine iff_of_true ?_ trivial
    rw [result]
    rcases trackStore_table addr size value context tool.pmem with
      grown | ⟨middle, store, grown, _, widened⟩
    · exact grown.keeps room
    · rw [widened]
      exact grown.keeps room
  · obtain ⟨_, number⟩ := doFlush_counted counted context tool.strandId allowed
    change _ ↔ (tool.exited = false → closesCurrent (flushInfo tool.pmem.opts
      tool.pmem.flushAlignSize base size) tool.pmem → ¬ OneEach tool.pmem)
    rw [result, number]
    by_cases closing : closesCurrent (flushInfo tool.pmem.opts tool.pmem.flushAlignSize base size)
        tool.pmem
    · have full := counted.full_iff (counted.inUse_of_closes allowed closing)
      rw [if_pos closing, ← full]
      constructor
      · intro stays _ _
        omega
      · intro notFull
        have := notFull present closing
        omega
    · rw [if_neg closing]
      exact iff_of_true room (fun _ closes => absurd closes closing)
  · refine iff_of_true ?_ trivial
    rw [result, (doFence_table tool.pmem).1]
    omega
  · refine iff_of_true ?_ trivial
    rw [result]
    exact (setClean_grown base size tool.pmem).keeps room
  · refine iff_of_true ?_ ?_
    · rw [idle.same.used]
      exact room
    · cases request with
      | access access =>
        cases access with
        | flush context base size =>
          intro present
          rw [idle.gone context base size rfl] at present
          cases present
        | _ => exact trivial
      | _ => exact trivial

end Step

end PmDebugger
