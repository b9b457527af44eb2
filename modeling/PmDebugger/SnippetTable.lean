import PmDebugger.Accesses
import PmDebugger.Insertions

/-!
# The snippet table

Stores, the pieces that flushes cut off and the pieces that `SET_CLEAN` leaves all go to the end
of the current snippet, also from inside a loop over another snippet. Only a flush tags a
snippet, and it opens a new one when it tagged the current one; a fence starts over. So the
snippets divide the used part of the array, whatever the ranges and the options are and however
full the array is, and the current one is never tagged.
-/

namespace PmDebugger

open PmemOps Runs

/-- At most the current snippet is longer, within the array, and at most the tags of these
snippets are changed. -/
structure TableGrown (tagged : Nat → Prop) (before after : PmemOps) : Prop where
  opts : after.opts = before.opts
  used : after.snippetInfoIndex = before.snippetInfoIndex
  starts : ∀ sIndex, (after.snippetInfo sIndex).startIndex = (before.snippetInfo sIndex).startIndex
  ends : ∀ sIndex, sIndex ≠ before.snippetInfoIndex →
    (after.snippetInfo sIndex).index = (before.snippetInfo sIndex).index
  tags : ∀ sIndex, ¬ tagged sIndex →
    (after.snippetInfo sIndex).flushedNum = (before.snippetInfo sIndex).flushedNum
  longer : before.current.index ≤ after.current.index
  fits : before.current.index ≤ before.opts.maxArrayNum →
    after.current.index ≤ before.opts.maxArrayNum
  boxes : ∀ sIndex, (after.snippetInfo sIndex).minAdd = (before.snippetInfo sIndex).minAdd ∧
    (after.snippetInfo sIndex).maxAdd = (before.snippetInfo sIndex).maxAdd

namespace TableGrown

variable {tagged : Nat → Prop} {before middle after : PmemOps}

/-- The table is as it was. -/
theorem same (opts : after.opts = before.opts)
    (used : after.snippetInfoIndex = before.snippetInfoIndex)
    (snippets : after.snippetInfo = before.snippetInfo) : TableGrown tagged before after := by
  have current : after.current = before.current := by
    unfold PmemOps.current
    rw [used, snippets]
  constructor
  · exact opts
  · exact used
  · simp only [snippets, implies_true]
  · simp only [snippets, implies_true]
  · simp only [snippets, implies_true]
  · simp only [current, le_refl]
  · simp only [current, imp_self]
  · simp only [snippets, and_self, implies_true]

/-- Nothing happens to the table. -/
theorem refl (pmem : PmemOps) : TableGrown tagged pmem pmem := same rfl rfl rfl

/-- A table that grows twice has grown, and a tag given by one of the steps is given by both. -/
theorem trans (first : TableGrown tagged before middle) (second : TableGrown tagged middle after) :
    TableGrown tagged before after := by
  constructor
  · exact second.opts.trans first.opts
  · exact second.used.trans first.used
  · intro sIndex
    rw [second.starts, first.starts]
  · intro sIndex differs
    rw [second.ends sIndex (by rw [first.used]; exact differs), first.ends sIndex differs]
  · intro sIndex untagged
    rw [second.tags sIndex untagged, first.tags sIndex untagged]
  · exact first.longer.trans second.longer
  · intro fits
    have middleFits := second.fits (by rw [first.opts]; exact first.fits fits)
    rwa [first.opts] at middleFits
  · intro sIndex
    obtain ⟨firstMin, firstMax⟩ := first.boxes sIndex
    obtain ⟨secondMin, secondMax⟩ := second.boxes sIndex
    exact ⟨secondMin.trans firstMin, secondMax.trans firstMax⟩

/-- To have tagged fewer snippets is to have tagged no more. -/
theorem mono {others : Nat → Prop} (weaker : ∀ sIndex, tagged sIndex → others sIndex)
    (grown : TableGrown tagged before after) : TableGrown others before after :=
  { grown with tags := fun sIndex untagged =>
      grown.tags sIndex (fun isTagged => untagged (weaker sIndex isTagged)) }

/-- A loop whose turns let the table grow lets it grow. -/
theorem foldl {ι : Type} {step : PmemOps → ι → PmemOps} (inputs : List ι) (pmem : PmemOps)
    (turn : ∀ state input, TableGrown tagged state (step state input)) :
    TableGrown tagged pmem (inputs.foldl step pmem) := by
  induction inputs generalizing pmem with
  | nil => exact refl pmem
  | cons input rest inductionHypothesis => exact (turn pmem input).trans (inductionHypothesis _)

/-- The snippets still divide the used part of the array. -/
theorem layout (grown : TableGrown tagged before after) (layout : Layout before) :
    Layout after := by
  have last : (before.snippetInfo before.snippetInfoIndex).index ≤
      (after.snippetInfo before.snippetInfoIndex).index := by
    have longer := grown.longer
    unfold current at longer
    rwa [grown.used] at longer
  constructor
  · rw [grown.starts]
    exact layout.first
  · intro sIndex below
    rw [grown.used] at below
    rw [grown.starts, grown.ends sIndex (by omega)]
    exact layout.chained sIndex below
  · intro sIndex used
    rw [grown.used] at used
    have ordered := layout.ordered sIndex used
    rw [grown.starts]
    by_cases isLast : sIndex = before.snippetInfoIndex
    · rw [isLast] at ordered ⊢
      exact ordered.trans last
    · rw [grown.ends sIndex isLast]
      exact ordered

/-- An untagged current snippet is the same but for its end. -/
theorem current_eq (grown : TableGrown tagged before after)
    (untagged : ¬ tagged before.snippetInfoIndex) :
    after.current = { before.current with index := after.current.index } := by
  have start := grown.starts before.snippetInfoIndex
  have tag := grown.tags before.snippetInfoIndex untagged
  obtain ⟨minAdd, maxAdd⟩ := grown.boxes before.snippetInfoIndex
  unfold current
  rw [grown.used]
  generalize after.snippetInfo before.snippetInfoIndex = last at *
  cases last
  simp only at start tag minAdd maxAdd
  rw [start, tag, minAdd, maxAdd]

/-- Every snippet still ends within the used part of the array. -/
theorem bounded (grown : TableGrown tagged before after) {sIndex : Nat}
    (bounded : (before.snippetInfo sIndex).index ≤ before.current.index) :
    (after.snippetInfo sIndex).index ≤ after.current.index := by
  by_cases isLast : sIndex = before.snippetInfoIndex
  · unfold current
    rw [isLast, grown.used]
  · rw [grown.ends sIndex isLast]
    exact bounded.trans grown.longer

end TableGrown

/-! ## Pieces at the end of the array -/

/-- The current snippet with one slot more. -/
theorem lengthen_current (pmem : PmemOps) : (pmem.setSnippet pmem.snippetInfoIndex
    { pmem.current with index := pmem.current.index + 1 }).current =
      { pmem.current with index := pmem.current.index + 1 } :=
  if_pos rfl

/-- The next free slot of the current snippet is taken into use. -/
theorem lengthen_grown {tagged : Nat → Prop} {pmem : PmemOps}
    (room : pmem.current.index < pmem.opts.maxArrayNum) :
    TableGrown tagged pmem (pmem.setSnippet pmem.snippetInfoIndex
      { pmem.current with index := pmem.current.index + 1 }) := by
  have currentIndex := congrArg ArrSnippet.index (lengthen_current pmem)
  generalize grew : pmem.setSnippet pmem.snippetInfoIndex
    { pmem.current with index := pmem.current.index + 1 } = after at *
  simp only at currentIndex
  have used : after.snippetInfoIndex = pmem.snippetInfoIndex := by rw [← grew]; rfl
  have opts : after.opts = pmem.opts := by rw [← grew]; rfl
  have snippets (sIndex : Nat) : after.snippetInfo sIndex =
      { pmem.snippetInfo sIndex with index := (after.snippetInfo sIndex).index } := by
    rw [← grew, setSnippet_snippetInfo]
    split
    · next isLast => rw [isLast]; rfl
    · rfl
  constructor
  · exact opts
  · exact used
  · intro sIndex
    rw [snippets]
  · intro sIndex differs
    rw [← grew, setSnippet_snippetInfo, if_neg differs]
  · intro sIndex _
    rw [snippets]
  · omega
  · omega
  · intro sIndex
    rw [snippets]
    exact ⟨rfl, rfl⟩

/-- A snippet gets another tag. -/
theorem retag_grown (sIndex : Nat) (tag : FlushedState) (pmem : PmemOps) :
    TableGrown (· = sIndex) pmem
        (pmem.setSnippet sIndex { pmem.snippetInfo sIndex with flushedNum := tag }) ∧
      (pmem.setSnippet sIndex { pmem.snippetInfo sIndex with flushedNum := tag }).current.index =
        pmem.current.index := by
  generalize retagged : pmem.setSnippet sIndex { pmem.snippetInfo sIndex with flushedNum := tag } =
    after
  have used : after.snippetInfoIndex = pmem.snippetInfoIndex := by rw [← retagged]; rfl
  have opts : after.opts = pmem.opts := by rw [← retagged]; rfl
  have snippets (tested : Nat) : after.snippetInfo tested =
      { pmem.snippetInfo tested with flushedNum := (after.snippetInfo tested).flushedNum } := by
    rw [← retagged, setSnippet_snippetInfo]
    split
    · next same => rw [same]
    · rfl
  have sameEnd : after.current.index = pmem.current.index := by
    rw [current, used, snippets]
    rfl
  refine ⟨⟨opts, used, ?_, ?_, ?_, sameEnd.ge, fun fits => sameEnd.trans_le fits, ?_⟩, sameEnd⟩
  · intro tested
    rw [snippets]
  · intro tested _
    rw [snippets]
  · intro tested differs
    rw [← retagged, setSnippet_snippetInfo, if_neg differs]
  · intro tested
    rw [snippets]
    exact ⟨rfl, rfl⟩

/-- Entering a record into the tree leaves the table alone. -/
theorem insertStore_grown {tagged : Nat → Prop} (store : PmemSt) (pmem : PmemOps) :
    TableGrown tagged pmem (pmem.insertStore store).1 := by
  rw [insertStore_frame]
  exact TableGrown.same rfl rfl rfl

/-- What a piece of this range does at the end of the array. New slots have its address and its
size, and older ones are not touched. -/
structure PieceTaken (addr size : Nat) (before after : PmemOps) : Prop where
  table : TableGrown (fun _ => False) before after
  slots : ∀ slot < before.current.index, after.slots slot = before.slots slot
  piece : ∀ slot, before.current.index ≤ slot → slot < after.current.index →
    (after.slots slot).addr = addr ∧ (after.slots slot).size = size

/-- The next free slot of the current snippet takes the piece. -/
theorem takeSlot_taken {pmem : PmemOps} (record : PmemSt)
    (room : pmem.current.index < pmem.opts.maxArrayNum) :
    PieceTaken record.addr record.size pmem ((pmem.setSlot pmem.current.index record).setSnippet
      pmem.snippetInfoIndex { pmem.current with index := pmem.current.index + 1 }) where
  table := by
    have written : TableGrown (fun _ => False) pmem (pmem.setSlot pmem.current.index record) :=
      TableGrown.same rfl rfl rfl
    exact written.trans (lengthen_grown room)
  slots := by
    intro slot inUse
    rw [setSnippet_slots, setSlot_slots, if_neg (by omega)]
  piece := by
    intro slot above below
    have sameEnd := lengthen_current (pmem.setSlot pmem.current.index record)
    have isNext : slot = pmem.current.index := by
      have below' := below.trans_eq (congrArg ArrSnippet.index sameEnd)
      change slot < pmem.current.index + 1 at below'
      omega
    rw [isNext, setSnippet_slots, setSlot_slots, if_pos rfl]
    exact ⟨rfl, rfl⟩

/-- The tree takes the piece. -/
theorem insertStore_taken {pmem : PmemOps} (store : PmemSt) (addr size dbIndex : Nat) :
    PieceTaken addr size pmem ({ pmem with dbPmemStoreIndex := dbIndex }.insertStore store).1 := by
  rw [insertStore_frame]
  refine ⟨TableGrown.same rfl rfl rfl, fun slot _ => rfl, fun slot above below => ?_⟩
  exact absurd (above.trans_lt below) (Nat.lt_irrefl _)

/-- A remainder takes the next slot, or goes into the tree when there is none. -/
theorem appendSplit_taken (split : PmemSt) (pmem : PmemOps) :
    PieceTaken split.addr split.size pmem (pmem.appendSplit split) := by
  simp only [appendSplit]
  split
  · next room => exact takeSlot_taken (pmemStCopy (pmem.slots pmem.current.index) split) room
  · exact insertStore_taken _ _ _ _

/-- The tail of a cleaned slot takes the next slot, or goes into the tree when there is none. -/
theorem appendUncleaned_taken (addr size : Nat) (pmem : PmemOps) :
    PieceTaken addr size pmem (pmem.appendUncleaned addr size) := by
  simp only [appendUncleaned]
  split
  · next room =>
    exact takeSlot_taken { pmem.slots pmem.current.index with addr := addr, size := size } room
  · exact insertStore_taken _ _ _ _

/-! ## Flushes -/

/-- The flush takes effect on an undeleted record, which is then marked or cut. -/
def hits (flush : PmemSt) (tag : FlushedState) (being : PmemSt) : Prop :=
  being.isDelete = false ∧ marks flush tag being

instance (flush : PmemSt) (tag : FlushedState) (being : PmemSt) :
    Decidable (hits flush tag being) :=
  inferInstanceAs (Decidable (_ ∧ _))

/-- The part before a range does not meet it, whatever wraps. -/
theorem frontSplit_clear {flush being : PmemSt} (before : being.addr < flush.addr) :
    cmpPmemSt flush (frontSplit flush being) ≠ .eq := by
  intro meets
  obtain ⟨_, bound⟩ := cmpPmemSt_eq_bounds meets
  unfold PmemSt.maxAddr frontSplit Word64.add Word64.sub at bound
  simp only [if_pos before.le] at bound
  split at bound <;> omega

/-- The part behind a range does not meet it, whatever wraps. -/
theorem backSplit_clear (flush being : PmemSt) :
    cmpPmemSt flush (backSplit flush being) ≠ .eq := by
  intro meets
  obtain ⟨bound, _⟩ := cmpPmemSt_eq_bounds meets
  exact Nat.lt_irrefl _ bound

/-- What a flush does at one slot: the other slots in use stay, and what is appended is clear of
the flushed range. -/
structure SlotPassed (flush : PmemSt) (sIndex index : Nat) (before after : PmemOps) : Prop where
  table : TableGrown (· = sIndex) before after
  slots : ∀ slot < before.current.index, slot ≠ index → after.slots slot = before.slots slot
  pieces : ∀ slot, before.current.index ≤ slot → slot < after.current.index →
    cmpPmemSt flush (after.slots slot) ≠ .eq

section Slot

variable {flush : PmemSt} {sIndex index : Nat} {before middle after pmem : PmemOps}

/-- The loop may pass a slot in two steps. The slot is in use, so that no appended piece can be
mistaken for it. -/
theorem SlotPassed.trans (inUse : index < before.current.index)
    (first : SlotPassed flush sIndex index before middle)
    (second : SlotPassed flush sIndex index middle after) :
    SlotPassed flush sIndex index before after := by
  have longer := first.table.longer
  constructor
  · exact first.table.trans second.table
  · intro slot below differs
    rw [second.slots slot (by omega) differs, first.slots slot below differs]
  · intro slot above below
    by_cases old : slot < middle.current.index
    · rw [second.slots slot old (by omega)]
      exact first.pieces slot above old
    · exact second.pieces slot (by omega) below

/-- Only the slot and what is not part of the array are changed. -/
theorem SlotPassed.same (opts : after.opts = pmem.opts)
    (used : after.snippetInfoIndex = pmem.snippetInfoIndex)
    (snippets : after.snippetInfo = pmem.snippetInfo)
    (slots : ∀ slot, slot ≠ index → after.slots slot = pmem.slots slot) :
    SlotPassed flush sIndex index pmem after := by
  refine ⟨TableGrown.same opts used snippets, fun slot _ differs => slots slot differs, ?_⟩
  intro slot above below
  unfold current at above below
  rw [used, snippets] at below
  omega

/-- A slot is shortened, and the piece cut off it is clear of the flushed range. -/
theorem appendSplit_slotPassed (kept : PmemSt) {split : PmemSt}
    (clear : cmpPmemSt flush split ≠ .eq) :
    SlotPassed flush sIndex index pmem ((pmem.setSlot index kept).appendSplit split) := by
  have taken := appendSplit_taken split (pmem.setSlot index kept)
  generalize (pmem.setSlot index kept).appendSplit split = after at *
  have table : TableGrown (· = sIndex) pmem (pmem.setSlot index kept) := TableGrown.same rfl rfl rfl
  refine ⟨table.trans (taken.table.mono (fun _ => False.elim)), ?_, ?_⟩
  · intro slot below differs
    rw [taken.slots slot below, setSlot_slots, if_neg differs]
  · intro slot above below
    obtain ⟨addr, size⟩ := taken.piece slot above below
    have sameRange : cmpPmemSt flush (after.slots slot) = cmpPmemSt flush split := by
      unfold cmpPmemSt PmemSt.maxAddr
      rw [addr, size]
    rw [sameRange]
    exact clear

/-- Cutting the front off a slot passes it. -/
theorem splitFront_slotPassed (flush : PmemSt) (sIndex index : Nat) (pmem : PmemOps) :
    SlotPassed flush sIndex index pmem (pmem.splitFront flush index) := by
  simp only [splitFront]
  split
  · next before => exact appendSplit_slotPassed _ (frontSplit_clear before)
  · exact SlotPassed.same rfl rfl rfl (fun _ _ => rfl)

/-- Cutting the back off a slot passes it. -/
theorem splitBack_slotPassed (flush : PmemSt) (sIndex index : Nat) (pmem : PmemOps) :
    SlotPassed flush sIndex index pmem (pmem.splitBack flush index) := by
  simp only [splitBack]
  split
  · exact appendSplit_slotPassed _ (backSplit_clear flush _)
  · exact SlotPassed.same rfl rfl rfl (fun _ _ => rfl)

/-- Cutting the parts off a slot tags nothing. -/
theorem split_tags (flush : PmemSt) (index : Nat) (pmem : PmemOps) (tested : Nat) :
    (((pmem.splitFront flush index).splitBack flush index).snippetInfo tested).flushedNum =
      (pmem.snippetInfo tested).flushedNum := by
  have front := (splitFront_slotPassed flush (tested + 1) index pmem).table.tags tested (by omega)
  have back := (splitBack_slotPassed flush (tested + 1) index
    (pmem.splitFront flush index)).table.tags tested (by omega)
  exact back.trans front

/-- Marking a slot tags its snippet and passes it. -/
theorem markSlot_slotPassed (flush : PmemSt) (sIndex index : Nat) (pmem : PmemOps) :
    SlotPassed flush sIndex index pmem (pmem.markSlot sIndex index) := by
  have written : TableGrown (· = sIndex) pmem
      (pmem.setSlot index { pmem.slots index with state := .flushed }) :=
    TableGrown.same rfl rfl rfl
  obtain ⟨tagged, sameEnd⟩ := retag_grown sIndex .partFlushed
    (pmem.setSlot index { pmem.slots index with state := .flushed })
  refine ⟨written.trans tagged, fun slot _ differs => if_neg differs, ?_⟩
  intro slot above below
  exact absurd (above.trans_lt (below.trans_eq sameEnd)) (Nat.lt_irrefl _)

/-- The body of the inner loop: its effect on the array, on the slot itself where the flush does
not meet it, and on the tag of the snippet. -/
theorem flushSlot_slotPassed (flush : PmemSt) (sIndex : Nat) (valid : Bool)
    (inUse : index < pmem.current.index) :
    SlotPassed flush sIndex index pmem (pmem.flushSlot flush sIndex index valid).1 ∧
      (cmpPmemSt flush (pmem.slots index) ≠ .eq →
        cmpPmemSt flush ((pmem.flushSlot flush sIndex index valid).1.slots index) ≠ .eq) ∧
      ((pmem.flushSlot flush sIndex index valid).1.snippetInfo sIndex).flushedNum =
        if hits flush (pmem.snippetInfo sIndex).flushedNum (pmem.slots index) then .partFlushed
        else (pmem.snippetInfo sIndex).flushedNum := by
  simp only [flushSlot]
  split
  · next deleted =>
    have missed : ¬ hits flush (pmem.snippetInfo sIndex).flushedNum (pmem.slots index) := by
      intro hit
      rw [hit.1] at deleted
      cases deleted
    refine ⟨SlotPassed.same rfl rfl rfl (fun slot differs => if_neg differs), ?_, ?_⟩
    · intro clear
      rw [setSlot_slots, if_pos rfl]
      exact clear
    · rw [if_neg missed]
      rfl
  · next visible =>
    split
    · next clear =>
      refine ⟨SlotPassed.same rfl rfl rfl (fun _ _ => rfl), id, ?_⟩
      rw [if_neg (fun hit => clear hit.2.1)]
    · next meets =>
      rw [not_not] at meets
      split
      · next done =>
        rw [warnRedundantFlush_frame]
        refine ⟨SlotPassed.same rfl rfl rfl (fun _ _ => rfl), id, ?_⟩
        rw [if_neg]
        rintro ⟨_, _, pending, dirty⟩
        tauto
      · next pending =>
        rw [not_or, not_not] at pending
        have hit : hits flush (pmem.snippetInfo sIndex).flushedNum (pmem.slots index) :=
          ⟨by simpa using visible, meets, pending⟩
        refine ⟨?_, fun clear => absurd meets clear, ?_⟩
        · have marked := markSlot_slotPassed flush sIndex index pmem
          have front := splitFront_slotPassed flush sIndex index (pmem.markSlot sIndex index)
          have longer := marked.table.longer
          exact marked.trans inUse (front.trans (by omega)
            (splitBack_slotPassed flush sIndex index _))
        · rw [split_tags, if_pos hit]
          exact congrArg ArrSnippet.flushedNum (if_pos rfl)

end Slot

/-- What a flush does to the array behind the slots it has passed: the tags of these snippets
may change, the slots in use from the bound on stay, and what is appended is clear of the flushed
range. -/
structure ArrayPassed (flush : PmemSt) (bound : Nat) (tagged : Nat → Prop)
    (before after : PmemOps) : Prop where
  table : TableGrown tagged before after
  slots : ∀ slot, bound ≤ slot → slot < before.current.index → after.slots slot = before.slots slot
  pieces : ∀ slot, before.current.index ≤ slot → slot < after.current.index →
    cmpPmemSt flush (after.slots slot) ≠ .eq

section Loop

variable {flush : PmemSt} {sIndex bound : Nat} {tagged : Nat → Prop}
  {before middle after pmem : PmemOps}

/-- Nothing is passed, and nothing has changed. -/
theorem ArrayPassed.refl (pmem : PmemOps) : ArrayPassed flush bound tagged pmem pmem :=
  ⟨TableGrown.refl pmem, fun _ _ _ => rfl,
    fun _ above below => absurd (above.trans_lt below) (Nat.lt_irrefl _)⟩

/-- The loop may pass the array in two steps. -/
theorem ArrayPassed.trans (inUse : bound ≤ before.current.index)
    (first : ArrayPassed flush bound tagged before middle)
    (second : ArrayPassed flush bound tagged middle after) :
    ArrayPassed flush bound tagged before after := by
  have longer := first.table.longer
  constructor
  · exact first.table.trans second.table
  · intro slot above below
    rw [second.slots slot above (by omega), first.slots slot above below]
  · intro slot above below
    by_cases old : slot < middle.current.index
    · rw [second.slots slot (by omega) old]
      exact first.pieces slot above old
    · exact second.pieces slot (by omega) below

/-- The tagged snippets may be named more generously. -/
theorem ArrayPassed.mono {others : Nat → Prop} (weaker : ∀ sIndex, tagged sIndex → others sIndex)
    (passed : ArrayPassed flush bound tagged before after) :
    ArrayPassed flush bound others before after :=
  { passed with table := passed.table.mono weaker }

/-- The inner loop in a snippet that is not the current one. -/
theorem flushSlots_passed (earlier : sIndex ≠ pmem.snippetInfoIndex)
    (ended : (pmem.snippetInfo sIndex).index ≤ bound) (inUse : bound ≤ pmem.current.index)
    (fuel index : Nat) (valid : Bool) :
    ArrayPassed flush bound (· = sIndex) pmem
      (flushSlots flush sIndex fuel index pmem valid).1 := by
  induction fuel generalizing index pmem valid with
  | zero => exact ArrayPassed.refl pmem
  | succ fuel inductionHypothesis =>
    simp only [flushSlots]
    split
    · next below =>
      obtain ⟨passed, _, _⟩ := flushSlot_slotPassed flush sIndex valid
        (show index < pmem.current.index by omega)
      have first : ArrayPassed flush bound (· = sIndex) pmem
          (pmem.flushSlot flush sIndex index valid).1 :=
        ⟨passed.table, fun slot above inArray =>
          passed.slots slot inArray (by omega), passed.pieces⟩
      have longer := passed.table.longer
      refine first.trans inUse (inductionHypothesis ?_ ?_ (by omega) _ _)
      · rw [passed.table.used]
        exact earlier
      · rw [passed.table.ends sIndex earlier]
        exact ended
    · exact ArrayPassed.refl pmem

/-- The loop over a snippet that is not the current one. -/
theorem flushSnippet_passed (earlier : sIndex ≠ pmem.snippetInfoIndex)
    (ended : (pmem.snippetInfo sIndex).index ≤ bound) (inUse : bound ≤ pmem.current.index)
    (valid : Bool) :
    ArrayPassed flush bound (· = sIndex) pmem (flushSnippet flush (pmem, valid) sIndex).1 := by
  simp only [flushSnippet]
  split
  · obtain ⟨tagged, sameEnd⟩ := retag_grown sIndex .allFlushed pmem
    refine ⟨tagged, fun _ _ _ => rfl, fun slot above below => ?_⟩
    exact absurd (above.trans_lt (below.trans_eq sameEnd)) (Nat.lt_irrefl _)
  · split
    · exact ArrayPassed.refl pmem
    · exact flushSlots_passed earlier ended inUse _ _ _

/-- The loop over the snippets before the current one. -/
theorem flushEarlier_passed (layout : Layout pmem) (count : Nat)
    (earlier : count ≤ pmem.snippetInfoIndex) :
    ArrayPassed flush pmem.current.startIndex (· < pmem.snippetInfoIndex) pmem
      ((List.range count).foldl (flushSnippet flush) (pmem, false)).1 := by
  have start : pmem.current.startIndex ≤ pmem.current.index :=
    layout.ordered pmem.snippetInfoIndex (Nat.le_refl _)
  induction count with
  | zero => exact ArrayPassed.refl pmem
  | succ count inductionHypothesis =>
    have first := inductionHypothesis (by omega)
    rw [List.range_succ, List.foldl_append, List.foldl_cons, List.foldl_nil]
    generalize (List.range count).foldl (flushSnippet flush) (pmem, false) = state at *
    have longer := first.table.longer
    have differs : count ≠ state.1.snippetInfoIndex := by
      rw [first.table.used]
      omega
    have ended : (state.1.snippetInfo count).index ≤ pmem.current.startIndex := by
      rw [first.table.ends count (by omega)]
      exact layout.apart (by omega) (Nat.le_refl _)
    refine first.trans start ((flushSnippet_passed differs ended (by omega) state.2).mono ?_)
    rintro tested rfl
    omega

end Loop

/-- A flush tags the current snippet as a whole, or it reaches the snippet and takes effect on one
of its records. -/
def closesCurrent (flush : PmemSt) (pmem : PmemOps) : Prop :=
  tagsSnippet flush pmem.current ∨ ¬ skipsSnippet flush pmem.current ∧
    ∃ slot ∈ slotRange pmem.current, hits flush pmem.current.flushedNum (pmem.slots slot)

instance (flush : PmemSt) (pmem : PmemOps) : Decidable (closesCurrent flush pmem) :=
  inferInstanceAs (Decidable (_ ∨ _ ∧ _))

section Current

variable {flush : PmemSt} {pmem : PmemOps}

/-- The inner loop in the current snippet. The slots from the limit on, which are the pieces
appended by this flush, are clear of the range; the loop tags the snippet exactly when it takes
effect on one of the others that it has not passed yet. -/
theorem flushSlots_current {limit : Nat} (fuel index : Nat) (valid : Bool)
    (reached : limit ≤ index + fuel) (inUse : limit ≤ pmem.current.index)
    (pieces : ∀ slot, limit ≤ slot → slot < pmem.current.index →
      cmpPmemSt flush (pmem.slots slot) ≠ .eq)
    (pending : pmem.current.flushedNum ≠ .allFlushed) :
    TableGrown (· = pmem.snippetInfoIndex) pmem
        (flushSlots flush pmem.snippetInfoIndex fuel index pmem valid).1 ∧
      ((flushSlots flush pmem.snippetInfoIndex fuel index pmem valid).1.current.flushedNum ≠
          .noFlushed ↔
        pmem.current.flushedNum ≠ .noFlushed ∨
          ∃ slot, index ≤ slot ∧ slot < limit ∧ hits flush .noFlushed (pmem.slots slot)) := by
  induction fuel generalizing index pmem valid with
  | zero =>
    refine ⟨TableGrown.refl pmem, (or_iff_left ?_).symm⟩
    rintro ⟨slot, above, below, _⟩
    omega
  | succ fuel inductionHypothesis =>
    have anyTag (being : PmemSt) : hits flush pmem.current.flushedNum being ↔
        hits flush .noFlushed being := by
      simp only [hits, marks, ne_eq, pending, not_false_eq_true, true_and, reduceCtorEq]
    simp only [flushSlots]
    split
    · next below =>
      obtain ⟨passed, stays, tag⟩ := flushSlot_slotPassed flush pmem.snippetInfoIndex valid below
      change _ = if hits flush pmem.current.flushedNum (pmem.slots index) then _
        else pmem.current.flushedNum at tag
      simp only [anyTag] at tag
      generalize pmem.flushSlot flush pmem.snippetInfoIndex index valid = next at *
      have used := passed.table.used
      have nextTag : next.1.current.flushedNum =
          if hits flush .noFlushed (pmem.slots index) then .partFlushed
          else pmem.current.flushedNum := by
        rw [← tag, ← used]
        rfl
      have longer := passed.table.longer
      obtain ⟨grown, tagged⟩ := @inductionHypothesis next.1 (index + 1) next.2 (by omega)
        (by omega) (by
          intro slot above inArray
          by_cases new : pmem.current.index ≤ slot
          · exact passed.pieces slot new inArray
          · have clear := pieces slot above (by omega)
            by_cases same : slot = index
            · rw [same] at clear ⊢
              exact stays clear
            · rw [passed.slots slot (by omega) same]
              exact clear)
        (by
          rw [nextTag]
          split
          · simp
          · exact pending)
      rw [used] at grown tagged
      refine ⟨passed.table.trans grown, tagged.trans ?_⟩
      rw [nextTag]
      -- The slots behind this one are as they were.
      have later : (∃ slot, index + 1 ≤ slot ∧ slot < limit ∧
            hits flush .noFlushed (next.1.slots slot)) ↔
          ∃ slot, index + 1 ≤ slot ∧ slot < limit ∧ hits flush .noFlushed (pmem.slots slot) := by
        apply exists_congr
        intro slot
        apply and_congr_right
        intro above
        apply and_congr_right
        intro inLimit
        rw [passed.slots slot (by omega) (by omega)]
      rw [later]
      constructor
      · rintro (already | ⟨slot, above, inLimit, hit⟩)
        · split at already
          · next hit =>
            refine .inr ⟨index, le_refl _, ?_, hit⟩
            by_contra beyond
            exact pieces index (by omega) below hit.2.1
          · exact .inl already
        · exact .inr ⟨slot, by omega, inLimit, hit⟩
      · rintro (already | ⟨slot, above, inLimit, hit⟩)
        · left
          split
          · simp
          · exact already
        · by_cases same : slot = index
          · rw [same] at hit
            simp [hit]
          · exact .inr ⟨slot, by omega, inLimit, hit⟩
    · next done =>
      refine ⟨TableGrown.refl pmem, (or_iff_left ?_).symm⟩
      rintro ⟨slot, above, inLimit, _⟩
      have : pmem.current.index ≤ index := Nat.not_lt.mp done
      omega

/-- The loop over all snippets lets the table grow, and it tags the current snippet exactly when
the flush closes it. -/
theorem flushArray_table (layout : Layout pmem) (opened : pmem.current.flushedNum = .noFlushed) :
    TableGrown (fun _ => True) pmem (flushArray flush pmem).1 ∧
      ((flushArray flush pmem).1.current.flushedNum ≠ .noFlushed ↔ closesCurrent flush pmem) := by
  have passed := @flushEarlier_passed flush pmem layout pmem.snippetInfoIndex (Nat.le_refl _)
  have start : pmem.current.startIndex ≤ pmem.current.index :=
    layout.ordered pmem.snippetInfoIndex (Nat.le_refl _)
  unfold flushArray
  rw [List.range_succ, List.foldl_append, List.foldl_cons, List.foldl_nil]
  generalize (List.range pmem.snippetInfoIndex).foldl (flushSnippet flush) (pmem, false) =
    state at *
  obtain ⟨middle, valid⟩ := state
  simp only at passed
  have used := passed.table.used
  have longer := passed.table.longer
  have begun : TableGrown (fun _ => True) pmem middle := passed.table.mono (fun _ _ => trivial)
  have isCurrent : middle.snippetInfo pmem.snippetInfoIndex = middle.current := by
    rw [← used]
    rfl
  have same := passed.table.current_eq (Nat.lt_irrefl _)
  have startAfter : middle.current.startIndex = pmem.current.startIndex := by rw [same]
  have tag : middle.current.flushedNum = .noFlushed := by
    rw [same]
    exact opened
  have tags : tagsSnippet flush middle.current ↔ tagsSnippet flush pmem.current := by
    rw [same]
    exact Iff.rfl
  have skips : skipsSnippet flush middle.current ↔ skipsSnippet flush pmem.current := by
    rw [same]
    exact Iff.rfl
  simp only [flushSnippet, isCurrent]
  split
  · next whole =>
    obtain ⟨grown, _⟩ := retag_grown pmem.snippetInfoIndex .allFlushed middle
    rw [isCurrent] at grown
    refine ⟨begun.trans (grown.mono (fun _ _ => trivial)), iff_of_true ?_ (.inl (tags.mp whole))⟩
    have tagged : (middle.setSnippet pmem.snippetInfoIndex { middle.current with
        flushedNum := .allFlushed }).current.flushedNum = .allFlushed :=
      congrArg ArrSnippet.flushedNum (if_pos used)
    rw [tagged]
    simp
  · next notWhole =>
    rw [tags] at notWhole
    split
    · next outside =>
      refine ⟨begun, iff_of_false ?_ ?_⟩
      · exact not_not.mpr tag
      · rintro (whole | ⟨reached, _⟩)
        · exact notWhole whole
        · exact reached (skips.mp outside)
    · next reached =>
      have pending : middle.current.flushedNum ≠ .allFlushed := by
        rw [tag]
        simp
      obtain ⟨grown, tagged⟩ := @flushSlots_current flush middle pmem.current.index
        (3 * (middle.current.index - middle.current.startIndex) + 1) middle.current.startIndex valid
        (by omega) longer passed.pieces pending
      rw [used] at grown tagged
      refine ⟨begun.trans (grown.mono (fun _ _ => trivial)), tagged.trans ?_⟩
      rw [or_iff_right (not_not.mpr tag)]
      unfold closesCurrent
      rw [or_iff_right notWhole, and_iff_right (fun outside => reached (skips.mpr outside)), opened]
      apply exists_congr
      intro slot
      have inCurrent : slot ∈ slotRange pmem.current ↔
          pmem.current.startIndex ≤ slot ∧ slot < pmem.current.index := mem_slotRange
      rw [inCurrent, startAfter, and_assoc]
      apply and_congr_right
      intro above
      apply and_congr_right
      intro below
      rw [passed.slots slot above below]

end Current

/-- `do_flush` lets the table grow and then opens a new snippet if it closes the current one. -/
theorem doFlush_table {pmem : PmemOps} (layout : Layout pmem)
    (opened : pmem.current.flushedNum = .noFlushed) (base size : Nat) (context : Option ExeContext)
    (strandId : Nat) :
    ∃ middle, TableGrown (fun _ => True) pmem middle ∧
      (middle.current.flushedNum ≠ .noFlushed ↔
        closesCurrent (flushInfo pmem.opts pmem.flushAlignSize base size) pmem) ∧
      pmem.doFlush base size context strandId = middle.closeSnippet := by
  simp only [doFlush]
  rw [checkStrandOrder_frame]
  generalize flushInfo pmem.opts pmem.flushAlignSize base size = flush
  generalize (pmem.checkStrandOrder flush strandId).lackOrderingTrandReg = register
  have checked : TableGrown (fun _ => True) pmem { pmem with lackOrderingTrandReg := register } :=
    TableGrown.same rfl rfl rfl
  obtain ⟨array, closed⟩ := @flushArray_table flush { pmem with lackOrderingTrandReg := register }
    (checked.layout layout) opened
  generalize flushArray flush { pmem with lackOrderingTrandReg := register } = flushed at *
  obtain ⟨opts, _, snippets, used⟩ := flushStores_sameArray flush flushed.1 flushed.2
  have tree : TableGrown (fun _ => True) flushed.1 (flushed.1.flushStores flush flushed.2).1 :=
    TableGrown.same opts used snippets
  have treeTag : (flushed.1.flushStores flush flushed.2).1.current = flushed.1.current := by
    unfold current
    rw [snippets, used]
  generalize flushed.1.flushStores flush flushed.2 = stores at *
  refine ⟨_, ?_, ?_, rfl⟩
  · rw [warnSuperfluousFlush_frame]
    exact (checked.trans array).trans (tree.trans (TableGrown.same rfl rfl rfl))
  · rw [warnSuperfluousFlush_frame]
    change stores.1.current.flushedNum ≠ _ ↔ _
    rw [treeTag]
    exact closed

/-! ## Requests to clear a range -/

/-- To clean a slot may append one piece and tags no snippet. -/
theorem cleanSlot_grown (region : PmemSt) (index : Nat) (pmem : PmemOps) :
    TableGrown (fun _ => False) pmem (pmem.cleanSlot region index) := by
  have written (record : PmemSt) : TableGrown (fun _ => False) pmem (pmem.setSlot index record) :=
    TableGrown.same rfl rfl rfl
  simp only [cleanSlot]
  split
  · exact TableGrown.refl pmem
  · split
    · exact written _
    · split
      · exact (written _).trans (appendUncleaned_taken _ _ _).table
      · split
        · exact written _
        · split
          · exact written _
          · exact written _

/-- The loop over the slots of a snippet, by induction on its fuel. -/
theorem cleanSlots_grown (region : PmemSt) (sIndex fuel index : Nat) (pmem : PmemOps) :
    TableGrown (fun _ => False) pmem (cleanSlots region sIndex fuel index pmem) := by
  induction fuel generalizing index pmem with
  | zero => exact TableGrown.refl pmem
  | succ fuel inductionHypothesis =>
    simp only [cleanSlots]
    split
    · exact (cleanSlot_grown region index pmem).trans (inductionHypothesis _ _)
    · exact TableGrown.refl pmem

/-- `SET_CLEAN` at most lengthens the current snippet. -/
theorem setClean_grown (base size : Nat) (pmem : PmemOps) :
    TableGrown (fun _ => False) pmem (pmem.setClean base size) := by
  have turn (state : PmemOps) (sIndex : Nat) :
      TableGrown (fun _ => False) state (state.cleanSnippet (PmemSt.range base size) sIndex) := by
    simp only [cleanSnippet]
    split
    · exact TableGrown.refl state
    · exact cleanSlots_grown _ _ _ _ _
  simp only [setClean]
  exact (TableGrown.foldl (List.range (pmem.snippetInfoIndex + 1)) pmem turn).trans
    (TableGrown.same rfl rfl rfl)

/-! ## Stores and fences -/

/-- The table of another state, entry for entry. The slots and the tree may differ. -/
def SameTable (before after : PmemOps) : Prop :=
  after.opts = before.opts ∧ after.snippetInfoIndex = before.snippetInfoIndex ∧
    after.snippetInfo = before.snippetInfo

/-- Two steps that leave the table leave it together. -/
theorem SameTable.trans {before middle after : PmemOps} (first : SameTable before middle)
    (second : SameTable middle after) : SameTable before after :=
  ⟨second.1.trans first.1, second.2.1.trans first.2.1, second.2.2.trans first.2.2⟩

/-- The check for overwritten stores deletes slots in place, and the table stays. -/
theorem handleWithMultStores_table (store : PmemSt) (pmem : PmemOps) :
    SameTable pmem (pmem.handleWithMultStores store) := by
  have slot (state : PmemOps) (index : Nat) :
      SameTable state (state.overwriteSlot store index) := by
    rw [(overwriteSlot_frame store state index).1]
    exact ⟨rfl, rfl, rfl⟩
  have snippet (state : PmemOps) (sIndex : Nat) :
      SameTable state (state.overwriteSnippet store sIndex) := by
    simp only [overwriteSnippet]
    split
    · exact ⟨rfl, rfl, rfl⟩
    · exact List.foldlRecOn (motive := SameTable state) _ _ ⟨rfl, rfl, rfl⟩
        (fun later same index _ => same.trans (slot later index))
  have array : SameTable pmem
      ((List.range (pmem.snippetInfoIndex + 1)).foldl (overwriteSnippet store) pmem) :=
    List.foldlRecOn (motive := SameTable pmem) _ _ ⟨rfl, rfl, rfl⟩
      (fun later same sIndex _ => same.trans (snippet later sIndex))
  simp only [handleWithMultStores]
  split
  · exact array
  · apply array.trans
    rw [overwriteTree_frame]
    exact ⟨rfl, rfl, rfl⟩

/-- With or without `--mult-stores`, the check leaves the table. -/
theorem checkStore_table (store : PmemSt) (pmem : PmemOps) :
    SameTable pmem (pmem.checkStore store) := by
  have overwritten : SameTable pmem
      (if pmem.opts.trackMultipleStores then pmem.handleWithMultStores store else pmem) := by
    split
    · exact handleWithMultStores_table store pmem
    · exact ⟨rfl, rfl, rfl⟩
  simp only [checkStore]
  split
  · exact overwritten.trans ⟨rfl, rfl, rfl⟩
  · exact overwritten

/-- A store lengthens the current snippet by one slot and widens its box, or the array is full
and the table stays. -/
theorem trackStore_table (addr size value : Nat) (context : Option ExeContext) (pmem : PmemOps) :
    TableGrown (fun _ => False) pmem (pmem.trackStore addr size value context).1 ∨
      ∃ middle store, TableGrown (fun _ => False) pmem middle ∧
        pmem.current.index < middle.current.index ∧
        (pmem.trackStore addr size value context).1 =
          middle.updatePmemStoresHeadMinandmax store := by
  simp only [trackStore]
  split
  · next room =>
    right
    generalize pmem.writeStore addr size value context (pmem.slots pmem.current.index) = store
    obtain ⟨opts, used, snippets⟩ := checkStore_table store (pmem.setSlot pmem.current.index store)
    generalize (pmem.setSlot pmem.current.index store).checkStore store = middle at *
    have checked : TableGrown (fun _ => False) pmem middle := TableGrown.same opts used snippets
    have handled : middle.current = pmem.current := by
      unfold current
      rw [used, snippets]
      rfl
    have roomAfter : middle.current.index < middle.opts.maxArrayNum := by
      rw [handled, checked.opts]
      exact room
    refine ⟨_, store, checked.trans (lengthen_grown roomAfter), ?_, rfl⟩
    rw [lengthen_current, handled]
    exact Nat.lt_succ_self _
  · left
    generalize pmem.writeStore addr size value context
      { PmemSt.zero with index := pmem.dbPmemStoreIndex } = store
    obtain ⟨opts, used, snippets⟩ := checkStore_table store
      { pmem with dbPmemStoreIndex := pmem.dbPmemStoreIndex + 1 }
    have checked : TableGrown (fun _ => False) pmem ({ pmem with
        dbPmemStoreIndex := pmem.dbPmemStoreIndex + 1 }.checkStore store) :=
      TableGrown.same opts used snippets
    apply checked.trans
    apply (insertStore_grown _ _).trans
    exact TableGrown.same rfl rfl rfl

/-- A fence leaves one empty snippet. -/
theorem doFence_table (pmem : PmemOps) : pmem.doFence.snippetInfoIndex = 0 ∧
    pmem.doFence.snippetInfo 0 = emptySnippet 0 := by
  simp only [doFence]
  split <;> exact ⟨rfl, rfl⟩

/-! ## The partition of the array -/

/-- The snippets divide the used part of the array, which fits, and the current one is not
tagged. -/
structure Partitioned (pmem : PmemOps) : Prop where
  layout : Layout pmem
  fits : pmem.current.index ≤ pmem.opts.maxArrayNum
  opened : pmem.current.flushedNum = .noFlushed

section Partition

variable {before after pmem : PmemOps}

/-- Every slot in use belongs to a snippet. -/
theorem Layout.covered (layout : Layout pmem) {slot : Nat} (inUse : slot < pmem.current.index) :
    ∃ sIndex ≤ pmem.snippetInfoIndex, InSnippet pmem sIndex slot := by
  have upTo (last : Nat) (used : last ≤ pmem.snippetInfoIndex)
      (below : slot < (pmem.snippetInfo last).index) :
      ∃ sIndex ≤ last, InSnippet pmem sIndex slot := by
    induction last with
    | zero => exact ⟨0, le_refl _, by rw [layout.first]; exact Nat.zero_le _, below⟩
    | succ last inductionHypothesis =>
      by_cases inLast : (pmem.snippetInfo (last + 1)).startIndex ≤ slot
      · exact ⟨last + 1, le_refl _, inLast, below⟩
      · rw [layout.chained last (by omega)] at inLast
        obtain ⟨sIndex, earlier, inside⟩ := inductionHypothesis (by omega) (by omega)
        exact ⟨sIndex, by omega, inside⟩
  exact upTo pmem.snippetInfoIndex (le_refl _) inUse

/-- Growth that does not tag the current snippet keeps the partition. -/
theorem TableGrown.partitioned (grown : TableGrown (fun _ => False) before after)
    (partitioned : Partitioned before) : Partitioned after := by
  refine ⟨grown.layout partitioned.layout, ?_, ?_⟩
  · rw [grown.opts]
    exact grown.fits partitioned.fits
  · rw [grown.current_eq id]
    exact partitioned.opened

/-- The box of the current snippet is no part of the partition. -/
theorem updatePmemStoresHeadMinandmax_partitioned (store : PmemSt)
    (partitioned : Partitioned pmem) :
    Partitioned (pmem.updatePmemStoresHeadMinandmax store) := by
  have snippets (sIndex : Nat) :
      ((pmem.updatePmemStoresHeadMinandmax store).snippetInfo sIndex).startIndex =
          (pmem.snippetInfo sIndex).startIndex ∧
        ((pmem.updatePmemStoresHeadMinandmax store).snippetInfo sIndex).index =
          (pmem.snippetInfo sIndex).index ∧
        ((pmem.updatePmemStoresHeadMinandmax store).snippetInfo sIndex).flushedNum =
          (pmem.snippetInfo sIndex).flushedNum := by
    simp only [updatePmemStoresHeadMinandmax, setSnippet_snippetInfo]
    split
    · next isLast => rw [isLast]; exact ⟨rfl, rfl, rfl⟩
    · exact ⟨rfl, rfl, rfl⟩
  obtain ⟨_, lastEnd, lastTag⟩ := snippets pmem.snippetInfoIndex
  refine ⟨⟨?_, ?_, ?_⟩, ?_, ?_⟩
  · rw [(snippets 0).1]
    exact partitioned.layout.first
  · intro sIndex below
    rw [(snippets (sIndex + 1)).1, (snippets sIndex).2.1]
    exact partitioned.layout.chained sIndex below
  · intro sIndex used
    rw [(snippets sIndex).1, (snippets sIndex).2.1]
    exact partitioned.layout.ordered sIndex used
  · exact lastEnd.trans_le partitioned.fits
  · exact lastTag.trans partitioned.opened

/-- A new snippet starts where the current one ends. -/
theorem initSnippetInfo_layout (layout : Layout pmem) : Layout pmem.initSnippetInfo := by
  have old (sIndex : Nat) (used : sIndex ≤ pmem.snippetInfoIndex) :
      pmem.initSnippetInfo.snippetInfo sIndex = pmem.snippetInfo sIndex := if_neg (by omega)
  have new : pmem.initSnippetInfo.snippetInfo (pmem.snippetInfoIndex + 1) =
      emptySnippet pmem.current.index := if_pos rfl
  refine ⟨?_, ?_, ?_⟩
  · rw [old 0 (Nat.zero_le _)]
    exact layout.first
  · intro sIndex below
    have used : sIndex ≤ pmem.snippetInfoIndex := Nat.le_of_lt_succ below
    rw [old sIndex used]
    by_cases isLast : sIndex = pmem.snippetInfoIndex
    · rw [isLast, new]
      rfl
    · rw [old (sIndex + 1) (by omega)]
      exact layout.chained sIndex (by omega)
  · intro sIndex used
    by_cases isNew : sIndex = pmem.snippetInfoIndex + 1
    · rw [isNew, new]
      exact Nat.le_refl _
    · have earlier : sIndex ≤ pmem.snippetInfoIndex :=
        Nat.le_of_lt_succ (Nat.lt_of_le_of_ne used isNew)
      rw [old sIndex earlier]
      exact layout.ordered sIndex earlier

/-- Once the current snippet is tagged, the next one is opened. -/
theorem closeSnippet_partitioned (layout : Layout pmem)
    (fits : pmem.current.index ≤ pmem.opts.maxArrayNum) : Partitioned pmem.closeSnippet := by
  unfold closeSnippet
  split
  · have new : pmem.initSnippetInfo.current = emptySnippet pmem.current.index := if_pos rfl
    refine ⟨initSnippetInfo_layout layout, ?_, ?_⟩
    · rw [new]
      exact fits
    · rw [new]
      rfl
  · next untagged => exact ⟨layout, fits, not_not.mp untagged⟩

/-- An empty array is partitioned. -/
theorem partitioned_empty (used : pmem.snippetInfoIndex = 0)
    (empty : pmem.snippetInfo 0 = emptySnippet 0) : Partitioned pmem := by
  have current : pmem.current = emptySnippet 0 := by
    unfold PmemOps.current
    rw [used, empty]
  refine ⟨⟨?_, ?_, ?_⟩, ?_, ?_⟩
  · rw [empty]
    rfl
  · intro sIndex below
    omega
  · intro sIndex below
    obtain rfl : sIndex = 0 := by omega
    rw [empty]
    exact Nat.le_refl _
  · rw [current]
    exact Nat.zero_le _
  · rw [current]
    rfl

/-- Every request of the tracker keeps the partition. -/
theorem serve_partitioned {tool : Tool} {request : ClientRequest}
    (allowed : TrackerRequest request) (partitioned : Partitioned tool.pmem) :
    Partitioned (tool.serve request).pmem := by
  rcases serve_tracker tool allowed with ⟨_, context, addr, size, value, _, _, result⟩ |
    ⟨context, base, size, _, _, result⟩ | ⟨_, result⟩ | ⟨base, size, _, _, result⟩ | idle
  · rw [result]
    rcases trackStore_table addr size value context tool.pmem with
      grown | ⟨middle, store, grown, _, widened⟩
    · exact grown.partitioned partitioned
    · rw [widened]
      exact updatePmemStoresHeadMinandmax_partitioned store (grown.partitioned partitioned)
  · obtain ⟨middle, grown, _, flushed⟩ := doFlush_table partitioned.layout partitioned.opened base
      size context tool.strandId
    rw [result, flushed]
    apply closeSnippet_partitioned (grown.layout partitioned.layout)
    rw [grown.opts]
    exact grown.fits partitioned.fits
  · obtain ⟨used, empty⟩ := doFence_table tool.pmem
    rw [result]
    exact partitioned_empty used empty
  · rw [result]
    exact (setClean_grown base size tool.pmem).partitioned partitioned
  · have grown : TableGrown (fun _ => False) tool.pmem (tool.serve request).pmem :=
      TableGrown.same idle.same.opts idle.same.used idle.snippets
    exact grown.partitioned partitioned

end Partition

/-- The snippets partition the array: they follow each other from its start, within its size,
every slot below the last end belongs to exactly one of them, and the current one, to which new
stores are appended, is not tagged as flushed. -/
structure SnippetPartition (pmem : PmemOps) : Prop where
  first : (pmem.snippetInfo 0).startIndex = 0
  chained : ∀ sIndex < pmem.snippetInfoIndex,
    (pmem.snippetInfo (sIndex + 1)).startIndex = (pmem.snippetInfo sIndex).index
  bounded : ∀ sIndex ≤ pmem.snippetInfoIndex,
    (pmem.snippetInfo sIndex).startIndex ≤ (pmem.snippetInfo sIndex).index ∧
      (pmem.snippetInfo sIndex).index ≤ pmem.opts.maxArrayNum
  unique : ∀ slot < pmem.current.index,
    ∃! sIndex, sIndex ≤ pmem.snippetInfoIndex ∧ InSnippet pmem sIndex slot
  fresh : pmem.current.flushedNum = .noFlushed

/-- The parts that the steps keep make up the whole statement. -/
theorem Partitioned.partition {pmem : PmemOps} (partitioned : Partitioned pmem) :
    SnippetPartition pmem where
  first := partitioned.layout.first
  chained := partitioned.layout.chained
  bounded := fun sIndex used => ⟨partitioned.layout.ordered sIndex used,
    (partitioned.layout.bounded used).trans partitioned.fits⟩
  unique := by
    intro slot inUse
    obtain ⟨sIndex, used, inside⟩ := partitioned.layout.covered inUse
    refine ⟨sIndex, ⟨used, inside⟩, ?_⟩
    rintro other ⟨otherUsed, otherInside⟩
    exact partitioned.layout.unique otherUsed used otherInside inside
  fresh := partitioned.opened

/-- In every state that stores, flushes, fences and `SET_CLEAN` requests of whatever ranges
reach under whatever options, the snippets partition the array.

Proof: the partition is an invariant. Appended pieces go to the current snippet, which is the
last; a flush closes it and opens the next one where it ends; a fence empties the table. -/
theorem snippets_partition (opts : Options) (transactionsOnly redundantLogging : Bool)
    (cacheLineSize : Nat) (slots : Nat → PmemSt) (requests : List ClientRequest)
    (allowed : ∀ request ∈ requests, TrackerRequest request) :
    Throughout Tool.serve (fun tool => SnippetPartition tool.pmem)
      (initTool opts transactionsOnly redundantLogging cacheLineSize slots) requests := by
  intro made isPrefix
  have admitted : AllSteps Tool.serve (fun _ => TrackerRequest)
      (initTool opts transactionsOnly redundantLogging cacheLineSize slots) requests :=
    allSteps_of_forall _ allowed
  have kept (tool : Tool) (request : ClientRequest) (partitioned : Partitioned tool.pmem)
      (isAllowed : TrackerRequest request) : Partitioned (tool.serve request).pmem :=
    serve_partitioned isAllowed partitioned
  have reached := allSteps_of_prefix isPrefix admitted
  exact (Runs.invariant kept _ made (partitioned_empty rfl rfl) reached).partition

/-- An array of three slots under all options of the tracker: a flush cuts a record in the middle,
which fills the array, and a request to clear a range cuts another one. -/
theorem snippets_partition_full :
    let opts := { bothOptions with maxArrayNum := 3, storeSbIndiff := 1 }
    let start := initTool opts false false 64 (fun _ => PmemSt.zero)
    let requests : List ClientRequest := [.access (.registerMapping 64 1024), storeTo 100 50,
      .access (.flush none 110 10), .setClean 125 10, storeTo 200 8, .access (.flush none 200 8)]
    (requests.foldl Tool.serve start).pmem.snippetInfoIndex = 1 ∧
      (requests.foldl Tool.serve start).pmem.current.index = 3 ∧
      Throughout Tool.serve (fun tool => SnippetPartition tool.pmem) start requests := by
  refine ⟨by decide +kernel, by decide +kernel, ?_⟩
  exact snippets_partition _ false false 64 _ _ (by decide)

end PmDebugger
