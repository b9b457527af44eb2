import PmDebugger.Library.Loops
import PmDebugger.FlushBytes
import PmDebugger.Reorganisation

/-!
# Flushes and fences of an arbitrary tracker

What `do_flush` and `do_fence` do to a tracker of which no more is known than that it is
sound: the tags and boxes of its snippets, the deleted records and the bounds of its tree
are arbitrary, and its array may be full.

A flush ends. The loop over a snippet reads its bound again in every turn, and the walk
over the tree is set back to a record that was cut. So both are stated here as loops that
may not end: within a number of turns each is left or not. What ends them is that the
pieces which are cut off do not meet the flushed range.
-/

namespace PmDebugger

open OrderedSet OrderedSet.OSet PmemOps Loops

namespace PmemOps

/-! ## The loops within a number of turns -/

/-- One turn of the loop over the slots of a snippet, unless the slot is past the last
one. -/
def slotTurn (flush : PmemSt) (sIndex : Nat) (state : Nat × PmemOps × Bool) :
    Option (Nat × PmemOps × Bool) :=
  let (index, pmem, valid) := state
  if index < (pmem.snippetInfo sIndex).index then
    some (index + 1, pmem.flushSlot flush sIndex index valid)
  else none

/-- `flushSnippet`, if its loop is left within the turns. It has no result otherwise. -/
def flushSnippetWithin (fuel : Nat) (flush : PmemSt) (state : PmemOps × Bool) (sIndex : Nat) :
    Option (PmemOps × Bool) :=
  let (pmem, valid) := state
  let snippet := pmem.snippetInfo sIndex
  if tagsSnippet flush snippet then
    some (pmem.setSnippet sIndex { snippet with flushedNum := .allFlushed }, true)
  else if skipsSnippet flush snippet then some (pmem, valid)
  else (within (slotTurn flush sIndex) fuel (snippet.startIndex, pmem, valid)).map Prod.snd

/-- `flushArray`, if each of its loops is left within the turns. It has no result otherwise. -/
def flushArrayWithin (fuel : Nat) (flush : PmemSt) (pmem : PmemOps) : Option (PmemOps × Bool) :=
  (List.range (pmem.snippetInfoIndex + 1)).foldlM (flushSnippetWithin fuel flush) (pmem, false)

/-- `flushStores`, if its walk ends within the turns. It has no result otherwise. -/
def flushStoresWithin (fuel : Nat) (flush : PmemSt) (pmem : PmemOps) (valid : Bool) :
    Option (PmemOps × Bool) :=
  if flush.addr > pmem.maxAddPmemStore ∨ flush.maxAddr < pmem.minAddPmemStore then
    some (pmem, valid)
  else
    within (treeTurn flush) fuel ({ pmem with pmemStores := pmem.pmemStores.resetIter }, valid)

/-- `do_flush`, if each of its loops is left within the turns. That it has a result for some
number of turns is what it means that the code ends. -/
def doFlushWithin (fuel base size : Nat) (context : Option ExeContext) (strandId : Nat)
    (pmem : PmemOps) : Option PmemOps := do
  let flush := flushInfo pmem.opts pmem.flushAlignSize base size
  let (array, validArray) ← flushArrayWithin fuel flush (pmem.checkStrandOrder flush strandId)
  let (tree, valid) ← flushStoresWithin fuel flush array validArray
  return (tree.warnSuperfluousFlush flush context valid).closeSnippet

end PmemOps

/-! ## The loop over a snippet -/

section Snippet

variable {flush : PmemSt} {pmem before middle after : PmemOps} {sIndex index : Nat}

/-- What the body of the loop does to the array: it writes its slot and adds a few records
behind the last one, which the flushed range does not meet. -/
structure Extends (flush : PmemSt) (index count : Nat) (before after : PmemOps) : Prop where
  used : after.snippetInfoIndex = before.snippetInfoIndex
  ends : ∀ tested, tested ≠ before.snippetInfoIndex →
    (after.snippetInfo tested).index = (before.snippetInfo tested).index
  longer : before.current.index ≤ after.current.index
  few : after.current.index ≤ before.current.index + count
  others : ∀ slot < before.current.index, slot ≠ index → after.slots slot = before.slots slot
  missed : ∀ slot, before.current.index ≤ slot → slot < after.current.index →
    cmpPmemSt flush (after.slots slot) ≠ .eq

namespace Extends

variable {count count' : Nat}

/-- A step that keeps the ends of the snippets and the slots beside one. -/
theorem of_frame (used : after.snippetInfoIndex = before.snippetInfoIndex)
    (ends : ∀ tested, (after.snippetInfo tested).index = (before.snippetInfo tested).index)
    (others : ∀ slot < before.current.index, slot ≠ index → after.slots slot = before.slots slot) :
    Extends flush index 0 before after := by
  have same : after.current.index = before.current.index := by
    unfold current
    rw [used, ends]
  exact ⟨used, fun tested _ => ends tested, Nat.le_of_eq same.symm, Nat.le_of_eq same, others,
    fun slot above below => by omega⟩

/-- Fewer pieces are appended than may be. -/
theorem weaken (extends_ : Extends flush index count before after) (more : count ≤ count') :
    Extends flush index count' before after :=
  ⟨extends_.used, extends_.ends, extends_.longer,
    Nat.le_trans extends_.few (Nat.add_le_add_left more _), extends_.others, extends_.missed⟩

/-- A step that leaves the array alone. -/
theorem unchanged (used : after.snippetInfoIndex = before.snippetInfoIndex)
    (snippets : after.snippetInfo = before.snippetInfo) (slots : after.slots = before.slots) :
    Extends flush index count before after :=
  (of_frame used (fun _ => by rw [snippets]) (fun _ _ _ => by rw [slots])).weaken (Nat.zero_le _)

/-- Two cuts of a slot append the pieces of both. -/
theorem trans (first : Extends flush index count before middle)
    (second : Extends flush index count' middle after) (inUse : index < before.current.index) :
    Extends flush index (count + count') before after where
  used := second.used.trans first.used
  ends tested differs :=
    (second.ends tested (first.used ▸ differs)).trans (first.ends tested differs)
  longer := Nat.le_trans first.longer second.longer
  few := by
    have := first.few
    have := second.few
    omega
  others slot below differs :=
    (second.others slot (Nat.lt_of_lt_of_le below first.longer) differs).trans
      (first.others slot below differs)
  missed slot above below := by
    by_cases early : slot < middle.current.index
    · rw [second.others slot early (by omega)]
      exact first.missed slot above early
    · exact second.missed slot (by omega) below

/-- Where a snippet ends after the step. -/
theorem end_eq (extends_ : Extends flush index count before after) (tested : Nat) :
    (after.snippetInfo tested).index = if tested = before.snippetInfoIndex then after.current.index
      else (before.snippetInfo tested).index := by
  split
  · next isLast =>
    rw [isLast, ← extends_.used]
    rfl
  · next differs => exact extends_.ends tested differs

end Extends

/-- A piece beside the flushed range is added behind the array, or to the tree. -/
theorem appendSplit_extends (index : Nat) {piece : PmemSt} (missed : cmpPmemSt flush piece ≠ .eq) :
    Extends flush index 1 pmem (pmem.appendSplit piece) := by
  simp only [appendSplit]
  split
  · have grown : ((pmem.setSlot pmem.current.index
        (pmemStCopy (pmem.slots pmem.current.index) piece)).setSnippet pmem.snippetInfoIndex
          { pmem.current with index := pmem.current.index + 1 }).current.index =
        pmem.current.index + 1 := congrArg ArrSnippet.index (if_pos rfl)
    refine ⟨rfl, fun tested differs => ?_, ?_, Nat.le_of_eq grown, fun slot below _ => ?_,
      fun slot above below => ?_⟩
    · exact congrArg ArrSnippet.index (if_neg differs)
    · rw [grown]
      exact Nat.le_succ _
    · exact if_neg (Nat.ne_of_lt below)
    · rw [grown] at below
      obtain rfl : slot = pmem.current.index := by omega
      rw [setSnippet_slots, setSlot_slots, if_pos rfl]
      exact missed
  · apply Extends.unchanged <;> rw [insertStore_frame]

/-- To set a slot appends nothing. -/
theorem setSlot_extends (kept : PmemSt) : Extends flush index 0 pmem (pmem.setSlot index kept) :=
  Extends.of_frame rfl (fun _ => rfl) (fun _ _ differs => if_neg differs)

/-- The piece before the flushed range ends where the range starts. -/
theorem splitFront_extends (range : flush.Proper) (inUse : index < pmem.current.index) :
    Extends flush index 1 pmem (pmem.splitFront flush index) := by
  simp only [splitFront]
  split
  · next sticksOut =>
    have piece : cmpPmemSt flush (frontSplit flush (pmem.slots index)) ≠ .eq := by
      have fits := range.nonWrapping
      unfold PmemSt.NonWrapping at fits
      have ends : (frontSplit flush (pmem.slots index)).maxAddr = flush.addr := by
        show Word64.add (pmem.slots index).addr (Word64.sub flush.addr (pmem.slots index).addr) = _
        rw [Word64.sub_eq (Nat.le_of_lt sticksOut), Word64.add_eq (by omega)]
        omega
      unfold cmpPmemSt
      rw [ends, if_pos (Nat.le_refl _)]
      split <;> simp
    exact (setSlot_extends _).trans (appendSplit_extends index piece) inUse
  · exact Extends.unchanged rfl rfl rfl

/-- The piece behind the flushed range starts where the range ends. -/
theorem splitBack_extends (flush : PmemSt) (inUse : index < pmem.current.index) :
    Extends flush index 1 pmem (pmem.splitBack flush index) := by
  simp only [splitBack]
  split
  · have piece : cmpPmemSt flush (backSplit flush (pmem.slots index)) ≠ .eq := by
      unfold cmpPmemSt
      rw [if_pos (show flush.maxAddr ≤ (backSplit flush (pmem.slots index)).addr from
        Nat.le_refl _)]
      simp
    exact (setSlot_extends _).trans (appendSplit_extends index piece) inUse
  · exact Extends.unchanged rfl rfl rfl

/-- The body of the loop adds at most two records, and none for a record that the range
misses. -/
theorem flushSlot_extends (range : flush.Proper) (sIndex : Nat) (valid : Bool)
    (inUse : index < pmem.current.index) :
    Extends flush index (if cmpPmemSt flush (pmem.slots index) = .eq then 2 else 0) pmem
      (pmem.flushSlot flush sIndex index valid).1 := by
  simp only [flushSlot]
  by_cases deleted : (pmem.slots index).isDelete = true
  · rw [if_pos deleted]
    exact (setSlot_extends _).weaken (Nat.zero_le _)
  · rw [if_neg deleted]
    by_cases meets : cmpPmemSt flush (pmem.slots index) = .eq
    · rw [if_neg (not_not.mpr meets), if_pos meets]
      split
      · apply Extends.unchanged <;> rw [warnRedundantFlush_frame]
      · obtain ⟨current, snippets⟩ := markSlot_snippets sIndex index pmem
        have marked : Extends flush index 0 pmem (pmem.markSlot sIndex index) := by
          refine Extends.of_frame rfl (fun tested => ?_) (fun _ _ differs => if_neg differs)
          rw [snippets]
          split
          · next same => rw [same]
          · rfl
        have front := marked.trans (splitFront_extends range (current ▸ inUse)) inUse
        exact front.trans (splitBack_extends flush (Nat.lt_of_lt_of_le inUse front.longer)) inUse
    · rw [if_pos meets]
      exact Extends.unchanged rfl rfl rfl

/-- Where the loop over a snippet stands: the records from the bound on were cut off by
it. A record below the bound may add two of them, and takes three turns with these. -/
structure Scanning (flush : PmemSt) (sIndex bound rank index : Nat) (pmem : PmemOps) : Prop where
  bounded : (pmem.snippetInfo sIndex).index ≤ pmem.current.index
  within : bound ≤ (pmem.snippetInfo sIndex).index
  missed : ∀ slot, bound ≤ slot → index ≤ slot → slot < (pmem.snippetInfo sIndex).index →
    cmpPmemSt flush (pmem.slots slot) ≠ .eq
  rank : rank = 3 * (bound - index) + ((pmem.snippetInfo sIndex).index - max index bound)

/-- A turn of the loop leaves fewer turns. -/
theorem Scanning.turn {bound rank : Nat} (range : flush.Proper) (valid : Bool)
    (scanning : Scanning flush sIndex bound rank index pmem)
    (more : index < (pmem.snippetInfo sIndex).index) :
    ∃ lower < rank, Scanning flush sIndex bound lower (index + 1)
      (pmem.flushSlot flush sIndex index valid).1 := by
  obtain ⟨bounded, within, missed, isRank⟩ := scanning
  have turn := flushSlot_extends range sIndex valid (Nat.lt_of_lt_of_le more bounded)
  generalize (pmem.flushSlot flush sIndex index valid).1 = next at *
  have ends := turn.end_eq sIndex
  have longer := turn.longer
  have few := turn.few
  have last : sIndex = pmem.snippetInfoIndex →
      (pmem.snippetInfo sIndex).index = pmem.current.index := fun isLast => by
    rw [isLast]
    rfl
  have added : (next.snippetInfo sIndex).index ≤ (pmem.snippetInfo sIndex).index +
      if cmpPmemSt flush (pmem.slots index) = .eq then 2 else 0 := by
    split at ends
    · next isLast =>
      have := last isLast
      omega
    · omega
  have grown : (pmem.snippetInfo sIndex).index ≤ (next.snippetInfo sIndex).index := by
    split at ends
    · next isLast =>
      have := last isLast
      omega
    · omega
  refine ⟨3 * (bound - (index + 1)) + ((next.snippetInfo sIndex).index - max (index + 1) bound),
    ?_, ?_, Nat.le_trans within grown, fun slot above later below => ?_, rfl⟩
  · by_cases original : index < bound
    · split at added <;> omega
    · rw [if_neg (missed index (by omega) (Nat.le_refl _) more)] at added
      omega
  · split at ends <;> omega
  · by_cases old : slot < (pmem.snippetInfo sIndex).index
    · rw [turn.others slot (by omega) (by omega)]
      exact missed slot above (by omega) old
    · apply turn.missed slot
      · split at ends
        · next isLast =>
          have := last isLast
          omega
        · omega
      · split at ends <;> omega

/-- The loop over a snippet ends, with the result that the model gives it. -/
theorem flushSlots_ends (range : flush.Proper) (valid : Bool)
    (bounded : (pmem.snippetInfo sIndex).index ≤ pmem.current.index) (index : Nat) {fuel : Nat}
    (enough : 3 * ((pmem.snippetInfo sIndex).index - index) < fuel) :
    ∃ last, within (slotTurn flush sIndex) fuel (index, pmem, valid) =
      some (last, flushSlots flush sIndex fuel index pmem valid) := by
  have same (fuel index : Nat) (pmem : PmemOps) (valid : Bool) (result : Nat × PmemOps × Bool)
      (left : within (slotTurn flush sIndex) fuel (index, pmem, valid) = some result) :
      result.2 = flushSlots flush sIndex fuel index pmem valid := by
    induction fuel generalizing index pmem valid with
    | zero => cases left
    | succ fuel inductionHypothesis =>
      simp only [within, slotTurn, flushSlots] at left ⊢
      by_cases more : index < (pmem.snippetInfo sIndex).index
      · rw [if_pos more] at left ⊢
        exact inductionHypothesis _ _ _ left
      · rw [if_neg more] at left ⊢
        cases left
        rfl
  have start : Scanning flush sIndex (pmem.snippetInfo sIndex).index
      (3 * ((pmem.snippetInfo sIndex).index - index)) index pmem :=
    ⟨bounded, Nat.le_refl _, fun slot above _ below => by omega, by omega⟩
  obtain ⟨⟨last, result⟩, left, _⟩ := within_ends (slotTurn flush sIndex)
    (fun rank state => Scanning flush sIndex (pmem.snippetInfo sIndex).index rank state.1 state.2.1)
    (fun rank state next stands turned => by
      simp only [slotTurn] at turned
      by_cases more : state.1 < (state.2.1.snippetInfo sIndex).index
      · rw [if_pos more] at turned
        cases turned
        exact stands.turn range state.2.2 more
      · rw [if_neg more] at turned
        cases turned)
    (index, pmem, valid) start enough
  refine ⟨last, left.trans ?_⟩
  rw [← same fuel index pmem valid _ left]

end Snippet

/-! ## Flushes -/

section Flush

variable {flush : PmemSt} {pmem : PmemOps}

/-- A snippet is dealt with in a number of turns. -/
theorem flushSnippet_ends (range : flush.Proper) (valid : Bool) {sIndex : Nat}
    (bounded : (pmem.snippetInfo sIndex).index ≤ pmem.current.index) :
    ∃ enough, ∀ fuel ≥ enough, flushSnippetWithin fuel flush (pmem, valid) sIndex =
      some (flushSnippet flush (pmem, valid) sIndex) := by
  simp only [flushSnippetWithin, flushSnippet]
  split
  · exact ⟨0, fun _ _ => rfl⟩
  · split
    · exact ⟨0, fun _ _ => rfl⟩
    · obtain ⟨last, left⟩ := flushSlots_ends range valid bounded
          (pmem.snippetInfo sIndex).startIndex (Nat.lt_succ_self _)
      refine ⟨3 * ((pmem.snippetInfo sIndex).index - (pmem.snippetInfo sIndex).startIndex) + 1,
        fun fuel enough => ?_⟩
      rw [within_mono enough left]
      rfl

/-- So is the array, snippet after snippet. -/
theorem flushArray_ends (range : flush.Proper) (sound : Sound pmem) :
    ∃ enough, ∀ fuel ≥ enough, flushArrayWithin fuel flush pmem = some (pmem.flushArray flush) := by
  have loop (indices : List Nat) (state : PmemOps × Bool) (stateSound : Sound state.1)
      (inside : ∀ sIndex ∈ indices, sIndex ≤ state.1.snippetInfoIndex) :
      ∃ enough, ∀ fuel ≥ enough, indices.foldlM (flushSnippetWithin fuel flush) state =
        some (indices.foldl (flushSnippet flush) state) := by
    induction indices generalizing state with
    | nil => exact ⟨0, fun _ _ => rfl⟩
    | cons sIndex rest inductionHypothesis =>
      have used := inside sIndex List.mem_cons_self
      obtain ⟨first, isFirst⟩ := flushSnippet_ends range state.2 (stateSound.layout.bounded used)
      have kept := flushSnippet_kept range state.2 stateSound used
      have same := (flushSnippet_grows flush state sIndex).snippetInfoIndex
      obtain ⟨later, isLater⟩ := inductionHypothesis (flushSnippet flush state sIndex) kept.sound
        (fun other member => by
          rw [same]
          exact inside other (List.mem_cons_of_mem _ member))
      refine ⟨max first later, fun fuel enough => ?_⟩
      rw [List.foldlM_cons, isFirst fuel (by omega), List.foldl_cons]
      exact isLater fuel (by omega)
  exact loop _ (pmem, false) sound (fun sIndex member =>
    Nat.lt_succ_iff.mp (List.mem_range.mp member))

/-- The walk over the tree ends. -/
theorem flushStores_ends (range : flush.Proper) (valid : Bool)
    (sound : TreeSound pmem.opts pmem.dbPmemStoreIndex pmem.pmemStores) :
    ∃ enough, ∀ fuel ≥ enough, flushStoresWithin fuel flush pmem valid =
      some (pmem.flushStores flush valid) := by
  simp only [flushStoresWithin, flushStores]
  split
  · exact ⟨0, fun _ _ => rfl⟩
  · obtain ⟨result, left, _⟩ := within_ends (treeTurn flush)
      (fun rank state => ∃ done rest, Walking flush done rest state.1 ∧ turns flush rest = rank)
      (fun rank state next stands turned => by
        obtain ⟨done, rest, walking, isRank⟩ := stands
        cases rest with
        | nil =>
          rw [walking.finished state.2] at turned
          cases turned
        | cons being rest =>
          obtain ⟨later, isLater, done', rest', walks, fewer, _⟩ := walking.turn range state.2
          rw [isLater] at turned
          cases turned
          exact ⟨turns flush rest', isRank ▸ fewer, done', rest', walks, rfl⟩)
      ({ pmem with pmemStores := pmem.pmemStores.resetIter }, valid)
      ⟨[], pmem.pmemStores.toList, walking_start flush sound, rfl⟩
      (Nat.lt_succ_of_le (turns_le flush pmem.pmemStores.toList))
    refine ⟨4 * pmem.pmemStores.size + 1, fun fuel enough => ?_⟩
    rw [within_mono enough left, within_bounded (treeTurn flush)
      (fun fuel state => flushTree flush fuel state.1 state.2)
      (fun fuel state => flushTree_succ flush fuel state.1 state.2) left]
    rfl

/-- A flush of a proper range ends, and the live records cover the bytes that they covered
before: cutting them drops no byte and adds none.

Proof: the inner loop over a snippet runs on over the pieces that it appends, but these miss
the range and are not cut again. The walk over the tree goes back after each cut, but a record
that has been cut lies within the range and is flushed. What a cut takes from a record it puts
into a slot or into the tree, so that every byte is still shown. -/
theorem doFlush_ends_and_conserves (sound : Sound pmem) {base size : Nat}
    (context : Option ExeContext) (strandId : Nat)
    (range : (flushInfo pmem.opts pmem.flushAlignSize base size).Proper) :
    (∃ enough, ∀ fuel ≥ enough, doFlushWithin fuel base size context strandId pmem =
      some (pmem.doFlush base size context strandId)) ∧
    ∀ byte, Tracks (pmem.doFlush base size context strandId).live byte ↔ Tracks pmem.live byte := by
  constructor
  · simp only [doFlushWithin, doFlush]
    generalize flushInfo pmem.opts pmem.flushAlignSize base size = flush at *
    have ordered : Kept (fun _ => False) pmem (pmem.checkStrandOrder flush strandId) :=
      (checkStrandOrder_same flush strandId pmem).kept sound
    obtain ⟨first, isFirst⟩ := flushArray_ends range ordered.sound
    have array := flushArray_kept range ordered.sound
    obtain ⟨second, isSecond⟩ := flushStores_ends range
      (flushArray flush (pmem.checkStrandOrder flush strandId)).2 array.sound.tree
    refine ⟨max first second, fun fuel enough => ?_⟩
    rw [isFirst fuel (by omega)]
    simp only [Option.bind_eq_bind, Option.bind_some]
    rw [isSecond fuel (by omega)]
    rfl
  · intro byte
    have kept := doFlush_kept context strandId range sound
    rw [sound.tracks_live, kept.sound.tracks_live]
    exact ⟨kept.old byte, fun before => (kept.shown byte before).resolve_right id⟩

/-- The array is full, and a tree that is ordered by range takes the pieces: the range
cuts the back of the one slot and the front of a record of the tree. -/
theorem doFlush_ends_and_conserves_full :
    let record (addr size : Nat) : PmemSt := { PmemSt.range addr size with state := .dirty }
    let opts := { defaultOptions (fun _ => false) with
      treeReorganization := true
      maxArrayNum := 1 }
    let pmem : PmemOps := { initPmem opts 64 (fun _ => record 100 50) with
      snippetInfo := fun _ => ⟨1, 100, 150, 0, .noFlushed⟩
      pmemStores := ⟨.node .leaf (record 200 60) .leaf 0, none, false⟩
      minAddPmemStore := 200
      maxAddPmemStore := 260
      dbPmemStoreIndex := 1 }
    Sound pmem ∧ pmem.current.index = pmem.opts.maxArrayNum ∧
      (pmem.doFlush 120 100 none 0).pmemStores.toList.length = 3 ∧
      ((∃ enough, ∀ fuel ≥ enough, doFlushWithin fuel 120 100 none 0 pmem =
        some (pmem.doFlush 120 100 none 0)) ∧
      ∀ byte, Tracks (pmem.doFlush 120 100 none 0).live byte ↔ Tracks pmem.live byte) := by
  intro record opts pmem
  have sound : Sound pmem := by
    refine ⟨⟨rfl, by decide, by decide⟩, ?_, ⟨?_, ?_, ?_, ?_⟩⟩
    · simp only [proper_iff]
      decide
    · simp only [proper_iff]
      decide
    · exact fun plain => Bool.noConfusion plain
    · exact fun plain => Bool.noConfusion plain
    · refine fun _ => ⟨?_, List.pairwise_singleton _ _⟩
      simp only [proper_iff]
      decide
  exact ⟨sound, rfl, by decide, doFlush_ends_and_conserves sound none 0 ⟨by decide, by decide⟩⟩

end Flush

/-! ## Fences -/

/-- From any state a fence leaves the bytes of the dirty records, in dirty records of the tree
and within its bounds, and nothing else.

Proof: the walk over the tree drops the flushed records there. The loop over the snippets then
enters the dirty slots, and the insertion keeps every byte whether it merges neighbours or not.
The array is empty afterwards, so that all that is live is in the tree. -/
theorem doFence_exact {pmem : PmemOps} (sound : Sound pmem)
    (written : ∀ store ∈ pmem.live, store.state = .dirty ∨ store.state = .flushed) :
    (∀ byte, DirtyIn pmem.live byte → DirtyIn pmem.doFence.pmemStores.toList byte) ∧
      (∀ byte, Tracks pmem.doFence.live byte → DirtyIn pmem.live byte) ∧
      pmem.doFence.snippetInfoIndex = 0 ∧ pmem.doFence.current = emptySnippet 0 ∧
      Bounded pmem.doFence := by
  have fenced := doFence_bytes sound
  have kept := doFence_kept sound
  obtain ⟨dirty, bytes⟩ := fenced.dirty (fun store member isClean => by
    rcases written store member with isDirty | isFlushed
    · rw [isClean] at isDirty
      cases isDirty
    · rw [isClean] at isFlushed
      cases isFlushed)
  have emptied : pmem.doFence.current = emptySnippet 0 := by
    unfold current
    rw [fenced.index, fenced.emptied]
  refine ⟨fun byte before => ?_, fun byte isTracked => ?_, fenced.index, emptied, fenced.bounded⟩
  · exact (dirtyIn_of_dirty dirty byte).mpr ((bytes byte).mpr before)
  · rcases (kept.sound.tracks_live byte).mp isTracked with ⟨slot, inUse, _⟩ | inTree
    · rw [emptied] at inUse
      exact absurd inUse (Nat.not_lt_zero slot)
    · exact (bytes byte).mp inTree

/-- The first snippet is tagged as a whole over records that are still marked dirty, the
boxes enclose nothing, one record is deleted and two of the tree overlap. -/
theorem doFence_exact_stale :
    let record (addr size : Nat) (state : StoreState) (isDelete : Bool) : PmemSt :=
      { PmemSt.range addr size with state := state, isDelete := isDelete }
    let pmem : PmemOps := { initPmem (defaultOptions (fun _ => false)) 64 (fun slot =>
        match slot with
        | 0 => record 100 50 .dirty false
        | 1 => record 120 8 .flushed true
        | 2 => record 140 20 .dirty false
        | _ => record 300 9 .flushed false) with
      snippetInfoIndex := 1
      snippetInfo := fun sIndex => if sIndex = 0 then ⟨2, 7, 9, 0, .allFlushed⟩
        else ⟨4, 0, 0, 2, .noFlushed⟩
      pmemStores := ⟨.node .leaf (record 90 20 .dirty false) (.node .leaf
        { record 95 30 .flushed false with index := 5 } .leaf 0) 1, none, false⟩
      dbPmemStoreIndex := 6 }
    Sound pmem ∧ (∀ store ∈ pmem.live, store.state = .dirty ∨ store.state = .flushed) ∧
      ((∀ byte, DirtyIn pmem.live byte → DirtyIn pmem.doFence.pmemStores.toList byte) ∧
      (∀ byte, Tracks pmem.doFence.live byte → DirtyIn pmem.live byte) ∧
      pmem.doFence.snippetInfoIndex = 0 ∧ pmem.doFence.current = emptySnippet 0 ∧
      Bounded pmem.doFence) := by
  intro record pmem
  have sound : Sound pmem := by
    refine ⟨⟨rfl, by decide, by decide⟩, ?_, ⟨?_, ?_, ?_, ?_⟩⟩
    · simp only [proper_iff]
      decide
    · simp only [proper_iff]
      decide
    · unfold Keyed
      decide
    · decide
    · exact fun reorganised => Bool.noConfusion reorganised
  have written : ∀ store ∈ pmem.live, store.state = .dirty ∨ store.state = .flushed := by decide
  exact ⟨sound, written, doFence_exact sound written⟩
end PmDebugger
