import PmDebugger.ArrayFlush

/-!
# A flush over all snippets

The outer loop of `do_flush` visits the snippets in order. A snippet whose box lies
within the flushed range is tagged, one whose box misses it is skipped, and in every
other one the records are flushed one by one. The result is stated once for the whole
array, in terms of the state before the flush: what each slot holds, where each piece
that was cut off lies, and what the tags say.

Snippets follow each other without gaps. This is what keeps a slot from being visited
through two snippets.
-/

namespace PmDebugger

open OrderedSet OrderedSet.OSet PmemOps

/-- The slot belongs to the snippet. A snippet is the part of the array from its start up to
its index, which is the first slot behind it. -/
def InSnippet (pmem : PmemOps) (sIndex slot : Nat) : Prop :=
  (pmem.snippetInfo sIndex).startIndex ≤ slot ∧ slot < (pmem.snippetInfo sIndex).index

/-- The snippets divide the used part of the array: the first starts at slot zero, and each
ends where the next begins. -/
structure Layout (pmem : PmemOps) : Prop where
  first : (pmem.snippetInfo 0).startIndex = 0
  chained : ∀ sIndex < pmem.snippetInfoIndex,
    (pmem.snippetInfo (sIndex + 1)).startIndex = (pmem.snippetInfo sIndex).index
  ordered : ∀ sIndex ≤ pmem.snippetInfoIndex,
    (pmem.snippetInfo sIndex).startIndex ≤ (pmem.snippetInfo sIndex).index

namespace Layout

variable {pmem : PmemOps}

/-- An earlier snippet ends before a later one starts. -/
theorem apart (layout : Layout pmem) {first second : Nat} (less : first < second)
    (used : second ≤ pmem.snippetInfoIndex) :
    (pmem.snippetInfo first).index ≤ (pmem.snippetInfo second).startIndex := by
  induction second with
  | zero => omega
  | succ second inductionHypothesis =>
    have chained := layout.chained second (by omega)
    by_cases same : first = second
    · rw [same]
      exact Nat.le_of_eq chained.symm
    · have := inductionHypothesis (by omega) (by omega)
      have := layout.ordered second (by omega)
      omega

/-- Every snippet lies in the used part of the array. -/
theorem bounded (layout : Layout pmem) {sIndex : Nat} (used : sIndex ≤ pmem.snippetInfoIndex) :
    (pmem.snippetInfo sIndex).index ≤ pmem.current.index := by
  by_cases same : sIndex = pmem.snippetInfoIndex
  · rw [same]
    exact Nat.le_refl _
  · have := layout.apart (show sIndex < pmem.snippetInfoIndex by omega) (Nat.le_refl _)
    have := layout.ordered pmem.snippetInfoIndex (Nat.le_refl _)
    unfold current
    omega

/-- A slot belongs to one snippet only. -/
theorem unique (layout : Layout pmem) {first second slot : Nat}
    (firstUsed : first ≤ pmem.snippetInfoIndex) (secondUsed : second ≤ pmem.snippetInfoIndex)
    (inFirst : InSnippet pmem first slot) (inSecond : InSnippet pmem second slot) :
    first = second := by
  unfold InSnippet at inFirst inSecond
  rcases Nat.lt_trichotomy first second with less | same | greater
  · have := layout.apart less secondUsed
    omega
  · exact same
  · have := layout.apart greater firstUsed
    omega

end Layout

/-- The records of the snippet are flushed one by one. The other two cases are that the whole
snippet is tagged and that it is skipped. -/
def reaches (flush : PmemSt) (snippet : ArrSnippet) : Prop :=
  ¬ tagsSnippet flush snippet ∧ ¬ skipsSnippet flush snippet

instance (flush : PmemSt) (snippet : ArrSnippet) : Decidable (reaches flush snippet) :=
  inferInstanceAs (Decidable (_ ∧ _))

/-- The effect of the outer loop before it enters the snippet `sIndex`. `before` is the
state before the flush. -/
structure ArrayFlushing (flush : PmemSt) (sIndex : Nat) (before after : PmemOps) : Prop where
  frame : after = { before with
    slots := after.slots
    snippetInfo := after.snippetInfo
    redundantFlushes := after.redundantFlushes
    exited := after.exited }
  grown : before.current.index ≤ after.current.index
  visited : ∀ passed < sIndex, ∀ slot, InSnippet before passed slot → after.slots slot =
    if reaches flush (before.snippetInfo passed)
      then treat flush (before.snippetInfo passed).flushedNum (before.slots slot)
      else before.slots slot
  unvisited : ∀ ahead, sIndex ≤ ahead → ahead ≤ before.snippetInfoIndex →
    ∀ slot, InSnippet before ahead slot → after.slots slot = before.slots slot
  fromCut : ∀ slot, before.current.index ≤ slot → slot < after.current.index →
    ∃ passed < sIndex, ∃ origin, InSnippet before passed origin ∧
      reaches flush (before.snippetInfo passed) ∧
      ∃ piece ∈ treatPieces flush (before.snippetInfo passed).flushedNum (before.slots origin),
        SameRecord (after.slots slot) piece
  toCut : ∀ passed < sIndex, ∀ origin, InSnippet before passed origin →
    reaches flush (before.snippetInfo passed) →
      ∀ piece ∈ treatPieces flush (before.snippetInfo passed).flushedNum (before.slots origin),
        ∃ slot, before.current.index ≤ slot ∧ slot < after.current.index ∧
          SameRecord (after.slots slot) piece
  snippets : ∀ tested, after.snippetInfo tested = { before.snippetInfo tested with
    index := if tested = before.snippetInfoIndex then after.current.index
      else (before.snippetInfo tested).index
    flushedNum := (after.snippetInfo tested).flushedNum }
  aheadTags : ∀ ahead, sIndex ≤ ahead →
    (after.snippetInfo ahead).flushedNum = (before.snippetInfo ahead).flushedNum
  taggedTags : ∀ passed < sIndex, tagsSnippet flush (before.snippetInfo passed) →
    (after.snippetInfo passed).flushedNum = .allFlushed
  otherTags : ∀ passed < sIndex, ¬ tagsSnippet flush (before.snippetInfo passed) →
    (after.snippetInfo passed).flushedNum = (before.snippetInfo passed).flushedNum ∨
      (before.snippetInfo passed).flushedNum ≠ .allFlushed ∧
        (after.snippetInfo passed).flushedNum = .partFlushed
  markedTags : ∀ passed < sIndex, ∀ slot, InSnippet before passed slot →
    reaches flush (before.snippetInfo passed) →
      marks flush (before.snippetInfo passed).flushedNum (before.slots slot) →
        (after.snippetInfo passed).flushedNum = .partFlushed

/-- What a flush needs to know about the array. The snippets divide it, and its records are
proper and not deleted. -/
structure FlushableArray (flush : PmemSt) (pmem : PmemOps) : Prop where
  range : flush.Proper
  layout : Layout pmem
  undeleted : ∀ sIndex ≤ pmem.snippetInfoIndex, ∀ slot, InSnippet pmem sIndex slot →
    (pmem.slots slot).isDelete = false
  proper : ∀ sIndex ≤ pmem.snippetInfoIndex, ∀ slot, InSnippet pmem sIndex slot →
    (pmem.slots slot).Proper

/-- A piece is a proper record outside the flushed range. -/
theorem piece_exact {flush being piece : PmemSt} {tag : FlushedState} (range : flush.Proper)
    (proper : being.Proper) (member : piece ∈ treatPieces flush tag being) :
    piece.Proper ∧ piece.state = .dirty ∧
      (piece.isDelete = being.isDelete ∧ piece.inEpoch = being.inEpoch) ∧
      (∀ byte, piece.Covers byte → being.Covers byte ∧ ¬ flush.Covers byte) ∧
      marks flush tag being := by
  unfold treatPieces at member
  split at member
  · next marked =>
    have cut := cut_exact range proper marked.1
    exact ⟨cut.pieces_proper piece member, cut.pieces_state piece member,
      cutPieces_marks member,
      fun byte inside => (cut.pieces_cover byte).mp ⟨piece, member, inside⟩, marked⟩
  · simp at member

/-- Records that are the same up to the index cover the same bytes. -/
theorem SameRecord.covers {first second : PmemSt} (same : SameRecord first second) (byte : Nat) :
    first.Covers byte ↔ second.Covers byte := by
  rw [same]
  exact Iff.rfl

/-- Of two records that are the same, both are proper or neither is. -/
theorem SameRecord.proper {first second : PmemSt} (same : SameRecord first second) :
    first.Proper ↔ second.Proper := by
  rw [proper_iff, proper_iff, same]

/-- A record is missed by a flush if the same record lies outside the flush. -/
theorem SameRecord.misses {flush first second : PmemSt} (same : SameRecord first second)
    (range : flush.Proper) (proper : second.Proper)
    (outside : ∀ byte, second.Covers byte → ¬ flush.Covers byte) :
    cmpPmemSt flush first ≠ .eq := by
  intro meets
  obtain ⟨byte, inFlush, inFirst⟩ :=
    (cmpPmemSt_eq_iff_shared range (same.proper.mpr proper)).mp meets
  exact outside byte ((same.covers byte).mp inFirst) inFlush

namespace ArrayFlushing

variable {flush : PmemSt} {sIndex : Nat} {before after : PmemOps}

/-- The loop opens and closes no snippet. -/
theorem snippetInfoIndex (flushing : ArrayFlushing flush sIndex before after) :
    after.snippetInfoIndex = before.snippetInfoIndex := by
  rw [flushing.frame]

/-- The loop changes no option. -/
theorem opts (flushing : ArrayFlushing flush sIndex before after) : after.opts = before.opts := by
  rw [flushing.frame]

/-- Before its first turn the loop has done nothing. -/
theorem start (flush : PmemSt) (pmem : PmemOps) : ArrayFlushing flush 0 pmem pmem where
  frame := rfl
  grown := Nat.le_refl _
  visited passed below := by omega
  unvisited _ _ _ _ _ := rfl
  fromCut slot above below := by omega
  toCut passed below := by omega
  snippets tested := by
    by_cases same : tested = pmem.snippetInfoIndex
    · simp [same, current]
    · simp [same]
  aheadTags _ _ := rfl
  taggedTags passed below := by omega
  otherTags passed below := by omega
  markedTags passed below := by omega

/-- A piece lies outside the flushed range, is not deleted and is still dirty. -/
theorem piece (flushable : FlushableArray flush before)
    (flushing : ArrayFlushing flush sIndex before after)
    (used : sIndex ≤ before.snippetInfoIndex + 1) {slot : Nat}
    (above : before.current.index ≤ slot) (below : slot < after.current.index) :
    (after.slots slot).isDelete = false ∧ (after.slots slot).Proper ∧
      cmpPmemSt flush (after.slots slot) ≠ .eq := by
  obtain ⟨passed, isPassed, origin, inside, _, piece, member, same⟩ :=
    flushing.fromCut slot above below
  obtain ⟨proper, _, ⟨deleted, _⟩, covers, _⟩ := piece_exact flushable.range
    (flushable.proper passed (by omega) origin inside) member
  refine ⟨?_, same.proper.mpr proper, ?_⟩
  · rw [same]
    exact deleted.trans (flushable.undeleted passed (by omega) origin inside)
  · exact same.misses flushable.range proper (fun byte inPiece => (covers byte inPiece).2)

/-- A snippet that the loop has not entered yet is judged as before the flush. -/
theorem snippet_ahead (flushing : ArrayFlushing flush sIndex before after) :
    (tagsSnippet flush (after.snippetInfo sIndex) ↔ tagsSnippet flush (before.snippetInfo sIndex)) ∧
      (skipsSnippet flush (after.snippetInfo sIndex) ↔
        skipsSnippet flush (before.snippetInfo sIndex)) := by
  have tag := flushing.aheadTags sIndex (Nat.le_refl _)
  rw [flushing.snippets sIndex] at tag ⊢
  unfold tagsSnippet skipsSnippet
  simp only at tag ⊢
  rw [tag]
  exact ⟨Iff.rfl, trivial⟩

/-- The loop has not touched the records of the snippet that it enters, and the pieces
that it appended there are of no interest to it. -/
theorem entered (flushing : ArrayFlushing flush sIndex before after)
    (used : sIndex ≤ before.snippetInfoIndex) {slot : Nat}
    (low : (before.snippetInfo sIndex).startIndex ≤ slot)
    (high : slot < (after.snippetInfo sIndex).index) :
    InSnippet before sIndex slot ∧ after.slots slot = before.slots slot ∨
      sIndex = before.snippetInfoIndex ∧ before.current.index ≤ slot ∧
        slot < after.current.index := by
  by_cases original : slot < (before.snippetInfo sIndex).index
  · exact .inl ⟨⟨low, original⟩,
      flushing.unvisited sIndex (Nat.le_refl _) used slot ⟨low, original⟩⟩
  · rw [flushing.snippets sIndex] at high
    simp only at high
    split at high
    · next same =>
      refine .inr ⟨same, ?_, high⟩
      rw [same] at original
      exact Nat.le_of_not_lt original
    · exact absurd high original

/-- The inner loop may be entered. -/
theorem flushable_ahead (flushable : FlushableArray flush before)
    (flushing : ArrayFlushing flush sIndex before after)
    (used : sIndex ≤ before.snippetInfoIndex) : Flushable flush sIndex after := by
  have start : (after.snippetInfo sIndex).startIndex = (before.snippetInfo sIndex).startIndex := by
    rw [flushing.snippets sIndex]
  refine ⟨flushable.range, ?_, ?_, ?_⟩
  · have bounded := flushable.layout.bounded used
    have grown := flushing.grown
    rw [flushing.snippets sIndex]
    simp only
    split
    · exact Nat.le_refl _
    · omega
  · intro slot low high
    rw [start] at low
    rcases flushing.entered used low high with ⟨inside, held⟩ | ⟨_, above, below⟩
    · rw [held]
      exact flushable.undeleted sIndex used slot inside
    · exact (flushing.piece flushable (by omega) above below).1
  · intro slot low high
    rw [start] at low
    rcases flushing.entered used low high with ⟨inside, held⟩ | ⟨_, above, below⟩
    · rw [held]
      exact flushable.proper sIndex used slot inside
    · exact (flushing.piece flushable (by omega) above below).2.1

/-- A snippet that is tagged or skipped keeps its records. -/
theorem pass {next : PmemOps} (flushing : ArrayFlushing flush sIndex before after)
    (used : sIndex ≤ before.snippetInfoIndex)
    (unreached : ¬ reaches flush (before.snippetInfo sIndex))
    (frame : next = { after with snippetInfo := next.snippetInfo })
    (snippets : ∀ tested, next.snippetInfo tested = { after.snippetInfo tested with
      flushedNum := (next.snippetInfo tested).flushedNum })
    (others : ∀ tested, tested ≠ sIndex → next.snippetInfo tested = after.snippetInfo tested)
    (tagged : tagsSnippet flush (before.snippetInfo sIndex) →
      (next.snippetInfo sIndex).flushedNum = .allFlushed)
    (untagged : ¬ tagsSnippet flush (before.snippetInfo sIndex) →
      (next.snippetInfo sIndex).flushedNum = (after.snippetInfo sIndex).flushedNum) :
    ArrayFlushing flush (sIndex + 1) before next := by
  have slots : next.slots = after.slots := by rw [frame]
  have sameCurrent : next.current.index = after.current.index := by
    have sameIndex : next.snippetInfoIndex = after.snippetInfoIndex := by rw [frame]
    rw [current, sameIndex, snippets]
    rfl
  refine ⟨?_, ?_, ?_, ?_, ?_, ?_, ?_, ?_, ?_, ?_, ?_⟩
  · rw [frame, flushing.frame]
  · rw [sameCurrent]
    exact flushing.grown
  · intro passed isPassed slot inside
    rw [slots]
    by_cases same : passed = sIndex
    · subst same
      rw [if_neg unreached]
      exact flushing.unvisited passed (Nat.le_refl _) used slot inside
    · exact flushing.visited passed (by omega) slot inside
  · intro ahead isAhead aheadUsed slot inside
    rw [slots]
    exact flushing.unvisited ahead (by omega) aheadUsed slot inside
  · intro slot above below
    rw [sameCurrent] at below
    rw [slots]
    obtain ⟨passed, isPassed, rest⟩ := flushing.fromCut slot above below
    exact ⟨passed, by omega, rest⟩
  · intro passed isPassed origin inside reached piece member
    rw [slots, sameCurrent]
    by_cases same : passed = sIndex
    · rw [same] at reached
      exact absurd reached unreached
    · exact flushing.toCut passed (by omega) origin inside reached piece member
  · intro tested
    rw [snippets tested, flushing.snippets tested, sameCurrent]
  · intro ahead isAhead
    rw [others ahead (by omega)]
    exact flushing.aheadTags ahead (by omega)
  · intro passed isPassed tags
    by_cases same : passed = sIndex
    · rw [same] at tags ⊢
      exact tagged tags
    · rw [others passed same]
      exact flushing.taggedTags passed (by omega) tags
  · intro passed isPassed notTags
    by_cases same : passed = sIndex
    · rw [same] at notTags ⊢
      exact .inl ((untagged notTags).trans (flushing.aheadTags sIndex (Nat.le_refl _)))
    · rw [others passed same]
      exact flushing.otherTags passed (by omega) notTags
  · intro passed isPassed slot inside reached marked
    have same : passed ≠ sIndex := by
      rintro rfl
      exact unreached reached
    rw [others passed same]
    exact flushing.markedTags passed (by omega) slot inside reached marked

/-- The snippet that the loop enters has grown at most by the pieces that the loop has
appended to it, which happens when it is the current one. -/
theorem stop_grown (flushing : ArrayFlushing flush sIndex before after) :
    (before.snippetInfo sIndex).index ≤ (after.snippetInfo sIndex).index := by
  have grown := flushing.grown
  rw [flushing.snippets sIndex]
  simp only
  split
  · next same =>
    rw [same]
    exact grown
  · exact Nat.le_refl _

section Reached

/-! ### A reached snippet

The inner loop has run over the whole of the snippet `sIndex`. Each lemma says what that
does to one part of the array: the pieces appended before, the snippets passed before, the
one just passed, those ahead, and the pieces that the inner loop itself has appended. -/

variable {next : PmemOps} {final : Nat}

/-- The pieces appended so far miss the flush and stay as they are. -/
theorem reach_kept (flushable : FlushableArray flush before)
    (flushing : ArrayFlushing flush sIndex before after)
    (used : sIndex ≤ before.snippetInfoIndex)
    (inner : SnippetFlushing flush sIndex final after next)
    (whole : (after.snippetInfo sIndex).index ≤ final) {slot : Nat}
    (above : before.current.index ≤ slot) (below : slot < after.current.index) :
    next.slots slot = after.slots slot := by
  have start : (after.snippetInfo sIndex).startIndex = (before.snippetInfo sIndex).startIndex := by
    rw [flushing.snippets sIndex]
  have bounded := flushable.layout.bounded used
  have ordered := flushable.layout.ordered sIndex used
  by_cases inside : slot < (after.snippetInfo sIndex).index
  · rw [inner.visited slot (by omega) inside (by omega), treat, if_neg]
    exact fun marked => (flushing.piece flushable (by omega) above below).2.2 marked.1
  · exact inner.unvisited slot below (.inr (.inr (Nat.le_of_not_lt inside)))

/-- The loop treats the records of the reached snippet, and leaves those passed before. -/
theorem reach_visited (flushable : FlushableArray flush before)
    (flushing : ArrayFlushing flush sIndex before after)
    (used : sIndex ≤ before.snippetInfoIndex)
    (reached : reaches flush (before.snippetInfo sIndex))
    (inner : SnippetFlushing flush sIndex final after next)
    (whole : (after.snippetInfo sIndex).index ≤ final) {passed : Nat}
    (isPassed : passed < sIndex + 1) {slot : Nat} (inside : InSnippet before passed slot) :
    next.slots slot = if reaches flush (before.snippetInfo passed)
      then treat flush (before.snippetInfo passed).flushedNum (before.slots slot)
      else before.slots slot := by
  have start : (after.snippetInfo sIndex).startIndex = (before.snippetInfo sIndex).startIndex := by
    rw [flushing.snippets sIndex]
  have bounded := flushable.layout.bounded used
  have ordered := flushable.layout.ordered sIndex used
  have grown := flushing.grown
  have stop := flushing.stop_grown
  by_cases same : passed = sIndex
  · subst same
    rw [if_pos reached, ← flushing.aheadTags passed (Nat.le_refl _),
      ← flushing.unvisited passed (Nat.le_refl _) used slot inside]
    unfold InSnippet at inside
    exact inner.visited slot (by omega) (by omega) (by omega)
  · have early := flushable.layout.apart (show passed < sIndex by omega) used
    have held := flushing.visited passed (by omega) slot inside
    unfold InSnippet at inside
    rw [inner.unvisited slot (by omega) (.inl (by omega))]
    exact held

/-- The loop leaves the records of the snippets ahead. -/
theorem reach_unvisited (flushable : FlushableArray flush before)
    (flushing : ArrayFlushing flush sIndex before after)
    (inner : SnippetFlushing flush sIndex final after next)
    {ahead : Nat} (isAhead : sIndex + 1 ≤ ahead) (aheadUsed : ahead ≤ before.snippetInfoIndex)
    {slot : Nat} (inside : InSnippet before ahead slot) : next.slots slot = before.slots slot := by
  have late := flushable.layout.apart (show sIndex < ahead by omega) aheadUsed
  have aheadBounded := flushable.layout.bounded aheadUsed
  have grown := flushing.grown
  have sameStop : (after.snippetInfo sIndex).index = (before.snippetInfo sIndex).index := by
    rw [flushing.snippets sIndex]
    exact if_neg (by omega)
  have held := flushing.unvisited ahead (by omega) aheadUsed slot inside
  unfold InSnippet at inside
  rw [inner.unvisited slot (by omega) (.inr (.inr (by omega)))]
  exact held

/-- Each appended piece comes from a record that was there before the flush: a piece that
the inner loop appends is cut from a record of the reached snippet, since an earlier piece
misses the flush and is not cut again. -/
theorem reach_fromCut (flushable : FlushableArray flush before)
    (flushing : ArrayFlushing flush sIndex before after)
    (used : sIndex ≤ before.snippetInfoIndex)
    (reached : reaches flush (before.snippetInfo sIndex))
    (inner : SnippetFlushing flush sIndex final after next)
    (whole : (after.snippetInfo sIndex).index ≤ final) {slot : Nat}
    (above : before.current.index ≤ slot) (below : slot < next.current.index) :
    ∃ passed < sIndex + 1, ∃ origin, InSnippet before passed origin ∧
      reaches flush (before.snippetInfo passed) ∧
      ∃ piece ∈ treatPieces flush (before.snippetInfo passed).flushedNum (before.slots origin),
        SameRecord (next.slots slot) piece := by
  by_cases old : slot < after.current.index
  · rw [flushing.reach_kept flushable used inner whole above old]
    obtain ⟨passed, isPassed, rest⟩ := flushing.fromCut slot above old
    exact ⟨passed, by omega, rest⟩
  · obtain ⟨origin, ⟨low, high, _⟩, piece, member, same⟩ :=
      inner.fromCut slot (Nat.le_of_not_lt old) below
    rw [show (after.snippetInfo sIndex).startIndex = (before.snippetInfo sIndex).startIndex by
      rw [flushing.snippets sIndex]] at low
    rcases flushing.entered used low high with ⟨inside, sameRecord⟩ | ⟨_, late, early⟩
    · rw [sameRecord, flushing.aheadTags sIndex (Nat.le_refl _)] at member
      exact ⟨sIndex, by omega, origin, inside, reached, piece, member, same⟩
    · have missed := (flushing.piece flushable (by omega) late early).2.2
      rw [treatPieces, if_neg (fun marked => missed marked.1)] at member
      simp at member

/-- Each piece of a record that the loop has cut has its slot. -/
theorem reach_toCut (flushable : FlushableArray flush before)
    (flushing : ArrayFlushing flush sIndex before after)
    (used : sIndex ≤ before.snippetInfoIndex)
    (inner : SnippetFlushing flush sIndex final after next)
    (whole : (after.snippetInfo sIndex).index ≤ final) {passed : Nat}
    (isPassed : passed < sIndex + 1) {origin : Nat} (inside : InSnippet before passed origin)
    (reached : reaches flush (before.snippetInfo passed)) {piece : PmemSt}
    (member : piece ∈
      treatPieces flush (before.snippetInfo passed).flushedNum (before.slots origin)) :
    ∃ slot, before.current.index ≤ slot ∧ slot < next.current.index ∧
      SameRecord (next.slots slot) piece := by
  have start : (after.snippetInfo sIndex).startIndex = (before.snippetInfo sIndex).startIndex := by
    rw [flushing.snippets sIndex]
  have bounded := flushable.layout.bounded used
  have grown := flushing.grown
  have innerGrown := inner.grown
  have stop := flushing.stop_grown
  by_cases same : passed = sIndex
  · subst same
    rw [← flushing.aheadTags passed (Nat.le_refl _),
      ← flushing.unvisited passed (Nat.le_refl _) used origin inside] at member
    unfold InSnippet at inside
    obtain ⟨slot, above, below, sameRecord⟩ :=
      inner.toCut origin (by omega) (by omega) (by omega) piece member
    exact ⟨slot, by omega, below, sameRecord⟩
  · obtain ⟨slot, above, below, sameRecord⟩ :=
      flushing.toCut passed (by omega) origin inside reached piece member
    refine ⟨slot, above, by omega, ?_⟩
    rw [flushing.reach_kept flushable used inner whole above below]
    exact sameRecord

/-- The inner loop tags the reached snippet if one of its records is marked. -/
theorem reach_marked (flushable : FlushableArray flush before)
    (flushing : ArrayFlushing flush sIndex before after)
    (used : sIndex ≤ before.snippetInfoIndex)
    (inner : SnippetFlushing flush sIndex final after next)
    (whole : (after.snippetInfo sIndex).index ≤ final) {slot : Nat}
    (inside : InSnippet before sIndex slot)
    (marked : marks flush (before.snippetInfo sIndex).flushedNum (before.slots slot)) :
    (next.snippetInfo sIndex).flushedNum = .partFlushed := by
  have start : (after.snippetInfo sIndex).startIndex = (before.snippetInfo sIndex).startIndex := by
    rw [flushing.snippets sIndex]
  have bounded := flushable.layout.bounded used
  have grown := flushing.grown
  have stop := flushing.stop_grown
  rw [← flushing.aheadTags sIndex (Nat.le_refl _),
    ← flushing.unvisited sIndex (Nat.le_refl _) used slot inside] at marked
  unfold InSnippet at inside
  exact inner.markedTag slot (by omega) (by omega) (by omega) marked

/-- A snippet that is reached is flushed record by record. -/
theorem reach (flushable : FlushableArray flush before)
    (flushing : ArrayFlushing flush sIndex before after)
    (used : sIndex ≤ before.snippetInfoIndex)
    (reached : reaches flush (before.snippetInfo sIndex))
    (inner : SnippetFlushing flush sIndex final after next)
    (whole : (after.snippetInfo sIndex).index ≤ final) :
    ArrayFlushing flush (sIndex + 1) before next := by
  refine ⟨?_, Nat.le_trans flushing.grown inner.grown, ?_, ?_, ?_, ?_, ?_, ?_, ?_, ?_, ?_⟩
  · rw [inner.frame, flushing.frame]
  · exact fun passed isPassed slot inside =>
      flushing.reach_visited flushable used reached inner whole isPassed inside
  · exact fun ahead isAhead aheadUsed slot inside =>
      flushing.reach_unvisited flushable inner isAhead aheadUsed inside
  · exact fun slot above below =>
      flushing.reach_fromCut flushable used reached inner whole above below
  · exact fun passed isPassed origin inside wasReached piece member =>
      flushing.reach_toCut flushable used inner whole isPassed inside wasReached member
  · intro tested
    rw [inner.snippets tested, flushing.snippets tested, flushing.snippetInfoIndex]
    by_cases same : tested = before.snippetInfoIndex <;> simp [same]
  · intro ahead isAhead
    rw [inner.otherTags ahead (by omega)]
    exact flushing.aheadTags ahead (by omega)
  · intro passed isPassed tags
    by_cases same : passed = sIndex
    · rw [same] at tags
      exact absurd tags reached.1
    · rw [inner.otherTags passed same]
      exact flushing.taggedTags passed (by omega) tags
  · intro passed isPassed notTags
    by_cases same : passed = sIndex
    · rw [same, ← flushing.aheadTags sIndex (Nat.le_refl _)]
      exact inner.tag
    · rw [inner.otherTags passed same]
      exact flushing.otherTags passed (by omega) notTags
  · intro passed isPassed slot inside wasReached marked
    by_cases same : passed = sIndex
    · subst same
      exact flushing.reach_marked flushable used inner whole inside marked
    · rw [inner.otherTags passed same]
      exact flushing.markedTags passed (by omega) slot inside wasReached marked

end Reached

end ArrayFlushing

/-- The flush of a snippet appends the pieces that it cuts off, if any. -/
theorem flushSnippet_grows (flush : PmemSt) (state : PmemOps × Bool) (sIndex : Nat) :
    Grows state.1 (flushSnippet flush state sIndex).1 := by
  unfold flushSnippet
  simp only
  split
  · refine ⟨rfl, rfl, ?_⟩
    simp only [current, setSnippet_snippetInfo]
    split
    · next same =>
      exact Nat.le_of_eq (congrArg (fun tested => (state.1.snippetInfo tested).index) same)
    · exact Nat.le_refl _
  · split
    · exact Grows.refl _
    · exact flushSlots_grows _ _ _ _ _ _

/-- One turn of the outer loop. -/
theorem flushSnippet_exact {flush : PmemSt} {sIndex : Nat} {before pmem : PmemOps} (valid : Bool)
    (flushable : FlushableArray flush before)
    (flushing : ArrayFlushing flush sIndex before pmem)
    (used : sIndex ≤ before.snippetInfoIndex)
    (room : (flushSnippet flush (pmem, valid) sIndex).1.current.index < before.opts.maxArrayNum) :
    ArrayFlushing flush (sIndex + 1) before (flushSnippet flush (pmem, valid) sIndex).1 := by
  obtain ⟨sameTags, sameSkips⟩ := flushing.snippet_ahead
  unfold flushSnippet at room ⊢
  simp only [sameTags, sameSkips] at room ⊢
  by_cases tags : tagsSnippet flush (before.snippetInfo sIndex)
  · rw [if_pos tags]
    refine flushing.pass used (fun reached => reached.1 tags) rfl ?_ ?_ ?_ ?_
    · intro tested
      simp only [setSnippet_snippetInfo]
      split
      · next same =>
        rw [same]
      · rfl
    · intro tested differs
      simp [differs]
    · intro _
      simp
    · intro notTags
      exact absurd tags notTags
  · rw [if_neg tags] at room ⊢
    by_cases skips : skipsSnippet flush (before.snippetInfo sIndex)
    · rw [if_pos skips]
      exact flushing.pass used (fun reached => reached.2 skips) rfl (fun _ => rfl) (fun _ _ => rfl)
        (fun isTagged => absurd isTagged tags) (fun _ => rfl)
    · rw [if_neg skips] at room ⊢
      obtain ⟨final, whole, inner⟩ := flushSlots_exact (flushing.flushable_ahead flushable used)
        (3 * ((pmem.snippetInfo sIndex).index - (pmem.snippetInfo sIndex).startIndex) + 1)
        (pmem.snippetInfo sIndex).startIndex pmem valid (SnippetFlushing.start flush sIndex pmem)
        (Nat.le_refl _) (by omega) (by rw [flushing.opts]; exact room)
      exact flushing.reach flushable used ⟨tags, skips⟩ inner whole

/-- The outer loop visits all snippets. -/
theorem flushArray_exact {flush : PmemSt} {before : PmemOps}
    (flushable : FlushableArray flush before)
    (room : (flushArray flush before).1.current.index < before.opts.maxArrayNum) :
    ArrayFlushing flush (before.snippetInfoIndex + 1) before (flushArray flush before).1 := by
  have turns (count : Nat) (used : count ≤ before.snippetInfoIndex + 1)
      (enough : ((List.range count).foldl (flushSnippet flush) (before, false)).1.current.index <
        before.opts.maxArrayNum) :
      ArrayFlushing flush count before
        ((List.range count).foldl (flushSnippet flush) (before, false)).1 := by
    induction count with
    | zero => exact ArrayFlushing.start flush before
    | succ count inductionHypothesis =>
      rw [List.range_succ, List.foldl_append] at enough ⊢
      simp only [List.foldl_cons, List.foldl_nil] at enough ⊢
      have grows := (flushSnippet_grows flush
        ((List.range count).foldl (flushSnippet flush) (before, false)) count).index
      exact flushSnippet_exact _ flushable (inductionHypothesis (by omega) (by omega)) (by omega)
        enough
  exact turns _ (Nat.le_refl _) room

end PmDebugger
