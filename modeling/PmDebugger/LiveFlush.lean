import PmDebugger.Live

/-!
# What a flush does to the live records

A flush never adds bytes to the live records and never drops any. It may leave bytes of
its range dirty, when a dirty record lies outside the box of its snippet, and it may
take bytes outside its range for flushed, when it tags a snippet with a record outside
the box. Two conditions on the state before the flush exclude the two mistakes.
-/

namespace PmDebugger

open OrderedSet OrderedSet.OSet PmemOps

/-- The record lies within the flushed range. Such a record is flushed and not cut. -/
def Within (flush store : PmemSt) : Prop :=
  flush.addr ≤ store.addr ∧ store.maxAddr ≤ flush.maxAddr

instance (flush store : PmemSt) : Decidable (Within flush store) :=
  inferInstanceAs (Decidable (_ ∧ _))

/-- The bytes of a record within the flush are bytes of the flush. -/
theorem Within.covers {flush store : PmemSt} (within : Within flush store) (range : flush.Proper)
    (proper : store.Proper) {byte : Nat} (inside : store.Covers byte) : flush.Covers byte := by
  unfold Within at within
  rw [range.nonWrapping.maxAddr_eq, proper.nonWrapping.maxAddr_eq] at within
  unfold PmemSt.Covers at inside ⊢
  omega

/-- If the flush tags the current snippet, it covers every record of that snippet, and
it cuts nothing off a record of an earlier one. -/
def TagsSafely (flush : PmemSt) (pmem : PmemOps) : Prop :=
  tagsSnippet flush pmem.current →
    (∀ slot ∈ slotRange pmem.current, Within flush (pmem.slots slot)) ∧
    ∀ sIndex ∈ List.range pmem.snippetInfoIndex, reaches flush (pmem.snippetInfo sIndex) →
      ∀ slot ∈ slotRange (pmem.snippetInfo sIndex),
        marks flush (pmem.snippetInfo sIndex).flushedNum (pmem.slots slot) →
          Within flush (pmem.slots slot)

instance (flush : PmemSt) (pmem : PmemOps) : Decidable (TagsSafely flush pmem) :=
  inferInstanceAs (Decidable (_ → _ ∧ _))

/-- The flush does not skip the snippet of a dirty record that it meets. Pieces that were cut
off before may lie outside the box of their snippet, and then it does. -/
def ReachesDirty (flush : PmemSt) (pmem : PmemOps) : Prop :=
  ∀ sIndex ∈ List.range (pmem.snippetInfoIndex + 1), ∀ slot ∈ slotRange (pmem.snippetInfo sIndex),
    marks flush (pmem.snippetInfo sIndex).flushedNum (pmem.slots slot) →
      tagsSnippet flush (pmem.snippetInfo sIndex) ∨ ¬ skipsSnippet flush (pmem.snippetInfo sIndex)

instance (flush : PmemSt) (pmem : PmemOps) : Decidable (ReachesDirty flush pmem) :=
  inferInstanceAs (Decidable (∀ sIndex ∈ _, ∀ slot ∈ _, _ → _))

/-- The flush cuts no back part off a dirty tree record of the running epoch. -/
def KeepsMarks (flush : PmemSt) (pmem : PmemOps) : Prop :=
  ∀ store ∈ pmem.pmemStores.toList, store.inEpoch = true → marksTree flush store →
    store.maxAddr ≤ flush.maxAddr

instance (flush : PmemSt) (pmem : PmemOps) : Decidable (KeepsMarks flush pmem) :=
  inferInstanceAs (Decidable (∀ store ∈ pmem.pmemStores.toList, _ → _ → _))

/-- A tree record that does not stick out behind keeps its mark in every piece. -/
theorem frontOnly_inEpoch {flush being piece : PmemSt} (range : flush.Proper)
    (proper : being.Proper) (meets : cmpPmemSt flush being = .eq)
    (noBack : being.maxAddr ≤ flush.maxAddr) (member : piece ∈ treeCutPieces flush being)
    (epoch : being.inEpoch = true) : piece.inEpoch = true := by
  have same : (flushedFront flush being).maxAddr = being.maxAddr := by
    rw [(flushedFront_nonWrapping range proper meets).maxAddr_eq, proper.nonWrapping.maxAddr_eq]
    exact (flushedFront_exact range proper meets).2.1
  unfold treeCutPieces at member
  rw [if_neg (show ¬ (flushedFront flush being).maxAddr > flush.maxAddr by omega),
    List.append_nil] at member
  split at member
  · rw [List.mem_singleton.mp member]
    exact epoch
  · simp at member

/-- A piece is marked only if the record was. -/
theorem treeCutPieces_inEpoch {flush being piece : PmemSt}
    (member : piece ∈ treeCutPieces flush being) (epoch : piece.inEpoch = true) :
    being.inEpoch = true := by
  unfold treeCutPieces at member
  rcases List.mem_append.mp member with isFront | isBack
  · split at isFront
    · rw [List.mem_singleton.mp isFront] at epoch
      exact epoch
    · simp at isFront
  · split at isBack
    · rw [List.mem_singleton.mp isBack] at epoch
      exact absurd epoch (by simp [backNode, PmemSt.range, PmemSt.zero])
    · simp at isBack

/-- The parts of a record of the tree are not deleted. -/
theorem treeCutPieces_undeleted {flush being piece : PmemSt} (undeleted : being.isDelete = false)
    (member : piece ∈ treeCutPieces flush being) : piece.isDelete = false := by
  unfold treeCutPieces at member
  rcases List.mem_append.mp member with isFront | isBack
  · split at isFront
    · rw [List.mem_singleton.mp isFront]
      exact undeleted
    · simp at isFront
  · split at isBack
    · rw [List.mem_singleton.mp isBack]
      rfl
    · simp at isBack

/-- A record whose bytes are all in another one lies between its ends. -/
theorem enclosed {store being : PmemSt} (proper : store.Proper)
    (covers : ∀ byte, store.Covers byte → being.Covers byte) :
    being.addr ≤ store.addr ∧ store.addr + store.size ≤ being.addr + being.size := by
  have size := proper.nonempty
  have first := covers store.addr ⟨Nat.le_refl _, by omega⟩
  have last := covers (store.addr + store.size - 1) ⟨by omega, by omega⟩
  unfold PmemSt.Covers at first last
  omega

/-- Opening a new snippet behind one that was flushed. -/
theorem initSnippetInfo_wellFormed {pmem : PmemOps} (plain : pmem.opts.treeReorganization = false)
    (single : pmem.opts.trackMultipleStores = false) (layout : Layout pmem)
    (isClosed : pmem.current.flushedNum ≠ .noFlushed)
    (closed : ∀ sIndex < pmem.snippetInfoIndex, (pmem.snippetInfo sIndex).flushedNum ≠ .noFlushed)
    (slots : ∀ sIndex ≤ pmem.snippetInfoIndex, ∀ slot, InSnippet pmem sIndex slot →
      Pending (pmem.slots slot))
    (indexed : Indexed pmem) (stores : ∀ store ∈ pmem.pmemStores.toList, Pending store)
    (bounded : Bounded pmem) : WellFormed pmem.initSnippetInfo := by
  have other (sIndex : Nat) (old : sIndex ≤ pmem.snippetInfoIndex) :
      pmem.initSnippetInfo.snippetInfo sIndex = pmem.snippetInfo sIndex := if_neg (by omega)
  have new : pmem.initSnippetInfo.snippetInfo (pmem.snippetInfoIndex + 1) =
      emptySnippet pmem.current.index := if_pos rfl
  refine ⟨plain, single, ⟨?_, ?_, ?_⟩, ?_, ?_, ?_, ⟨indexed.keyed, indexed.fresh⟩, stores, bounded,
    ?_⟩
  · rw [other 0 (Nat.zero_le _)]
    exact layout.first
  · intro sIndex below
    have below' : sIndex < pmem.snippetInfoIndex + 1 := below
    by_cases last : sIndex = pmem.snippetInfoIndex
    · rw [last, new, other _ (Nat.le_refl _)]
      rfl
    · rw [other (sIndex + 1) (by omega), other sIndex (by omega)]
      exact layout.chained sIndex (by omega)
  · intro sIndex bound
    have bound' : sIndex ≤ pmem.snippetInfoIndex + 1 := bound
    by_cases last : sIndex = pmem.snippetInfoIndex + 1
    · rw [last, new]
      exact Nat.le_refl _
    · rw [other sIndex (by omega)]
      exact layout.ordered sIndex (by omega)
  · exact congrArg ArrSnippet.flushedNum new
  · intro sIndex below
    have below' : sIndex < pmem.snippetInfoIndex + 1 := below
    by_cases last : sIndex = pmem.snippetInfoIndex
    · rw [last, other _ (Nat.le_refl _)]
      exact isClosed
    · rw [other sIndex (by omega)]
      exact closed sIndex (by omega)
  · intro sIndex bound slot inside
    have bound' : sIndex ≤ pmem.snippetInfoIndex + 1 := bound
    by_cases last : sIndex = pmem.snippetInfoIndex + 1
    · unfold InSnippet at inside
      rw [last, new] at inside
      exact absurd inside.2 (Nat.not_lt.mpr inside.1)
    · unfold InSnippet at inside
      rw [other sIndex (by omega)] at inside
      exact slots sIndex (by omega) slot inside
  · intro slot inside
    unfold InSnippet at inside
    rw [show pmem.initSnippetInfo.snippetInfoIndex = pmem.snippetInfoIndex + 1 from rfl, new]
      at inside
    exact absurd inside.2 (Nat.not_lt.mpr inside.1)

/-- The effect of a flush, through the states after its array part and after its tree
part. -/
structure Flushed (flush : PmemSt) (before array tree after : PmemOps) : Prop where
  arrayPart : ArrayFlushing flush (before.snippetInfoIndex + 1) before array
  treePart : TreeFlushing flush [] before.pmemStores.toList array tree
  closing : ∃ quiet : PmemOps, quiet = { tree with
      superfluousFlushes := quiet.superfluousFlushes
      exited := quiet.exited } ∧ after = quiet.closeSnippet

namespace Flushed

variable {flush : PmemSt} {before array tree after : PmemOps}

/-- The array survives the rest of the flush. -/
theorem sameArray (flushed : Flushed flush before array tree after) :
    tree.slots = array.slots ∧ tree.snippetInfo = array.snippetInfo ∧
      tree.snippetInfoIndex = before.snippetInfoIndex := by
  rw [flushed.treePart.frame]
  exact ⟨rfl, rfl, flushed.arrayPart.snippetInfoIndex⟩

/-- Where the slots in use are after the array part. -/
theorem inSnippet_iff (flushed : Flushed flush before array tree after) (layout : Layout before)
    {sIndex slot : Nat} (used : sIndex ≤ before.snippetInfoIndex) :
    InSnippet array sIndex slot ↔ InSnippet before sIndex slot ∨
      sIndex = before.snippetInfoIndex ∧ before.current.index ≤ slot ∧
        slot < array.current.index := by
  have ordered := layout.ordered sIndex used
  have grown := flushed.arrayPart.grown
  unfold InSnippet
  rw [flushed.arrayPart.snippets sIndex]
  by_cases here : sIndex = before.snippetInfoIndex
  · subst here
    simp only [if_true, true_and]
    unfold current at grown ⊢
    omega
  · simp [here]

/-- Opening a new snippet changes no live record. -/
theorem mem_live_iff (flushed : Flushed flush before array tree after) {store : PmemSt} :
    store ∈ after.live ↔
      (∃ sIndex ≤ before.snippetInfoIndex, ∃ slot, InSnippet array sIndex slot ∧
        (array.slots slot).isDelete = false ∧
        store = settle (array.snippetInfo sIndex).flushedNum (array.slots slot)) ∨
      store ∈ tree.pmemStores.toList := by
  obtain ⟨slots, snippets, used⟩ := flushed.sameArray
  obtain ⟨quiet, frame, closed⟩ := flushed.closing
  have direct : store ∈ quiet.live ↔
      (∃ sIndex ≤ before.snippetInfoIndex, ∃ slot, InSnippet array sIndex slot ∧
        (array.slots slot).isDelete = false ∧
        store = settle (array.snippetInfo sIndex).flushedNum (array.slots slot)) ∨
      store ∈ tree.pmemStores.toList := by
    rw [mem_live, frame]
    unfold InSnippet
    simp only [slots, snippets, used]
  rw [← direct, closed]
  unfold closeSnippet
  split
  · rw [mem_live, mem_live]
    refine or_congr ?_ Iff.rfl
    have other (sIndex : Nat) (old : sIndex ≤ quiet.snippetInfoIndex) :
        quiet.initSnippetInfo.snippetInfo sIndex = quiet.snippetInfo sIndex :=
      if_neg (by omega)
    constructor
    · rintro ⟨sIndex, bound, slot, inside, undeleted, rfl⟩
      have bound' : sIndex ≤ quiet.snippetInfoIndex + 1 := bound
      by_cases new : sIndex = quiet.snippetInfoIndex + 1
      · have isEmpty : quiet.initSnippetInfo.snippetInfo sIndex =
            emptySnippet quiet.current.index := if_pos new
        unfold InSnippet at inside
        rw [isEmpty] at inside
        exact absurd inside.2 (Nat.not_lt.mpr inside.1)
      · refine ⟨sIndex, by omega, slot, ?_, undeleted, ?_⟩
        · unfold InSnippet at inside ⊢
          rwa [other sIndex (by omega)] at inside
        · rw [other sIndex (by omega)]
          rfl
    · rintro ⟨sIndex, bound, slot, inside, undeleted, rfl⟩
      refine ⟨sIndex, Nat.le_succ_of_le bound, slot, ?_, undeleted, ?_⟩
      · unfold InSnippet at inside ⊢
        rwa [other sIndex bound]
      · rw [other sIndex bound]
        rfl
  · exact Iff.rfl

/-- A tag that is not the full one stays so unless the snippet is tagged. -/
theorem tag_notAll (flushed : Flushed flush before array tree after) {sIndex : Nat}
    (used : sIndex ≤ before.snippetInfoIndex)
    (notTagged : ¬ tagsSnippet flush (before.snippetInfo sIndex)) :
    (array.snippetInfo sIndex).flushedNum = .allFlushed ↔
      (before.snippetInfo sIndex).flushedNum = .allFlushed := by
  rcases flushed.arrayPart.otherTags sIndex (by omega) notTagged with same | ⟨notAll, part⟩
  · rw [same]
  · rw [part]
    simp [notAll]

/-- Only the current snippet can be tagged. -/
theorem tagged_current (well : WellFormed before) {sIndex : Nat}
    (used : sIndex ≤ before.snippetInfoIndex)
    (tagged : tagsSnippet flush (before.snippetInfo sIndex)) : sIndex =
      before.snippetInfoIndex := by
  by_contra differs
  exact well.closed sIndex (by omega) tagged.2.2

/-- What becomes of a slot in use. -/
theorem slot_eq (flushed : Flushed flush before array tree after) {sIndex slot : Nat}
    (used : sIndex ≤ before.snippetInfoIndex) (inside : InSnippet before sIndex slot) :
    array.slots slot = if reaches flush (before.snippetInfo sIndex)
      then treat flush (before.snippetInfo sIndex).flushedNum (before.slots slot)
      else before.slots slot :=
  flushed.arrayPart.visited sIndex (by omega) slot inside

/-- The record of a slot in use is kept or is one that the flush marks. -/
theorem slot_cases (flushed : Flushed flush before array tree after) {sIndex slot : Nat}
    (used : sIndex ≤ before.snippetInfoIndex) (inside : InSnippet before sIndex slot) :
    array.slots slot = before.slots slot ∧ ¬ (reaches flush (before.snippetInfo sIndex) ∧
        marks flush (before.snippetInfo sIndex).flushedNum (before.slots slot)) ∨
      array.slots slot = flushedPart flush (before.slots slot) ∧
        reaches flush (before.snippetInfo sIndex) ∧
        marks flush (before.snippetInfo sIndex).flushedNum (before.slots slot) := by
  rw [flushed.slot_eq used inside]
  unfold treat
  split
  · next reached =>
    split
    · next marked => exact .inr ⟨rfl, reached, marked⟩
    · next unmarked => exact .inl ⟨rfl, fun both => unmarked both.2⟩
  · next unreached => exact .inl ⟨rfl, fun both => unreached both.1⟩

/-- A new slot of the current snippet holds a piece of a marked record. -/
theorem new_slot (flushed : Flushed flush before array tree after) (well : WellFormed before)
    (range : flush.Proper) {slot : Nat} (above : before.current.index ≤ slot)
    (below : slot < array.current.index) :
    ∃ sIndex ≤ before.snippetInfoIndex, ∃ origin, InSnippet before sIndex origin ∧
      marks flush (before.snippetInfo sIndex).flushedNum (before.slots origin) ∧
      Pending (array.slots slot) ∧ (array.slots slot).inEpoch = (before.slots origin).inEpoch ∧
      ∀ byte, (array.slots slot).Covers byte →
        (before.slots origin).Covers byte ∧ ¬ flush.Covers byte := by
  obtain ⟨sIndex, below', origin, inside, _, piece, member, same⟩ :=
    flushed.arrayPart.fromCut slot above below
  have used : sIndex ≤ before.snippetInfoIndex := by omega
  have pending := well.slots sIndex used origin inside
  obtain ⟨proper, dirty, ⟨deleted, epoch⟩, covers, marked⟩ :=
    piece_exact range pending.proper member
  have fields : (array.slots slot).isDelete = piece.isDelete ∧
      (array.slots slot).state = piece.state ∧ (array.slots slot).inEpoch = piece.inEpoch := by
    rw [same]
    exact ⟨rfl, rfl, rfl⟩
  refine ⟨sIndex, used, origin, inside, marked, ⟨same.proper.mpr proper, ?_, ?_⟩, ?_, ?_⟩
  · rw [fields.1, deleted, pending.undeleted]
  · simp [fields.2.1, dirty]
  · rw [fields.2.2, epoch]
  · exact fun byte covered => covers byte ((same.covers byte).mp covered)

/-- The bytes of a marked record outside the range are in new slots. -/
theorem cut_slot (flushed : Flushed flush before array tree after) (well : WellFormed before)
    (range : flush.Proper) {sIndex slot : Nat} (used : sIndex ≤ before.snippetInfoIndex)
    (inside : InSnippet before sIndex slot) (reached : reaches flush (before.snippetInfo sIndex))
    (marked : marks flush (before.snippetInfo sIndex).flushedNum (before.slots slot)) {byte : Nat}
    (covered : (before.slots slot).Covers byte) (outside : ¬ flush.Covers byte) :
    ∃ new, before.current.index ≤ new ∧ new < array.current.index ∧
      (array.slots new).Covers byte ∧
      (array.slots new).state = .dirty ∧ (array.slots new).isDelete = false ∧
      (array.slots new).inEpoch = (before.slots slot).inEpoch := by
  have pending := well.slots sIndex used slot inside
  have cut := cut_exact range pending.proper marked.1
  obtain ⟨piece, member, inPiece⟩ := (cut.pieces_cover byte).mpr ⟨covered, outside⟩
  have member' : piece ∈ treatPieces flush (before.snippetInfo sIndex).flushedNum
      (before.slots slot) := by
    rw [treatPieces, if_pos marked]
    exact member
  obtain ⟨new, above, below, same⟩ :=
    flushed.arrayPart.toCut sIndex (by omega) slot inside reached piece member'
  obtain ⟨deleted, epoch⟩ := cutPieces_marks member
  have fields : (array.slots new).isDelete = piece.isDelete ∧
      (array.slots new).state = piece.state ∧ (array.slots new).inEpoch = piece.inEpoch := by
    rw [same]
    exact ⟨rfl, rfl, rfl⟩
  refine ⟨new, above, below, (same.covers byte).mpr inPiece, ?_, ?_, ?_⟩
  · rw [fields.2.1, cut.pieces_state piece member]
  · rw [fields.1, deleted, pending.undeleted]
  · rw [fields.2.2, epoch]

/-- A slot in use is still in use. -/
theorem still_inSnippet (flushed : Flushed flush before array tree after) (layout : Layout before)
    {sIndex slot : Nat} (used : sIndex ≤ before.snippetInfoIndex)
    (inside : InSnippet before sIndex slot) : InSnippet array sIndex slot :=
  (flushed.inSnippet_iff layout used).mpr (.inl inside)

/-- An appended slot belongs to the current snippet. -/
theorem new_inSnippet (flushed : Flushed flush before array tree after) (layout : Layout before)
    {slot : Nat} (above : before.current.index ≤ slot) (below : slot < array.current.index) :
    InSnippet array before.snippetInfoIndex slot :=
  (flushed.inSnippet_iff layout (Nat.le_refl _)).mpr (.inr ⟨rfl, above, below⟩)

/-- The cut of a marked record keeps its marks. -/
theorem kept_exact (range : flush.Proper) {being : PmemSt} (pending : Pending being)
    (meets : cmpPmemSt flush being = .eq) : Pending (flushedPart flush being) ∧
      (flushedPart flush being).state = .flushed ∧
      (flushedPart flush being).inEpoch = being.inEpoch ∧
      ∀ byte, (flushedPart flush being).Covers byte ↔ being.Covers byte ∧ flush.Covers byte := by
  have cut := cut_exact range pending.proper meets
  exact ⟨⟨cut.kept_proper, cut.kept_mark.1.trans pending.undeleted, by simp [cut.kept_state]⟩,
    cut.kept_state, cut.kept_mark.2, cut.kept_covers⟩

/-- No byte of a live record is dropped. -/
theorem covered (flushed : Flushed flush before array tree after) (well : WellFormed before)
    (range : flush.Proper) {store : PmemSt} (member : store ∈ before.live) {byte : Nat}
    (inside : store.Covers byte) : ∃ kept ∈ after.live, kept.Covers byte ∧
      (KeepsMarks flush before → store.inEpoch = true → kept.inEpoch = true) := by
  simp only [flushed.mem_live_iff]
  rcases mem_live.mp member with ⟨sIndex, used, slot, inSlot, undeleted, rfl⟩ | inTree
  · rw [settle_covers] at inside
    rw [settle_inEpoch]
    have pending := well.slots sIndex used slot inSlot
    have still := flushed.still_inSnippet well.layout used inSlot
    rcases flushed.slot_cases used inSlot with ⟨same, _⟩ | ⟨cut, reached, marked⟩
    · refine ⟨_, .inl ⟨sIndex, used, slot, still, ?_, rfl⟩, ?_, ?_⟩
      · rw [same]
        exact undeleted
      · rw [settle_covers, same]
        exact inside
      · rw [settle_inEpoch, same]
        exact fun _ marked => marked
    · obtain ⟨keptPending, _, epoch, covers⟩ := kept_exact range pending marked.1
      by_cases inFlush : flush.Covers byte
      · refine ⟨_, .inl ⟨sIndex, used, slot, still, ?_, rfl⟩, ?_, ?_⟩
        · rw [cut]
          exact keptPending.undeleted
        · rw [settle_covers, cut]
          exact (covers byte).mpr ⟨inside, inFlush⟩
        · rw [settle_inEpoch, cut, epoch]
          exact fun _ marked => marked
      · obtain ⟨new, above, below, covered, _, newUndeleted, newEpoch⟩ :=
          flushed.cut_slot well range used inSlot reached marked inside inFlush
        refine ⟨_, .inl ⟨_, Nat.le_refl _, new, flushed.new_inSnippet well.layout above below,
          newUndeleted, rfl⟩, ?_, ?_⟩
        · rwa [settle_covers]
        · rw [settle_inEpoch, newEpoch]
          exact fun _ marked => marked
  · have pending := well.stores store inTree
    have treated := flushed.treePart.treated store inTree
    by_cases marked : marksTree flush store
    · rw [treatTree, if_pos marked] at treated
      have cut := tree_cut_exact range pending.proper marked.1
      by_cases inFlush : flush.Covers byte
      · exact ⟨_, .inr treated, (cut.kept_covers byte).mpr ⟨inside, inFlush⟩,
          fun _ epoch => cut.kept_mark.2.trans epoch⟩
      · obtain ⟨piece, isPiece, inPiece⟩ := (cut.pieces_cover byte).mpr ⟨inside, inFlush⟩
        obtain ⟨node, isNode, same⟩ := flushed.treePart.toCut store inTree piece
          (by rw [treatTreePieces, if_pos marked]; exact isPiece)
        refine ⟨node, .inr isNode, (same.covers byte).mpr inPiece, fun keeps epoch => ?_⟩
        have nodeEpoch : node.inEpoch = piece.inEpoch := by rw [same]
        rw [nodeEpoch]
        exact frontOnly_inEpoch range pending.proper marked.1 (keeps store inTree epoch marked)
          isPiece epoch
    · rw [treatTree, if_neg marked] at treated
      exact ⟨store, .inr treated, inside, fun _ epoch => epoch⟩

/-- A dirty byte outside the range stays dirty, unless a snippet is tagged by mistake.
Its record keeps the mark of the epoch as above. -/
theorem still_dirty (flushed : Flushed flush before array tree after) (well : WellFormed before)
    (range : flush.Proper) (safe : TagsSafely flush before) {store : PmemSt}
    (member : store ∈ before.live) (dirty : store.state ≠ .flushed) {byte : Nat}
    (inside : store.Covers byte) (outside : ¬ flush.Covers byte) :
    ∃ kept ∈ after.live, kept.state ≠ .flushed ∧ kept.Covers byte ∧
      (KeepsMarks flush before → store.inEpoch = true → kept.inEpoch = true) := by
  simp only [flushed.mem_live_iff]
  rcases mem_live.mp member with ⟨sIndex, used, slot, inSlot, undeleted, rfl⟩ | inTree
  · rw [settle_covers] at inside
    rw [settle_inEpoch]
    rw [ne_eq, settle_flushed_iff, not_or] at dirty
    have pending := well.slots sIndex used slot inSlot
    have still := flushed.still_inSnippet well.layout used inSlot
    -- Were the snippet tagged, the flush would cover the record.
    have notTagged : ¬ tagsSnippet flush (before.snippetInfo sIndex) := by
      intro tagged
      obtain rfl := tagged_current well used tagged
      exact outside (((safe tagged).1 slot (mem_slotRange.mpr inSlot)).covers range pending.proper
        inside)
    rcases flushed.slot_cases used inSlot with ⟨same, _⟩ | ⟨_, reached, marked⟩
    · refine ⟨_, .inl ⟨sIndex, used, slot, still, ?_, rfl⟩, ?_, ?_, ?_⟩
      · rw [same]
        exact undeleted
      · rw [ne_eq, settle_flushed_iff, not_or, flushed.tag_notAll used notTagged, same]
        exact dirty
      · rw [settle_covers, same]
        exact inside
      · rw [settle_inEpoch, same]
        exact fun _ epoch => epoch
    · obtain ⟨new, above, below, covered, newDirty, newUndeleted, newEpoch⟩ :=
        flushed.cut_slot well range used inSlot reached marked inside outside
      -- Nor is the snippet tagged to which the piece goes.
      have currentNotTagged :
          ¬ tagsSnippet flush (before.snippetInfo before.snippetInfoIndex) := by
        intro tagged
        have earlier : sIndex < before.snippetInfoIndex := by
          refine Nat.lt_of_le_of_ne used (fun same => ?_)
          rw [same] at reached
          exact reached.1 tagged
        exact outside (((safe tagged).2 sIndex (List.mem_range.mpr earlier) reached slot
          (mem_slotRange.mpr inSlot) marked).covers range pending.proper inside)
      refine ⟨_, .inl ⟨_, Nat.le_refl _, new, flushed.new_inSnippet well.layout above below,
        newUndeleted, rfl⟩, ?_, by rwa [settle_covers], ?_⟩
      · rw [ne_eq, settle_flushed_iff, not_or, flushed.tag_notAll (Nat.le_refl _) currentNotTagged,
          well.current_tag, newDirty]
        simp
      · rw [settle_inEpoch, newEpoch]
        exact fun _ epoch => epoch
  · have pending := well.stores store inTree
    have treated := flushed.treePart.treated store inTree
    by_cases marked : marksTree flush store
    · have cut := tree_cut_exact range pending.proper marked.1
      obtain ⟨piece, isPiece, inPiece⟩ := (cut.pieces_cover byte).mpr ⟨inside, outside⟩
      obtain ⟨node, isNode, same⟩ := flushed.treePart.toCut store inTree piece
        (by rw [treatTreePieces, if_pos marked]; exact isPiece)
      refine ⟨node, .inr isNode, ?_, (same.covers byte).mpr inPiece, fun keeps epoch => ?_⟩
      · rw [same.sameRange.state, cut.pieces_state piece isPiece]
        simp
      · have nodeEpoch : node.inEpoch = piece.inEpoch := by rw [same]
        rw [nodeEpoch]
        exact frontOnly_inEpoch range pending.proper marked.1 (keeps store inTree epoch marked)
          isPiece epoch
    · rw [treatTree, if_neg marked] at treated
      exact ⟨store, .inr treated, dirty, inside, fun _ epoch => epoch⟩

/-- Every live record after the flush comes from one before it, with fewer bytes. If it
is dirty, so was the other one, and it is clear of the range unless a dirty record was
missed. -/
theorem origin (flushed : Flushed flush before array tree after) (well : WellFormed before)
    (range : flush.Proper) {store : PmemSt} (member : store ∈ after.live) :
    ∃ old ∈ before.live, (∀ byte, store.Covers byte → old.Covers byte) ∧
      (store.inEpoch = true → old.inEpoch = true) ∧
      (store.state ≠ .flushed → old.state ≠ .flushed ∧
        (ReachesDirty flush before → ∀ byte, store.Covers byte → ¬ flush.Covers byte)) := by
  have fromMarked {sIndex slot : Nat} (used : sIndex ≤ before.snippetInfoIndex)
      (inside : InSnippet before sIndex slot)
      (marked : marks flush (before.snippetInfo sIndex).flushedNum (before.slots slot)) :
      before.slots slot ∈ before.live ∧ (before.slots slot).state ≠ .flushed := by
    refine ⟨mem_live.mpr (.inl ⟨sIndex, used, slot, inside,
      (well.slots sIndex used slot inside).undeleted, (settle_of_ne marked.2.1 _).symm⟩), ?_⟩
    simp [marked.2.2]
  rcases flushed.mem_live_iff.mp member with ⟨sIndex, used, slot, inArray, undeleted, rfl⟩ | inTree
  · rcases (flushed.inSnippet_iff well.layout used).mp inArray with inSlot | ⟨_, above, below⟩
    · have pending := well.slots sIndex used slot inSlot
      rcases flushed.slot_cases used inSlot with ⟨same, unmarked⟩ | ⟨cut, _, marked⟩
      · rw [same]
        refine ⟨_, mem_live.mpr (.inl ⟨sIndex, used, slot, inSlot, pending.undeleted, rfl⟩),
          ?_, ?_, ?_⟩
        · simp
        · simp
        · intro dirty
          rw [ne_eq, settle_flushed_iff, not_or] at dirty
          have notTagged : ¬ tagsSnippet flush (before.snippetInfo sIndex) :=
            fun tagged => dirty.2 (flushed.arrayPart.taggedTags sIndex (by omega) tagged)
          rw [flushed.tag_notAll used notTagged] at dirty
          refine ⟨by rw [ne_eq, settle_flushed_iff, not_or]; exact dirty, ?_⟩
          intro reaching byte inside inFlush
          rw [settle_covers] at inside
          -- A dirty record that meets the range is marked, so it is reached.
          have isDirty : (before.slots slot).state = .dirty := by
            have := pending.written
            cases state : (before.slots slot).state <;> simp_all
          have meets := (cmpPmemSt_eq_iff_shared range pending.proper).mpr ⟨byte, inFlush, inside⟩
          have marked : marks flush (before.snippetInfo sIndex).flushedNum (before.slots slot) :=
            ⟨meets, dirty.2, isDirty⟩
          rcases reaching sIndex (List.mem_range.mpr (by omega)) slot (mem_slotRange.mpr inSlot)
            marked with tagged | notSkipped
          · exact notTagged tagged
          · exact unmarked ⟨⟨notTagged, notSkipped⟩, marked⟩
      · obtain ⟨_, flushedState, epoch, covers⟩ := kept_exact range pending marked.1
        obtain ⟨live, _⟩ := fromMarked used inSlot marked
        rw [cut]
        refine ⟨_, live, ?_, ?_, fun dirty => absurd ?_ dirty⟩
        · intro byte inside
          rw [settle_covers] at inside
          exact ((covers byte).mp inside).1
        · rw [settle_inEpoch, epoch]
          exact id
        · exact (settle_flushed_iff _ _).mpr (.inl flushedState)
    · obtain ⟨passed, passedUsed, slotOrigin, inOrigin, marked, _, epoch, covers⟩ :=
        flushed.new_slot well range above below
      obtain ⟨live, oldDirty⟩ := fromMarked passedUsed inOrigin marked
      refine ⟨_, live, ?_, ?_, fun _ => ⟨oldDirty, fun _ byte inside => ?_⟩⟩
      · intro byte inside
        rw [settle_covers] at inside
        exact (covers byte inside).1
      · rw [settle_inEpoch, epoch]
        exact id
      · rw [settle_covers] at inside
        exact (covers byte inside).2
  · have oldLive (being : PmemSt) (isBeing : being ∈ before.pmemStores.toList) :
        being ∈ before.live := mem_live.mpr (.inr isBeing)
    rcases flushed.treePart.origin store inTree with none | ⟨being, isBeing, rfl⟩ |
      ⟨being, isBeing, piece, isPiece, same⟩
    · simp at none
    · have pending := well.stores being isBeing
      by_cases marked : marksTree flush being
      · have cut := tree_cut_exact range pending.proper marked.1
        rw [treatTree, if_pos marked]
        refine ⟨being, oldLive being isBeing, ?_, ?_, fun dirty => absurd cut.kept_state dirty⟩
        · exact fun byte inside => ((cut.kept_covers byte).mp inside).1
        · rw [cut.kept_mark.2]
          exact id
      · rw [treatTree, if_neg marked]
        refine ⟨being, oldLive being isBeing, fun _ => id, id, fun dirty => ⟨dirty, ?_⟩⟩
        intro _ byte inside inFlush
        have isDirty : being.state = .dirty := by
          have := pending.written
          cases state : being.state <;> simp_all
        exact marked ⟨(cmpPmemSt_eq_iff_shared range pending.proper).mpr ⟨byte, inFlush, inside⟩,
          isDirty⟩
    · unfold treatTreePieces at isPiece
      split at isPiece
      · next marked =>
        have cut := tree_cut_exact range (well.stores being isBeing).proper marked.1
        have covers (byte : Nat) (inside : store.Covers byte) :
            being.Covers byte ∧ ¬ flush.Covers byte :=
          (cut.pieces_cover byte).mp ⟨piece, isPiece, (same.covers byte).mp inside⟩
        refine ⟨being, oldLive being isBeing, fun byte inside => (covers byte inside).1, ?_,
          fun _ => ⟨by simp [marked.2], fun _ byte inside => (covers byte inside).2⟩⟩
        have nodeEpoch : store.inEpoch = piece.inEpoch := by rw [same]
        rw [nodeEpoch]
        exact treeCutPieces_inEpoch isPiece
      · simp at isPiece

/-- A tree record after the flush is a pending part of one before it. -/
theorem tree_store (flushed : Flushed flush before array tree after) (well : WellFormed before)
    (range : flush.Proper) {store : PmemSt} (member : store ∈ tree.pmemStores.toList) :
    Pending store ∧ ∃ being ∈ before.pmemStores.toList, being.addr ≤ store.addr ∧
      store.addr + store.size ≤ being.addr + being.size := by
  rcases flushed.treePart.origin store member with none | ⟨being, isBeing, rfl⟩ |
    ⟨being, isBeing, piece, isPiece, same⟩
  · simp at none
  · have pending := well.stores being isBeing
    by_cases marked : marksTree flush being
    · obtain ⟨keptPending, _, _, covers⟩ := kept_exact range pending marked.1
      rw [treatTree, if_pos marked]
      exact ⟨keptPending, being, isBeing, enclosed keptPending.proper
        (fun byte inside => ((covers byte).mp inside).1)⟩
    · rw [treatTree, if_neg marked]
      exact ⟨pending, being, isBeing, Nat.le_refl _, Nat.le_refl _⟩
  · have pending := well.stores being isBeing
    unfold treatTreePieces at isPiece
    split at isPiece
    · next marked =>
      have cut := tree_cut_exact range pending.proper marked.1
      have proper : store.Proper := same.proper.mpr (cut.pieces_proper piece isPiece)
      refine ⟨⟨proper, ?_, ?_⟩, being, isBeing, enclosed proper (fun byte inside =>
        ((cut.pieces_cover byte).mp ⟨piece, isPiece, (same.covers byte).mp inside⟩).1)⟩
      · have deleted : store.isDelete = piece.isDelete := by rw [same]
        rw [deleted]
        exact treeCutPieces_undeleted pending.undeleted isPiece
      · rw [same.sameRange.state, cut.pieces_state piece isPiece]
        simp
    · simp at isPiece

/-- The slots in use after the array part hold pending records. -/
theorem array_slot (flushed : Flushed flush before array tree after) (well : WellFormed before)
    (range : flush.Proper) {sIndex slot : Nat} (used : sIndex ≤ before.snippetInfoIndex)
    (inside : InSnippet array sIndex slot) : Pending (array.slots slot) := by
  rcases (flushed.inSnippet_iff well.layout used).mp inside with inSlot | ⟨_, above, below⟩
  · have pending := well.slots sIndex used slot inSlot
    rcases flushed.slot_cases used inSlot with ⟨same, _⟩ | ⟨cut, _, marked⟩
    · rw [same]
      exact pending
    · rw [cut]
      exact (kept_exact range pending marked.1).1
  · obtain ⟨_, _, _, _, _, pending, _⟩ := flushed.new_slot well range above below
    exact pending

/-- The snippets divide the array as before. -/
theorem array_layout (flushed : Flushed flush before array tree after) (layout : Layout before) :
    Layout array := by
  have grown := flushed.arrayPart.grown
  have start (sIndex : Nat) :
      (array.snippetInfo sIndex).startIndex = (before.snippetInfo sIndex).startIndex := by
    rw [flushed.arrayPart.snippets sIndex]
  have other (sIndex : Nat) (differs : sIndex ≠ before.snippetInfoIndex) :
      (array.snippetInfo sIndex).index = (before.snippetInfo sIndex).index := by
    rw [flushed.arrayPart.snippets sIndex]
    exact if_neg differs
  have used := flushed.arrayPart.snippetInfoIndex
  refine ⟨?_, ?_, ?_⟩
  · rw [start]
    exact layout.first
  · intro sIndex below
    rw [used] at below
    rw [start, other sIndex (by omega)]
    exact layout.chained sIndex below
  · intro sIndex bound
    rw [used] at bound
    have ordered := layout.ordered sIndex bound
    rw [start]
    by_cases here : sIndex = before.snippetInfoIndex
    · have atEnd : (array.snippetInfo sIndex).index = array.current.index := by
        rw [here, ← used]
        rfl
      rw [atEnd]
      rw [here] at ordered ⊢
      exact Nat.le_trans ordered grown
    · rw [other sIndex here]
      exact ordered

/-- No earlier snippet loses its mark. -/
theorem array_closed (flushed : Flushed flush before array tree after) (well : WellFormed before)
    {sIndex : Nat} (below : sIndex < before.snippetInfoIndex) :
    (array.snippetInfo sIndex).flushedNum ≠ .noFlushed := by
  have closed := well.closed sIndex below
  rcases flushed.arrayPart.otherTags sIndex (by omega) (fun tagged => closed tagged.2.2) with
    same | ⟨_, part⟩
  · rw [same]
    exact closed
  · simp [part]

/-- A current snippet that stays open has no flushed record. -/
theorem array_unflushed (flushed : Flushed flush before array tree after)
    (well : WellFormed before) (range : flush.Proper)
    (isOpen : (array.snippetInfo before.snippetInfoIndex).flushedNum = .noFlushed) {slot : Nat}
    (inside : InSnippet array before.snippetInfoIndex slot) : (array.slots slot).state ≠
      .flushed := by
  rcases (flushed.inSnippet_iff well.layout (Nat.le_refl _)).mp inside with
    inSlot | ⟨_, above, below⟩
  · rcases flushed.slot_cases (Nat.le_refl _) inSlot with ⟨same, _⟩ | ⟨_, reached, marked⟩
    · rw [same]
      exact well.unflushed slot inSlot
    · have part := flushed.arrayPart.markedTags before.snippetInfoIndex (Nat.lt_succ_self _) slot
        inSlot reached marked
      rw [isOpen] at part
      exact absurd part (by simp)
  · obtain ⟨sIndex, used, origin, inOrigin, _, piece, member, same⟩ :=
      flushed.arrayPart.fromCut slot above below
    have proper := (well.slots sIndex (Nat.le_of_lt_succ used) origin inOrigin).proper
    rw [same.sameRange.state, (piece_exact range proper member).2.1]
    simp

/-- A flush leaves the tracker well formed. -/
theorem wellFormed (flushed : Flushed flush before array tree after) (well : WellFormed before)
    (range : flush.Proper) : WellFormed after := by
  obtain ⟨quiet, frame, closing⟩ := flushed.closing
  have quietArray : quiet = { array with
      pmemStores := tree.pmemStores
      dbPmemStoreIndex := tree.dbPmemStoreIndex
      redundantFlushes := quiet.redundantFlushes
      superfluousFlushes := quiet.superfluousFlushes
      exited := quiet.exited } := by
    rw [frame, flushed.treePart.frame]
  have used : quiet.snippetInfoIndex = before.snippetInfoIndex := by
    rw [quietArray]
    exact flushed.arrayPart.snippetInfoIndex
  have opts : quiet.opts = before.opts := by
    rw [quietArray]
    exact flushed.arrayPart.opts
  have layout : Layout quiet := by
    rw [quietArray]
    have array := flushed.array_layout well.layout
    exact ⟨array.first, array.chained, array.ordered⟩
  have slots : ∀ sIndex ≤ quiet.snippetInfoIndex, ∀ slot, InSnippet quiet sIndex slot →
      Pending (quiet.slots slot) := by
    intro sIndex bound slot inside
    rw [used] at bound
    rw [quietArray] at inside ⊢
    exact flushed.array_slot well range bound inside
  have closed : ∀ sIndex < quiet.snippetInfoIndex,
      (quiet.snippetInfo sIndex).flushedNum ≠ .noFlushed := by
    intro sIndex below
    rw [used] at below
    rw [quietArray]
    exact flushed.array_closed well below
  have indexed : Indexed quiet := by
    rw [quietArray]
    exact ⟨flushed.treePart.indexed.keyed, flushed.treePart.indexed.fresh⟩
  have stores : ∀ store ∈ quiet.pmemStores.toList, Pending store := by
    rw [quietArray]
    exact fun store member => (flushed.tree_store well range member).1
  have bounded : Bounded quiet := by
    rw [quietArray]
    intro store member
    obtain ⟨_, being, isBeing, low, high⟩ := flushed.tree_store well range member
    obtain ⟨lowest, highest⟩ := well.bounded being isBeing
    have bounds : array.minAddPmemStore = before.minAddPmemStore ∧
        array.maxAddPmemStore = before.maxAddPmemStore := by
      rw [flushed.arrayPart.frame]
      exact ⟨rfl, rfl⟩
    show array.minAddPmemStore ≤ store.addr ∧ store.addr + store.size ≤ array.maxAddPmemStore
    rw [bounds.1, bounds.2]
    omega
  rw [closing]
  unfold closeSnippet
  split
  · next isClosed =>
    exact initSnippetInfo_wellFormed (opts ▸ well.plain) (opts ▸ well.single) layout isClosed closed
      slots indexed stores bounded
  · next isOpen =>
    refine ⟨opts ▸ well.plain, opts ▸ well.single, layout, not_not.mp isOpen, closed, slots,
      indexed, stores, bounded, ?_⟩
    intro slot inside
    have stillOpen := not_not.mp isOpen
    unfold current at stillOpen
    rw [used] at inside stillOpen
    rw [quietArray] at inside stillOpen ⊢
    exact flushed.array_unflushed well range stillOpen inside

end Flushed

/-- The check of strand order changes its register only. -/
theorem checkStrandOrder_frame (flush : PmemSt) (strandId : Nat) (pmem : PmemOps) :
    pmem.checkStrandOrder flush strandId = { pmem with
      lackOrderingTrandReg := (pmem.checkStrandOrder flush strandId).lackOrderingTrandReg } := by
  unfold checkStrandOrder
  split <;> rfl

/-- The warning writes to its register, or ends the process when that is full. -/
theorem warnSuperfluousFlush_frame (flush : PmemSt) (context : Option ExeContext) (valid : Bool)
    (pmem : PmemOps) : pmem.warnSuperfluousFlush flush context valid = { pmem with
      superfluousFlushes := (pmem.warnSuperfluousFlush flush context valid).superfluousFlushes
      exited := (pmem.warnSuperfluousFlush flush context valid).exited } := by
  unfold warnSuperfluousFlush
  split <;> rfl

/-- Opening a new snippet takes no slot. -/
theorem closeSnippet_index (pmem : PmemOps) :
    pmem.closeSnippet.current.index = pmem.current.index := by
  unfold closeSnippet
  split
  · show (pmem.initSnippetInfo.snippetInfo (pmem.snippetInfoIndex + 1)).index = _
    rw [show pmem.initSnippetInfo.snippetInfo (pmem.snippetInfoIndex + 1) =
      emptySnippet pmem.current.index from if_pos rfl]
    rfl
  · rfl

/-- The snippets of a well-formed tracker can be flushed. -/
theorem WellFormed.flushable {pmem : PmemOps} (well : WellFormed pmem) {flush : PmemSt}
    (range : flush.Proper) : FlushableArray flush pmem where
  range := range
  layout := well.layout
  undeleted sIndex used slot inside := (well.slots sIndex used slot inside).undeleted
  proper sIndex used slot inside := (well.slots sIndex used slot inside).proper

/-- The array, the tree and the closing of the snippet together make the flush. -/
theorem flush_flushed {flush : PmemSt} (range : flush.Proper) (context : Option ExeContext)
    {pmem : PmemOps} (well : WellFormed pmem)
    (room : (flushArray flush pmem).1.current.index < pmem.opts.maxArrayNum) :
    Flushed flush pmem (flushArray flush pmem).1
      ((flushArray flush pmem).1.flushStores flush (flushArray flush pmem).2).1
      ((((flushArray flush pmem).1.flushStores flush
        (flushArray flush pmem).2).1.warnSuperfluousFlush
        flush context ((flushArray flush pmem).1.flushStores flush
          (flushArray flush pmem).2).2).closeSnippet) := by
  have arrayPart := flushArray_exact (well.flushable range) room
  have stores : (flushArray flush pmem).1.pmemStores = pmem.pmemStores := by
    rw [arrayPart.frame]
  refine ⟨arrayPart, ?_, _, warnSuperfluousFlush_frame _ _ _ _, rfl⟩
  rw [← stores]
  refine flushStores_exact range _ ?_ ?_ ?_ ?_
  · rw [arrayPart.opts]
    exact well.plain
  · rw [arrayPart.frame]
    exact ⟨well.indexed.keyed, well.indexed.fresh⟩
  · rw [stores]
    exact fun being member => (well.stores being member).proper
  · rw [arrayPart.frame]
    exact well.bounded

/-- What a flush does to the live records. Dirty records within the range are flushed, those
that stick out are cut, and the others stay; a tag that is set by mistake and a skipped record
are allowed for. -/
structure FlushEffect (flush : PmemSt) (before after : PmemOps) : Prop where
  frame : after = { before with
    pmemStores := after.pmemStores
    slots := after.slots
    snippetInfoIndex := after.snippetInfoIndex
    snippetInfo := after.snippetInfo
    redundantFlushes := after.redundantFlushes
    superfluousFlushes := after.superfluousFlushes
    lackOrderingTrandReg := after.lackOrderingTrandReg
    dbPmemStoreIndex := after.dbPmemStoreIndex
    exited := after.exited }
  wellFormed : WellFormed after
  covered : ∀ store ∈ before.live, ∀ byte, store.Covers byte →
    ∃ kept ∈ after.live, kept.Covers byte ∧
      (KeepsMarks flush before → store.inEpoch = true → kept.inEpoch = true)
  still_dirty : TagsSafely flush before → ∀ store ∈ before.live, store.state ≠ .flushed →
    ∀ byte, store.Covers byte → ¬ flush.Covers byte →
      ∃ kept ∈ after.live, kept.state ≠ .flushed ∧ kept.Covers byte ∧
        (KeepsMarks flush before → store.inEpoch = true → kept.inEpoch = true)
  origin : ∀ store ∈ after.live, ∃ old ∈ before.live,
    (∀ byte, store.Covers byte → old.Covers byte) ∧
    (store.inEpoch = true → old.inEpoch = true) ∧
    (store.state ≠ .flushed → old.state ≠ .flushed ∧
      (ReachesDirty flush before → ∀ byte, store.Covers byte → ¬ flush.Covers byte))

/-- To close a snippet writes to the table only. -/
theorem closeSnippet_frame (pmem : PmemOps) : pmem.closeSnippet = { pmem with
    snippetInfoIndex := pmem.closeSnippet.snippetInfoIndex
    snippetInfo := pmem.closeSnippet.snippetInfo } := by
  unfold closeSnippet
  split <;> rfl

/-- The whole flush, as its two loops have described it. -/
theorem Flushed.effect {flush : PmemSt} {before array tree after : PmemOps}
    (flushed : Flushed flush before array tree after) (well : WellFormed before)
    (range : flush.Proper) : FlushEffect flush before after := by
  obtain ⟨quiet, frame, closing⟩ := flushed.closing
  refine ⟨?_, flushed.wellFormed well range, ?_, ?_, ?_⟩
  · rw [closing, closeSnippet_frame, frame, flushed.treePart.frame, flushed.arrayPart.frame]
  · exact fun store member byte inside => flushed.covered well range member inside
  · exact fun safe store member dirty byte inside outside =>
      flushed.still_dirty well range safe member dirty inside outside
  · exact fun store member => flushed.origin well range member

/-- The state in which the loops of `do_flush` start, and what they make of it. -/
theorem doFlush_flushed {pmem : PmemOps} (well : WellFormed pmem) {base size : Nat}
    (context : Option ExeContext) (strandId : Nat)
    (range : (flushInfo pmem.opts pmem.flushAlignSize base size).Proper)
    (room : (pmem.doFlush base size context strandId).current.index < pmem.opts.maxArrayNum) :
    ∃ register array tree,
      WellFormed { pmem with lackOrderingTrandReg := register } ∧
      Flushed (flushInfo pmem.opts pmem.flushAlignSize base size)
        { pmem with lackOrderingTrandReg := register } array tree
        (pmem.doFlush base size context strandId) := by
  have checked := checkStrandOrder_frame (flushInfo pmem.opts pmem.flushAlignSize base size)
    strandId pmem
  unfold doFlush at room ⊢
  simp only at room ⊢
  rw [checked] at room ⊢
  generalize (pmem.checkStrandOrder (flushInfo pmem.opts pmem.flushAlignSize base size)
    strandId).lackOrderingTrandReg = register at room ⊢
  generalize flushInfo pmem.opts pmem.flushAlignSize base size = flush at *
  have wellChecked : WellFormed { pmem with lackOrderingTrandReg := register } :=
    well.of_same ⟨rfl, rfl, rfl, rfl, rfl, rfl, rfl, rfl⟩
  refine ⟨register, _, _, wellChecked, flush_flushed range context wellChecked ?_⟩
  rw [closeSnippet_index, warnSuperfluousFlush_frame] at room
  exact (flushStores_frame flush _ _).2 ▸ room

/-- A flush never changes the options. -/
theorem doFlush_opts (base size : Nat) (context : Option ExeContext) (strandId : Nat)
    (pmem : PmemOps) : (pmem.doFlush base size context strandId).opts = pmem.opts := by
  have array (flush : PmemSt) (start : PmemOps) : (flushArray flush start).1.opts = start.opts := by
    refine List.foldlRecOn (motive := fun state : PmemOps × Bool => state.1.opts = start.opts) _
      _ rfl ?_
    intro state same sIndex _
    exact (flushSnippet_grows flush state sIndex).opts.trans same
  unfold doFlush
  simp only
  rw [closeSnippet_frame, warnSuperfluousFlush_frame]
  simp only
  rw [(flushStores_frame _ _ _).1, array, checkStrandOrder_frame]

/-- `do_flush` on a well-formed tracker whose array does not fill up. -/
theorem doFlush_effect {pmem : PmemOps} (well : WellFormed pmem) {base size : Nat}
    (context : Option ExeContext) (strandId : Nat)
    (range : (flushInfo pmem.opts pmem.flushAlignSize base size).Proper)
    (room : (pmem.doFlush base size context strandId).current.index < pmem.opts.maxArrayNum) :
    FlushEffect (flushInfo pmem.opts pmem.flushAlignSize base size) pmem
      (pmem.doFlush base size context strandId) := by
  obtain ⟨register, array, tree, wellChecked, flushed⟩ :=
    doFlush_flushed well context strandId range room
  have effect := flushed.effect wellChecked range
  exact ⟨effect.frame, effect.wellFormed, effect.covered, effect.still_dirty, effect.origin⟩

end PmDebugger
