import PmDebugger.FlushFence

/-!
# The array part of a flush

The two nested loops of `do_flush` are described by what they leave in every slot and
in every entry of the snippet table. A record that the flush marks is replaced by its
part within the flushed range; its parts outside are appended, unflushed, to the
current snippet. Nothing else changes.

The description assumes that no slot in use is deleted and that the array does not
fill up. It does not assume that a record lies within the box of its snippet.
-/

namespace PmDebugger

open OrderedSet OrderedSet.OSet PmemOps

/-- The record keeps everything but its index. A slot that takes over a piece keeps its own
index, and nothing in the array reads it. -/
def SameRecord (first second : PmemSt) : Prop := first = { second with index := first.index }

/-- A record is the same as itself. -/
theorem SameRecord.refl (store : PmemSt) : SameRecord store store := rfl

/-- The flush takes effect on a record of a snippet with this tag. The flush meets the record,
and neither the record nor its snippet is flushed yet. -/
def marks (flush : PmemSt) (tag : FlushedState) (being : PmemSt) : Prop :=
  cmpPmemSt flush being = .eq ∧ tag ≠ .allFlushed ∧ being.state = .dirty

instance (flush : PmemSt) (tag : FlushedState) (being : PmemSt) :
    Decidable (marks flush tag being) :=
  inferInstanceAs (Decidable (_ ∧ _ ∧ _))

/-- A marked record without its part before the flushed range. It may still stick out behind. -/
def flushedFront (flush being : PmemSt) : PmemSt :=
  let flushed := { being with state := .flushed }
  if being.addr < flush.addr then cutFront flush flushed else flushed

/-- The part of a marked record within the flushed range. This is what stays in the slot. -/
def flushedPart (flush being : PmemSt) : PmemSt :=
  let front := flushedFront flush being
  if front.maxAddr > flush.maxAddr then cutBack flush front else front

/-- The parts of a marked record outside the flushed range, in the order in which they
are appended. -/
def cutPieces (flush being : PmemSt) : List PmemSt :=
  (if being.addr < flush.addr then [frontSplit flush { being with state := .flushed }] else []) ++
    (if (flushedFront flush being).maxAddr > flush.maxAddr
      then [backSplit flush (flushedFront flush being)] else [])

/-- A record cut along the flushed range. The part that is kept lies within the range, the
pieces lie outside, and together they have the bytes of the record. -/
structure CutExact (flush being kept : PmemSt) (pieces : List PmemSt) : Prop where
  kept_covers : ∀ byte, kept.Covers byte ↔ being.Covers byte ∧ flush.Covers byte
  pieces_cover : ∀ byte, (∃ piece ∈ pieces, piece.Covers byte) ↔
    being.Covers byte ∧ ¬ flush.Covers byte
  kept_proper : kept.Proper
  pieces_proper : ∀ piece ∈ pieces, piece.Proper
  kept_state : kept.state = .flushed
  pieces_state : ∀ piece ∈ pieces, piece.state = .dirty
  kept_mark : kept.isDelete = being.isDelete ∧ kept.inEpoch = being.inEpoch

section Cutting

variable {flush being : PmemSt}

/-- A proper record is not empty and does not wrap. -/
theorem proper_iff (store : PmemSt) :
    store.Proper ↔ 0 < store.size ∧ store.addr + store.size < 2 ^ 64 :=
  ⟨fun proper => ⟨proper.nonempty, proper.nonWrapping⟩, fun both => ⟨both.1, both.2⟩⟩

/-- The first cut, by ordinary arithmetic. -/
theorem flushedFront_exact (proper : flush.Proper) (record : being.Proper)
    (meets : cmpPmemSt flush being = .eq) :
    (flushedFront flush being).addr = max being.addr flush.addr ∧
      (flushedFront flush being).addr + (flushedFront flush being).size = being.addr + being.size ∧
      0 < (flushedFront flush being).size := by
  rw [cmpPmemSt_eq_iff proper.nonWrapping record.nonWrapping] at meets
  have := record.nonempty
  unfold flushedFront cutFront
  simp only
  split
  · next sticksOut =>
    rw [Word64.sub_eq (show being.addr ≤ flush.addr by omega),
      Word64.sub_eq (show flush.addr - being.addr ≤ being.size by omega)]
    simp only
    omega
  · next starts =>
    exact ⟨(Nat.max_eq_left (Nat.le_of_not_lt starts)).symm, rfl, record.nonempty⟩

/-- The part that is flushed does not wrap, since it is a part of the record. -/
theorem flushedFront_nonWrapping (proper : flush.Proper) (record : being.Proper)
    (meets : cmpPmemSt flush being = .eq) : (flushedFront flush being).NonWrapping := by
  have := (flushedFront_exact proper record meets).2.1
  have := record.nonWrapping
  unfold PmemSt.NonWrapping at *
  omega

/-- What is left of a marked record is the intersection of the two ranges. -/
theorem flushedPart_range (proper : flush.Proper) (record : being.Proper)
    (meets : cmpPmemSt flush being = .eq) :
    (flushedPart flush being).addr = max being.addr flush.addr ∧
      (flushedPart flush being).addr + (flushedPart flush being).size =
        min (being.addr + being.size) (flush.addr + flush.size) := by
  obtain ⟨start, finish, _⟩ := flushedFront_exact proper record meets
  have flushMax := proper.nonWrapping.maxAddr_eq
  have frontMax := (flushedFront_nonWrapping proper record meets).maxAddr_eq
  have recordSize := record.nonempty
  rw [cmpPmemSt_eq_iff proper.nonWrapping record.nonWrapping] at meets
  unfold flushedPart cutBack
  simp only [flushMax, frontMax]
  split
  · next sticksOut =>
    have kept : flush.addr + flush.size ≤
        (flushedFront flush being).addr + (flushedFront flush being).size := Nat.le_of_lt sticksOut
    rw [Word64.sub_eq kept, Word64.sub_eq (show _ ≤ (flushedFront flush being).size by omega)]
    refine ⟨start, ?_⟩
    simp only
    rw [Nat.min_eq_right (by omega)]
    omega
  · next within =>
    rw [finish] at within
    exact ⟨start, by rw [finish, Nat.min_eq_left (Nat.le_of_not_lt within)]⟩

/-- Cutting keeps the marks of the record and sets its state. -/
theorem flushedPart_fields (flush being : PmemSt) : (flushedPart flush being).state = .flushed ∧
    (flushedPart flush being).isDelete = being.isDelete ∧
    (flushedPart flush being).inEpoch = being.inEpoch := by
  have frontFields : (flushedFront flush being).state = .flushed ∧
      (flushedFront flush being).isDelete = being.isDelete ∧
      (flushedFront flush being).inEpoch = being.inEpoch := by
    unfold flushedFront cutFront
    simp only
    split <;> exact ⟨rfl, rfl, rfl⟩
  unfold flushedPart cutBack
  simp only
  split <;> exact frontFields

/-- Each piece is one of the two differences. -/
theorem mem_cutPieces (proper : flush.Proper) (record : being.Proper)
    (meets : cmpPmemSt flush being = .eq) (piece : PmemSt) : piece ∈ cutPieces flush being ↔
      being.addr < flush.addr ∧ piece = frontSplit flush { being with state := .flushed } ∨
        flush.addr + flush.size < being.addr + being.size ∧
          piece = backSplit flush (flushedFront flush being) := by
  obtain ⟨_, finish, _⟩ := flushedFront_exact proper record meets
  unfold cutPieces
  rw [proper.nonWrapping.maxAddr_eq, (flushedFront_nonWrapping proper record meets).maxAddr_eq,
    finish]
  by_cases front : being.addr < flush.addr <;>
    by_cases back : flush.addr + flush.size < being.addr + being.size <;>
    simp [front, back]

/-- The range of a piece: it starts at the record or behind the flush, and it ends before the
flush or with the record. -/
theorem cutPiece_range (proper : flush.Proper) (record : being.Proper)
    (meets : cmpPmemSt flush being = .eq) {piece : PmemSt}
      (member : piece ∈ cutPieces flush being) :
    being.addr < flush.addr ∧ piece.addr = being.addr ∧ piece.addr + piece.size = flush.addr ∨
      flush.addr + flush.size < being.addr + being.size ∧ piece.addr = flush.addr + flush.size ∧
        piece.addr + piece.size = being.addr + being.size := by
  obtain ⟨_, finish, _⟩ := flushedFront_exact proper record meets
  have flushMax := proper.nonWrapping.maxAddr_eq
  have frontMax := (flushedFront_nonWrapping proper record meets).maxAddr_eq
  rcases (mem_cutPieces proper record meets piece).mp
      member with ⟨sticksOut, rfl⟩ | ⟨sticksOut, rfl⟩
  · refine .inl ⟨sticksOut, rfl, ?_⟩
    simp only [frontSplit]
    rw [Word64.sub_eq (Nat.le_of_lt sticksOut)]
    omega
  · refine .inr ⟨sticksOut, flushMax, ?_⟩
    simp only [backSplit, flushMax, frontMax]
    rw [Word64.sub_eq (by omega), finish]
    omega

/-- The pieces are what the record has outside the flushed range. -/
theorem cutPieces_cover (proper : flush.Proper) (record : being.Proper)
    (meets : cmpPmemSt flush being = .eq) (byte : Nat) :
    (∃ piece ∈ cutPieces flush being, piece.Covers byte) ↔
      being.Covers byte ∧ ¬ flush.Covers byte := by
  have members := mem_cutPieces proper record meets
  have ranges := @cutPiece_range flush being proper record meets
  rw [cmpPmemSt_eq_iff proper.nonWrapping record.nonWrapping] at meets
  unfold PmemSt.Covers
  constructor
  · rintro ⟨piece, member, covered⟩
    have range := ranges member
    omega
  · rintro ⟨inside, outside⟩
    by_cases front : byte < flush.addr
    · have sticksOut : being.addr < flush.addr := by omega
      have member := (members _).mpr (.inl ⟨sticksOut, rfl⟩)
      have start : (frontSplit flush { being with state := .flushed }).addr = being.addr := rfl
      have range := ranges member
      exact ⟨_, member, by omega⟩
    · have sticksOut : flush.addr + flush.size < being.addr + being.size := by omega
      have member := (members _).mpr (.inr ⟨sticksOut, rfl⟩)
      have start : (backSplit flush (flushedFront flush being)).addr = flush.addr + flush.size :=
        proper.nonWrapping.maxAddr_eq
      have range := ranges member
      have := record.nonempty
      exact ⟨_, member, by omega⟩

/-- Marking a record cuts it exactly along the flushed range. -/
theorem cut_exact (proper : flush.Proper) (record : being.Proper)
    (meets : cmpPmemSt flush being = .eq) :
    CutExact flush being (flushedPart flush being) (cutPieces flush being) := by
  obtain ⟨start, finish⟩ := flushedPart_range proper record meets
  obtain ⟨state, marks⟩ := flushedPart_fields flush being
  have flushFits := proper.nonWrapping
  have recordFits := record.nonWrapping
  have flushSize := proper.nonempty
  have recordSize := record.nonempty
  have overlap := (cmpPmemSt_eq_iff proper.nonWrapping record.nonWrapping).mp meets
  unfold PmemSt.NonWrapping at flushFits recordFits
  refine ⟨fun byte => ?_, cutPieces_cover proper record meets, ?_, fun piece member => ?_, state,
    fun piece member => ?_, marks⟩
  · unfold PmemSt.Covers
    rw [finish, start, max_le_iff, lt_min_iff]
    omega
  · rw [proper_iff]
    omega
  · rw [proper_iff]
    have range := cutPiece_range proper record meets member
    omega
  · rcases (mem_cutPieces proper record meets piece).mp member with ⟨_, rfl⟩ | ⟨_, rfl⟩ <;> rfl

/-- A piece inherits the marks of the record. -/
theorem cutPieces_marks {piece : PmemSt} (member : piece ∈ cutPieces flush being) :
    piece.isDelete = being.isDelete ∧ piece.inEpoch = being.inEpoch := by
  have front : (flushedFront flush being).isDelete = being.isDelete ∧
      (flushedFront flush being).inEpoch = being.inEpoch := by
    unfold flushedFront cutFront
    simp only
    split <;> exact ⟨rfl, rfl⟩
  unfold cutPieces at member
  rcases List.mem_append.mp member with isFront | isBack
  · split at isFront
    · rw [List.mem_singleton.mp isFront]
      exact ⟨rfl, rfl⟩
    · simp at isFront
  · split at isBack
    · rw [List.mem_singleton.mp isBack]
      exact front
    · simp at isBack

end Cutting

/-- What a flush leaves in the slot of a record. A record on which it takes no effect stays as
it is. -/
def treat (flush : PmemSt) (tag : FlushedState) (being : PmemSt) : PmemSt :=
  if marks flush tag being then flushedPart flush being else being

/-- What it appends for that record: a piece before the range, a piece behind it, both or
neither. -/
def treatPieces (flush : PmemSt) (tag : FlushedState) (being : PmemSt) : List PmemSt :=
  if marks flush tag being then cutPieces flush being else []

/-- The effect of the loop body at one slot. The slot is treated, the pieces are appended to
the current snippet, and the rest of array and tree is untouched. -/
structure SlotFlushed (flush : PmemSt) (sIndex index : Nat) (before after : PmemOps) : Prop where
  frame : after = { before with
    slots := after.slots
    snippetInfo := after.snippetInfo
    redundantFlushes := after.redundantFlushes
    exited := after.exited }
  slot : after.slots index =
    treat flush (before.snippetInfo sIndex).flushedNum (before.slots index)
  others : ∀ other < before.current.index, other ≠ index → after.slots other = before.slots other
  appended : ∀ offset piece, (treatPieces flush (before.snippetInfo sIndex).flushedNum
    (before.slots index))[offset]? = some piece →
      SameRecord (after.slots (before.current.index + offset)) piece
  snippets : ∀ tested, after.snippetInfo tested = { before.snippetInfo tested with
    index := if tested = before.snippetInfoIndex then before.current.index + (treatPieces flush
      (before.snippetInfo sIndex).flushedNum (before.slots index)).length
      else (before.snippetInfo tested).index
    flushedNum := if tested = sIndex ∧ marks flush (before.snippetInfo sIndex).flushedNum
      (before.slots index) then .partFlushed else (before.snippetInfo tested).flushedNum }

/-- Cutting a piece off a slot and appending it, while the array has room. -/
theorem setSlot_appendSplit {pmem : PmemOps} {index : Nat} (kept piece : PmemSt)
    (inUse : index < pmem.current.index) (room : pmem.current.index < pmem.opts.maxArrayNum) :
    (pmem.setSlot index kept).appendSplit piece = { pmem with
      slots := fun tested =>
        if tested = pmem.current.index then
          { piece with index := (pmem.slots pmem.current.index).index }
        else if tested = index then kept else pmem.slots tested
      snippetInfo := fun tested =>
        if tested = pmem.snippetInfoIndex then
          { pmem.current with index := pmem.current.index + 1 }
        else pmem.snippetInfo tested } := by
  have differs : pmem.current.index ≠ index := by omega
  refine (if_pos room).trans ?_
  simp only [setSlot_current, setSlot_slots, if_neg differs]
  rfl

/-- When the array is full a piece goes to the tree and the snippets stay. -/
theorem appendSplit_full {pmem : PmemOps} {piece : PmemSt}
    (full : pmem.opts.maxArrayNum ≤ pmem.current.index) :
    (pmem.appendSplit piece).current = pmem.current := by
  rw [appendSplit, if_neg (by omega), insertStore_frame]
  rfl

/-- A cut that does not fill the array had room for the piece. -/
theorem room_before {pmem : PmemOps} {index : Nat} {kept piece : PmemSt}
    (room : ((pmem.setSlot index kept).appendSplit piece).current.index < pmem.opts.maxArrayNum) :
    pmem.current.index < pmem.opts.maxArrayNum := by
  by_contra full
  have same : ((pmem.setSlot index kept).appendSplit piece).current = pmem.current :=
    appendSplit_full (show pmem.opts.maxArrayNum ≤ pmem.current.index by omega)
  rw [same] at room
  exact full room

/-- No remainder changes the options. -/
@[simp] theorem appendSplit_opts (piece : PmemSt) (pmem : PmemOps) :
    (pmem.appendSplit piece).opts = pmem.opts := by
  unfold appendSplit
  simp only
  split
  · rfl
  · rw [insertStore_frame]

/-- Nor does a cut. -/
@[simp] theorem splitFront_opts (flush : PmemSt) (index : Nat) (pmem : PmemOps) :
    (pmem.splitFront flush index).opts = pmem.opts := by
  unfold splitFront
  simp only
  split
  · rw [appendSplit_opts]
    rfl
  · rfl

/-- One slot is rewritten and some pieces are appended to the current snippet. -/
structure Spread (index : Nat) (kept : PmemSt) (pieces : List PmemSt) (before after : PmemOps) :
    Prop where
  frame : after = { before with slots := after.slots, snippetInfo := after.snippetInfo }
  slot : after.slots index = kept
  others : ∀ other < before.current.index, other ≠ index → after.slots other = before.slots other
  appended : ∀ offset piece, pieces[offset]? = some piece →
    SameRecord (after.slots (before.current.index + offset)) piece
  snippets : ∀ tested, after.snippetInfo tested = { before.snippetInfo tested with
    index := if tested = before.snippetInfoIndex then before.current.index + pieces.length
      else (before.snippetInfo tested).index }

namespace Spread

variable {index : Nat} {kept : PmemSt} {pieces : List PmemSt} {before after : PmemOps}

/-- No snippet is opened or closed. -/
theorem snippetInfoIndex (spread : Spread index kept pieces before after) :
    after.snippetInfoIndex = before.snippetInfoIndex := by
  rw [spread.frame]

/-- The current snippet grows by the pieces that are appended. -/
theorem current_index (spread : Spread index kept pieces before after) :
    after.current.index = before.current.index + pieces.length := by
  rw [current, spread.snippetInfoIndex, spread.snippets]
  simp

/-- Nothing is rewritten, and no piece is appended. -/
theorem refl (index : Nat) (pmem : PmemOps) : Spread index (pmem.slots index) [] pmem pmem where
  frame := rfl
  slot := rfl
  others _ _ _ := rfl
  appended offset piece found := by simp at found
  snippets tested := by
    by_cases same : tested = pmem.snippetInfoIndex
    · simp [same, current]
    · simp [same]

/-- One cut rewrites the slot and appends one piece. There is room, so that the piece goes to
the array. -/
theorem cut {piece : PmemSt} (inUse : index < before.current.index)
    (room : before.current.index < before.opts.maxArrayNum) :
    Spread index kept [piece] before ((before.setSlot index kept).appendSplit piece) := by
  rw [setSlot_appendSplit kept piece inUse room]
  have differs : index ≠ before.current.index := by omega
  refine ⟨rfl, ?_, ?_, ?_, ?_⟩
  · simp [differs]
  · intro other below otherDiffers
    have : other ≠ before.current.index := by omega
    simp [this, otherDiffers]
  · intro offset found isPiece
    obtain ⟨rfl, rfl⟩ : offset = 0 ∧ piece = found := by
      cases offset <;> simp_all
    simp [SameRecord]
  · intro tested
    by_cases same : tested = before.snippetInfoIndex
    · simp [same, current]
    · simp [same]

/-- Two rewrites of one slot append their pieces one after the other. -/
theorem trans {kept' : PmemSt} {pieces' : List PmemSt} {last : PmemOps}
    (first : Spread index kept pieces before after)
    (second : Spread index kept' pieces' after last) (inUse : index < before.current.index) :
    Spread index kept' (pieces ++ pieces') before last := by
  have grown := first.current_index
  refine ⟨?_, second.slot, ?_, ?_, ?_⟩
  · rw [second.frame, first.frame]
  · intro other below differs
    rw [second.others other (by omega) differs, first.others other below differs]
  · intro offset piece found
    by_cases early : offset < pieces.length
    · rw [List.getElem?_append_left early] at found
      rw [second.others _ (by omega) (by omega)]
      exact first.appended offset piece found
    · rw [List.getElem?_append_right (by omega)] at found
      have moved := second.appended _ piece found
      rwa [grown, show before.current.index + pieces.length + (offset - pieces.length) =
        before.current.index + offset by omega] at moved
  · intro tested
    rw [second.snippets tested, first.snippets tested, first.snippetInfoIndex, grown]
    by_cases same : tested = before.snippetInfoIndex
    · simp [same, Nat.add_assoc]
    · simp [same]

end Spread

/-- Cutting the front of a slot. -/
theorem splitFront_spread (flush : PmemSt) (index : Nat) (pmem : PmemOps)
    (inUse : index < pmem.current.index)
    (room : (pmem.splitFront flush index).current.index < pmem.opts.maxArrayNum) :
    Spread index
      (if (pmem.slots index).addr < flush.addr then cutFront flush (pmem.slots index)
        else pmem.slots index)
      (if (pmem.slots index).addr < flush.addr then [frontSplit flush (pmem.slots index)] else [])
      pmem (pmem.splitFront flush index) := by
  unfold splitFront at room ⊢
  simp only at room ⊢
  split
  · next sticksOut =>
    rw [if_pos sticksOut] at room
    exact Spread.cut inUse (room_before room)
  · exact Spread.refl index pmem

/-- Cutting the back of a slot. -/
theorem splitBack_spread (flush : PmemSt) (index : Nat) (pmem : PmemOps)
    (inUse : index < pmem.current.index)
    (room : (pmem.splitBack flush index).current.index < pmem.opts.maxArrayNum) :
    Spread index
      (if (pmem.slots index).maxAddr > flush.maxAddr then cutBack flush (pmem.slots index)
        else pmem.slots index)
      (if (pmem.slots index).maxAddr > flush.maxAddr then [backSplit flush (pmem.slots index)]
        else [])
      pmem (pmem.splitBack flush index) := by
  unfold splitBack at room ⊢
  simp only at room ⊢
  split
  · next sticksOut =>
    rw [if_pos sticksOut] at room
    exact Spread.cut inUse (room_before room)
  · exact Spread.refl index pmem

/-- The two cuts together leave the flushed part in the slot and append the pieces. -/
theorem splits_spread (flush being : PmemSt) (index : Nat) (pmem : PmemOps)
    (held : pmem.slots index = { being with state := .flushed })
    (inUse : index < pmem.current.index)
    (room : ((pmem.splitFront flush index).splitBack flush index).current.index <
      pmem.opts.maxArrayNum) :
    Spread index (flushedPart flush being) (cutPieces flush being) pmem
      ((pmem.splitFront flush index).splitBack flush index) := by
  have frontRoom : (pmem.splitFront flush index).current.index < pmem.opts.maxArrayNum := by
    have back := room
    unfold splitBack at back
    simp only at back
    split at back
    · rw [← splitFront_opts flush index pmem] at back ⊢
      exact room_before back
    · exact back
  have front := splitFront_spread flush index pmem inUse frontRoom
  have grown := front.current_index
  have back := splitBack_spread flush index (pmem.splitFront flush index) (by omega)
    (by rw [splitFront_opts]; exact room)
  have whole := front.trans back inUse
  rw [front.slot, held] at whole
  exact whole

/-- A warning changes its register only. -/
theorem warnRedundantFlush_frame (being : PmemSt) (pmem : PmemOps) :
    pmem.warnRedundantFlush being = { pmem with
      redundantFlushes := (pmem.warnRedundantFlush being).redundantFlushes
      exited := (pmem.warnRedundantFlush being).exited } := by
  unfold warnRedundantFlush
  split <;> rfl

/-- Marking keeps the current index and changes one tag. -/
theorem markSlot_snippets (sIndex index : Nat) (pmem : PmemOps) :
    (pmem.markSlot sIndex index).current.index = pmem.current.index ∧
      ∀ tested, (pmem.markSlot sIndex index).snippetInfo tested =
        if tested = sIndex then { pmem.snippetInfo sIndex with flushedNum := .partFlushed }
        else pmem.snippetInfo tested := by
  refine ⟨?_, fun tested => rfl⟩
  simp only [current, markSlot, setSnippet_snippetInfo, setSlot_snippetInfo]
  split
  · next same =>
    rw [← same]
    rfl
  · rfl

/-- The effect of the loop body at a slot in use whose record is not deleted. -/
theorem flushSlot_exact (flush : PmemSt) (sIndex index : Nat) (pmem : PmemOps) (valid : Bool)
    (inUse : index < pmem.current.index) (undeleted : (pmem.slots index).isDelete = false)
    (room : (pmem.flushSlot flush sIndex index valid).1.current.index < pmem.opts.maxArrayNum) :
    SlotFlushed flush sIndex index pmem (pmem.flushSlot flush sIndex index valid).1 := by
  have idle (after : PmemOps) (unmarked : ¬ marks flush (pmem.snippetInfo sIndex).flushedNum
      (pmem.slots index)) (frame : after = { pmem with
        redundantFlushes := after.redundantFlushes
        exited := after.exited }) : SlotFlushed flush sIndex index pmem after := by
    have slots : after.slots = pmem.slots := by rw [frame]
    have snippetInfo : after.snippetInfo = pmem.snippetInfo := by rw [frame]
    refine ⟨?_, ?_, ?_, ?_, ?_⟩
    · rw [slots, snippetInfo]
      exact frame
    · rw [slots, treat, if_neg unmarked]
    · intro other _ _
      rw [slots]
    · intro offset piece found
      simp [treatPieces, unmarked] at found
    · intro tested
      by_cases same : tested = pmem.snippetInfoIndex
      · simp [snippetInfo, treatPieces, unmarked, same, current]
      · simp [snippetInfo, unmarked, same]
  have notDeleted : ¬ (pmem.slots index).isDelete = true := by simp [undeleted]
  simp only [flushSlot, if_neg notDeleted] at room ⊢
  by_cases meets : cmpPmemSt flush (pmem.slots index) = .eq
  · by_cases done : (pmem.snippetInfo sIndex).flushedNum = .allFlushed ∨
        (pmem.slots index).state ≠ .dirty
    · rw [if_neg (not_not.mpr meets), if_pos done]
      refine idle _ ?_ (warnRedundantFlush_frame _ pmem)
      unfold marks
      tauto
    · have marked : marks flush (pmem.snippetInfo sIndex).flushedNum (pmem.slots index) := by
        unfold marks
        tauto
      rw [if_neg (not_not.mpr meets), if_neg done] at room ⊢
      obtain ⟨markedCurrent, markedSnippets⟩ := markSlot_snippets sIndex index pmem
      have spread := splits_spread flush (pmem.slots index) index (pmem.markSlot sIndex index)
        (by simp [markSlot]) (by rw [markedCurrent]; exact inUse) room
      refine ⟨?_, ?_, ?_, ?_, ?_⟩
      · rw [spread.frame]
        rfl
      · rw [spread.slot, treat, if_pos marked]
      · intro other below differs
        rw [spread.others other (by rw [markedCurrent]; exact below) differs]
        simp [markSlot, differs]
      · intro offset piece found
        rw [treatPieces, if_pos marked] at found
        rw [← markedCurrent]
        exact spread.appended offset piece found
      · intro tested
        rw [spread.snippets tested, markedCurrent, markedSnippets, treatPieces, if_pos marked]
        by_cases same : tested = sIndex
        · subst same
          simp [marked, markSlot]
          rfl
        · simp [same]
          rfl
  · rw [if_pos meets]
    exact idle pmem (fun marked => meets marked.1) rfl

/-- Only the array grows, if anything. Options and table stay as they are. -/
structure Grows (before after : PmemOps) : Prop where
  opts : after.opts = before.opts
  snippetInfoIndex : after.snippetInfoIndex = before.snippetInfoIndex
  index : before.current.index ≤ after.current.index

/-- Nothing grows. -/
theorem Grows.refl (pmem : PmemOps) : Grows pmem pmem := ⟨rfl, rfl, Nat.le_refl _⟩

/-- What grows twice has grown. -/
theorem Grows.trans {before middle after : PmemOps} (first : Grows before middle)
    (second : Grows middle after) : Grows before after :=
  ⟨second.opts.trans first.opts, second.snippetInfoIndex.trans first.snippetInfoIndex,
    Nat.le_trans first.index second.index⟩

/-- Appending a piece grows the array or, when it is full, leaves it. -/
theorem appendSplit_grows (pmem : PmemOps) (index : Nat) (kept piece : PmemSt) :
    Grows pmem ((pmem.setSlot index kept).appendSplit piece) := by
  have frame : ((pmem.setSlot index kept).appendSplit piece).snippetInfoIndex =
      pmem.snippetInfoIndex := by
    unfold appendSplit
    simp only
    split
    · rfl
    · rw [insertStore_frame]
      rfl
  refine ⟨appendSplit_opts piece _, frame, ?_⟩
  by_cases room : pmem.current.index < pmem.opts.maxArrayNum
  · have grown : ((pmem.setSlot index kept).appendSplit piece).current =
        { pmem.current with index := pmem.current.index + 1 } := by
      rw [current, frame]
      unfold appendSplit
      simp only [setSlot_current]
      refine (congrArg (fun state : PmemOps => state.snippetInfo pmem.snippetInfoIndex)
        (if_pos room)).trans ?_
      exact if_pos rfl
    simp [grown]
  · have same : ((pmem.setSlot index kept).appendSplit piece).current = pmem.current :=
      appendSplit_full (show pmem.opts.maxArrayNum ≤ pmem.current.index by omega)
    exact Nat.le_of_eq (congrArg ArrSnippet.index same).symm

/-- The flush of one slot appends the pieces that it cuts off. -/
theorem flushSlot_grows (flush : PmemSt) (sIndex index : Nat) (pmem : PmemOps) (valid : Bool) :
    Grows pmem (pmem.flushSlot flush sIndex index valid).1 := by
  unfold flushSlot
  simp only
  split
  · exact ⟨rfl, rfl, Nat.le_refl _⟩
  · split
    · exact Grows.refl pmem
    · split
      · rw [warnRedundantFlush_frame]
        exact ⟨rfl, rfl, Nat.le_refl _⟩
      · have marked : Grows pmem (pmem.markSlot sIndex index) :=
          ⟨rfl, rfl, Nat.le_of_eq (markSlot_snippets sIndex index pmem).1.symm⟩
        have front (state : PmemOps) : Grows state (state.splitFront flush index) := by
          unfold splitFront
          simp only
          split
          · exact appendSplit_grows _ _ _ _
          · exact Grows.refl state
        have back (state : PmemOps) : Grows state (state.splitBack flush index) := by
          unfold splitBack
          simp only
          split
          · exact appendSplit_grows _ _ _ _
          · exact Grows.refl state
        exact (marked.trans (front _)).trans (back _)

/-- The inner loop of the flush, by induction on its fuel. -/
theorem flushSlots_grows (flush : PmemSt) (sIndex fuel index : Nat) (pmem : PmemOps)
    (valid : Bool) : Grows pmem (flushSlots flush sIndex fuel index pmem valid).1 := by
  induction fuel generalizing index pmem valid with
  | zero => exact Grows.refl pmem
  | succ fuel inductionHypothesis =>
    simp only [flushSlots]
    split
    · exact (flushSlot_grows flush sIndex index pmem valid).trans (inductionHypothesis _ _ _)
    · exact Grows.refl pmem

/-- A record is cut into three parts at most, of which one stays in its slot. -/
theorem treatPieces_length (flush : PmemSt) (tag : FlushedState) (being : PmemSt) :
    (treatPieces flush tag being).length ≤ 2 := by
  unfold treatPieces cutPieces
  split
  · split <;> split <;> simp
  · simp

/-- The effect of the inner loop on a snippet, up to a slot that it has not visited
yet. `before` is the state in which the loop was entered. -/
structure SnippetFlushing (flush : PmemSt) (sIndex index : Nat) (before after : PmemOps) :
    Prop where
  frame : after = { before with
    slots := after.slots
    snippetInfo := after.snippetInfo
    redundantFlushes := after.redundantFlushes
    exited := after.exited }
  grown : before.current.index ≤ after.current.index
  visited : ∀ slot, (before.snippetInfo sIndex).startIndex ≤ slot →
    slot < (before.snippetInfo sIndex).index → slot < index →
      after.slots slot = treat flush (before.snippetInfo sIndex).flushedNum (before.slots slot)
  unvisited : ∀ slot < before.current.index, (slot < (before.snippetInfo sIndex).startIndex ∨
    index ≤ slot ∨ (before.snippetInfo sIndex).index ≤ slot) → after.slots slot = before.slots slot
  fromCut : ∀ slot, before.current.index ≤ slot → slot < after.current.index →
    ∃ origin, ((before.snippetInfo sIndex).startIndex ≤ origin ∧
      origin < (before.snippetInfo sIndex).index ∧ origin < index) ∧
      ∃ piece ∈ treatPieces flush (before.snippetInfo sIndex).flushedNum (before.slots origin),
        SameRecord (after.slots slot) piece
  toCut : ∀ origin, (before.snippetInfo sIndex).startIndex ≤ origin →
    origin < (before.snippetInfo sIndex).index → origin < index →
      ∀ piece ∈ treatPieces flush (before.snippetInfo sIndex).flushedNum (before.slots origin),
        ∃ slot, before.current.index ≤ slot ∧ slot < after.current.index ∧
          SameRecord (after.slots slot) piece
  snippets : ∀ tested, after.snippetInfo tested = { before.snippetInfo tested with
    index := if tested = before.snippetInfoIndex then after.current.index
      else (before.snippetInfo tested).index
    flushedNum := (after.snippetInfo tested).flushedNum }
  otherTags : ∀ tested, tested ≠ sIndex →
    (after.snippetInfo tested).flushedNum = (before.snippetInfo tested).flushedNum
  tag : (after.snippetInfo sIndex).flushedNum = (before.snippetInfo sIndex).flushedNum ∨
    (before.snippetInfo sIndex).flushedNum ≠ .allFlushed ∧
      (after.snippetInfo sIndex).flushedNum = .partFlushed
  markedTag : ∀ slot, (before.snippetInfo sIndex).startIndex ≤ slot →
    slot < (before.snippetInfo sIndex).index → slot < index →
      marks flush (before.snippetInfo sIndex).flushedNum (before.slots slot) →
        (after.snippetInfo sIndex).flushedNum = .partFlushed

/-- What a loop over a snippet needs to know about it: its records are proper and not deleted,
and it ends within the slots in use. -/
structure Flushable (flush : PmemSt) (sIndex : Nat) (pmem : PmemOps) : Prop where
  range : flush.Proper
  bounded : (pmem.snippetInfo sIndex).index ≤ pmem.current.index
  undeleted : ∀ slot, (pmem.snippetInfo sIndex).startIndex ≤ slot →
    slot < (pmem.snippetInfo sIndex).index → (pmem.slots slot).isDelete = false
  proper : ∀ slot, (pmem.snippetInfo sIndex).startIndex ≤ slot →
    slot < (pmem.snippetInfo sIndex).index → (pmem.slots slot).Proper

namespace SnippetFlushing

variable {flush : PmemSt} {sIndex index : Nat} {before after : PmemOps}

/-- The loop over a snippet opens and closes none. -/
theorem snippetInfoIndex (flushing : SnippetFlushing flush sIndex index before after) :
    after.snippetInfoIndex = before.snippetInfoIndex := by
  rw [flushing.frame]

/-- The loop over a snippet changes no option. -/
theorem opts (flushing : SnippetFlushing flush sIndex index before after) :
    after.opts = before.opts := by
  rw [flushing.frame]

/-- The loop is entered with nothing done. -/
theorem start (flush : PmemSt) (sIndex : Nat) (pmem : PmemOps) :
    SnippetFlushing flush sIndex (pmem.snippetInfo sIndex).startIndex pmem pmem where
  frame := rfl
  grown := Nat.le_refl _
  visited slot above _ below := by omega
  unvisited _ _ _ := rfl
  fromCut slot above below := by omega
  toCut origin above _ below := by omega
  snippets tested := by
    by_cases same : tested = pmem.snippetInfoIndex
    · simp [same, current]
    · simp [same]
  otherTags _ _ := rfl
  tag := .inl rfl
  markedTag slot above _ below := by omega

/-- The tag matters only as far as it is the full one, so the loop judges a record as
at its entry. -/
theorem marks_iff (flushing : SnippetFlushing flush sIndex index before after) (being : PmemSt) :
    marks flush (after.snippetInfo sIndex).flushedNum being ↔
      marks flush (before.snippetInfo sIndex).flushedNum being := by
  unfold marks
  rcases flushing.tag with same | ⟨notAll, part⟩
  · rw [same]
  · rw [part]
    simp [notAll]

/-- A piece that was cut off in this flush is not marked by it. -/
theorem piece_unmarked (flushable : Flushable flush sIndex before)
    (flushing : SnippetFlushing flush sIndex index before after) {slot : Nat}
    (above : before.current.index ≤ slot) (below : slot < after.current.index) :
    (after.slots slot).isDelete = false ∧ cmpPmemSt flush (after.slots slot) ≠ .eq := by
  obtain ⟨origin, ⟨low, high, _⟩, piece, member, same⟩ := flushing.fromCut slot above below
  have proper := flushable.proper origin low high
  unfold treatPieces at member
  split at member
  · next marked =>
    have cut := cut_exact flushable.range proper marked.1
    have fields : (after.slots slot).isDelete = piece.isDelete ∧
        (after.slots slot).addr = piece.addr ∧ (after.slots slot).size = piece.size := by
      rw [same]
      exact ⟨rfl, rfl, rfl⟩
    refine ⟨?_, fun meets => ?_⟩
    · rw [fields.1, (cutPieces_marks member).1, flushable.undeleted origin low high]
    · have pieceProper := cut.pieces_proper piece member
      have slotProper : (after.slots slot).Proper := by
        rw [proper_iff] at pieceProper ⊢
        rw [fields.2.1, fields.2.2]
        exact pieceProper
      obtain ⟨byte, inFlush, inSlot⟩ := (cmpPmemSt_eq_iff_shared flushable.range slotProper).mp
          meets
      have inPiece : piece.Covers byte := by
        unfold PmemSt.Covers at inSlot ⊢
        rwa [fields.2.1, fields.2.2] at inSlot
      exact ((cut.pieces_cover byte).mp ⟨piece, member, inPiece⟩).2 inFlush
  · simp at member

/-- A body that does nothing moves the loop on. -/
theorem idle {next : PmemOps} (flushing : SnippetFlushing flush sIndex index before after)
    (beyond : before.current.index ≤ index)
    (flushed : SlotFlushed flush sIndex index after next)
    (unmarked : ¬ marks flush (after.snippetInfo sIndex).flushedNum (after.slots index))
    (inUse : index < after.current.index) (bounded : (before.snippetInfo sIndex).index ≤
      before.current.index) :
    SnippetFlushing flush sIndex (index + 1) before next := by
  have slots (slot : Nat) (below : slot < after.current.index) :
      next.slots slot = after.slots slot := by
    by_cases same : slot = index
    · rw [same, flushed.slot, treat, if_neg unmarked]
    · exact flushed.others slot below same
  have snippets : next.snippetInfo = after.snippetInfo := by
    funext tested
    rw [flushed.snippets tested]
    by_cases same : tested = after.snippetInfoIndex
    · simp [treatPieces, unmarked, same, current]
    · simp [unmarked, same]
  have sameIndex : next.snippetInfoIndex = after.snippetInfoIndex := by rw [flushed.frame]
  have sameCurrent : next.current = after.current := by rw [current, sameIndex, snippets, current]
  have grown := flushing.grown
  refine ⟨?_, ?_, ?_, ?_, ?_, ?_, ?_, ?_, ?_, ?_⟩
  · rw [flushed.frame, flushing.frame]
  · rw [sameCurrent]
    exact grown
  · intro slot above inside _
    rw [slots slot (by omega)]
    exact flushing.visited slot above inside (by omega)
  · intro slot below outside
    rw [slots slot (by omega)]
    exact flushing.unvisited slot below (by omega)
  · intro slot above below
    rw [sameCurrent] at below
    rw [slots slot below]
    obtain ⟨origin, ⟨low, high, early⟩, rest⟩ := flushing.fromCut slot above below
    exact ⟨origin, ⟨low, high, by omega⟩, rest⟩
  · intro origin low high _ piece member
    obtain ⟨slot, above, below, same⟩ := flushing.toCut origin low high (by omega) piece member
    rw [sameCurrent]
    exact ⟨slot, above, below, by rw [slots slot below]; exact same⟩
  · intro tested
    rw [snippets, sameCurrent]
    exact flushing.snippets tested
  · rw [snippets]
    exact flushing.otherTags
  · rw [snippets]
    exact flushing.tag
  · intro slot above inside _
    rw [snippets]
    exact flushing.markedTag slot above inside (by omega)

/-- A body at a slot that was in use when the loop was entered. -/
theorem visit {next : PmemOps} (flushing : SnippetFlushing flush sIndex index before after)
    (low : (before.snippetInfo sIndex).startIndex ≤ index)
    (high : index < (before.snippetInfo sIndex).index)
    (flushed : SlotFlushed flush sIndex index after next)
      (bounded : (before.snippetInfo sIndex).index ≤ before.current.index) :
    SnippetFlushing flush sIndex (index + 1) before next := by
  have grown := flushing.grown
  have held : after.slots index = before.slots index :=
    flushing.unvisited index (by omega) (.inr (.inl (Nat.le_refl _)))
  have sameMark := flushing.marks_iff (before.slots index)
  have sameTreat : treat flush (after.snippetInfo sIndex).flushedNum (after.slots index) =
      treat flush (before.snippetInfo sIndex).flushedNum (before.slots index) := by
    simp only [treat, held, sameMark]
  have samePieces : treatPieces flush (after.snippetInfo sIndex).flushedNum (after.slots index) =
      treatPieces flush (before.snippetInfo sIndex).flushedNum (before.slots index) := by
    simp only [treatPieces, held, sameMark]
  have sameIndex : next.snippetInfoIndex = after.snippetInfoIndex := by rw [flushed.frame]
  have length : next.current.index = after.current.index + (treatPieces flush
      (before.snippetInfo sIndex).flushedNum (before.slots index)).length := by
    rw [current, sameIndex, flushed.snippets, samePieces]
    simp
  refine ⟨?_, by omega, ?_, ?_, ?_, ?_, ?_, ?_, ?_, ?_⟩
  · rw [flushed.frame, flushing.frame]
  · intro slot above inside visited
    by_cases same : slot = index
    · rw [same, flushed.slot, sameTreat]
    · rw [flushed.others slot (by omega) same]
      exact flushing.visited slot above inside (by omega)
  · intro slot below outside
    rw [flushed.others slot (by omega) (by omega)]
    exact flushing.unvisited slot below (by omega)
  · intro slot above below
    by_cases old : slot < after.current.index
    · obtain ⟨origin, ⟨originLow, originHigh, early⟩, rest⟩ := flushing.fromCut slot above old
      rw [flushed.others slot old (by omega)]
      exact ⟨origin, ⟨originLow, originHigh, by omega⟩, rest⟩
    · -- The slot holds one of the pieces of the record just visited.
      have inPieces : slot - after.current.index < (treatPieces flush
          (before.snippetInfo sIndex).flushedNum (before.slots index)).length := by omega
      refine ⟨index, ⟨low, high, by omega⟩, _, List.getElem_mem inPieces, ?_⟩
      have moved := flushed.appended (slot - after.current.index) _
        (by rw [samePieces]; exact List.getElem?_eq_getElem inPieces)
      rwa [show after.current.index + (slot - after.current.index) = slot by omega] at moved
  · intro origin originLow originHigh early piece member
    by_cases same : origin = index
    · subst same
      obtain ⟨offset, inPieces, found⟩ := List.getElem_of_mem member
      refine ⟨after.current.index + offset, by omega, by omega, ?_⟩
      refine flushed.appended offset piece ?_
      rw [samePieces, List.getElem?_eq_getElem inPieces, found]
    · obtain ⟨slot, above, below, sameRecord⟩ :=
        flushing.toCut origin originLow originHigh (by omega) piece member
      refine ⟨slot, above, by omega, ?_⟩
      rw [flushed.others slot below (by omega)]
      exact sameRecord
  · intro tested
    rw [flushed.snippets tested, flushing.snippets tested, length, flushing.snippetInfoIndex,
      samePieces]
    by_cases same : tested = before.snippetInfoIndex <;> simp [same]
  · intro tested differs
    rw [flushed.snippets tested]
    simp only [differs, false_and, if_false]
    exact flushing.otherTags tested differs
  · rw [flushed.snippets sIndex]
    simp only [true_and]
    split
    · next marked =>
      rw [held, sameMark] at marked
      exact .inr ⟨marked.2.1, rfl⟩
    · exact flushing.tag
  · intro slot above inside _ marked
    rw [flushed.snippets sIndex]
    simp only [true_and]
    split
    · rfl
    · next unmarked =>
      have earlier : slot ≠ index := by
        rintro rfl
        rw [held, sameMark] at unmarked
        exact unmarked marked
      exact flushing.markedTag slot above inside (by omega) marked

end SnippetFlushing

/-- The inner loop visits the whole snippet. A piece that it meets was cut off in the
same flush and is left alone. -/
theorem flushSlots_exact {flush : PmemSt} {sIndex : Nat} {before : PmemOps}
    (flushable : Flushable flush sIndex before) (fuel index : Nat) (pmem : PmemOps) (valid : Bool)
    (flushing : SnippetFlushing flush sIndex index before pmem)
    (low : (before.snippetInfo sIndex).startIndex ≤ index)
    (enough : 3 * ((before.snippetInfo sIndex).index - index) +
      ((pmem.snippetInfo sIndex).index - max (before.snippetInfo sIndex).index index) < fuel)
    (room : (flushSlots flush sIndex fuel index pmem valid).1.current.index <
      before.opts.maxArrayNum) :
    ∃ final, (before.snippetInfo sIndex).index ≤ final ∧
      SnippetFlushing flush sIndex final before
        (flushSlots flush sIndex fuel index pmem valid).1 := by
  induction fuel generalizing index pmem valid with
  | zero => omega
  | succ fuel inductionHypothesis =>
    have bound : (pmem.snippetInfo sIndex).index = if sIndex = before.snippetInfoIndex
        then pmem.current.index else (before.snippetInfo sIndex).index := by
      rw [flushing.snippets sIndex]
    have grown := flushing.grown
    have bounded := flushable.bounded
    have atCurrent (same : sIndex = before.snippetInfoIndex) :
        (before.snippetInfo sIndex).index = before.current.index := by
      rw [same]
      rfl
    by_cases more : index < (pmem.snippetInfo sIndex).index
    · have step : flushSlots flush sIndex (fuel + 1) index pmem valid =
          flushSlots flush sIndex fuel (index + 1) (pmem.flushSlot flush sIndex index valid).1
            (pmem.flushSlot flush sIndex index valid).2 := by
        simp only [flushSlots, if_pos more]
      rw [step] at room ⊢
      have stepRoom : (pmem.flushSlot flush sIndex index valid).1.current.index <
          pmem.opts.maxArrayNum := by
        have later := (flushSlots_grows flush sIndex fuel (index + 1)
          (pmem.flushSlot flush sIndex index valid).1
          (pmem.flushSlot flush sIndex index valid).2).index
        rw [flushing.opts]
        omega
      have inUse : index < pmem.current.index := by
        split at bound <;> omega
      by_cases original : index < (before.snippetInfo sIndex).index
      · have held : pmem.slots index = before.slots index :=
          flushing.unvisited index (by omega) (.inr (.inl (Nat.le_refl _)))
        have flushed := flushSlot_exact flush sIndex index pmem valid inUse
          (by rw [held]; exact flushable.undeleted index low original) stepRoom
        have short := treatPieces_length flush (pmem.snippetInfo sIndex).flushedNum
            (pmem.slots index)
        have after := flushing.visit low original flushed bounded
        refine inductionHypothesis (index + 1) _ _ after (by omega) ?_ room
        have nextBound : ((pmem.flushSlot flush sIndex index valid).1.snippetInfo sIndex).index ≤
            (pmem.snippetInfo sIndex).index + 2 := by
          rw [flushed.snippets sIndex]
          simp only
          split
          · next same =>
            have sameBound : pmem.current.index = (pmem.snippetInfo sIndex).index := by
              rw [same]
              rfl
            omega
          · omega
        omega
      · have isCurrent : sIndex = before.snippetInfoIndex := by
          by_contra differs
          rw [if_neg differs] at bound
          omega
        have above : before.current.index ≤ index := by
          have := atCurrent isCurrent
          omega
        obtain ⟨undeleted, misses⟩ := flushing.piece_unmarked flushable above inUse
        have flushed := flushSlot_exact flush sIndex index pmem valid inUse undeleted stepRoom
        have unmarked : ¬ marks flush (pmem.snippetInfo sIndex).flushedNum (pmem.slots index) :=
          fun marked => misses marked.1
        have after := flushing.idle above flushed unmarked inUse bounded
        refine inductionHypothesis (index + 1) _ _ after (by omega) ?_ room
        have nextBound : ((pmem.flushSlot flush sIndex index valid).1.snippetInfo sIndex).index =
            (pmem.snippetInfo sIndex).index := by
          rw [flushed.snippets sIndex]
          simp only [treatPieces, if_neg unmarked, List.length_nil, Nat.add_zero]
          split
          · next same =>
            rw [same]
            rfl
          · rfl
        omega
    · refine ⟨index, ?_, ?_⟩
      · split at bound
        · next same =>
          have := atCurrent same
          omega
        · omega
      · simp only [flushSlots, if_neg more]
        exact flushing

end PmDebugger
