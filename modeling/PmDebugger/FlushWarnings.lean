import PmDebugger.FlushBytes

/-!
# The warnings of a flush

A flush is superfluous when it meets no record, and it is redundant for each record that it
meets and that is flushed already. Both are decided along the loops. A snippet that is
tagged as a whole counts as met, whatever it holds. A record of the tree that the flush cuts
is met twice, since the walk is set back to it, and the second time it is flushed.
-/

namespace PmDebugger

open OrderedSet OrderedSet.OSet PmemOps

/-- What a part of a flush adds to `valid_flush` and to the register of redundant flushes. -/
structure Notices (met warned : Prop) (before after : PmemOps × Bool) : Prop where
  opts : after.1.opts = before.1.opts
  valid : after.2 = true ↔ before.2 = true ∨ met
  extended : before.1.redundantFlushes <+: after.1.redundantFlushes
  warned : before.1.opts.checkFlush = true →
    before.1.redundantFlushes.length < maxFlushErrorEvents →
    (after.1.redundantFlushes ≠ before.1.redundantFlushes ↔ warned)

namespace Notices

variable {met warned met' warned' : Prop} {before middle after : PmemOps × Bool}

/-- A part that neither meets nor warns. -/
theorem silent (opts : after.1.opts = before.1.opts) (flag : after.2 = before.2)
    (register : after.1.redundantFlushes = before.1.redundantFlushes) (missed : ¬ met)
    (quiet : ¬ warned) : Notices met warned before after where
  opts := opts
  valid := by rw [flag, or_iff_left missed]
  extended := register.symm ▸ List.prefix_refl _
  warned _ _ := iff_of_false (not_not.mpr register) quiet

/-- A part that meets a dirty record. -/
theorem found (opts : after.1.opts = before.1.opts) (flag : after.2 = true)
    (register : after.1.redundantFlushes = before.1.redundantFlushes) (isMet : met)
    (quiet : ¬ warned) : Notices met warned before after where
  opts := opts
  valid := iff_of_true flag (.inr isMet)
  extended := register.symm ▸ List.prefix_refl _
  warned _ _ := iff_of_false (not_not.mpr register) quiet

/-- Two parts of a flush notice what each of them notices. -/
theorem trans (first : Notices met warned before middle)
    (second : Notices met' warned' middle after) :
    Notices (met ∨ met') (warned ∨ warned') before after where
  opts := second.opts.trans first.opts
  valid := by rw [second.valid, first.valid, or_assoc]
  extended := first.extended.trans second.extended
  warned checks room := by
    rw [← first.warned checks room]
    by_cases same : middle.1.redundantFlushes = before.1.redundantFlushes
    · rw [← same] at room
      rw [← same, second.warned (first.opts ▸ checks) room]
      simp
    · -- What the first part registered stays in the register.
      refine iff_of_true (fun unchanged => same ?_) (.inl same)
      apply List.IsPrefix.eq_of_length_le _ _
      · rw [← unchanged]
        exact second.extended
      · exact first.extended.length_le

/-- What is noticed may be said in other words. -/
theorem congr (notices : Notices met warned before after) (sameMet : met ↔ met')
    (sameWarned : warned ↔ warned') : Notices met' warned' before after where
  opts := notices.opts
  valid := by rw [notices.valid, sameMet]
  extended := notices.extended
  warned checks room := by rw [notices.warned checks room, sameWarned]

end Notices

/-! ## The array -/

/-- The flush meets the record of the slot. A deleted record is not met. -/
def meetsSlot (flush : PmemSt) (pmem : PmemOps) (slot : Nat) : Prop :=
  (pmem.slots slot).isDelete = false ∧ cmpPmemSt flush (pmem.slots slot) = .eq

instance (flush : PmemSt) (pmem : PmemOps) (slot : Nat) : Decidable (meetsSlot flush pmem slot) :=
  inferInstanceAs (Decidable (_ ∧ _))

/-- The flush meets the record of the slot, and it is flushed already, by itself or by the tag
of its snippet. -/
def warnsSlot (flush : PmemSt) (pmem : PmemOps) (sIndex slot : Nat) : Prop :=
  meetsSlot flush pmem slot ∧
    ((pmem.snippetInfo sIndex).flushedNum = .allFlushed ∨ (pmem.slots slot).state ≠ .dirty)

instance (flush : PmemSt) (pmem : PmemOps) (sIndex slot : Nat) :
    Decidable (warnsSlot flush pmem sIndex slot) :=
  inferInstanceAs (Decidable (_ ∧ (_ ∨ _)))

section Array

variable {flush : PmemSt} {pmem : PmemOps} {sIndex : Nat}

/-- A warning fills the next entry of a register with room. -/
theorem warnRedundantFlush_notices (being : PmemSt) (pmem : PmemOps) (valid : Bool) :
    Notices True True (pmem, valid) (pmem.warnRedundantFlush being, true) := by
  have frame := warnRedundantFlush_frame being pmem
  refine ⟨by rw [frame], by simp, ?_, fun checks room => ?_⟩
  · simp only [warnRedundantFlush, addWarningEvent]
    split
    · split
      · exact List.prefix_refl _
      · exact List.prefix_append _ _
    · exact List.prefix_refl _
  · simp only at checks room
    simp [warnRedundantFlush, addWarningEvent, checks, Nat.ne_of_lt room]

/-- Cutting a record registers nothing. -/
theorem appendSplit_quiet (piece : PmemSt) (pmem : PmemOps) :
    (pmem.appendSplit piece).redundantFlushes = pmem.redundantFlushes ∧
      (pmem.appendSplit piece).opts = pmem.opts := by
  simp only [appendSplit]
  split
  · exact ⟨rfl, rfl⟩
  · rw [insertStore_frame]
    exact ⟨rfl, rfl⟩

/-- To mark and cut a slot warns about nothing. -/
theorem cutSlot_quiet (flush : PmemSt) (sIndex index : Nat) (pmem : PmemOps) :
    (((pmem.markSlot sIndex index).splitFront flush index).splitBack flush index).redundantFlushes =
        pmem.redundantFlushes ∧
      (((pmem.markSlot sIndex index).splitFront flush index).splitBack flush index).opts =
        pmem.opts := by
  have front (state : PmemOps) : (state.splitFront flush index).redundantFlushes =
      state.redundantFlushes ∧ (state.splitFront flush index).opts = state.opts := by
    simp only [splitFront]
    split
    · exact appendSplit_quiet _ _
    · exact ⟨rfl, rfl⟩
  have back (state : PmemOps) : (state.splitBack flush index).redundantFlushes =
      state.redundantFlushes ∧ (state.splitBack flush index).opts = state.opts := by
    simp only [splitBack]
    split
    · exact appendSplit_quiet _ _
    · exact ⟨rfl, rfl⟩
  constructor
  · rw [(back _).1, (front _).1]
    rfl
  · rw [(back _).2, (front _).2]
    rfl

/-- The body of the inner loop. -/
theorem flushSlot_notices (flush : PmemSt) (sIndex index : Nat) (pmem : PmemOps) (valid : Bool) :
    Notices (meetsSlot flush pmem index) (warnsSlot flush pmem sIndex index) (pmem, valid)
      (pmem.flushSlot flush sIndex index valid) := by
  simp only [flushSlot]
  split
  · next deleted =>
    have missed : ¬ meetsSlot flush pmem index := fun meets => by
      rw [meets.1] at deleted
      cases deleted
    exact Notices.silent rfl rfl rfl missed (fun warns => missed warns.1)
  · next undeleted =>
    split
    · next misses =>
      have missed : ¬ meetsSlot flush pmem index := fun meets => misses meets.2
      exact Notices.silent rfl rfl rfl missed (fun warns => missed warns.1)
    · next meets =>
      have met : meetsSlot flush pmem index := ⟨by simpa using undeleted, not_not.mp meets⟩
      split
      · next redundant =>
        exact (warnRedundantFlush_notices _ pmem valid).congr (iff_of_true trivial met)
          (iff_of_true trivial ⟨met, redundant⟩)
      · next effective =>
        obtain ⟨register, opts⟩ := cutSlot_quiet flush sIndex index pmem
        exact Notices.found opts rfl register met (fun warns => effective warns.2)

/-- In each snippet, the slots that were not visited are met as before, and what was added is
met by nothing. -/
theorem ByteFlushing.meetsSlot_iff {visited done : Nat → Prop} {before after : PmemOps}
    (flushing : ByteFlushing flush visited done before after) (layout : Layout before)
    (used : sIndex ≤ before.snippetInfoIndex) {slot : Nat} (notDone : ¬ done slot) :
    slot < (after.snippetInfo sIndex).index ∧ meetsSlot flush after slot ↔
      slot < (before.snippetInfo sIndex).index ∧ meetsSlot flush before slot := by
  have bounded := layout.bounded used
  have newBounded : (after.snippetInfo sIndex).index ≤ after.current.index :=
    flushing.sound.layout.bounded (by rw [flushing.same.used]; exact used)
  constructor
  · rintro ⟨below, undeleted, meets⟩
    obtain ⟨wasUsed, met⟩ := flushing.met slot (by omega) meets
    rw [flushing.untouched slot wasUsed notDone] at undeleted
    exact ⟨(flushing.same.below_iff wasUsed).mp below, undeleted, met⟩
  · rintro ⟨below, meets⟩
    have wasUsed : slot < before.current.index := by omega
    refine ⟨(flushing.same.below_iff wasUsed).mpr below, ?_⟩
    unfold meetsSlot
    rw [flushing.untouched slot wasUsed notDone]
    exact meets

/-- So are the flushed records. -/
theorem ByteFlushing.warnsSlot_iff {visited done : Nat → Prop} {before after : PmemOps}
    (flushing : ByteFlushing flush visited done before after) (layout : Layout before)
    (used : sIndex ≤ before.snippetInfoIndex) {slot : Nat} (notDone : ¬ done slot) :
    slot < (after.snippetInfo sIndex).index ∧ warnsSlot flush after sIndex slot ↔
      slot < (before.snippetInfo sIndex).index ∧ warnsSlot flush before sIndex slot := by
  have bounded := layout.bounded used
  unfold warnsSlot
  rw [← and_assoc, ← and_assoc, flushing.meetsSlot_iff layout used notDone]
  refine and_congr_right (fun met => ?_)
  rw [flushing.same.tags, flushing.untouched slot (by omega) notDone]

/-- The inner loop from a slot on. It may stop at the bound, since it meets nothing behind. -/
theorem flushSlots_notices (range : flush.Proper) (fuel index bound : Nat) (pmem : PmemOps)
    (valid : Bool) (plain : pmem.opts.treeReorganization = false) (sound : Sound pmem)
    (isOpen : pmem.current.flushedNum ≠ .allFlushed) (used : sIndex ≤ pmem.snippetInfoIndex)
    (low : (pmem.snippetInfo sIndex).startIndex ≤ index)
    (clear : ∀ slot, index ≤ slot → bound ≤ slot → slot < (pmem.snippetInfo sIndex).index →
      ¬ meetsSlot flush pmem slot)
    (enough : bound - index ≤ fuel) :
    Notices (∃ slot, index ≤ slot ∧ slot < (pmem.snippetInfo sIndex).index ∧
        meetsSlot flush pmem slot)
      (∃ slot, index ≤ slot ∧ slot < (pmem.snippetInfo sIndex).index ∧
        warnsSlot flush pmem sIndex slot) (pmem, valid)
      (flushSlots flush sIndex fuel index pmem valid) := by
  induction fuel generalizing index pmem valid with
  | zero =>
    apply Notices.silent rfl rfl rfl
    · rintro ⟨slot, above, below, meets⟩
      exact clear slot above (by omega) below meets
    · rintro ⟨slot, above, below, warns⟩
      exact clear slot above (by omega) below warns.1
  | succ fuel inductionHypothesis =>
    simp only [flushSlots]
    split
    · next more =>
      obtain ⟨turn, _⟩ := flushSlot_flushing range plain sound isOpen used ⟨low, more⟩ valid
      have noticed := flushSlot_notices flush sIndex index pmem valid
      generalize (pmem.flushSlot flush sIndex index valid) = result at *
      -- The records ahead are the same, and none that is met was added.
      have ahead {slot : Nat} (later : index + 1 ≤ slot) :=
        turn.meetsSlot_iff sound.layout used (show ¬ slot = index by omega)
      have warnsAhead {slot : Nat} (later : index + 1 ≤ slot) :=
        turn.warnsSlot_iff sound.layout used (show ¬ slot = index by omega)
      have next := inductionHypothesis (index + 1) result.1 result.2 (turn.opts ▸ plain) turn.sound
        (turn.same.stillOpen isOpen) (by rw [turn.same.used]; exact used)
        (by rw [turn.same.starts]; omega)
        (fun slot later above below meets => clear slot (by omega) above
          ((ahead later).mp ⟨below, meets⟩).1 ((ahead later).mp ⟨below, meets⟩).2)
        (by omega)
      apply (noticed.trans next).congr
      · constructor
        · rintro (meets | ⟨slot, later, rest⟩)
          · exact ⟨index, Nat.le_refl _, more, meets⟩
          · exact ⟨slot, by omega, (ahead later).mp rest⟩
        · rintro ⟨slot, above, rest⟩
          by_cases isIndex : slot = index
          · rw [isIndex] at rest
            exact .inl rest.2
          · exact .inr ⟨slot, by omega, (ahead (by omega)).mpr rest⟩
      · constructor
        · rintro (warns | ⟨slot, later, rest⟩)
          · exact ⟨index, Nat.le_refl _, more, warns⟩
          · exact ⟨slot, by omega, (warnsAhead later).mp rest⟩
        · rintro ⟨slot, above, rest⟩
          by_cases isIndex : slot = index
          · rw [isIndex] at rest
            exact .inl rest.2
          · exact .inr ⟨slot, by omega, (warnsAhead (by omega)).mpr rest⟩
    · next finished =>
      apply Notices.silent rfl rfl rfl
      · rintro ⟨slot, above, below, _⟩
        omega
      · rintro ⟨slot, above, below, _⟩
        omega

/-- The flush counts the snippet as met. It tags the snippet, or it goes through it and meets a
slot. -/
def meetsSnippet (flush : PmemSt) (pmem : PmemOps) (sIndex : Nat) : Prop :=
  tagsSnippet flush (pmem.snippetInfo sIndex) ∨
    ¬ skipsSnippet flush (pmem.snippetInfo sIndex) ∧
      ∃ slot ∈ slotRange (pmem.snippetInfo sIndex), meetsSlot flush pmem slot

instance (flush : PmemSt) (pmem : PmemOps) (sIndex : Nat) :
    Decidable (meetsSnippet flush pmem sIndex) :=
  inferInstanceAs (Decidable (_ ∨ _ ∧ ∃ slot ∈ slotRange _, _))

/-- The flush goes through the snippet and meets a flushed record there. A snippet that it tags
is not gone through. -/
def warnsSnippet (flush : PmemSt) (pmem : PmemOps) (sIndex : Nat) : Prop :=
  ¬ tagsSnippet flush (pmem.snippetInfo sIndex) ∧ ¬ skipsSnippet flush (pmem.snippetInfo sIndex) ∧
    ∃ slot ∈ slotRange (pmem.snippetInfo sIndex), warnsSlot flush pmem sIndex slot

instance (flush : PmemSt) (pmem : PmemOps) (sIndex : Nat) :
    Decidable (warnsSnippet flush pmem sIndex) :=
  inferInstanceAs (Decidable (_ ∧ _ ∧ ∃ slot ∈ slotRange _, _))

/-- The body of the outer loop. -/
theorem flushSnippet_notices (range : flush.Proper) (valid : Bool)
    (plain : pmem.opts.treeReorganization = false) (sound : Sound pmem)
    (isOpen : pmem.current.flushedNum ≠ .allFlushed) (used : sIndex ≤ pmem.snippetInfoIndex) :
    Notices (meetsSnippet flush pmem sIndex) (warnsSnippet flush pmem sIndex) (pmem, valid)
      (flushSnippet flush (pmem, valid) sIndex) := by
  simp only [flushSnippet]
  split
  · next tags =>
    exact Notices.found rfl rfl rfl (.inl tags) (fun warns => warns.1 tags)
  · next untagged =>
    split
    · next skipped =>
      apply Notices.silent rfl rfl rfl
      · rintro (tags | ⟨reached, _⟩)
        · exact untagged tags
        · exact reached skipped
      · exact fun warns => warns.2.1 skipped
    · next reached =>
      have loop := flushSlots_notices range
        (3 * ((pmem.snippetInfo sIndex).index - (pmem.snippetInfo sIndex).startIndex) + 1)
        (pmem.snippetInfo sIndex).startIndex (pmem.snippetInfo sIndex).index pmem valid plain sound
        isOpen used (Nat.le_refl _) (fun slot _ above below => by omega) (by omega)
      apply loop.congr
      · simp only [meetsSnippet, untagged, reached, not_false_eq_true, true_and, false_or,
          mem_slotRange, InSnippet, and_assoc]
      · simp only [warnsSnippet, untagged, reached, not_false_eq_true, true_and, mem_slotRange,
          InSnippet, and_assoc]

/-- The loop before it enters a snippet has changed nothing in it that counts. -/
theorem ByteFlushing.snippet_iff {count : Nat} {after : PmemOps} (layout : Layout pmem)
    (used : count ≤ pmem.snippetInfoIndex)
    (flushing : ByteFlushing flush (· < count) (fun slot => ∃ sIndex < count,
      ¬ skipsSnippet flush (pmem.snippetInfo sIndex) ∧ InSnippet pmem sIndex slot) pmem after) :
    (meetsSnippet flush after count ↔ meetsSnippet flush pmem count) ∧
      (warnsSnippet flush after count ↔ warnsSnippet flush pmem count) := by
  have boxes := flushing.boxes count
  have tag : (after.snippetInfo count).flushedNum = (pmem.snippetInfo count).flushedNum := by
    rcases flushing.tags count with same | ⟨earlier, _⟩
    · exact same
    · omega
  have tags : tagsSnippet flush (after.snippetInfo count) ↔
      tagsSnippet flush (pmem.snippetInfo count) := by
    unfold tagsSnippet
    rw [boxes.1, boxes.2, tag]
  have skips : skipsSnippet flush (after.snippetInfo count) ↔
      skipsSnippet flush (pmem.snippetInfo count) := by
    unfold skipsSnippet
    rw [boxes.1, boxes.2]
  have notDone {slot : Nat} (above : (pmem.snippetInfo count).startIndex ≤ slot) :
      ¬ ∃ sIndex < count, ¬ skipsSnippet flush (pmem.snippetInfo sIndex) ∧
        InSnippet pmem sIndex slot := by
    rintro ⟨sIndex, earlier, _, inside⟩
    have before := layout.apart earlier used
    have := inside.2
    omega
  constructor
  · unfold meetsSnippet
    rw [tags, skips]
    refine or_congr_right (and_congr_right (fun _ => ?_))
    simp only [mem_slotRange, InSnippet, flushing.same.starts]
    constructor
    · rintro ⟨slot, ⟨above, below⟩, meets⟩
      obtain ⟨inside, met⟩ := (flushing.meetsSlot_iff layout used (notDone above)).mp ⟨below, meets⟩
      exact ⟨slot, ⟨above, inside⟩, met⟩
    · rintro ⟨slot, ⟨above, below⟩, meets⟩
      obtain ⟨inside, met⟩ := (flushing.meetsSlot_iff layout used (notDone above)).mpr
          ⟨below, meets⟩
      exact ⟨slot, ⟨above, inside⟩, met⟩
  · unfold warnsSnippet
    rw [tags, skips]
    refine and_congr_right (fun _ => and_congr_right (fun _ => ?_))
    simp only [mem_slotRange, InSnippet, flushing.same.starts]
    constructor
    · rintro ⟨slot, ⟨above, below⟩, warns⟩
      obtain ⟨inside, warned⟩ :=
        (flushing.warnsSlot_iff layout used (notDone above)).mp ⟨below, warns⟩
      exact ⟨slot, ⟨above, inside⟩, warned⟩
    · rintro ⟨slot, ⟨above, below⟩, warns⟩
      obtain ⟨inside, warned⟩ :=
        (flushing.warnsSlot_iff layout used (notDone above)).mpr ⟨below, warns⟩
      exact ⟨slot, ⟨above, inside⟩, warned⟩

/-- The outer loop. -/
theorem flushArray_notices (range : flush.Proper) (steady : Steady pmem) :
    Notices (∃ sIndex ∈ List.range (pmem.snippetInfoIndex + 1), meetsSnippet flush pmem sIndex)
      (∃ sIndex ∈ List.range (pmem.snippetInfoIndex + 1), warnsSnippet flush pmem sIndex)
      (pmem, false) (pmem.flushArray flush) := by
  have isOpen : pmem.current.flushedNum ≠ .allFlushed := by
    rw [steady.opened]
    simp
  have upTo (count : Nat) (used : count ≤ pmem.snippetInfoIndex + 1) :
      Notices (∃ sIndex ∈ List.range count, meetsSnippet flush pmem sIndex)
        (∃ sIndex ∈ List.range count, warnsSnippet flush pmem sIndex) (pmem, false)
        ((List.range count).foldl (flushSnippet flush) (pmem, false)) := by
    induction count with
    | zero =>
      apply Notices.silent rfl rfl rfl
      · simp
      · simp
    | succ count inductionHypothesis =>
      have first := inductionHypothesis (by omega)
      have flushing := flushSnippets_flushing range steady.plain steady.sound isOpen steady.closed
        count (by omega)
      rw [List.range_succ, List.foldl_append, List.foldl_cons, List.foldl_nil]
      generalize (List.range count).foldl (flushSnippet flush) (pmem, false) = state at *
      obtain ⟨sameMet, sameWarned⟩ := flushing.snippet_iff steady.sound.layout (by omega)
      have turn := flushSnippet_notices range state.2 (flushing.opts ▸ steady.plain) flushing.sound
        (flushing.same.stillOpen isOpen) (show count ≤ state.1.snippetInfoIndex by
          rw [flushing.same.used]; omega)
      apply (first.trans turn).congr
      · rw [sameMet]
        simp only [List.mem_append, List.mem_singleton, or_and_right, exists_or, exists_eq_left]
      · rw [sameWarned]
        simp only [List.mem_append, List.mem_singleton, or_and_right, exists_or, exists_eq_left]
  exact upTo _ (Nat.le_refl _)

end Array

/-! ## The tree -/

/-- The flush meets the record of the tree, which is flushed already or sticks out of the
range. -/
def warnsTree (flush store : PmemSt) : Prop :=
  cmpPmemSt flush store = .eq ∧ (store.state ≠ .dirty ∨ ¬ Within flush store)

instance (flush store : PmemSt) : Decidable (warnsTree flush store) :=
  inferInstanceAs (Decidable (_ ∧ (_ ∨ _)))

section Tree

variable {flush being : PmemSt} {pmem : PmemOps} {done rest : List PmemSt}

/-- A record is cut iff it sticks out of the range. -/
theorem treeCutPieces_iff (range : flush.Proper) (proper : being.Proper)
    (meets : cmpPmemSt flush being = .eq) : treeCutPieces flush being ≠ [] ↔
      ¬ Within flush being := by
  rw [not_iff_not]
  constructor
  · intro none
    unfold treeCutPieces at none
    rw [List.append_eq_nil_iff] at none
    by_cases before : being.addr < flush.addr
    · rw [if_pos before] at none
      exact absurd none.1 (by simp)
    · have front : flushedFront flush being = { being with state := .flushed } := if_neg before
      by_cases behind : (flushedFront flush being).maxAddr > flush.maxAddr
      · rw [if_pos behind] at none
        exact absurd none.2 (by simp)
      · rw [front] at behind
        exact ⟨Nat.le_of_not_lt before, Nat.le_of_not_lt behind⟩
  · intro within
    apply List.eq_nil_iff_forall_not_mem.mpr
    intro piece member
    have cut := tree_cut_exact range proper meets
    have size := (cut.pieces_proper piece member).nonempty
    obtain ⟨inBeing, outside⟩ := (cut.pieces_cover piece.addr).mp
      ⟨piece, member, Nat.le_refl _, by omega⟩
    exact outside (within.covers range proper inBeing)

/-- Cutting a record of the tree registers nothing. -/
theorem splitsTree_quiet (flush flushed : PmemSt) (position : Nat) (pmem : PmemOps) :
    ((pmem.splitFrontTree flush flushed position).1.splitBackTree flush
        (pmem.splitFrontTree flush flushed position).2).redundantFlushes = pmem.redundantFlushes ∧
      ((pmem.splitFrontTree flush flushed position).1.splitBackTree flush
        (pmem.splitFrontTree flush flushed position).2).opts = pmem.opts := by
  simp only [splitFrontTree, splitBackTree]
  split
  · split <;> exact ⟨rfl, rfl⟩
  · split <;> exact ⟨rfl, rfl⟩

/-- One turn of the walk. -/
theorem treeTurn_notices (walking : Walking flush done (being :: rest) pmem) (valid : Bool)
    {next : PmemOps × Bool} (turned : treeTurn flush (pmem, valid) = some next) :
    Notices (cmpPmemSt flush being = .eq) (cmpPmemSt flush being = .eq ∧ being.state ≠ .dirty)
      (pmem, valid) next := by
  simp only [treeTurn, next_some walking.listed walking.walk] at turned
  split at turned
  · next misses =>
    cases turned
    exact Notices.silent rfl rfl rfl misses (fun warns => misses warns.1)
  · next meets =>
    have met := not_not.mp meets
    split at turned
    · next flushed =>
      cases turned
      have warned := warnRedundantFlush_notices being
        { pmem with pmemStores := { pmem.pmemStores with iter := some (done.length + 1) } } valid
      have noticed := warned.congr (iff_of_true trivial met)
        (iff_of_true trivial (And.intro met flushed))
      exact ⟨noticed.opts, noticed.valid, noticed.extended, noticed.warned⟩
    · next dirty =>
      cases turned
      obtain ⟨register, opts⟩ := splitsTree_quiet flush { being with state := .flushed } done.length
        (markAt done.length being
          { pmem with pmemStores := { pmem.pmemStores with iter := some (done.length + 1) } })
      exact Notices.found opts rfl register met (fun warns => dirty warns.2)

/-- The walk from any point of the tree. -/
theorem flushTree_notices (range : flush.Proper) (fuel : Nat) (valid : Bool)
    (enough : turns flush rest < fuel) (walking : Walking flush done rest pmem) :
    Notices (∃ store ∈ rest, cmpPmemSt flush store = .eq) (∃ store ∈ rest, warnsTree flush store)
      (pmem, valid) (flushTree flush fuel pmem valid) := by
  induction fuel generalizing pmem valid done rest with
  | zero => omega
  | succ fuel inductionHypothesis =>
    rw [flushTree_succ]
    cases rest with
    | nil =>
      rw [walking.finished valid, Option.elim_none]
      apply Notices.silent rfl rfl rfl
      · simp
      · simp
    | cons being rest =>
      have proper := walking.sound.proper being (by simp [walking.listed])
      obtain ⟨next, turned, done', rest', walks, fewer, kept, again⟩ := walking.turn range valid
      have turn := treeTurn_notices walking valid turned
      have later := inductionHypothesis next.2 (by omega) walks
      rw [turned, Option.elim_some]
      apply (turn.trans later).congr
      · by_cases cut : marksTree flush being ∧ treeCutPieces flush being ≠ []
        · exact iff_of_true (.inl cut.1.1) ⟨being, List.mem_cons_self, cut.1.1⟩
        · rw [kept cut, List.exists_mem_cons_iff]
      · by_cases cut : marksTree flush being ∧ treeCutPieces flush being ≠ []
        · -- The walk meets what is left of the record, and that is flushed.
          have whole := tree_cut_exact range proper cut.1.1
          refine iff_of_true (.inr ⟨_, again cut, ?_, .inl ?_⟩) ⟨being, List.mem_cons_self, cut.1.1,
            .inr ((treeCutPieces_iff range proper cut.1.1).mp cut.2)⟩
          · obtain ⟨byte, inFlush, inBeing⟩ := (cmpPmemSt_eq_iff_shared range proper).mp cut.1.1
            exact (cmpPmemSt_eq_iff_shared range whole.kept_proper).mpr
              ⟨byte, inFlush, (whole.kept_covers byte).mpr ⟨inBeing, inFlush⟩⟩
          · rw [whole.kept_state]
            simp
        · rw [kept cut, List.exists_mem_cons_iff]
          refine or_congr_left ?_
          unfold warnsTree
          refine and_congr_right (fun meets => ⟨.inl, ?_⟩)
          rintro (flushed | sticksOut)
          · exact flushed
          · exact fun dirty => cut ⟨⟨meets, dirty⟩,
              (treeCutPieces_iff range proper meets).mpr sticksOut⟩

end Tree

/-! ## The whole flush -/

/-- The flush counts a snippet as met or meets a record of the tree. Otherwise it is registered
as superfluous. -/
def findsRecord (flush : PmemSt) (pmem : PmemOps) : Prop :=
  (∃ sIndex ∈ List.range (pmem.snippetInfoIndex + 1), meetsSnippet flush pmem sIndex) ∨
    ¬ skipsTree flush pmem ∧ ∃ store ∈ pmem.pmemStores.toList, cmpPmemSt flush store = .eq

instance (flush : PmemSt) (pmem : PmemOps) : Decidable (findsRecord flush pmem) :=
  inferInstanceAs (Decidable ((∃ sIndex ∈ List.range _, _) ∨ _ ∧
    ∃ store ∈ pmem.pmemStores.toList, _))

/-- The flush meets a flushed record, or cuts a record of the tree. Either is registered as
redundant. -/
def findsFlushed (flush : PmemSt) (pmem : PmemOps) : Prop :=
  (∃ sIndex ∈ List.range (pmem.snippetInfoIndex + 1), warnsSnippet flush pmem sIndex) ∨
    ¬ skipsTree flush pmem ∧ ∃ store ∈ pmem.pmemStores.toList, warnsTree flush store

instance (flush : PmemSt) (pmem : PmemOps) : Decidable (findsFlushed flush pmem) :=
  inferInstanceAs (Decidable ((∃ sIndex ∈ List.range _, _) ∨ _ ∧
    ∃ store ∈ pmem.pmemStores.toList, _))

section Whole

variable {flush : PmemSt} {pmem : PmemOps}

/-- The tree part of a flush. -/
theorem flushStores_notices (range : flush.Proper) (valid : Bool)
    (sound : TreeSound pmem.opts pmem.dbPmemStoreIndex pmem.pmemStores) :
    Notices (¬ skipsTree flush pmem ∧ ∃ store ∈ pmem.pmemStores.toList, cmpPmemSt flush store = .eq)
      (¬ skipsTree flush pmem ∧ ∃ store ∈ pmem.pmemStores.toList, warnsTree flush store)
      (pmem, valid) (pmem.flushStores flush valid) := by
  simp only [flushStores]
  by_cases skipped : skipsTree flush pmem
  · rw [if_pos (show flush.addr > pmem.maxAddPmemStore ∨ flush.maxAddr < pmem.minAddPmemStore from
      skipped)]
    exact Notices.silent rfl rfl rfl (fun met => met.1 skipped) (fun warns => warns.1 skipped)
  · rw [if_neg (show ¬ (flush.addr > pmem.maxAddPmemStore ∨
      flush.maxAddr < pmem.minAddPmemStore) from skipped)]
    have walk := flushTree_notices range (4 * pmem.pmemStores.size + 1) valid
      (Nat.lt_succ_of_le (turns_le flush pmem.pmemStores.toList)) (walking_start flush sound)
    have reset : Notices (∃ store ∈ pmem.pmemStores.toList, cmpPmemSt flush store = .eq)
        (∃ store ∈ pmem.pmemStores.toList, warnsTree flush store) (pmem, valid)
        (flushTree flush (4 * pmem.pmemStores.size + 1)
          { pmem with pmemStores := pmem.pmemStores.resetIter } valid) :=
      ⟨walk.opts, walk.valid, walk.extended, walk.warned⟩
    exact reset.congr (and_iff_right skipped).symm (and_iff_right skipped).symm

/-- The loops of a flush over the array and the tree. -/
theorem flushLoops_notices (range : flush.Proper) (steady : Steady pmem) :
    Notices (findsRecord flush pmem) (findsFlushed flush pmem) (pmem, false)
      ((pmem.flushArray flush).1.flushStores flush (pmem.flushArray flush).2) := by
  have array := flushArray_notices range steady
  have arrayPart := flushArray_flushed range steady
  have changed := flushArray_changed flush pmem
  have lower : (pmem.flushArray flush).1.minAddPmemStore = pmem.minAddPmemStore := by rw [changed]
  have upper : (pmem.flushArray flush).1.maxAddPmemStore = pmem.maxAddPmemStore := by rw [changed]
  have tree := flushStores_notices range (pmem.flushArray flush).2 arrayPart.sound.tree
  have skips : skipsTree flush (pmem.flushArray flush).1 ↔ skipsTree flush pmem := by
    unfold skipsTree
    rw [lower, upper]
  have listed (noticed : PmemSt → Prop)
      (meets : ∀ store, noticed store → cmpPmemSt flush store = .eq) :
      (∃ store ∈ (pmem.flushArray flush).1.pmemStores.toList, noticed store) ↔
        ∃ store ∈ pmem.pmemStores.toList, noticed store := by
    constructor
    · rintro ⟨store, member, isNoticed⟩
      rcases arrayPart.stores store member with inBefore | ⟨_, clear⟩
      · exact ⟨store, inBefore, isNoticed⟩
      · exact absurd (meets store isNoticed) clear
    · rintro ⟨store, member, isNoticed⟩
      exact ⟨store, arrayPart.older store member, isNoticed⟩
  apply (array.trans tree).congr
  · rw [skips, listed (fun store => cmpPmemSt flush store = .eq) (fun _ => id)]
    exact Iff.rfl
  · rw [skips, listed (warnsTree flush) (fun _ warns => warns.1)]
    exact Iff.rfl

/-- What `do_flush` registers. -/
theorem doFlush_registers_exact (steady : Steady pmem) {base size : Nat}
    (context : Option ExeContext) (strandId : Nat)
    (range : (flushInfo pmem.opts pmem.flushAlignSize base size).Proper)
    (checks : pmem.opts.checkFlush = true) :
    (pmem.redundantFlushes.length < maxFlushErrorEvents →
      (pmem.redundantFlushes.length <
          (pmem.doFlush base size context strandId).redundantFlushes.length ↔
        findsFlushed (flushInfo pmem.opts pmem.flushAlignSize base size) pmem)) ∧
    (pmem.superfluousFlushes.length < maxFlushErrorEvents →
      (pmem.superfluousFlushes.length <
          (pmem.doFlush base size context strandId).superfluousFlushes.length ↔
        ¬ findsRecord (flushInfo pmem.opts pmem.flushAlignSize base size) pmem)) := by
  simp only [doFlush]
  rw [checkStrandOrder_frame]
  generalize flushInfo pmem.opts pmem.flushAlignSize base size = flush at *
  generalize (pmem.checkStrandOrder flush strandId).lackOrderingTrandReg = register
  have ready : Steady { pmem with lackOrderingTrandReg := register } :=
    ⟨steady.plain, ⟨⟨steady.sound.layout.first, steady.sound.layout.chained,
      steady.sound.layout.ordered⟩, steady.sound.slots, steady.sound.tree⟩, steady.opened,
      steady.closed, steady.slots, steady.stores⟩
  have loops := flushLoops_notices range ready
  have changed := flushArray_changed flush { pmem with lackOrderingTrandReg := register }
  generalize flushArray flush { pmem with lackOrderingTrandReg := register } = array at *
  have superfluous : (array.1.flushStores flush array.2).1.superfluousFlushes =
      pmem.superfluousFlushes := by
    have same : array.1.superfluousFlushes = pmem.superfluousFlushes := by rw [changed]
    rw [← same]
    simp only [flushStores]
    split
    · rfl
    · rw [flushTree_unchanged]
  generalize array.1.flushStores flush array.2 = tree at *
  have opts : tree.1.opts = pmem.opts := loops.opts
  have quiet := warnSuperfluousFlush_frame flush context tree.2 tree.1
  rw [closeSnippet_frame]
  constructor
  · intro room
    have sameRegister : (tree.1.warnSuperfluousFlush flush context tree.2).redundantFlushes =
        tree.1.redundantFlushes := by rw [quiet]
    show pmem.redundantFlushes.length <
      (tree.1.warnSuperfluousFlush flush context tree.2).redundantFlushes.length ↔ _
    rw [sameRegister]
    refine Iff.trans ?_ (loops.warned checks room)
    have longer := loops.extended.length_le
    constructor
    · intro grows same
      rw [same] at grows
      exact Nat.lt_irrefl _ grows
    · intro differs
      apply Nat.lt_of_le_of_ne longer
      intro equal
      exact differs (loops.extended.eq_of_length equal).symm
  · intro room
    have met : tree.2 = true ↔ findsRecord flush pmem := by
      have valid := loops.valid
      simp only [Bool.false_eq_true, false_or] at valid
      exact valid
    show pmem.superfluousFlushes.length <
      (tree.1.warnSuperfluousFlush flush context tree.2).superfluousFlushes.length ↔ _
    rw [← met]
    simp only [warnSuperfluousFlush, addWarningEvent, opts, checks, superfluous, and_true]
    cases tree.2 with
    | true => simp [superfluous]
    | false => simp [Nat.ne_of_lt room]

end Whole

end PmDebugger
