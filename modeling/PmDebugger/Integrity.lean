import PmDebugger.Client
import PmDebugger.LiveFence
import PmDebugger.LiveFlush
import PmDebugger.TreeUpdates

/-!
# The tracker under every option

What holds of the tracker whatever the options are and however full the array is: the
snippets divide the used part of the array, every slot in use and every record of the
tree is a proper range, and the tree is ordered. Each operation keeps this, and it is
described by what it does to the bytes that the tracker shows, those of its undeleted
array records and of its tree, and to the bytes that it hides in deleted array records.

Only the array loop of `handle_with_mult_stores` can fail an insertion. It does so only
with `--tree-reorganization`, where the tree may already hold a record in the place of the
part that is cut off behind the new store.
-/

namespace PmDebugger

open OrderedSet OrderedSet.OSet PmemOps Carving

/-- The tracker between two steps. Its records are proper, its snippets lie one behind the
other, and its tree is ordered. -/
structure Sound (pmem : PmemOps) : Prop where
  layout : Layout pmem
  slots : ∀ slot < pmem.current.index, (pmem.slots slot).Proper
  tree : TreeSound pmem.opts pmem.dbPmemStoreIndex pmem.pmemStores

/-- A byte of an undeleted array record or of the tree. Only such bytes can appear in a report
of undeleted records. -/
def Shown (pmem : PmemOps) (byte : Nat) : Prop :=
  (∃ slot < pmem.current.index, (pmem.slots slot).isDelete = false ∧
    (pmem.slots slot).Covers byte) ∨ Tracks pmem.pmemStores.toList byte

/-- A byte of a deleted array record. The plain report lists deleted records, too. -/
def Hidden (pmem : PmemOps) (byte : Nat) : Prop :=
  ∃ slot < pmem.current.index, (pmem.slots slot).isDelete = true ∧ (pmem.slots slot).Covers byte

/-! ## The slots in use -/

/-- The slots of the first snippets are those below their end. -/
theorem Layout.slots_before {pmem : PmemOps} (layout : Layout pmem) (count : Nat)
    (used : count ≤ pmem.snippetInfoIndex) :
    (List.range count).flatMap (fun sIndex => slotRange (pmem.snippetInfo sIndex)) =
      List.range (pmem.snippetInfo count).startIndex := by
  induction count with
  | zero =>
    rw [layout.first]
    rfl
  | succ count inductionHypothesis =>
    have ordered := layout.ordered count (by omega)
    rw [List.range_succ, List.flatMap_append, inductionHypothesis (by omega),
      layout.chained count (by omega), List.flatMap_singleton, slotRange, List.range_eq_range',
      List.range_eq_range']
    have joined := List.range'_append_1 (s := 0) (m := (pmem.snippetInfo count).startIndex)
      (n := (pmem.snippetInfo count).index - (pmem.snippetInfo count).startIndex)
    rw [Nat.zero_add] at joined
    rw [joined]
    congr 1
    omega

/-- The slots in use are those below the index of the current snippet. -/
theorem Layout.usedSlots_eq {pmem : PmemOps} (layout : Layout pmem) :
    pmem.usedSlots = List.range pmem.current.index := by
  have ordered := layout.ordered pmem.snippetInfoIndex (Nat.le_refl _)
  have before := layout.slots_before pmem.snippetInfoIndex (Nat.le_refl _)
  rw [usedSlots, List.range_succ, List.flatMap_append, before, List.flatMap_singleton, slotRange,
    List.range_eq_range', List.range_eq_range']
  have joined := List.range'_append_1 (s := 0)
    (m := (pmem.snippetInfo pmem.snippetInfoIndex).startIndex)
    (n := (pmem.snippetInfo pmem.snippetInfoIndex).index -
      (pmem.snippetInfo pmem.snippetInfoIndex).startIndex)
  rw [Nat.zero_add] at joined
  rw [joined]
  unfold current
  congr 1
  omega

/-- Every slot in use belongs to a snippet. -/
theorem Layout.inUse_iff {pmem : PmemOps} (layout : Layout pmem) {slot : Nat} :
    slot < pmem.current.index ↔ ∃ sIndex ≤ pmem.snippetInfoIndex, InSnippet pmem sIndex slot := by
  rw [← List.mem_range, ← layout.usedSlots_eq]
  simp only [usedSlots, List.mem_flatMap, List.mem_range, mem_slotRange, Nat.lt_succ_iff]

/-- The live records cover the bytes that are shown. -/
theorem Sound.tracks_live {pmem : PmemOps} (sound : Sound pmem) (byte : Nat) :
    Tracks pmem.live byte ↔ Shown pmem byte := by
  constructor
  · rintro ⟨store, member, inside⟩
    rcases mem_live.mp member with ⟨sIndex, used, slot, inSlot, undeleted, rfl⟩ | inTree
    · exact .inl ⟨slot, sound.layout.inUse_iff.mpr ⟨sIndex, used, inSlot⟩, undeleted,
        (settle_covers _ _ _).mp inside⟩
    · exact .inr ⟨store, inTree, inside⟩
  · rintro (⟨slot, inUse, undeleted, inside⟩ | ⟨store, inTree, inside⟩)
    · obtain ⟨sIndex, used, inSlot⟩ := sound.layout.inUse_iff.mp inUse
      exact ⟨_, mem_live.mpr (.inl ⟨sIndex, used, slot, inSlot, undeleted, rfl⟩),
        (settle_covers _ _ _).mpr inside⟩
    · exact ⟨store, mem_live.mpr (.inr inTree), inside⟩

/-- The snippets stay divided when the last one grows. -/
theorem Layout.grow {before after : PmemOps} (layout : Layout before)
    (same : after.snippetInfoIndex = before.snippetInfoIndex)
    (starts : ∀ sIndex, (after.snippetInfo sIndex).startIndex =
      (before.snippetInfo sIndex).startIndex)
    (others : ∀ sIndex < before.snippetInfoIndex,
      (after.snippetInfo sIndex).index = (before.snippetInfo sIndex).index)
    (last : before.current.index ≤ after.current.index) : Layout after where
  first := (starts 0).trans layout.first
  chained sIndex below := by
    rw [same] at below
    rw [starts, others sIndex below]
    exact layout.chained sIndex below
  ordered sIndex used := by
    rw [same] at used
    rw [starts]
    have ordered := layout.ordered sIndex used
    by_cases isLast : sIndex = before.snippetInfoIndex
    · unfold current at last
      rw [same] at last
      rw [isLast] at ordered ⊢
      exact Nat.le_trans ordered last
    · rw [others sIndex (by omega)]
      exact ordered

/-! ## Steps of the operations -/

/-- A step that shows no new byte and may lose some of the bytes shown and hide those. -/
structure Kept (lost : Nat → Prop) (before after : PmemOps) : Prop where
  opts : after.opts = before.opts
  sound : Sound after
  flag : after.pmemStores.duplicate = before.pmemStores.duplicate
  old : ∀ byte, Shown after byte → Shown before byte
  shown : ∀ byte, Shown before byte → Shown after byte ∨ lost byte
  hidden : ∀ byte, Hidden after byte → Hidden before byte ∨ lost byte

namespace Kept

variable {lost : Nat → Prop} {before middle after : PmemOps}

/-- Nothing happens, and nothing is lost. -/
theorem refl (sound : Sound before) : Kept lost before before :=
  ⟨rfl, sound, rfl, fun _ => id, fun _ => .inl, fun _ => .inl⟩

/-- What two steps lose together is what one of them loses. -/
theorem trans (first : Kept lost before middle) (second : Kept lost middle after) :
    Kept lost before after where
  opts := second.opts.trans first.opts
  sound := second.sound
  flag := second.flag.trans first.flag
  old byte isShown := first.old byte (second.old byte isShown)
  shown byte isShown := by
    rcases first.shown byte isShown with between | isLost
    · exact second.shown byte between
    · exact .inr isLost
  hidden byte isHidden := by
    rcases second.hidden byte isHidden with between | isLost
    · exact first.hidden byte between
    · exact .inr isLost

/-- A step that loses less is one that loses more. -/
theorem weaken {lost' : Nat → Prop} (kept : Kept lost before after)
    (weaker : ∀ byte, lost byte → lost' byte) : Kept lost' before after :=
  ⟨kept.opts, kept.sound, kept.flag, kept.old, fun byte isShown =>
    (kept.shown byte isShown).imp_right
    (weaker byte), fun byte isHidden => (kept.hidden byte isHidden).imp_right (weaker byte)⟩

end Kept

/-- The fields that soundness and the bytes depend on are the same. Registers, times and tags
may differ. -/
structure SameRecords (before after : PmemOps) : Prop where
  opts : after.opts = before.opts
  stores : after.pmemStores = before.pmemStores
  index : before.dbPmemStoreIndex ≤ after.dbPmemStoreIndex
  slots : after.slots = before.slots
  used : after.snippetInfoIndex = before.snippetInfoIndex
  starts : ∀ sIndex, (after.snippetInfo sIndex).startIndex = (before.snippetInfo sIndex).startIndex
  ends : ∀ sIndex, (after.snippetInfo sIndex).index = (before.snippetInfo sIndex).index

/-- The current snippet reaches as far as before. -/
theorem SameRecords.current_index {before after : PmemOps} (same : SameRecords before after) :
    after.current.index = before.current.index := by
  rw [current, same.used, same.ends]
  rfl

/-- Where the records stay, every byte is shown as before, and the tracker stays sound. -/
theorem SameRecords.kept {lost : Nat → Prop} {before after : PmemOps}
    (same : SameRecords before after) (sound : Sound before) : Kept lost before after := by
  have index := same.current_index
  refine ⟨same.opts, ⟨?_, ?_, ?_⟩, ?_, ?_, ?_, ?_⟩
  · exact sound.layout.grow same.used same.starts (fun sIndex _ => same.ends sIndex)
      (Nat.le_of_eq index.symm)
  · rw [index, same.slots]
    exact sound.slots
  · rw [same.opts, same.stores]
    exact sound.tree.congr rfl same.index
  · rw [same.stores]
  · intro byte isShown
    unfold Shown at isShown ⊢
    rwa [index, same.slots, same.stores] at isShown
  · intro byte isShown
    left
    unfold Shown at isShown ⊢
    rwa [index, same.slots, same.stores]
  · intro byte isHidden
    left
    unfold Hidden at isHidden ⊢
    rwa [index, same.slots] at isHidden

/-- A loop whose turns keep the records and an invariant keeps both. -/
theorem Kept.foldl {ι : Type} {lost : Nat → Prop} {step : PmemOps → ι → PmemOps}
    (holds : PmemOps → Prop) (inputs : List ι)
    (kept : ∀ pmem, Sound pmem → holds pmem → ∀ input ∈ inputs,
      Kept lost pmem (step pmem input) ∧ holds (step pmem input))
    (pmem : PmemOps) (sound : Sound pmem) (initial : holds pmem) :
    Kept lost pmem (inputs.foldl step pmem) ∧ holds (inputs.foldl step pmem) := by
  induction inputs generalizing pmem with
  | nil => exact ⟨Kept.refl sound, initial⟩
  | cons input rest inductionHypothesis =>
    obtain ⟨first, still⟩ := kept pmem sound initial input List.mem_cons_self
    obtain ⟨later, final⟩ := inductionHypothesis
      (fun state stateSound held next member => kept state stateSound held next
        (List.mem_cons_of_mem _ member)) _ first.sound still
    exact ⟨first.trans later, final⟩

/-- A change of the tree under an array that stays. -/
theorem TreeKept.kept {like : Nat → PmemSt → PmemSt → Prop} {lost : Nat → Prop}
    {before after : PmemOps} (kept : TreeKept before.opts like lost before.pmemStores
      before.dbPmemStoreIndex after.pmemStores after.dbPmemStoreIndex) (sound : Sound before)
    (opts : after.opts = before.opts) (slots : after.slots = before.slots)
    (snippets : after.snippetInfo = before.snippetInfo)
    (used : after.snippetInfoIndex = before.snippetInfoIndex) : Kept lost before after := by
  have index : after.current.index = before.current.index := by
    rw [current, used, snippets]
    rfl
  refine ⟨opts, ⟨?_, ?_, opts ▸ kept.sound⟩, kept.flag, ?_, ?_, ?_⟩
  · exact sound.layout.grow used (fun sIndex => by rw [snippets]) (fun sIndex _ => by rw [snippets])
      (Nat.le_of_eq index.symm)
  · rw [index, slots]
    exact sound.slots
  · rintro byte (inSlot | ⟨store, member, inside⟩)
    · rw [index, slots] at inSlot
      exact .inl inSlot
    · obtain ⟨source, isSource, like⟩ := kept.carved.origin store member
      exact .inr ⟨source, isSource, (like byte inside).1⟩
  · rintro byte (inSlot | ⟨store, member, inside⟩)
    · left
      left
      rwa [index, slots]
    · by_cases isLost : lost byte
      · exact .inr isLost
      · obtain ⟨part, isPart, covered, _⟩ := kept.carved.kept store member byte inside isLost
        exact .inl (.inr ⟨part, isPart, covered⟩)
  · intro byte isHidden
    left
    unfold Hidden at isHidden ⊢
    rwa [index, slots] at isHidden

/-- What is shown besides one slot, that is, by the other slots and by the tree. -/
def ShownBeside (pmem : PmemOps) (index byte : Nat) : Prop :=
  (∃ slot < pmem.current.index, slot ≠ index ∧ (pmem.slots slot).isDelete = false ∧
    (pmem.slots slot).Covers byte) ∨ Tracks pmem.pmemStores.toList byte

section Slot

variable {pmem : PmemOps} {index : Nat} {record : PmemSt}

/-- A byte is shown by the slot or beside it. The slot is in use, so that nothing else of the
tracker is meant. -/
theorem shown_iff (inUse : index < pmem.current.index) (byte : Nat) : Shown pmem byte ↔
    ((pmem.slots index).isDelete = false ∧ (pmem.slots index).Covers byte) ∨
      ShownBeside pmem index byte := by
  constructor
  · rintro (⟨slot, slotUsed, undeleted, inside⟩ | inTree)
    · by_cases same : slot = index
      · rw [same] at undeleted inside
        exact .inl ⟨undeleted, inside⟩
      · exact .inr (.inl ⟨slot, slotUsed, same, undeleted, inside⟩)
    · exact .inr (.inr inTree)
  · rintro (⟨undeleted, inside⟩ | ⟨slot, slotUsed, _, undeleted, inside⟩ | inTree)
    · exact .inl ⟨index, inUse, undeleted, inside⟩
    · exact .inl ⟨slot, slotUsed, undeleted, inside⟩
    · exact .inr inTree

/-- After a slot is set, a byte is shown by the new record or beside the slot. -/
theorem shown_setSlot (inUse : index < pmem.current.index) (byte : Nat) :
    Shown (pmem.setSlot index record) byte ↔
      (record.isDelete = false ∧ record.Covers byte) ∨ ShownBeside pmem index byte := by
  rw [shown_iff (show index < (pmem.setSlot index record).current.index from inUse)]
  refine or_congr (by simp) (or_congr ?_ Iff.rfl)
  refine exists_congr (fun slot => and_congr_right (fun _ => ?_))
  constructor
  · rintro ⟨differs, rest⟩
    rw [setSlot_slots, if_neg differs] at rest
    exact ⟨differs, rest⟩
  · rintro ⟨differs, rest⟩
    rw [setSlot_slots, if_neg differs]
    exact ⟨differs, rest⟩

/-- A byte that is hidden after a slot is set is hidden by the new record, or was hidden
before. -/
theorem hidden_setSlot {byte : Nat} (isHidden : Hidden (pmem.setSlot index record) byte) :
    (record.isDelete = true ∧ record.Covers byte) ∨ Hidden pmem byte := by
  obtain ⟨slot, slotUsed, deleted, inside⟩ := isHidden
  rw [setSlot_slots] at deleted inside
  by_cases same : slot = index
  · rw [if_pos same] at deleted inside
    exact .inl ⟨deleted, inside⟩
  · rw [if_neg same] at deleted inside
    exact .inr ⟨slot, slotUsed, deleted, inside⟩

/-- A proper record may be put into any slot. -/
theorem Sound.setSlot (sound : Sound pmem) (proper : record.Proper) :
    Sound (pmem.setSlot index record) where
  layout := ⟨sound.layout.first, sound.layout.chained, sound.layout.ordered⟩
  slots slot inUse := by
    rw [setSlot_slots]
    split
    · exact proper
    · exact sound.slots slot inUse
  tree := sound.tree

/-- A slot is rewritten and loses only bytes that may be lost. -/
theorem setSlot_kept {lost : Nat → Prop} (sound : Sound pmem) (inUse : index < pmem.current.index)
    (proper : record.Proper)
    (kept : ∀ byte, (pmem.slots index).isDelete = false → (pmem.slots index).Covers byte →
      record.isDelete = false ∧ record.Covers byte ∨ lost byte)
    (hides : ∀ byte, record.isDelete = true → record.Covers byte →
      (pmem.slots index).isDelete = true ∧ (pmem.slots index).Covers byte ∨ lost byte)
    (within : ∀ byte, record.isDelete = false → record.Covers byte →
      (pmem.slots index).isDelete = false ∧ (pmem.slots index).Covers byte) :
    Kept lost pmem (pmem.setSlot index record) where
  opts := rfl
  sound := sound.setSlot proper
  flag := rfl
  old byte isShown := by
    rw [shown_setSlot inUse] at isShown
    rw [shown_iff inUse]
    exact isShown.imp_left (fun both => within byte both.1 both.2)
  shown byte isShown := by
    rw [shown_setSlot inUse]
    rcases (shown_iff inUse byte).mp isShown with ⟨undeleted, inside⟩ | beside
    · rcases kept byte undeleted inside with stays | isLost
      · exact .inl (.inl stays)
      · exact .inr isLost
    · exact .inl (.inr beside)
  hidden byte isHidden := by
    rcases hidden_setSlot isHidden with ⟨deleted, inside⟩ | before
    · rcases hides byte deleted inside with ⟨wasDeleted, wasInside⟩ | isLost
      · exact .inl ⟨index, inUse, wasDeleted, wasInside⟩
      · exact .inr isLost
    · exact .inl before

end Slot

/-- A record is added, to the array or to the tree. Its bytes are shown from then on, and
everything else as before. -/
structure Appended (piece : PmemSt) (before after : PmemOps) : Prop where
  opts : after.opts = before.opts
  sound : Sound after
  flag : after.pmemStores.duplicate = before.pmemStores.duplicate
  shown : ∀ byte, Shown after byte ↔ (piece.isDelete = false ∧ piece.Covers byte) ∨
      Shown before byte
  hidden : ∀ byte, Hidden after byte → (piece.isDelete = true ∧ piece.Covers byte) ∨
    Hidden before byte

/-- A slot is trimmed and what was cut off is added elsewhere. -/
theorem Appended.cut {lost : Nat → Prop} {pmem after : PmemOps} {index : Nat}
    {kept piece : PmemSt} (inUse : index < pmem.current.index)
    (appended : Appended piece (pmem.setSlot index kept) after)
      (shownPiece : piece.isDelete = false)
    (keptShown : kept.isDelete = false)
    (covered : ∀ byte, (pmem.slots index).Covers byte →
      kept.Covers byte ∨ piece.Covers byte ∨ lost byte)
    (visible : (pmem.slots index).isDelete = false)
    (within : ∀ byte, kept.Covers byte ∨ piece.Covers byte → (pmem.slots index).Covers byte) :
    Kept lost pmem after where
  opts := appended.opts
  sound := appended.sound
  flag := appended.flag
  old byte isShown := by
    rw [appended.shown, shown_setSlot inUse] at isShown
    rw [shown_iff inUse]
    rcases isShown with ⟨_, inPiece⟩ | ⟨_, inKept⟩ | beside
    · exact .inl ⟨visible, within byte (.inr inPiece)⟩
    · exact .inl ⟨visible, within byte (.inl inKept)⟩
    · exact .inr beside
  shown byte isShown := by
    rw [appended.shown, shown_setSlot inUse]
    rcases (shown_iff inUse byte).mp isShown with ⟨_, inside⟩ | beside
    · rcases covered byte inside with inKept | inPiece | isLost
      · exact .inl (.inr (.inl ⟨keptShown, inKept⟩))
      · exact .inl (.inl ⟨shownPiece, inPiece⟩)
      · exact .inr isLost
    · exact .inl (.inr (.inr beside))
  hidden byte isHidden := by
    rcases appended.hidden byte isHidden with ⟨deleted, _⟩ | before
    · rw [shownPiece] at deleted
      cases deleted
    · rcases hidden_setSlot before with ⟨deleted, _⟩ | stays
      · rw [keptShown] at deleted
        cases deleted
      · exact .inl stays

/-- What follows may change everything but the records. -/
theorem Appended.same {piece : PmemSt} {before middle after : PmemOps}
    (appended : Appended piece before middle) (same : SameRecords middle after) :
    Appended piece before after := by
  have kept : Kept (fun _ => False) middle after := same.kept appended.sound
  have shown (byte : Nat) : Shown after byte ↔ Shown middle byte := by
    unfold Shown
    rw [same.current_index, same.slots, same.stores]
  refine ⟨kept.opts.trans appended.opts, kept.sound, kept.flag.trans appended.flag, ?_, ?_⟩
  · intro byte
    exact (shown byte).trans (appended.shown byte)
  · intro byte isHidden
    exact appended.hidden byte ((kept.hidden byte isHidden).resolve_right id)

/-- A record is written to the next slot. -/
theorem appendSlot_appended {pmem : PmemOps} (record : PmemSt) (sound : Sound pmem)
    (proper : record.Proper) :
    Appended record pmem ((pmem.setSlot pmem.current.index record).setSnippet pmem.snippetInfoIndex
      { pmem.current with index := pmem.current.index + 1 }) := by
  generalize grew : (pmem.setSlot pmem.current.index record).setSnippet pmem.snippetInfoIndex
    { pmem.current with index := pmem.current.index + 1 } = after
  have used : after.snippetInfoIndex = pmem.snippetInfoIndex := by
    rw [← grew]
    rfl
  have snippets (sIndex : Nat) : after.snippetInfo sIndex =
      if sIndex = pmem.snippetInfoIndex then { pmem.current with index := pmem.current.index + 1 }
      else pmem.snippetInfo sIndex := by
    rw [← grew]
    rfl
  have slots (slot : Nat) : after.slots slot =
      if slot = pmem.current.index then record else pmem.slots slot := by
    rw [← grew]
    rfl
  have stores : after.pmemStores = pmem.pmemStores := by
    rw [← grew]
    rfl
  have index : after.current.index = pmem.current.index + 1 := by
    rw [current, used, snippets, if_pos rfl]
  have last : after.slots pmem.current.index = record := by rw [slots, if_pos rfl]
  have earlier {slot : Nat} (below : slot < pmem.current.index) :
      after.slots slot = pmem.slots slot := by rw [slots, if_neg (by omega)]
  refine ⟨by rw [← grew]; rfl, ⟨?_, ?_, ?_⟩, by rw [stores], ?_, ?_⟩
  · refine sound.layout.grow used (fun sIndex => ?_) (fun sIndex below => ?_) (by omega)
    · rw [snippets]
      split
      · next same =>
        rw [same]
        rfl
      · rfl
    · rw [snippets, if_neg (by omega)]
  · intro slot inUse
    rw [index] at inUse
    by_cases isLast : slot = pmem.current.index
    · rw [isLast, last]
      exact proper
    · rw [earlier (by omega)]
      exact sound.slots slot (by omega)
  · rw [stores, ← grew]
    exact sound.tree
  · intro byte
    unfold Shown
    rw [index, stores]
    constructor
    · rintro (⟨slot, inUse, undeleted, inside⟩ | inTree)
      · by_cases isLast : slot = pmem.current.index
        · rw [isLast, last] at undeleted inside
          exact .inl ⟨undeleted, inside⟩
        · rw [earlier (by omega)] at undeleted inside
          exact .inr (.inl ⟨slot, by omega, undeleted, inside⟩)
      · exact .inr (.inr inTree)
    · rintro (⟨undeleted, inside⟩ | ⟨slot, inUse, undeleted, inside⟩ | inTree)
      · exact .inl ⟨pmem.current.index, by omega, by rwa [last], by rwa [last]⟩
      · exact .inl ⟨slot, by omega, by rwa [earlier inUse], by rwa [earlier inUse]⟩
      · exact .inr inTree
  · rintro byte ⟨slot, inUse, deleted, inside⟩
    rw [index] at inUse
    by_cases isLast : slot = pmem.current.index
    · rw [isLast, last] at deleted inside
      exact .inl ⟨deleted, inside⟩
    · rw [earlier (by omega)] at deleted inside
      exact .inr ⟨slot, by omega, deleted, inside⟩

/-- A record is entered into the tree and the array stays. -/
theorem StoreEntered.appended {pmem after : PmemOps} {piece entry : PmemSt} (sound : Sound pmem)
    (entered : StoreEntered piece pmem after entry) (visible : piece.isDelete = false)
    (frame : after = { pmem with
      pmemStores := after.pmemStores
      dbPmemStoreIndex := after.dbPmemStoreIndex }) : Appended piece pmem after := by
  have opts : after.opts = pmem.opts := by rw [frame]
  have slots : after.slots = pmem.slots := by rw [frame]
  have index : after.current.index = pmem.current.index := by
    rw [frame]
    rfl
  refine ⟨opts, ⟨?_, ?_, opts ▸ entered.sound⟩, entered.flag, ?_, ?_⟩
  · rw [frame]
    exact ⟨sound.layout.first, sound.layout.chained, sound.layout.ordered⟩
  · rw [slots, index]
    exact sound.slots
  · intro byte
    unfold Shown
    rw [slots, index, entered.bytes byte]
    exact or_left_comm.trans (or_congr (by simp [visible]) Iff.rfl)
  · rintro byte ⟨slot, inUse, rest⟩
    rw [index] at inUse
    rw [slots] at rest
    exact .inr ⟨slot, inUse, rest⟩

/-! ## Flushes -/

section Flush

variable {pmem : PmemOps} {flush : PmemSt}

/-- The remainder of a record is added, to the array or to the tree, and everything else is
kept. -/
theorem appendSplit_appended {piece : PmemSt} (sound : Sound pmem) (proper : piece.Proper)
    (visible : piece.isDelete = false) : Appended piece pmem (pmem.appendSplit piece) := by
  unfold appendSplit
  simp only
  split
  · have copied := appendSlot_appended (pmemStCopy (pmem.slots pmem.current.index) piece)
      sound ⟨proper.nonempty, proper.nonWrapping⟩
    exact ⟨copied.opts, copied.sound, copied.flag, copied.shown, copied.hidden⟩
  · have entered := insertNext_entered { piece with index := pmem.dbPmemStoreIndex } sound.tree
      ⟨proper.nonempty, proper.nonWrapping⟩ rfl
    have appended := entered.appended sound visible (by rw [insertStore_frame])
    exact ⟨appended.opts, appended.sound, appended.flag, appended.shown, appended.hidden⟩

/-- Cutting the front of a slot loses nothing. -/
theorem splitFront_kept (flush : PmemSt) {index : Nat} (sound : Sound pmem)
    (inUse : index < pmem.current.index) (visible : (pmem.slots index).isDelete = false)
    (starts : flush.addr < (pmem.slots index).addr + (pmem.slots index).size) :
    Kept (fun _ => False) pmem (pmem.splitFront flush index) := by
  unfold splitFront
  simp only
  split
  · next sticksOut =>
    have proper := sound.slots index inUse
    have fits := proper.nonWrapping
    unfold PmemSt.NonWrapping at fits
    have frontSize : (frontSplit flush (pmem.slots index)).size =
        flush.addr - (pmem.slots index).addr := Word64.sub_eq (Nat.le_of_lt sticksOut)
    have keptSize : (cutFront flush (pmem.slots index)).size =
        (pmem.slots index).size - (flush.addr - (pmem.slots index).addr) := by
      simp only [cutFront]
      rw [Word64.sub_eq (show (pmem.slots index).addr ≤ flush.addr by omega)]
      exact Word64.sub_eq (by omega)
    have keptAddr : (cutFront flush (pmem.slots index)).addr = flush.addr := rfl
    have frontAddr : (frontSplit flush (pmem.slots index)).addr = (pmem.slots index).addr := rfl
    have keptProper : (cutFront flush (pmem.slots index)).Proper := by
      rw [proper_iff]
      omega
    have frontProper : (frontSplit flush (pmem.slots index)).Proper := by
      rw [proper_iff]
      omega
    refine (appendSplit_appended (sound.setSlot keptProper) frontProper visible).cut inUse visible
      visible (fun byte inside => ?_) visible (fun byte inside => ?_)
    · unfold PmemSt.Covers at inside ⊢
      omega
    · unfold PmemSt.Covers at inside ⊢
      omega
  · exact Kept.refl sound

/-- Cutting the back of a slot that starts within the range loses nothing. -/
theorem splitBack_kept {index : Nat} (range : flush.Proper) (sound : Sound pmem)
    (inUse : index < pmem.current.index) (visible : (pmem.slots index).isDelete = false)
    (starts : (pmem.slots index).addr < flush.addr + flush.size) :
    Kept (fun _ => False) pmem (pmem.splitBack flush index) := by
  unfold splitBack
  simp only
  split
  · next sticksOut =>
    have proper := sound.slots index inUse
    have fits := proper.nonWrapping
    unfold PmemSt.NonWrapping at fits
    rw [proper.nonWrapping.maxAddr_eq, range.nonWrapping.maxAddr_eq] at sticksOut
    have excess : Word64.sub (pmem.slots index).maxAddr flush.maxAddr =
        (pmem.slots index).addr + (pmem.slots index).size - (flush.addr + flush.size) := by
      rw [proper.nonWrapping.maxAddr_eq, range.nonWrapping.maxAddr_eq]
      exact Word64.sub_eq (by omega)
    have backSize : (backSplit flush (pmem.slots index)).size =
        (pmem.slots index).addr + (pmem.slots index).size - (flush.addr + flush.size) := excess
    have keptSize : (cutBack flush (pmem.slots index)).size =
        flush.addr + flush.size - (pmem.slots index).addr := by
      simp only [cutBack, excess]
      rw [Word64.sub_eq (by omega)]
      omega
    have keptAddr : (cutBack flush (pmem.slots index)).addr = (pmem.slots index).addr := rfl
    have backAddr : (backSplit flush (pmem.slots index)).addr = flush.addr + flush.size :=
      range.nonWrapping.maxAddr_eq
    have keptProper : (cutBack flush (pmem.slots index)).Proper := by
      rw [proper_iff]
      omega
    have backProper : (backSplit flush (pmem.slots index)).Proper := by
      rw [proper_iff]
      omega
    refine (appendSplit_appended (sound.setSlot keptProper) backProper visible).cut inUse visible
      visible (fun byte inside => ?_) visible (fun byte inside => ?_)
    · unfold PmemSt.Covers at inside ⊢
      omega
    · unfold PmemSt.Covers at inside ⊢
      omega
  · exact Kept.refl sound

/-- The record of a slot after its front was cut. -/
theorem splitFront_slot (flush : PmemSt) {index : Nat} (inUse : index < pmem.current.index) :
    index < (pmem.splitFront flush index).current.index ∧
      (pmem.splitFront flush index).slots index =
        if (pmem.slots index).addr < flush.addr then cutFront flush (pmem.slots index)
        else pmem.slots index := by
  unfold splitFront
  simp only
  split
  · refine ⟨Nat.lt_of_lt_of_le inUse (appendSplit_grows pmem index _ _).index, ?_⟩
    unfold appendSplit
    simp only
    split
    · have differs : index ≠ pmem.current.index := by omega
      simp [setSlot_current, differs]
    · rw [insertStore_frame]
      simp
  · exact ⟨inUse, rfl⟩

/-- A flush cuts and marks the record of a slot, and shows the same bytes afterwards. -/
theorem flushSlot_kept (range : flush.Proper) (sIndex : Nat) {index : Nat} (valid : Bool)
    (sound : Sound pmem) (inUse : index < pmem.current.index) :
    Kept (fun _ => False) pmem (pmem.flushSlot flush sIndex index valid).1 := by
  have proper := sound.slots index inUse
  simp only [flushSlot]
  split
  · exact setSlot_kept sound inUse ⟨proper.nonempty, proper.nonWrapping⟩
      (fun byte undeleted inside => .inl ⟨undeleted, inside⟩)
      (fun byte deleted inside => .inl ⟨deleted, inside⟩)
      (fun byte undeleted inside => ⟨undeleted, inside⟩)
  · next undeleted =>
    have visible : (pmem.slots index).isDelete = false := by simpa using undeleted
    split
    · exact Kept.refl sound
    · next meets =>
      rw [not_not] at meets
      split
      · rw [warnRedundantFlush_frame]
        exact SameRecords.kept ⟨rfl, rfl, Nat.le_refl _, rfl, rfl, fun _ => rfl, fun _ => rfl⟩ sound
      · obtain ⟨starts, stops⟩ :=
          (cmpPmemSt_eq_iff range.nonWrapping proper.nonWrapping).mp meets
        have size := range.nonempty
        obtain ⟨markedIndex, markedSnippets⟩ := markSlot_snippets sIndex index pmem
        have written : Kept (fun _ => False) pmem
            (pmem.setSlot index { pmem.slots index with state := .flushed }) :=
          setSlot_kept sound inUse ⟨proper.nonempty, proper.nonWrapping⟩
            (fun byte undeleted inside => .inl ⟨undeleted, inside⟩)
            (fun byte deleted inside => .inl ⟨deleted, inside⟩)
            (fun byte undeleted inside => ⟨undeleted, inside⟩)
        have tagged : SameRecords (pmem.setSlot index { pmem.slots index with state := .flushed })
            (pmem.markSlot sIndex index) := by
          refine ⟨rfl, rfl, Nat.le_refl _, rfl, rfl, fun tested => ?_, fun tested => ?_⟩
          · rw [markedSnippets]
            split
            · next same =>
              rw [same]
              rfl
            · rfl
          · rw [markedSnippets]
            split
            · next same =>
              rw [same]
              rfl
            · rfl
        have marked := written.trans (tagged.kept written.sound)
        have markedUse : index < (pmem.markSlot sIndex index).current.index := by
          rw [markedIndex]
          exact inUse
        have held : (pmem.markSlot sIndex index).slots index =
            { pmem.slots index with state := .flushed } := by simp [markSlot]
        have front := splitFront_kept flush marked.sound markedUse
          (by rw [held]; exact visible) (by rw [held]; exact stops)
        obtain ⟨frontUse, frontHeld⟩ := splitFront_slot flush markedUse
        have frontRecord : (((pmem.markSlot sIndex index).splitFront flush index).slots
            index).isDelete = false ∧ (((pmem.markSlot sIndex index).splitFront flush index).slots
              index).addr < flush.addr + flush.size := by
          rw [frontHeld, held]
          split
          · exact ⟨visible, Nat.lt_add_of_pos_right size⟩
          · exact ⟨visible, starts⟩
        have back := splitBack_kept range front.sound frontUse frontRecord.1 frontRecord.2
        exact (marked.trans front).trans back

/-- The inner loop of the flush, by induction on its fuel. It stays below the current index,
which the remainders only raise. -/
theorem flushSlots_kept (range : flush.Proper) (sIndex fuel index : Nat) (valid : Bool)
    (sound : Sound pmem) (used : sIndex ≤ pmem.snippetInfoIndex) :
    Kept (fun _ => False) pmem (flushSlots flush sIndex fuel index pmem valid).1 := by
  induction fuel generalizing index pmem valid with
  | zero => exact Kept.refl sound
  | succ fuel inductionHypothesis =>
    simp only [flushSlots]
    split
    · next more =>
      have inUse : index < pmem.current.index :=
        Nat.lt_of_lt_of_le more (sound.layout.bounded used)
      have first := flushSlot_kept range sIndex valid sound inUse
      have same := (flushSlot_grows flush sIndex index pmem valid).snippetInfoIndex
      exact first.trans (inductionHypothesis _ _ first.sound (by rw [same]; exact used))
    · exact Kept.refl sound

/-- A snippet is tagged, skipped or flushed slot by slot, and shows the same bytes afterwards. -/
theorem flushSnippet_kept (range : flush.Proper) {sIndex : Nat} (valid : Bool) (sound : Sound pmem)
    (used : sIndex ≤ pmem.snippetInfoIndex) :
    Kept (fun _ => False) pmem (flushSnippet flush (pmem, valid) sIndex).1 := by
  simp only [flushSnippet]
  split
  · have other (tested : Nat) : (pmem.setSnippet sIndex { pmem.snippetInfo sIndex with
        flushedNum := .allFlushed }).snippetInfo tested = { pmem.snippetInfo tested with
          flushedNum := if tested = sIndex then .allFlushed
            else (pmem.snippetInfo tested).flushedNum } := by
      rw [setSnippet_snippetInfo]
      split
      · next same => rw [same]
      · rfl
    refine SameRecords.kept ⟨rfl, rfl, Nat.le_refl _, rfl, rfl, fun tested => ?_, fun tested => ?_⟩
      sound
    · rw [other]
    · rw [other]
  · split
    · exact Kept.refl sound
    · exact flushSlots_kept range sIndex _ _ valid sound used

/-- The outer loop of the flush. -/
theorem flushArray_kept (range : flush.Proper) (sound : Sound pmem) :
    Kept (fun _ => False) pmem (pmem.flushArray flush).1 := by
  have loop (indices : List Nat) (state : PmemOps) (valid : Bool) (stateSound : Sound state)
      (inside : ∀ sIndex ∈ indices, sIndex ≤ state.snippetInfoIndex) :
      Kept (fun _ => False) state (indices.foldl (flushSnippet flush) (state, valid)).1 := by
    induction indices generalizing state valid with
    | nil => exact Kept.refl stateSound
    | cons sIndex rest inductionHypothesis =>
      have first := flushSnippet_kept range valid stateSound (inside sIndex List.mem_cons_self)
      have same := (flushSnippet_grows flush (state, valid) sIndex).snippetInfoIndex
      refine first.trans (inductionHypothesis _ _ first.sound (fun later member => ?_))
      rw [same]
      exact inside later (List.mem_cons_of_mem _ member)
  refine loop _ pmem false sound (fun sIndex member => ?_)
  rw [List.mem_range] at member
  omega

/-- The check of the strands writes orders, and the records stay. -/
theorem checkStrandOrder_same (flush : PmemSt) (strandId : Nat) (pmem : PmemOps) :
    SameRecords pmem (pmem.checkStrandOrder flush strandId) := by
  rw [checkStrandOrder_frame]
  exact ⟨rfl, rfl, Nat.le_refl _, rfl, rfl, fun _ => rfl, fun _ => rfl⟩

/-- A warning writes to its register, and the records stay. -/
theorem warnSuperfluousFlush_same (flush : PmemSt) (context : Option ExeContext) (valid : Bool)
    (pmem : PmemOps) : SameRecords pmem (pmem.warnSuperfluousFlush flush context valid) := by
  rw [warnSuperfluousFlush_frame]
  exact ⟨rfl, rfl, Nat.le_refl _, rfl, rfl, fun _ => rfl, fun _ => rfl⟩

/-- The flush of array and tree shows the same bytes afterwards, whatever it warns about. -/
theorem flushStores_kept (range : flush.Proper) (valid : Bool) (sound : Sound pmem) :
    Kept (fun _ => False) pmem (pmem.flushStores flush valid).1 := by
  simp only [flushStores]
  split
  · exact Kept.refl sound
  · have kept := flushTree_kept range (4 * pmem.pmemStores.size + 1)
      { pmem with pmemStores := pmem.pmemStores.resetIter } valid
        (sound.tree.congr rfl (Nat.le_refl _))
    refine TreeKept.kept ⟨kept.sound, kept.flag, kept.carved, kept.grown, kept.indices⟩
      sound ?_ ?_ ?_ ?_ <;> rw [flushTree_unchanged]

/-- Opening a snippet uses no slot. -/
theorem closeSnippet_kept {lost : Nat → Prop} (sound : Sound pmem) :
    Kept lost pmem pmem.closeSnippet := by
  unfold closeSnippet
  split
  · have old (sIndex : Nat) (used : sIndex ≤ pmem.snippetInfoIndex) :
        pmem.initSnippetInfo.snippetInfo sIndex = pmem.snippetInfo sIndex := if_neg (by omega)
    have new : pmem.initSnippetInfo.snippetInfo (pmem.snippetInfoIndex + 1) =
        emptySnippet pmem.current.index := if_pos rfl
    have index : pmem.initSnippetInfo.current.index = pmem.current.index := by
      show (pmem.initSnippetInfo.snippetInfo (pmem.snippetInfoIndex + 1)).index = _
      rw [new]
      rfl
    refine ⟨rfl, ⟨⟨?_, ?_, ?_⟩, ?_, sound.tree⟩, rfl, ?_, ?_, ?_⟩
    · rw [old 0 (Nat.zero_le _)]
      exact sound.layout.first
    · intro sIndex below
      have below' : sIndex < pmem.snippetInfoIndex + 1 := below
      by_cases last : sIndex = pmem.snippetInfoIndex
      · rw [last, new, old _ (Nat.le_refl _)]
        rfl
      · rw [old (sIndex + 1) (by omega), old sIndex (by omega)]
        exact sound.layout.chained sIndex (by omega)
    · intro sIndex bound
      have bound' : sIndex ≤ pmem.snippetInfoIndex + 1 := bound
      by_cases last : sIndex = pmem.snippetInfoIndex + 1
      · rw [last, new]
        exact Nat.le_refl _
      · rw [old sIndex (by omega)]
        exact sound.layout.ordered sIndex (by omega)
    · rw [index]
      exact sound.slots
    · intro byte isShown
      unfold Shown at isShown ⊢
      rwa [index] at isShown
    · intro byte isShown
      left
      unfold Shown at isShown ⊢
      rwa [index]
    · intro byte isHidden
      left
      unfold Hidden at isHidden ⊢
      rwa [index] at isHidden
  · exact Kept.refl sound

/-- A flush of a proper range loses and hides nothing. -/
theorem doFlush_kept {base size : Nat} (context : Option ExeContext) (strandId : Nat)
    (range : (flushInfo pmem.opts pmem.flushAlignSize base size).Proper) (sound : Sound pmem) :
    Kept (fun _ => False) pmem (pmem.doFlush base size context strandId) := by
  simp only [doFlush]
  generalize flushInfo pmem.opts pmem.flushAlignSize base size = flush at *
  have ordered : Kept (fun _ => False) pmem (pmem.checkStrandOrder flush strandId) :=
    (checkStrandOrder_same flush strandId pmem).kept sound
  have array := ordered.trans (flushArray_kept range ordered.sound)
  generalize flushArray flush (pmem.checkStrandOrder flush strandId) = flushed at *
  have tree := array.trans (flushStores_kept range flushed.2 array.sound)
  generalize flushStores flush flushed.1 flushed.2 = result at *
  have warned := tree.trans
    ((warnSuperfluousFlush_same flush context result.2 result.1).kept tree.sound)
  exact warned.trans (closeSnippet_kept warned.sound)

end Flush

/-! ## Fences -/

section Fence

variable {pmem : PmemOps}

/-- Moving a record to the tree leaves the array as it is. -/
theorem fenceSlot_kept {index : Nat} (sound : Sound pmem) (inUse : index < pmem.current.index) :
    Kept (fun _ => True) pmem (pmem.fenceSlot index) := by
  unfold fenceSlot
  simp only
  split
  · exact Kept.refl sound
  · next pending =>
    have visible : (pmem.slots index).isDelete = false := by
      simp only [not_or, Bool.not_eq_true] at pending
      exact pending.2
    have proper := sound.slots index inUse
    have entered := insertNext_entered { pmem.slots index with index := pmem.dbPmemStoreIndex }
      sound.tree ⟨proper.nonempty, proper.nonWrapping⟩ rfl
    have appended := entered.appended sound visible (by rw [insertStore_frame])
    generalize insertStore { pmem.slots index with index := pmem.dbPmemStoreIndex }
      { pmem with dbPmemStoreIndex := pmem.dbPmemStoreIndex + 1 } = result at *
    have moved : Kept (fun _ => True) pmem result.1 := by
      refine ⟨appended.opts, appended.sound, appended.flag, fun byte isShown => ?_,
        fun _ _ => .inr trivial, fun _ _ => .inr trivial⟩
      rcases (appended.shown byte).mp isShown with ⟨_, inside⟩ | before
      · exact .inl ⟨index, inUse, visible, inside⟩
      · exact before
    have widened : SameRecords result.1 (result.1.updateOsetPmemStoresMinandmax result.2) :=
      ⟨rfl, rfl, Nat.le_refl _, rfl, rfl, fun _ => rfl, fun _ => rfl⟩
    exact moved.trans (widened.kept moved.sound)

/-- Moving a record changes the tree, its bounds and the counter. -/
theorem fenceSlot_frame (pmem : PmemOps) (index : Nat) : pmem.fenceSlot index = { pmem with
    pmemStores := (pmem.fenceSlot index).pmemStores
    dbPmemStoreIndex := (pmem.fenceSlot index).dbPmemStoreIndex
    minAddPmemStore := (pmem.fenceSlot index).minAddPmemStore
    maxAddPmemStore := (pmem.fenceSlot index).maxAddPmemStore } := by
  unfold fenceSlot
  simp only
  split
  · rfl
  · rw [insertStore_frame]
    rfl

/-- The array of another state: slots and table are the same. The trees may differ. -/
def SameArray (before after : PmemOps) : Prop :=
  after.slots = before.slots ∧ after.snippetInfo = before.snippetInfo ∧
    after.snippetInfoIndex = before.snippetInfoIndex

/-- The fence moves the records of a snippet into the tree and leaves the array as it is. A
byte may be lost here, since flushed records are left behind. -/
theorem fenceSnippet_kept {sIndex : Nat} (sound : Sound pmem)
    (used : sIndex ≤ pmem.snippetInfoIndex) :
    Kept (fun _ => True) pmem (pmem.fenceSnippet sIndex) ∧
      SameArray pmem (pmem.fenceSnippet sIndex) := by
  unfold fenceSnippet
  simp only
  split
  · exact ⟨Kept.refl sound, rfl, rfl, rfl⟩
  · apply Kept.foldl (SameArray pmem)
    · rintro state stateSound ⟨slots, snippets, same⟩ index member
      have inside := mem_slotRange.mp member
      have inUse : index < state.current.index := by
        have below := Nat.lt_of_lt_of_le inside.2 (sound.layout.bounded used)
        rw [current, same, snippets]
        exact below
      refine ⟨fenceSlot_kept stateSound inUse, ?_⟩
      rw [fenceSlot_frame]
      exact ⟨slots, snippets, same⟩
    · exact sound
    · exact ⟨rfl, rfl, rfl⟩

/-- The walk of the fence over the tree writes to the tree and its bounds only. -/
theorem fenceTree_frame (fuel : Nat) (pmem : PmemOps) : fenceTree fuel pmem = { pmem with
    pmemStores := (fenceTree fuel pmem).pmemStores
    minAddPmemStore := (fenceTree fuel pmem).minAddPmemStore
    maxAddPmemStore := (fenceTree fuel pmem).maxAddPmemStore } := by
  induction fuel generalizing pmem with
  | zero => rfl
  | succ fuel inductionHypothesis =>
    simp only [fenceTree]
    split
    · rfl
    · split
      · rw [inductionHypothesis]
      · rw [inductionHypothesis]
        rfl

/-- A fence leaves the array empty. -/
theorem doFence_empty (pmem : PmemOps) : pmem.doFence.current.index = 0 := by
  simp only [doFence]
  split <;> rfl

/-- A fence keeps the tracker sound and hides nothing. -/
theorem doFence_kept (sound : Sound pmem) : Kept (fun _ => True) pmem pmem.doFence := by
  have timed : Kept (fun _ => True) pmem { pmem.fenceTimes with
      minAddPmemStore := Word64.minusOne
      maxAddPmemStore := Word64.minusOne
      pmemStores := pmem.fenceTimes.pmemStores.resetIter } := by
    have reset : TreeKept pmem.opts SameState (fun _ => True) pmem.pmemStores pmem.dbPmemStoreIndex
        pmem.pmemStores.resetIter pmem.dbPmemStoreIndex :=
      TreeKept.walked sameState_likeness sound.tree rfl rfl
    rw [fenceTimes_frame]
    exact TreeKept.kept (show TreeKept pmem.opts SameState _ _ _ _ _ from reset)
      sound rfl rfl rfl rfl
  have fenced : Kept (fun _ => True) pmem (fenceTree (pmem.fenceTimes.pmemStores.size + 1)
      { pmem.fenceTimes with
        minAddPmemStore := Word64.minusOne
        maxAddPmemStore := Word64.minusOne
        pmemStores := pmem.fenceTimes.pmemStores.resetIter }) := by
    have tree := fenceTree_kept (pmem.fenceTimes.pmemStores.size + 1) _ timed.sound.tree
    refine timed.trans (tree.kept timed.sound ?_ ?_ ?_ ?_) <;> rw [fenceTree_frame]
  simp only [doFence]
  generalize fenceTree (pmem.fenceTimes.pmemStores.size + 1) { pmem.fenceTimes with
    minAddPmemStore := Word64.minusOne
    maxAddPmemStore := Word64.minusOne
    pmemStores := pmem.fenceTimes.pmemStores.resetIter } = start at *
  have moved : Kept (fun _ => True) start
      ((List.range (start.snippetInfoIndex + 1)).foldl fenceSnippet start) ∧
      SameArray start ((List.range (start.snippetInfoIndex + 1)).foldl fenceSnippet start) := by
    apply Kept.foldl (SameArray start)
    · rintro state stateSound ⟨slots, snippets, same⟩ sIndex member
      rw [List.mem_range] at member
      obtain ⟨kept, nextSlots, nextSnippets, nextSame⟩ :=
        fenceSnippet_kept stateSound (show sIndex ≤ state.snippetInfoIndex by omega)
      exact ⟨kept, nextSlots.trans slots, nextSnippets.trans snippets, nextSame.trans same⟩
    · exact fenced.sound
    · exact ⟨rfl, rfl, rfl⟩
  have all := fenced.trans moved.1
  generalize (List.range (start.snippetInfoIndex + 1)).foldl fenceSnippet start = full at *
  have cleared : Sound full.clearArray := by
    refine ⟨⟨rfl, ?_, ?_⟩, ?_, all.sound.tree⟩
    · intro sIndex below
      exact absurd below (Nat.not_lt_zero _)
    · intro sIndex used
      rw [Nat.le_zero.mp used]
      exact Nat.le_refl 0
    · intro slot inUse
      exact absurd inUse (Nat.not_lt_zero slot)
  have whole : Kept (fun _ => True) pmem full.clearArray := by
    refine ⟨all.opts, cleared, all.flag, fun byte isShown => all.old byte ?_,
      fun _ _ => .inr trivial, fun _ _ => .inr trivial⟩
    rcases isShown with ⟨slot, inUse, _⟩ | inTree
    · exact absurd inUse (Nat.not_lt_zero slot)
    · exact .inr inTree
  split
  · exact ⟨whole.opts, ⟨⟨cleared.layout.first, cleared.layout.chained, cleared.layout.ordered⟩,
      cleared.slots, cleared.tree⟩, whole.flag, whole.old, fun _ _ => .inr trivial,
      fun _ _ => .inr trivial⟩
  · exact whole

end Fence

end PmDebugger
