import PmDebugger.FlushBytes
import PmDebugger.RegionRemoval

/-!
# Overwrites byte by byte

What the loops of `handle_with_mult_stores` do to the dirty bytes and what they warn about,
for a tree that is ordered by index and without an indifference window. Each record that
the store meets gives up the bytes of the store and is named in a warning, whose range is
the overlap. What is left of it keeps its state.

The part behind a cut in the middle of an array record goes to the tree with the state that
the slot holds. In a snippet that is tagged as a whole this state may still be dirty, and
the part is then dirty again although it was flushed.
-/

namespace PmDebugger

open OrderedSet OrderedSet.OSet PmemOps Carving

/-- The warning names the bytes that the record and the store share. This is what
`split_stores` is documented to pass to its callback. -/
def OverlapOf (store record event : PmemSt) : Prop :=
  ∀ byte, event.Covers byte ↔ record.Covers byte ∧ store.Covers byte

/-- The array loop takes the record as overwritten: it is not deleted and the comparator of the
tree finds it equal to the store. -/
def meetsRecord (store existing : PmemSt) : Prop :=
  existing.isDelete = false ∧ cmpPmemSt existing store = .eq

instance (store existing : PmemSt) : Decidable (meetsRecord store existing) :=
  inferInstanceAs (Decidable (_ ∧ _))

/-- The warnings that were registered since, one for each record. Nothing but a full register
ends the process on the way. -/
structure Warned (store : PmemSt) (records : List PmemSt) (before after : PmemOps) : Prop where
  longer : before.multipleStores.length ≤ after.multipleStores.length
  events : after.multipleStores.length < maxMultOverwrites → ∃ events,
    after.multipleStores = before.multipleStores ++ events ∧
      List.Forall₂ (OverlapOf store) records events
  running : after.multipleStores.length < maxMultOverwrites → after.exited = before.exited

namespace Warned

variable {store : PmemSt} {records more : List PmemSt} {before middle after : PmemOps}

/-- Nothing is overwritten, and nothing is warned about. -/
theorem silent (same : after.multipleStores = before.multipleStores)
    (running : after.exited = before.exited) : Warned store [] before after where
  longer := Nat.le_of_eq (congrArg List.length same).symm
  events _ := ⟨[], by rw [same, List.append_nil], .nil⟩
  running _ := running

/-- Two steps warn about what each of them overwrites, in that order. -/
theorem trans (first : Warned store records before middle)
    (second : Warned store more middle after) : Warned store (records ++ more) before after where
  longer := Nat.le_trans first.longer second.longer
  events room := by
    obtain ⟨early, isEarly, overlapEarly⟩ :=
      first.events (Nat.lt_of_le_of_lt second.longer room)
    obtain ⟨late, isLate, overlapLate⟩ := second.events room
    refine ⟨early ++ late, ?_, List.rel_append overlapEarly overlapLate⟩
    rw [isLate, isEarly, List.append_assoc]
  running room :=
    (second.running room).trans (first.running (Nat.lt_of_le_of_lt second.longer room))

/-- One warning is registered. -/
theorem add {record : PmemSt} (event : PmemSt) (overlap : OverlapOf store record event)
    (same : middle.multipleStores = before.multipleStores)
    (running : middle.exited = before.exited) :
    Warned store [record] before (middle.addMultOverwriteWarn event) := by
  simp only [addMultOverwriteWarn, addWarningEvent, same]
  split
  · next isFull =>
    constructor
    · exact Nat.le_refl _
    · intro room
      simp only at room
      omega
    · intro room
      simp only at room
      omega
  · constructor
    · simp
    · exact fun _ => ⟨_, rfl, .cons overlap .nil⟩
    · intro _
      simpa using running

end Warned

section Record

variable {store existing : PmemSt}

/-- The range of a warning is the overlap. -/
theorem splitStores_overlap (proper : store.Proper) (record : existing.Proper) {dbIndex : Nat}
    {result : SplitResult} (meets : cmpPmemSt existing store = .eq)
    (split : splitStores existing store dbIndex = some result) :
    OverlapOf store existing result.overlap := by
  have storeMax := proper.nonWrapping.maxAddr_eq
  have recordMax := record.nonWrapping.maxAddr_eq
  rw [cmpPmemSt_eq_iff record.nonWrapping proper.nonWrapping] at meets
  intro byte
  unfold splitStores at split
  simp only [storeMax, recordMax] at split
  split at split
  · cases split
    simp only [PmemSt.Covers]
    omega
  · split at split
    · split at split
      · cases split
        simp only [PmemSt.Covers]
        omega
      · cases split
        simp only [PmemSt.Covers]
        rw [Word64.sub_eq (by omega)]
        omega
    · split at split
      · cases split
        simp only [PmemSt.Covers]
        rw [Word64.sub_eq (show store.addr + store.size ≤ existing.addr + existing.size by omega),
          Word64.sub_eq (by omega)]
        omega
      · cases split

/-- Nothing is left of a record in place exactly if it lies within the new store. -/
theorem splitStores_whole {dbIndex : Nat} {result : SplitResult}
    (split : splitStores existing store dbIndex = some result) :
    result.kept = none ↔ existing.addr ≥ store.addr ∧ existing.maxAddr ≤ store.maxAddr := by
  unfold splitStores at split
  simp only at split
  split at split
  · next within =>
    cases split
    exact iff_of_true rfl within
  · next sticksOut =>
    split at split
    · split at split
      · cases split
        exact iff_of_false (by simp) sticksOut
      · cases split
        exact iff_of_false (by simp) sticksOut
    · split at split
      · cases split
        exact iff_of_false (by simp) sticksOut
      · cases split

/-- What a store leaves of a record that it meets, and what it warns about. -/
structure Splits (store existing : PmemSt) (dbIndex : Nat) (result : SplitResult) : Prop where
  parts : SplitParts store existing dbIndex result
  excised : Excised store existing (result.kept.toList ++ result.after.toList)
  states : ∀ part ∈ result.kept.toList ++ result.after.toList, part.state = existing.state
  overlap : OverlapOf store existing result.overlap

/-- A proper record that meets a proper store is split, and the assertion of the source is not
reached. -/
theorem splitStores_splits (proper : store.Proper) (record : existing.Proper) (dbIndex : Nat)
    (meets : cmpPmemSt existing store = .eq) :
    ∃ result, splitStores existing store dbIndex = some result ∧
      Splits store existing dbIndex result := by
  have symmetric : cmpPmemSt store existing = .eq := by
    rw [cmpPmemSt_eq_iff proper.nonWrapping record.nonWrapping]
    rw [cmpPmemSt_eq_iff record.nonWrapping proper.nonWrapping] at meets
    exact meets.symm
  obtain ⟨result, split, parts⟩ := splitStores_parts proper record dbIndex meets
  obtain ⟨_, again, _, excised⟩ := splitStores_exact proper record dbIndex symmetric
  rw [split] at again
  cases again
  refine ⟨result, split, parts, excised, fun part member => ?_,
    splitStores_overlap proper record meets split⟩
  obtain ⟨source, isSource, like⟩ := parts.carved.origin part member
  rw [List.mem_singleton.mp isSource] at like
  have size := (excised.ranges.proper part member).nonempty
  exact (like part.addr ⟨Nat.le_refl _, by omega⟩).2.1

end Record

/-! ## One slot -/

section Slot

variable {store : PmemSt} {pmem : PmemOps} {index : Nat}

/-- A record that the store misses, or that is deleted, stays. -/
theorem overwriteSlot_missed (missed : ¬ meetsRecord store (pmem.slots index)) :
    pmem.overwriteSlot store index = pmem := by
  have skips : (pmem.slots index).isDelete = true ∨ cmpPmemSt (pmem.slots index) store ≠ .eq := by
    unfold meetsRecord at missed
    rw [Classical.not_and_iff_not_or_not] at missed
    exact missed.imp_left (fun visible => by simpa using visible)
  simp only [overwriteSlot, if_pos skips]

/-- Without a window no write counts as a rewrite of the same value. -/
theorem not_isSameWrite {existing : PmemSt} (indiff : pmem.opts.storeSbIndiff = 0) :
    ¬ pmem.isSameWrite store existing = true := by
  simp [isSameWrite, indiff]

/-- What the loop body does with a record that the store meets. The slot keeps the front part,
or is deleted, a part behind the store becomes a tree record, and the warning names the shared
bytes. -/
structure SlotSplit (store : PmemSt) (index : Nat) (result : SplitResult) (before after : PmemOps) :
    Prop where
  splits : Splits store (before.slots index) before.dbPmemStoreIndex result
  slot : after.slots index = result.kept.getD { before.slots index with isDelete := true }
  listed : after.pmemStores.toList = before.pmemStores.toList ++ result.after.toList
  middle : result.after ≠ none → cutsMiddle store (before.slots index)
  warned : Warned store [before.slots index] before after

/-- A slot that the store meets is split: the part before the store stays in the slot, and the
part behind it goes into the tree. -/
theorem overwriteSlot_split (proper : store.Proper) (sound : Sound pmem)
    (plain : pmem.opts.treeReorganization = false)
    (differs : ¬ pmem.isSameWrite store (pmem.slots index) = true)
    (inUse : index < pmem.current.index) (meets : meetsRecord store (pmem.slots index)) :
    ∃ result, SlotSplit store index result pmem (pmem.overwriteSlot store index) := by
  obtain ⟨visible, meets⟩ := meets
  have reached : ¬ ((pmem.slots index).isDelete = true ∨
      cmpPmemSt (pmem.slots index) store ≠ .eq) := by
    simp [visible, meets]
  obtain ⟨result, split, splits⟩ :=
    splitStores_splits proper (sound.slots index inUse) pmem.dbPmemStoreIndex meets
  have parts := splits.parts
  have middle (hasBack : result.after ≠ none) : cutsMiddle store (pmem.slots index) := by
    refine ⟨visible, ?_⟩
    by_contra notMiddle
    exact hasBack ((splitStores_after split).2 notMiddle)
  refine ⟨result, ?_⟩
  have held (replaced : PmemSt) : (pmem.setSlot index replaced).slots index = replaced := by
    rw [setSlot_slots, if_pos rfl]
  simp only [overwriteSlot, if_neg reached, if_neg differs, split]
  cases isKept : result.kept with
  | none =>
    refine ⟨splits, ?_, ?_, middle, ?_⟩
    · rw [isKept]
      exact held _
    · simp [parts.single isKept, addMultOverwriteWarn, setSlot]
    · refine Warned.add _ (fun byte => ?_) rfl rfl
      exact ⟨fun inside => ⟨inside, parts.whole isKept byte inside⟩, And.left⟩
  | some kept =>
    cases isBehind : result.after with
    | none =>
      refine ⟨splits, ?_, ?_, middle, Warned.add _ splits.overlap rfl rfl⟩
      · rw [isKept]
        exact held _
      · simp [isBehind, addMultOverwriteWarn, setSlot]
    | some piece =>
      refine ⟨splits, ?_, ?_, middle, Warned.add _ splits.overlap rfl rfl⟩
      · rw [isKept]
        exact held _
      · have fresh : ∀ elem ∈ pmem.pmemStores.toList, elem.index < piece.index := by
          rw [(parts.behind piece isBehind).2]
          exact sound.tree.fresh plain
        show (pmem.pmemStores.insert (treeCmp pmem.opts piece) piece).toList = _
        rw [treeCmp_own plain, isBehind]
        exact (insert_byKey_last piece fresh).1

/-- A part of the array loop of `handle_with_mult_stores`. It makes no byte dirty if the
marks are settled. -/
structure ArrayGivesWay (settled : Prop) (store : PmemSt) (records : List PmemSt)
    (before after : PmemOps) : Prop where
  stillDirty : ∀ byte, ¬ store.Covers byte → DirtyIn before.live byte → DirtyIn after.live byte
  wasDirty : settled → ∀ byte, DirtyIn after.live byte → DirtyIn before.live byte
  states : ∀ slot, (after.slots slot).state = (before.slots slot).state
  tree : ∃ pieces, after.pmemStores.toList = before.pmemStores.toList ++ pieces ∧
    ∀ piece ∈ pieces, cmpPmemSt piece store ≠ .eq ∧
      ∃ slot < before.current.index, piece.state = (before.slots slot).state
  warned : Warned store records before after

/-- The other dirty slots stay, and the tree gets the piece that was cut off. -/
theorem dirtyBeside_added {before after : PmemOps} {pieces : List PmemSt}
    (snippets : after.snippetInfo = before.snippetInfo)
    (used : after.snippetInfoIndex = before.snippetInfoIndex)
    (others : ∀ other, other ≠ index → after.slots other = before.slots other)
    (listed : after.pmemStores.toList = before.pmemStores.toList ++ pieces) (byte : Nat) :
    DirtyBeside after index byte ↔ DirtyBeside before index byte ∨ DirtyIn pieces byte := by
  have slots : (∃ slot, slot ≠ index ∧ DirtySlot after slot ∧ (after.slots slot).Covers byte) ↔
      ∃ slot, slot ≠ index ∧ DirtySlot before slot ∧ (before.slots slot).Covers byte := by
    refine exists_congr (fun slot => and_congr_right (fun differs => ?_))
    rw [dirtySlot_congr snippets used (others slot differs), others slot differs]
  have tree : DirtyIn after.pmemStores.toList byte ↔
      DirtyIn before.pmemStores.toList byte ∨ DirtyIn pieces byte := by
    unfold DirtyIn
    rw [listed]
    simp only [List.mem_append, or_and_right, exists_or]
  unfold DirtyBeside
  rw [slots, tree, or_assoc]

/-- The loop body. -/
theorem overwriteSlot_givesWay {settled : Prop} (proper : store.Proper) (sound : Sound pmem)
    (plain : pmem.opts.treeReorganization = false) (indiff : pmem.opts.storeSbIndiff = 0)
    (inUse : index < pmem.current.index)
    (settles : settled → cutsMiddle store (pmem.slots index) → WhollyTagged pmem index →
      (pmem.slots index).state ≠ .dirty) (after : Sound (pmem.overwriteSlot store index)) :
    ArrayGivesWay settled store (if meetsRecord store
      (pmem.slots index) then [pmem.slots index] else []) pmem
      (pmem.overwriteSlot store index) := by
  by_cases meets : meetsRecord store (pmem.slots index)
  · rw [if_pos meets]
    obtain ⟨result, splits, slot, listed, middle, warned⟩ :=
      overwriteSlot_split proper sound plain (not_isSameWrite indiff) inUse meets
    obtain ⟨frame, others, _, _⟩ := overwriteSlot_frame store pmem index
    generalize pmem.overwriteSlot store index = next at *
    have snippets : next.snippetInfo = pmem.snippetInfo := by rw [frame]
    have used : next.snippetInfoIndex = pmem.snippetInfoIndex := by rw [frame]
    have sameEnd : next.current.index = pmem.current.index := by
      rw [current, snippets, used]
      rfl
    have tagged := whollyTagged_congr snippets used
    have beside := dirtyBeside_added snippets used others listed
    have parts := splits.parts
    have sameState : (next.slots index).state = (pmem.slots index).state := by
      rw [slot]
      cases isKept : result.kept with
      | none => rfl
      | some kept => exact splits.states kept (by simp [isKept])
    constructor
    · intro byte outside dirty
      rw [after.layout.dirtyIn_beside index, beside]
      rcases (sound.layout.dirtyIn_beside index byte).mp dirty with ⟨dirtySlot, inside⟩ | isBeside
      · obtain ⟨part, member, covered⟩ := (splits.excised.bytes byte).mpr ⟨inside, outside⟩
        have isDirty : part.state = .dirty := (splits.states part member).trans dirtySlot.dirty
        rcases List.mem_append.mp member with isKept | isBehind
        · left
          have isKept := Option.mem_toList.mp isKept
          have held : next.slots index = part := by
            rw [slot, isKept]
            rfl
          rw [held]
          refine ⟨⟨sameEnd ▸ inUse, ?_, ?_, (tagged index).not.mpr dirtySlot.unsettled⟩, covered⟩
          · rw [held, (parts.trims part isKept).2.2]
            exact meets.1
          · rw [held]
            exact isDirty
        · exact .inr (.inr ⟨part, isBehind, isDirty, covered⟩)
      · exact .inr (.inl isBeside)
    · intro isSettled byte dirty
      rw [sound.layout.dirtyIn_beside index]
      rw [after.layout.dirtyIn_beside index, beside] at dirty
      rcases dirty with ⟨dirtySlot, inside⟩ | isBeside | ⟨piece, isPiece, isDirty, inside⟩
      · left
        have isDirty := sameState.symm.trans dirtySlot.dirty
        refine ⟨⟨inUse, meets.1, isDirty, (tagged index).not.mp dirtySlot.unsettled⟩, ?_⟩
        cases isKept : result.kept with
        | none =>
          have deleted := dirtySlot.undeleted
          rw [slot, isKept] at deleted
          cases deleted
        | some kept =>
          rw [slot, isKept] at inside
          exact (parts.trims kept isKept).1.covers inside
      · exact .inr isBeside
      · left
        have isBehind := Option.mem_toList.mp isPiece
        have wasDirty : (pmem.slots index).state = .dirty :=
          (splits.states piece (List.mem_append_right _ isPiece)).symm.trans isDirty
        have cuts := middle (by simp [isBehind])
        exact ⟨⟨inUse, meets.1, wasDirty, fun isTagged => settles isSettled cuts isTagged wasDirty⟩,
          (parts.behind piece isBehind).1.covers inside⟩
    · intro tested
      by_cases isIndex : tested = index
      · rw [isIndex]
        exact sameState
      · rw [others tested isIndex]
    · refine ⟨result.after.toList, listed, fun piece isPiece => ?_⟩
      have member := List.mem_append_right result.kept.toList isPiece
      exact ⟨splits.excised.beside proper piece member, index, inUse, splits.states piece member⟩
    · exact warned
  · rw [if_neg meets, overwriteSlot_missed meets]
    exact ⟨fun _ _ => id, fun _ _ => id, fun _ =>
      rfl, ⟨[], by simp, by simp⟩, Warned.silent rfl rfl⟩

namespace ArrayGivesWay

variable {settled : Prop} {records more : List PmemSt} {before middle after : PmemOps}

/-- No slot gives way. -/
theorem refl : ArrayGivesWay settled store [] before before :=
  ⟨fun _ _ => id, fun _ _ => id, fun _ => rfl, ⟨[], by simp, by simp⟩, Warned.silent rfl rfl⟩

/-- The slots of two steps give way one after the other, as long as neither makes the array
longer. -/
theorem trans (sameEnd : middle.current.index = before.current.index)
    (first : ArrayGivesWay settled store records before middle)
    (second : ArrayGivesWay settled store more middle after) :
    ArrayGivesWay settled store (records ++ more) before after where
  stillDirty byte outside dirty :=
    second.stillDirty byte outside (first.stillDirty byte outside dirty)
  wasDirty isSettled byte dirty :=
    first.wasDirty isSettled byte (second.wasDirty isSettled byte dirty)
  states slot := (second.states slot).trans (first.states slot)
  tree := by
    obtain ⟨early, isEarly, clearEarly⟩ := first.tree
    obtain ⟨late, isLate, clearLate⟩ := second.tree
    refine ⟨early ++ late, by rw [isLate, isEarly, List.append_assoc], fun piece member => ?_⟩
    rcases List.mem_append.mp member with inEarly | inLate
    · exact clearEarly piece inEarly
    · obtain ⟨clear, slot, inUse, same⟩ := clearLate piece inLate
      exact ⟨clear, slot, sameEnd ▸ inUse, same.trans (first.states slot)⟩
  warned := first.warned.trans second.warned

end ArrayGivesWay

/-- The records of the slots that the store meets, in the order of the slots. Each of them gets
a warning. -/
def metRecords (store : PmemSt) (pmem : PmemOps) (slots : List Nat) : List PmemSt :=
  (slots.map pmem.slots).filter (fun existing => meetsRecord store existing)

/-- The records that the store meets in the first slot, and those in the rest. -/
theorem metRecords_cons (store : PmemSt) (pmem : PmemOps) (slot : Nat) (rest : List Nat) :
    metRecords store pmem (slot :: rest) =
      (if meetsRecord store (pmem.slots slot) then [pmem.slots slot] else []) ++
        metRecords store pmem rest := by
  unfold metRecords
  by_cases meets : meetsRecord store (pmem.slots slot)
  · rw [if_pos meets, List.map_cons, List.filter_cons_of_pos (by simpa using meets)]
    rfl
  · rw [if_neg meets, List.map_cons, List.filter_cons_of_neg (by simpa using meets)]
    rfl

/-- The loop over distinct slots in use. -/
theorem overwriteSlots_givesWay {settled : Prop} (proper : store.Proper) (slots : List Nat)
    (pmem : PmemOps)
    (distinct : slots.Nodup) (sound : Sound pmem) (plain : pmem.opts.treeReorganization = false)
    (indiff : pmem.opts.storeSbIndiff = 0) (inUse : ∀ slot ∈ slots, slot < pmem.current.index)
    (settles : settled → ∀ slot ∈ slots, cutsMiddle store (pmem.slots slot) →
      WhollyTagged pmem slot → (pmem.slots slot).state ≠ .dirty) :
    ArrayGivesWay settled store (metRecords store pmem slots) pmem
      (slots.foldl (overwriteSlot store) pmem) := by
  induction slots generalizing pmem with
  | nil => exact ArrayGivesWay.refl
  | cons slot rest inductionHypothesis =>
    obtain ⟨fresh, restDistinct⟩ := List.nodup_cons.mp distinct
    have slotUsed := inUse slot List.mem_cons_self
    have one := overwriteSlots_exact proper [slot] pmem (List.pairwise_singleton _ slot) sound
      (fun other member => by
        rw [List.mem_singleton.mp member]
        exact slotUsed)
    have first := overwriteSlot_givesWay proper sound plain indiff slotUsed
      (fun isSettled => settles isSettled slot List.mem_cons_self) one.sound
    obtain ⟨frame, others, _, _⟩ := overwriteSlot_frame store pmem slot
    have held (other : Nat) (member : other ∈ rest) :
        (pmem.overwriteSlot store slot).slots other = pmem.slots other :=
      others other (fun same => fresh (same ▸ member))
    have sameEnd : (pmem.overwriteSlot store slot).current.index = pmem.current.index := by
      rw [frame]
      rfl
    have sameOpts : (pmem.overwriteSlot store slot).opts = pmem.opts := by rw [frame]
    have tagged (other : Nat) : WhollyTagged (pmem.overwriteSlot store slot) other ↔
        WhollyTagged pmem other := by
      apply whollyTagged_congr
      · rw [frame]
      · rw [frame]
    have same : metRecords store (pmem.overwriteSlot store slot) rest =
        metRecords store pmem rest := by
      unfold metRecords
      rw [List.map_congr_left held]
    have later := inductionHypothesis (pmem.overwriteSlot store slot) restDistinct one.sound
      (by rw [sameOpts]; exact plain) (by rw [sameOpts]; exact indiff)
      (fun other member => by
        rw [sameEnd]
        exact inUse other (List.mem_cons_of_mem _ member))
      (fun isSettled other member => by
        rw [held other member, tagged]
        exact settles isSettled other (List.mem_cons_of_mem _ member))
    rw [same] at later
    rw [metRecords_cons, List.foldl_cons]
    exact first.trans sameEnd later

end Slot

/-! ## The tree -/

section Walk

variable {store existing : PmemSt} {done rest : List PmemSt} {pmem : PmemOps}

/-- The walk of `handle_with_mult_stores` stands between the two parts of the tree. The tree is
sound and ordered by index, and rewrites of the same value are not exempt. -/
structure Sweeping (done rest : List PmemSt) (pmem : PmemOps) : Prop where
  plain : pmem.opts.treeReorganization = false
  indiff : pmem.opts.storeSbIndiff = 0
  sound : TreeSound pmem.opts pmem.dbPmemStoreIndex pmem.pmemStores
  listed : pmem.pmemStores.toList = done ++ rest
  walk : pmem.pmemStores.iter = some done.length

/-- The records of a part of the tree that the store meets, in the order of the walk. -/
def metStores (store : PmemSt) (records : List PmemSt) : List PmemSt :=
  records.filter (fun existing => cmpPmemSt existing store = .eq)

/-- What the warning about a record of the tree can name. A record within the store has been
released and its node cleared before the warning copies it, and the copy covers nothing. -/
def nameable (store existing : PmemSt) : PmemSt :=
  if existing.addr ≥ store.addr ∧ existing.maxAddr ≤ store.maxAddr then PmemSt.zero else existing

/-- A warning names nothing beyond the record. -/
theorem nameable_covers {byte : Nat} (inside : (nameable store existing).Covers byte) :
    existing.Covers byte := by
  unfold nameable at inside
  split at inside
  · simp [PmemSt.Covers, PmemSt.zero] at inside
  · exact inside

/-- The warning about a record of the tree names what it can. -/
theorem nameable_overlap {dbIndex : Nat} {result : SplitResult}
    (split : splitStores existing store dbIndex = some result)
    (overlap : OverlapOf store existing result.overlap) :
    OverlapOf store (nameable store existing)
      (if result.kept = none then PmemSt.zero else result.overlap) := by
  have whole : result.kept = none ↔
      existing.addr ≥ store.addr ∧ existing.maxAddr ≤ store.maxAddr := splitStores_whole split
  unfold nameable
  by_cases within : existing.addr ≥ store.addr ∧ existing.maxAddr ≤ store.maxAddr
  · rw [if_pos within, if_pos (whole.mpr within)]
    intro byte
    have uncovered : ¬ PmemSt.zero.Covers byte := by
      simp [PmemSt.Covers, PmemSt.zero]
    simp [uncovered]
  · rw [if_neg within, if_neg (fun none => within (whole.mp none))]
    exact overlap

/-- A record that is cut in the middle is met again, and so is the part that was cut off. -/
def sweepTurns (store : PmemSt) (records : List PmemSt) : Nat :=
  records.length + 2 * (metStores store records).length

/-- The first record of the tree, if the store meets it, and those of the rest. -/
theorem metStores_cons (store existing : PmemSt) (rest : List PmemSt) :
    metStores store (existing :: rest) =
      (if cmpPmemSt existing store = .eq then [existing] else []) ++ metStores store rest := by
  unfold metStores
  by_cases meets : cmpPmemSt existing store = .eq
  · rw [if_pos meets, List.filter_cons_of_pos (by simpa using meets)]
    rfl
  · rw [if_neg meets, List.filter_cons_of_neg (by simpa using meets)]
    rfl

/-- What the walk goes on with after the record at the position was split. If nothing is kept,
the node was released before the callback reads it, so that the warning copies a zeroed record. -/
def splitTurn (position : Nat) (existing : PmemSt) (walked : OSet PmemSt) (pmem : PmemOps)
    (result : SplitResult) : PmemOps :=
  let cmp := treeCmp pmem.opts
  match result.kept, result.after with
  | none, _ =>
      { pmem with
        pmemStores := (walked.remove cmp (cmp existing)).resetIterAt (cmp existing)
        }.addMultOverwriteWarn PmemSt.zero
  | some kept, none =>
      { pmem with
        pmemStores := walked.modifyAt position (fun _ => kept) }.addMultOverwriteWarn result.overlap
  | some kept, some after =>
      { pmem with
        pmemStores := ((walked.modifyAt position (fun _ => kept)).insert (cmp after)
          after).resetIterAt (cmp kept)
        dbPmemStoreIndex := pmem.dbPmemStoreIndex + 1 }.addMultOverwriteWarn result.overlap

/-- A turn of the walk of `handle_with_mult_stores`. It gives no state when the walk is at the
end, or when the record cannot be split. -/
def overwriteTurn (store : PmemSt) (pmem : PmemOps) : Option PmemOps :=
  match pmem.pmemStores.next with
  | none => none
  | some (position, existing, walked) =>
      if cmpPmemSt existing store ≠ .eq then some { pmem with pmemStores := walked }
      else if pmem.isSameWrite store existing then some (pmem.dropRewritten store position walked)
      else
        (splitStores existing store pmem.dbPmemStoreIndex).map
          (splitTurn position existing walked pmem)

/-- The walk goes on with what the turn gave. -/
theorem overwriteTree_turn {next : PmemOps} (turned : overwriteTurn store pmem = some next)
    (fuel : Nat) : overwriteTree store (fuel + 1) pmem = overwriteTree store fuel next := by
  simp only [overwriteTurn] at turned
  simp only [overwriteTree]
  cases found : pmem.pmemStores.next with
  | none =>
    rw [found] at turned
    cases turned
  | some step =>
    obtain ⟨position, existing, walked⟩ := step
    simp only [found] at turned ⊢
    by_cases missed : cmpPmemSt existing store ≠ .eq
    · rw [if_pos missed] at turned ⊢
      cases turned
      rfl
    · rw [if_neg missed] at turned ⊢
      by_cases same : pmem.isSameWrite store existing = true
      · rw [if_pos same] at turned ⊢
        cases turned
        rfl
      · rw [if_neg same] at turned ⊢
        obtain ⟨⟨front, behind, overlap⟩, split, rfl⟩ := Option.map_eq_some_iff.mp turned
        rw [split]
        cases front with
        | none => rfl
        | some kept =>
          cases behind with
          | none => rfl
          | some piece => rfl

/-- The walk stands between the two parts of a tree that is ordered by index. -/
structure MidWalk (done rest : List PmemSt) (pmem : PmemOps) : Prop where
  plain : pmem.opts.treeReorganization = false
  sound : TreeSound pmem.opts pmem.dbPmemStoreIndex pmem.pmemStores
  listed : pmem.pmemStores.toList = done ++ rest
  walk : pmem.pmemStores.iter = some done.length

/-- A turn of the walk that deals with the record in front of it. What is left of the record
is clear of the store, and the other records stay. -/
structure TurnedAt (store : PmemSt) (warned done rest done' rest' : List PmemSt)
    (before after : PmemOps) : Prop where
  turned : overwriteTurn store before = some after
  goesOn : MidWalk done' rest' after
  opts : after.opts = before.opts
  warns : Warned store warned before after
  cleared : ∀ elem ∈ done', elem ∈ done ∨ cmpPmemSt elem store ≠ .eq
  met : metStores store rest' = metStores store rest
  longer : rest'.length ≤ rest.length + 2
  others : ∀ elem ∈ done ++ rest, elem ∈ done' ++ rest'

namespace MidWalk

/-- A record that the store misses is passed. -/
theorem pass (walking : MidWalk done (existing :: rest) pmem)
    (missed : cmpPmemSt existing store ≠ .eq) :
    ∃ next, overwriteTurn store pmem = some next ∧ MidWalk (done ++ [existing]) rest next ∧
      next.opts = pmem.opts ∧ Warned store [] pmem next := by
  obtain ⟨plain, sound, listed, walk⟩ := walking
  refine ⟨{ pmem with pmemStores := { pmem.pmemStores with iter := some (done.length + 1) } }, ?_,
    ⟨plain, sound.congr rfl (Nat.le_refl _), ?_, ?_⟩, rfl, Warned.silent rfl rfl⟩
  · simp only [overwriteTurn, next_some listed walk, if_pos missed]
  · rw [List.append_assoc]
    exact listed
  · simp

/-- A record that the store meets and that is no rewrite is cut. -/
theorem split (proper : store.Proper) (walking : MidWalk done (existing :: rest) pmem)
    (meets : cmpPmemSt existing store = .eq) (differs : ¬ pmem.isSameWrite store existing = true) :
    ∃ done' rest' next, TurnedAt store [nameable store existing] done rest done' rest' pmem
      next := by
  obtain ⟨plain, sound, listed, walk⟩ := walking
  have member : existing ∈ pmem.pmemStores.toList := by simp [listed]
  obtain ⟨⟨front, behind, overlap⟩, split, splits⟩ :=
    splitStores_splits proper (sound.proper existing member) pmem.dbPmemStoreIndex meets
  have parts := splits.parts
  have named := nameable_overlap split splits.overlap
  have aheadListed : ({ pmem.pmemStores with iter := some (done.length + 1) } : OSet
      PmemSt).toList = done ++ existing :: rest := listed
  have turned : overwriteTurn store pmem = some (splitTurn done.length existing
      { pmem.pmemStores with iter := some (done.length + 1) } pmem ⟨front, behind, overlap⟩) := by
    simp only [overwriteTurn, next_some listed walk]
    rw [if_neg (not_not.mpr meets), if_neg differs, split, Option.map_some]
  cases front with
  | none =>
    obtain ⟨removed, resumed, _⟩ := remove_resume aheadListed sound.ordered (sound.reflexive member)
    refine ⟨done, rest, _, turned, ⟨plain, ?_, removed, resumed⟩, rfl,
      Warned.add _ named rfl rfl, fun _ => .inl, rfl, Nat.le_add_right _ _, fun _ => id⟩
    have part : (done ++ rest).Sublist pmem.pmemStores.toList := by
      rw [listed]
      exact List.Sublist.append_left (List.sublist_cons_self existing rest) done
    rw [← removed] at part
    exact (sound.sublist part).congr rfl (Nat.le_succ _)
  | some kept =>
    obtain ⟨trims, sameIndex, _⟩ := parts.trims kept rfl
    have edited := modifyAt_match aheadListed (fun _ => kept)
    have trimmed := sound.trimmed listed edited trims sameIndex
    have clearKept : cmpPmemSt kept store ≠ .eq :=
      splits.excised.beside proper kept (by simp)
    cases behind with
    | none =>
      refine ⟨done ++ [kept], rest, _, turned,
        ⟨plain, trimmed.congr rfl (Nat.le_succ _), ?_, ?_⟩, rfl,
        Warned.add _ named rfl rfl, fun elem member => ?_, rfl, Nat.le_add_right _ _,
        fun elem member => ?_⟩
      · rw [List.append_assoc]
        exact edited
      · simp [splitTurn, addMultOverwriteWarn, OSet.modifyAt]
      · rcases List.mem_append.mp member with old | isKept
        · exact .inl old
        · rw [List.mem_singleton.mp isKept]
          exact .inr clearKept
      · simp only [List.mem_append, List.mem_singleton] at member ⊢
        exact member.imp_left .inl
    | some piece =>
      obtain ⟨trimsPiece, next⟩ := parts.behind piece rfl
      have clearPiece : cmpPmemSt piece store ≠ .eq :=
        splits.excised.beside proper piece (by simp)
      have exchanged := sound.cut listed edited rfl trims sameIndex trimsPiece
        (parts.clear kept piece rfl rfl) next
      dsimp only [splitTurn] at turned
      generalize ({ pmem.pmemStores with iter := some (done.length + 1) } : OSet PmemSt).modifyAt
        done.length (fun _ => kept) = trimmedSet at *
      have fresh : ∀ elem ∈ trimmedSet.toList, elem.index < piece.index := by
        rw [next]
        exact trimmed.fresh plain
      have last : (trimmedSet.insert (treeCmp pmem.opts piece) piece).toList =
          done ++ kept :: (rest ++ [piece]) := by
        rw [treeCmp_own plain, ← List.cons_append, ← List.append_assoc, ← edited]
        exact (insert_byKey_last piece fresh).1
      obtain ⟨above, below⟩ := ordered_match (last ▸ exchanged.sound.ordered)
      refine ⟨done, kept :: (rest ++ [piece]), _, turned, ⟨plain, ?_, last, ?_⟩, rfl,
        Warned.add _ named rfl rfl, fun _ => .inl, ?_, by simp, fun elem member => ?_⟩
      · exact exchanged.sound.congr rfl (Nat.le_succ _)
      · refine resetIterAt_split last above (last ▸ separates_match above below)
          (fun elem later => ?_)
        rcases List.mem_cons.mp later with rfl | after
        · rw [exchanged.sound.reflexive (by simp [last])]
          simp
        · rw [below elem after]
          simp
      · rw [metStores_cons, if_neg clearKept, List.nil_append]
        unfold metStores
        rw [List.filter_append, List.filter_cons_of_neg (by simpa using clearPiece),
          List.filter_nil, List.append_nil]
      · simp only [List.mem_append, List.mem_cons] at member ⊢
        exact member.imp_right (fun later => .inr (.inl later))

end MidWalk

/-- The walk warns about each record of the tree that the store meets, once. -/
theorem overwriteTree_warned (proper : store.Proper) (fuel : Nat)
    (enough : sweepTurns store rest < fuel) (sweeping : Sweeping done rest pmem) :
    Warned store ((metStores store rest).map (nameable store)) pmem
      (overwriteTree store fuel pmem) := by
  induction fuel generalizing done rest pmem with
  | zero => omega
  | succ fuel inductionHypothesis =>
    have walking : MidWalk done rest pmem :=
      ⟨sweeping.plain, sweeping.sound, sweeping.listed, sweeping.walk⟩
    have goesOn {done' rest' : List PmemSt} {next : PmemOps} (opts : next.opts = pmem.opts)
        (later : MidWalk done' rest' next) : Sweeping done' rest' next :=
      ⟨later.plain, opts ▸ sweeping.indiff, later.sound, later.listed, later.walk⟩
    cases rest with
    | nil =>
      have ended : pmem.pmemStores.next = none :=
        next_end (by simpa [sweeping.listed] using sweeping.walk)
      simp only [overwriteTree, ended]
      exact Warned.silent rfl rfl
    | cons existing rest =>
      unfold sweepTurns at enough
      rw [metStores_cons, List.length_append, List.length_cons] at enough
      by_cases meets : cmpPmemSt existing store = .eq
      · obtain ⟨done', rest', next, turn⟩ :=
          walking.split proper meets (not_isSameWrite sweeping.indiff)
        rw [if_pos meets, List.length_singleton] at enough
        rw [overwriteTree_turn turn.turned, metStores_cons, if_pos meets, List.map_append,
          ← turn.met]
        apply turn.warns.trans
        apply inductionHypothesis _ (goesOn turn.opts turn.goesOn)
        have longer := turn.longer
        unfold sweepTurns
        rw [turn.met]
        omega
      · obtain ⟨next, turned, later, opts, quiet⟩ := walking.pass meets
        rw [if_neg meets, List.length_nil] at enough
        rw [overwriteTree_turn turned, metStores_cons, if_neg meets]
        apply quiet.trans
        apply inductionHypothesis _ (goesOn opts later)
        unfold sweepTurns
        omega

end Walk

/-! ## The loops together -/

/-- No array record of a snippet that is tagged as a whole is cut in the middle while its own
mark is still dirty. -/
def KeepsStates (range : PmemSt) (pmem : PmemOps) : Prop :=
  ∀ sIndex ∈ List.range (pmem.snippetInfoIndex + 1),
    (pmem.snippetInfo sIndex).flushedNum = .allFlushed →
      ∀ slot ∈ reachedIn range pmem sIndex, cutsMiddle range (pmem.slots slot) →
        (pmem.slots slot).state ≠ .dirty

instance (range : PmemSt) (pmem : PmemOps) : Decidable (KeepsStates range pmem) :=
  inferInstanceAs (Decidable (∀ sIndex ∈ List.range _, _ →
    ∀ slot ∈ reachedIn range pmem sIndex, _ → _))

/-- The records that the loops of `handle_with_mult_stores` take as overwritten, with what the
warnings can name of those in the tree. -/
def overwrittenRecords (store : PmemSt) (pmem : PmemOps) : List PmemSt :=
  metRecords store pmem (reachedSlots store pmem) ++
    if skipsTree store pmem then []
    else (metStores store pmem.pmemStores.toList).map (nameable store)

/-- What the checks of a store do to the bytes of the older records. No slot changes its state,
and only bytes of the store cease to be dirty. -/
structure OverwrittenBytes (settled : Prop) (store : PmemSt) (before after : PmemOps) : Prop where
  slots : ∀ slot, (after.slots slot).state = (before.slots slot).state
  stores : ∀ record ∈ after.pmemStores.toList, record.state ≠ .clean
  stillDirty : ∀ byte, ¬ store.Covers byte → DirtyIn before.live byte → DirtyIn after.live byte
  wasDirty : settled → ∀ byte, DirtyIn after.live byte → DirtyIn before.live byte

section Loops

variable {store : PmemSt} {pmem : PmemOps}

/-- No slot that the store cuts in the middle is dirty under a tag that would flush it. -/
theorem KeepsStates.settled (keeps : KeepsStates store pmem) (layout : Layout pmem) :
    ∀ slot ∈ reachedSlots store pmem, cutsMiddle store (pmem.slots slot) → WhollyTagged pmem slot →
      (pmem.slots slot).state ≠ .dirty := by
  intro slot reached cuts isTagged
  obtain ⟨sIndex, used, inReached⟩ := List.mem_flatMap.mp reached
  refine keeps sIndex used ?_ slot inReached cuts
  have inside : InSnippet pmem sIndex slot := by
    unfold reachedIn at inReached
    split at inReached
    · exact absurd inReached List.not_mem_nil
    · exact mem_slotRange.mp inReached
  exact (layout.whollyTagged_iff (Nat.lt_succ_iff.mp (List.mem_range.mp used)) inside).mp isTagged

/-- The loop over the tree. -/
theorem overwriteTree_bytes (settled : Prop) (proper : store.Proper) (sound : Sound pmem)
    (indiff : pmem.opts.storeSbIndiff = 0)
    (written : ∀ record ∈ pmem.pmemStores.toList, record.state ≠ .clean) (fuel : Nat) :
    OverwrittenBytes settled store pmem
      (overwriteTree store fuel { pmem with pmemStores := pmem.pmemStores.resetIter }) := by
  have reset : TreeSound pmem.opts pmem.dbPmemStoreIndex pmem.pmemStores.resetIter :=
    sound.tree.congr rfl (Nat.le_refl _)
  have tree := overwriteTree_kept proper (fun byte inside => inside) fuel
    { pmem with pmemStores := pmem.pmemStores.resetIter }
    (fun rewrites => by
      obtain ⟨_, record, _, same⟩ := rewrites
      simp [isSameWrite, indiff] at same) reset
  have frame := overwriteTree_frame store fuel
    { pmem with pmemStores := pmem.pmemStores.resetIter }
  generalize overwriteTree store fuel { pmem with pmemStores := pmem.pmemStores.resetIter } =
    after at *
  have walked : TreeKept pmem.opts (OverwriteLike store) store.Covers pmem.pmemStores
      pmem.dbPmemStoreIndex after.pmemStores after.dbPmemStoreIndex :=
    ⟨tree.sound, tree.flag, tree.carved, tree.grown, tree.indices⟩
  have kept : Kept store.Covers pmem after := by
    refine walked.kept sound ?_ ?_ ?_ ?_ <;> rw [frame]
  have snippets : after.snippetInfo = pmem.snippetInfo := by rw [frame]
  have used : after.snippetInfoIndex = pmem.snippetInfoIndex := by rw [frame]
  have slots : after.slots = pmem.slots := by rw [frame]
  have dirtySlot (slot : Nat) : DirtySlot after slot ↔ DirtySlot pmem slot :=
    dirtySlot_congr snippets used (by rw [slots])
  have carved := walked.carved
  refine ⟨fun slot => by rw [slots], ?_, ?_, ?_⟩
  · intro part member
    obtain ⟨source, isSource, like⟩ := carved.origin part member
    have size := (walked.sound.proper part member).nonempty
    rw [(like part.addr ⟨Nat.le_refl _, by omega⟩).2.1]
    exact written source isSource
  · intro byte outside dirty
    rw [kept.sound.layout.dirtyIn_live, slots]
    simp only [dirtySlot]
    rcases (sound.layout.dirtyIn_live byte).mp
        dirty with inSlot | ⟨source, isSource, isDirty, inside⟩
    · exact .inl inSlot
    · obtain ⟨part, isPart, covered, same, _⟩ := carved.kept source isSource byte inside outside
      exact .inr ⟨part, isPart, same.trans isDirty, covered⟩
  · intro _ byte dirty
    rw [kept.sound.layout.dirtyIn_live, slots] at dirty
    simp only [dirtySlot] at dirty
    rw [sound.layout.dirtyIn_live]
    rcases dirty with inSlot | ⟨part, isPart, isDirty, inside⟩
    · exact .inl inSlot
    · obtain ⟨source, isSource, like⟩ := carved.origin part isPart
      obtain ⟨covered, same, _⟩ := like byte inside
      exact .inr ⟨source, isSource, same.symm.trans isDirty, covered⟩

/-- The loops over the array and the tree. -/
theorem handleWithMultStores_bytes (proper : store.Proper) (sound : Sound pmem)
    (plain : pmem.opts.treeReorganization = false) (indiff : pmem.opts.storeSbIndiff = 0)
    (slots : ∀ slot < pmem.current.index, (pmem.slots slot).state ≠ .clean)
    (stores : ∀ record ∈ pmem.pmemStores.toList, record.state ≠ .clean) :
    OverwrittenBytes (KeepsStates store pmem) store pmem (pmem.handleWithMultStores store) ∧
      Warned store (overwrittenRecords store pmem) pmem (pmem.handleWithMultStores store) := by
  obtain ⟨distinct, inUse⟩ := reachedSlots_inUse store sound.layout
  have exactly := overwriteSlots_exact proper (reachedSlots store pmem) pmem distinct sound inUse
  have array := overwriteSlots_givesWay proper (reachedSlots store pmem) pmem distinct sound plain
    indiff inUse (fun keeps : KeepsStates store pmem => keeps.settled sound.layout)
  rw [← overwriteSnippets_eq] at exactly array
  simp only [handleWithMultStores]
  generalize (List.range (pmem.snippetInfoIndex + 1)).foldl (overwriteSnippet store) pmem =
    overwritten at *
  have sameOpts : overwritten.opts = pmem.opts := by rw [exactly.frame]
  have skips : skipsTree store overwritten ↔ skipsTree store pmem := by
    rw [exactly.frame]
    exact Iff.rfl
  obtain ⟨pieces, listed, cutOff⟩ := array.tree
  have written : ∀ record ∈ overwritten.pmemStores.toList, record.state ≠ .clean := by
    rw [listed]
    intro record member
    rcases List.mem_append.mp member with old | isPiece
    · exact stores record old
    · obtain ⟨_, slot, slotUsed, same⟩ := cutOff record isPiece
      rw [same]
      exact slots slot slotUsed
  have sameMet : metStores store overwritten.pmemStores.toList =
      metStores store pmem.pmemStores.toList := by
    have none : metStores store pieces = [] := by
      unfold metStores
      rw [List.filter_eq_nil_iff]
      intro piece isPiece
      simpa using (cutOff piece isPiece).1
    unfold metStores at none ⊢
    rw [listed, List.filter_append, none, List.append_nil]
  unfold overwrittenRecords
  by_cases skipped : skipsTree store overwritten
  · rw [if_pos (show store.addr > overwritten.maxAddPmemStore ∨
      store.maxAddr < overwritten.minAddPmemStore from skipped), if_pos (skips.mp skipped),
      List.append_nil]
    exact ⟨⟨array.states, written, array.stillDirty, array.wasDirty⟩, array.warned⟩
  · rw [if_neg (show ¬ (store.addr > overwritten.maxAddPmemStore ∨
      store.maxAddr < overwritten.minAddPmemStore) from skipped),
      if_neg (fun isSkipped => skipped (skips.mpr isSkipped)), ← sameMet]
    have tree := overwriteTree_bytes (KeepsStates store pmem) proper exactly.sound
        (sameOpts ▸ indiff) written (4 * overwritten.pmemStores.size + 1)
    have start : Sweeping [] overwritten.pmemStores.toList
        { overwritten with pmemStores := overwritten.pmemStores.resetIter } :=
      ⟨sameOpts ▸ plain, sameOpts ▸ indiff, exactly.sound.tree.congr rfl (Nat.le_refl _), rfl, rfl⟩
    have enough : sweepTurns store overwritten.pmemStores.toList <
        4 * overwritten.pmemStores.size + 1 := by
      have few := List.length_filter_le (fun existing => decide (cmpPmemSt existing store = .eq))
        overwritten.pmemStores.toList
      unfold sweepTurns metStores OSet.size
      omega
    have sweep := overwriteTree_warned proper _ enough start
    have warned : Warned store ((metStores store overwritten.pmemStores.toList).map
        (nameable store)) overwritten _ :=
      ⟨sweep.longer, sweep.events, sweep.running⟩
    refine ⟨⟨?_, tree.stores, ?_, ?_⟩, array.warned.trans warned⟩
    · exact fun slot => (tree.slots slot).trans (array.states slot)
    · exact fun byte outside dirty =>
        tree.stillDirty byte outside (array.stillDirty byte outside dirty)
    · exact fun keeps byte dirty => array.wasDirty keeps byte (tree.wasDirty keeps byte dirty)

/-- The checks that follow the write of a record. -/
theorem checkStore_bytes (proper : store.Proper) (sound : Sound pmem)
    (plain : pmem.opts.treeReorganization = false)
    (indiff : pmem.opts.trackMultipleStores = true → pmem.opts.storeSbIndiff = 0)
    (slots : ∀ slot < pmem.current.index, (pmem.slots slot).state ≠ .clean)
    (stores : ∀ record ∈ pmem.pmemStores.toList, record.state ≠ .clean) :
    OverwrittenBytes (pmem.opts.trackMultipleStores = true → KeepsStates store pmem) store pmem
        (pmem.checkStore store) ∧
      (pmem.opts.trackMultipleStores = true →
        Warned store (overwrittenRecords store pmem) pmem (pmem.checkStore store)) := by
  have overwritten : OverwrittenBytes
      (pmem.opts.trackMultipleStores = true → KeepsStates store pmem) store pmem
      (if pmem.opts.trackMultipleStores then pmem.handleWithMultStores store else pmem) ∧
      (pmem.opts.trackMultipleStores = true → Warned store (overwrittenRecords store pmem) pmem
        (if pmem.opts.trackMultipleStores then pmem.handleWithMultStores store else pmem)) := by
    by_cases mult : pmem.opts.trackMultipleStores = true
    · obtain ⟨bytes, warned⟩ :=
        handleWithMultStores_bytes proper sound plain (indiff mult) slots stores
      rw [if_pos mult]
      exact ⟨⟨bytes.slots, bytes.stores, bytes.stillDirty, fun keeps =>
        bytes.wasDirty (keeps mult)⟩, fun _ => warned⟩
    · rw [if_neg mult]
      exact ⟨⟨fun _ => rfl, stores, fun _ _ => id, fun _ _ => id⟩, fun isMult => absurd isMult mult⟩
  simp only [checkStore]
  generalize (if pmem.opts.trackMultipleStores = true then pmem.handleWithMultStores store
    else pmem) = checked at *
  obtain ⟨bytes, warned⟩ := overwritten
  split
  · -- The clocks are none of the records.
    exact ⟨⟨bytes.slots, bytes.stores, bytes.stillDirty, bytes.wasDirty⟩,
      fun mult => ⟨(warned mult).longer, (warned mult).events, (warned mult).running⟩⟩
  · exact ⟨bytes, warned⟩

end Loops

end PmDebugger
