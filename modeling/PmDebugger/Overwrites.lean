import Mathlib.Data.List.Flatten
import PmDebugger.Integrity

/-!
# Overwritten stores

With `--mult-stores` a new store cuts its range out of the older records. A record of the
array that sticks out on both sides keeps its front in place, and its back is entered into
the tree directly, past the code that makes room there. With `--tree-reorganization` the
tree refuses a record that overlaps one of its own, and this is the only insertion of the
tool that can be refused.

Each record that is cut in the middle has a back that starts where the new store ends, so
at most one of them can be entered, and only if the tree holds nothing in its place.
-/

namespace PmDebugger

open OrderedSet OrderedSet.OSet PmemOps Carving

/-- The range lies within an undeleted record and touches neither of its ends. Only such a
record leaves two parts, the second of which becomes a tree record. -/
def cutsMiddle (range existing : PmemSt) : Prop :=
  existing.isDelete = false ∧ existing.addr < range.addr ∧ range.maxAddr < existing.maxAddr

instance (range existing : PmemSt) : Decidable (cutsMiddle range existing) :=
  inferInstanceAs (Decidable (_ ∧ _ ∧ _))

/-- The slots of a snippet, if the range does not miss its box; otherwise none, since the loop
skips the snippet. -/
def reachedIn (range : PmemSt) (pmem : PmemOps) (sIndex : Nat) : List Nat :=
  if missesBox range (pmem.snippetInfo sIndex) then [] else slotRange (pmem.snippetInfo sIndex)

/-- The slots of the snippets whose box the range does not miss. These are the slots that the
array loop looks at. -/
def reachedSlots (range : PmemSt) (pmem : PmemOps) : List Nat :=
  (List.range (pmem.snippetInfoIndex + 1)).flatMap (reachedIn range pmem)

/-- The part of a record behind a range. Only its range matters here, since the order of the
tree looks at nothing else under reorganisation. -/
def partBehind (range existing : PmemSt) : PmemSt :=
  PmemSt.range range.maxAddr (Word64.sub existing.maxAddr range.maxAddr)

/-- At most one of the slots holds a record that the range cuts in the middle, and the tree
holds nothing in the place of the part behind the cut. -/
def GapFor (range : PmemSt) (slots : List Nat) (pmem : PmemOps) : Prop :=
  (slots.filter (fun slot => cutsMiddle range (pmem.slots slot))).length ≤ 1 ∧
    ∀ slot ∈ slots, cutsMiddle range (pmem.slots slot) → ∀ record ∈ pmem.pmemStores.toList,
      cmpPmemSt (partBehind range (pmem.slots slot)) record ≠ .eq

instance (range : PmemSt) (slots : List Nat) (pmem : PmemOps) :
    Decidable (GapFor range slots pmem) :=
  inferInstanceAs (Decidable (_ ∧ ∀ slot ∈ slots, _ → ∀ record ∈ _, _))

/-! ## One slot -/

/-- A record is cut in the middle iff something is left of it behind the new store. -/
theorem splitStores_after {store existing : PmemSt} {dbIndex : Nat} {result : SplitResult}
    (split : splitStores existing store dbIndex = some result) :
    (existing.addr < store.addr ∧ store.maxAddr < existing.maxAddr → ∃ kept piece,
      result.kept = some kept ∧ result.after = some piece ∧
        piece.addr = (partBehind store existing).addr ∧
        piece.size = (partBehind store existing).size ∧ piece.isDelete = existing.isDelete) ∧
    (¬ (existing.addr < store.addr ∧ store.maxAddr < existing.maxAddr) → result.after = none) := by
  unfold splitStores at split
  simp only at split
  split at split
  · cases split
    exact ⟨fun middle => by omega, fun _ => rfl⟩
  · split at split
    · split at split
      · cases split
        exact ⟨fun _ => ⟨_, _, rfl, rfl, rfl, rfl, rfl⟩, fun notMiddle => by omega⟩
      · cases split
        exact ⟨fun middle => by omega, fun _ => rfl⟩
    · split at split
      · cases split
        exact ⟨fun middle => by omega, fun _ => rfl⟩
      · cases split

/-- A warning about an overwritten record changes no record. -/
theorem addMultOverwriteWarn_same (store : PmemSt) (pmem : PmemOps) :
    SameRecords pmem (pmem.addMultOverwriteWarn store) :=
  ⟨rfl, rfl, Nat.le_succ _, rfl, rfl, fun _ => rfl, fun _ => rfl⟩

/-- The loop body changes one slot, the tree, the counter and the register of overwrites. -/
theorem overwriteSlot_frame (store : PmemSt) (pmem : PmemOps) (index : Nat) :
    pmem.overwriteSlot store index = { pmem with
        slots := (pmem.overwriteSlot store index).slots
        pmemStores := (pmem.overwriteSlot store index).pmemStores
        dbPmemStoreIndex := (pmem.overwriteSlot store index).dbPmemStoreIndex
        multipleStores := (pmem.overwriteSlot store index).multipleStores
        exited := (pmem.overwriteSlot store index).exited } ∧
      (∀ other, other ≠ index → (pmem.overwriteSlot store index).slots other = pmem.slots other) ∧
      pmem.dbPmemStoreIndex ≤ (pmem.overwriteSlot store index).dbPmemStoreIndex ∧
      (pmem.pmemStores.duplicate = true →
        (pmem.overwriteSlot store index).pmemStores.duplicate = true) := by
  have others (state : PmemOps) (record : PmemSt) (other : Nat) (differs : other ≠ index) :
      (state.setSlot index record).slots other = state.slots other := by
    rw [setSlot_slots, if_neg differs]
  simp only [overwriteSlot]
  split
  · exact ⟨rfl, fun _ _ => rfl, Nat.le_refl _, id⟩
  · split
    · exact ⟨rfl, others pmem _, Nat.le_refl _, id⟩
    · split
      · exact ⟨rfl, fun _ _ => rfl, Nat.le_refl _, id⟩
      · split
        · exact ⟨rfl, others pmem _, Nat.le_succ _, id⟩
        · exact ⟨rfl, others pmem _, Nat.le_succ _, id⟩
        · refine ⟨rfl, others pmem _, Nat.le_succ_of_le (Nat.le_succ _), fun flagged => ?_⟩
          exact insert_flagged _ _ flagged

section Slot

variable {store : PmemSt} {pmem : PmemOps} {index : Nat}

/-- A record that is not cut in the middle loses bytes of the new store only, and the tree
stays. -/
theorem overwriteSlot_beside (proper : store.Proper) (sound : Sound pmem)
    (inUse : index < pmem.current.index) (beside : ¬ cutsMiddle store (pmem.slots index)) :
    Kept store.Covers pmem (pmem.overwriteSlot store index) ∧
      (pmem.overwriteSlot store index).pmemStores = pmem.pmemStores := by
  have record := sound.slots index inUse
  simp only [overwriteSlot]
  split
  · exact ⟨Kept.refl sound, rfl⟩
  · next reached =>
    rw [not_or, not_not] at reached
    have visible : (pmem.slots index).isDelete = false := by simpa using reached.1
    have hide (within : ∀ byte, (pmem.slots index).Covers byte → store.Covers byte) :
        Kept store.Covers pmem
          (pmem.setSlot index { pmem.slots index with isDelete := true }) :=
      setSlot_kept sound inUse
        (show PmemSt.Proper { pmem.slots index with isDelete := true } from
          ⟨record.nonempty, record.nonWrapping⟩)
        (fun byte _ inside => .inr (within byte inside))
        (fun byte _ inside => .inr (within byte inside))
        (fun _ undeleted => Bool.noConfusion undeleted)
    split
    · next same =>
      simp only [isSameWrite, decide_eq_true_eq] at same
      refine ⟨hide (fun byte inside => ?_), rfl⟩
      unfold PmemSt.Covers at inside ⊢
      omega
    · obtain ⟨⟨kept, after, overlap⟩, split, parts⟩ :=
        splitStores_parts proper record pmem.dbPmemStoreIndex reached.2
      have noBack : after = none :=
        (splitStores_after split).2 (fun middle => beside ⟨visible, middle⟩)
      subst noBack
      rw [split]
      cases kept with
      | none =>
        have deleted := hide (parts.whole rfl)
        exact ⟨deleted.trans ((addMultOverwriteWarn_same _ _).kept deleted.sound), rfl⟩
      | some first =>
        obtain ⟨trims, _, deleteMark⟩ := parts.trims first rfl
        have trimmed : Kept store.Covers pmem (pmem.setSlot index first) := by
          refine setSlot_kept sound inUse trims.proper (fun byte _ inside => ?_)
            (fun byte deleted _ => ?_) (fun byte _ inside => ⟨visible, trims.covers inside⟩)
          · by_cases overwritten : store.Covers byte
            · exact .inr overwritten
            · obtain ⟨part, isPart, covered, _⟩ := parts.carved.kept (pmem.slots index) (by simp)
                byte inside overwritten
              obtain rfl : part = first := by simpa using isPart
              exact .inl ⟨deleteMark.trans visible, covered⟩
          · rw [deleteMark, visible] at deleted
            cases deleted
        exact ⟨trimmed.trans ((addMultOverwriteWarn_same _ _).kept trimmed.sound), rfl⟩

/-- What a cut in the middle does to the tree. -/
theorem overwriteSlot_middle (proper : store.Proper) (sound : Sound pmem)
    (inUse : index < pmem.current.index) (middle : cutsMiddle store (pmem.slots index)) :
    ∃ kept piece, Trims (pmem.slots index) kept ∧ Trims (pmem.slots index) piece ∧
      kept.isDelete = false ∧ piece.isDelete = false ∧ piece.index = pmem.dbPmemStoreIndex ∧
      (piece.addr = (partBehind store (pmem.slots index)).addr ∧
        piece.size = (partBehind store (pmem.slots index)).size) ∧
      Carved PmemSt.Covers (OverwriteLike store) store.Covers [pmem.slots index] [kept, piece] ∧
      (pmem.overwriteSlot store index).slots = (pmem.setSlot index kept).slots ∧
      (pmem.overwriteSlot store index).pmemStores.toList =
        (pmem.pmemStores.insert (treeCmp pmem.opts piece) piece).toList ∧
      (pmem.overwriteSlot store index).pmemStores.duplicate =
        (pmem.pmemStores.insert (treeCmp pmem.opts piece) piece).duplicate ∧
      pmem.dbPmemStoreIndex + 1 ≤ (pmem.overwriteSlot store index).dbPmemStoreIndex := by
  have record := sound.slots index inUse
  obtain ⟨visible, sticksOut⟩ := middle
  have storeMax := proper.nonWrapping.maxAddr_eq
  have recordMax := record.nonWrapping.maxAddr_eq
  have size := proper.nonempty
  have meets : cmpPmemSt (pmem.slots index) store = .eq := by
    rw [cmpPmemSt_eq_iff record.nonWrapping proper.nonWrapping]
    omega
  have differs : ¬ pmem.isSameWrite store (pmem.slots index) = true := by
    simp only [isSameWrite, decide_eq_true_eq]
    omega
  obtain ⟨⟨kept, after, overlap⟩, split, parts⟩ :=
    splitStores_parts proper record pmem.dbPmemStoreIndex meets
  obtain ⟨first, second, isFirst, isSecond, addr, length, deleteMark⟩ :=
    (splitStores_after split).1 sticksOut
  simp only at isFirst isSecond
  subst isFirst isSecond
  have reached : ¬ ((pmem.slots index).isDelete = true ∨
      cmpPmemSt (pmem.slots index) store ≠ .eq) := by
    simp [visible, meets]
  have result : pmem.overwriteSlot store index = { pmem.setSlot index first with
      pmemStores := (pmem.pmemStores.insert (treeCmp pmem.opts second) second).resetIterAt
        (treeCmp pmem.opts first)
      dbPmemStoreIndex := pmem.dbPmemStoreIndex + 1 }.addMultOverwriteWarn overlap := by
    simp only [overwriteSlot, if_neg reached, if_neg differs, split]
    rfl
  obtain ⟨trims, _, keptMark⟩ := parts.trims first rfl
  obtain ⟨trimsSecond, next⟩ := parts.behind second rfl
  refine ⟨first, second, trims, trimsSecond, keptMark.trans visible, deleteMark.trans visible, next,
    ⟨addr, length⟩, parts.carved, ?_, ?_, ?_, ?_⟩
  · rw [result]
    rfl
  · rw [result]
    rfl
  · rw [result]
    rfl
  · rw [result]
    exact Nat.le_succ _

/-- Two parts behind one range overlap. -/
theorem partsBehind_meet {first second : PmemSt} (proper : store.Proper) (record : first.Proper)
    (record' : second.Proper) (sticksOut : store.maxAddr < first.maxAddr)
    (sticksOut' : store.maxAddr < second.maxAddr) :
    cmpPmemSt (partBehind store first) (partBehind store second) = .eq := by
  rw [proper.nonWrapping.maxAddr_eq, record.nonWrapping.maxAddr_eq] at sticksOut
  rw [proper.nonWrapping.maxAddr_eq, record'.nonWrapping.maxAddr_eq] at sticksOut'
  have fits := record.nonWrapping
  have fits' := record'.nonWrapping
  unfold PmemSt.NonWrapping at fits fits'
  have range (existing : PmemSt) (proper' : existing.Proper)
      (sticks : store.addr + store.size < existing.addr + existing.size) :
      (partBehind store existing).addr = store.addr + store.size ∧
        (partBehind store existing).size =
          existing.addr + existing.size - (store.addr + store.size) := by
    refine ⟨proper.nonWrapping.maxAddr_eq, ?_⟩
    show Word64.sub existing.maxAddr store.maxAddr = _
    rw [proper.nonWrapping.maxAddr_eq, proper'.nonWrapping.maxAddr_eq]
    exact Word64.sub_eq (Nat.le_of_lt sticks)
  obtain ⟨addr, size⟩ := range first record sticksOut
  obtain ⟨addr', size'⟩ := range second record' sticksOut'
  rw [cmpPmemSt_eq_iff (by unfold PmemSt.NonWrapping; omega) (by unfold PmemSt.NonWrapping; omega)]
  omega

/-- If the tree has a gap for the part behind the cut, it is entered and nothing is lost. -/
theorem overwriteSlot_gap (proper : store.Proper) (sound : Sound pmem)
    (inUse : index < pmem.current.index) (middle : cutsMiddle store (pmem.slots index))
    (gap : pmem.opts.treeReorganization = true → ∀ record ∈ pmem.pmemStores.toList,
      cmpPmemSt (partBehind store (pmem.slots index)) record ≠ .eq) :
    Kept store.Covers pmem (pmem.overwriteSlot store index) ∧
      ∃ piece, piece.index = pmem.dbPmemStoreIndex ∧ piece.addr = store.maxAddr ∧
        (∀ record, cmpPmemSt record piece =
          cmpPmemSt record (partBehind store (pmem.slots index))) ∧
        ∀ record, record ∈ (pmem.overwriteSlot store index).pmemStores.toList ↔
          record = piece ∨ record ∈ pmem.pmemStores.toList := by
  obtain ⟨kept, piece, trims, trimsPiece, keptMark, pieceMark, next, ⟨addr, size⟩, carved, slots,
    listed, flag, grown⟩ := overwriteSlot_middle proper sound inUse middle
  obtain ⟨frame, _⟩ := overwriteSlot_frame store pmem index
  generalize pmem.overwriteSlot store index = after at *
  obtain ⟨entered, members, fresh⟩ := (sound.tree.congr rfl (Nat.le_succ _)).entered
    trimsPiece.proper (fun _ => by omega)
    (fun plain record member same => by
      have := sound.tree.fresh plain record member
      omega)
    (fun reorganised record member => by
      rw [(cmpPmemSt_congr addr size record).1]
      exact gap reorganised record member)
  have sameOpts : after.opts = pmem.opts := by rw [frame]
  have sameIndex : after.current.index = pmem.current.index := by
    rw [frame]
    rfl
  refine ⟨?_, piece, next, addr, fun record => (cmpPmemSt_congr addr size record).2,
    fun record => ?_⟩
  · have appended : Appended piece (pmem.setSlot index kept) after := by
      refine ⟨sameOpts, ⟨?_, ?_, ?_⟩, flag.trans fresh, ?_, ?_⟩
      · rw [frame]
        exact ⟨sound.layout.first, sound.layout.chained, sound.layout.ordered⟩
      · rw [sameIndex, slots]
        exact (sound.setSlot trims.proper).slots
      · rw [sameOpts]
        exact entered.congr listed (by omega)
      · intro byte
        unfold Shown
        rw [sameIndex, slots, listed]
        simp only [Tracks, members]
        rw [show (pmem.setSlot index kept).current.index = pmem.current.index from rfl]
        constructor
        · rintro (inSlot | ⟨record, rfl | old, inside⟩)
          · exact .inr (.inl inSlot)
          · exact .inl ⟨pieceMark, inside⟩
          · exact .inr (.inr ⟨record, old, inside⟩)
        · rintro (⟨_, inside⟩ | inSlot | ⟨record, old, inside⟩)
          · exact .inr ⟨piece, .inl rfl, inside⟩
          · exact .inl inSlot
          · exact .inr ⟨record, .inr old, inside⟩
      · rintro byte ⟨slot, slotUsed, rest⟩
        rw [sameIndex] at slotUsed
        rw [slots] at rest
        exact .inr ⟨slot, slotUsed, rest⟩
    refine appended.cut inUse pieceMark keptMark (fun byte inside => ?_) middle.1
      (fun byte inside => inside.elim trims.covers trimsPiece.covers)
    by_cases overwritten : store.Covers byte
    · exact .inr (.inr overwritten)
    · obtain ⟨part, isPart, covered, _⟩ :=
        carved.kept (pmem.slots index) (by simp) byte inside overwritten
      have either : part = kept ∨ part = piece := by simpa using isPart
      rcases either with rfl | rfl
      · exact .inl covered
      · exact .inr (.inl covered)
  · rw [listed]
    exact members record

/-- If the tree has no gap for it, the insertion fails. -/
theorem overwriteSlot_refused (proper : store.Proper) (sound : Sound pmem)
    (inUse : index < pmem.current.index) (middle : cutsMiddle store (pmem.slots index))
    (reorganised : pmem.opts.treeReorganization = true) {record : PmemSt}
    (member : record ∈ pmem.pmemStores.toList)
    (meets : cmpPmemSt (partBehind store (pmem.slots index)) record = .eq) :
    Sound (pmem.overwriteSlot store index) ∧
      (pmem.overwriteSlot store index).pmemStores.toList = pmem.pmemStores.toList ∧
      (pmem.overwriteSlot store index).pmemStores.duplicate = true := by
  obtain ⟨kept, piece, trims, trimsPiece, _, _, next, ⟨addr, size⟩, _, slots, listed, flag,
      grown⟩ :=
    overwriteSlot_middle proper sound inUse middle
  obtain ⟨frame, _⟩ := overwriteSlot_frame store pmem index
  generalize pmem.overwriteSlot store index = after at *
  have ranges := sound.tree.disjoint reorganised
  have found : pmem.pmemStores.contains (treeCmp pmem.opts piece) = true := by
    rw [treeCmp_ranges reorganised, contains_iff (ranges.guides trimsPiece.proper)]
    exact ⟨record, member, by rw [(cmpPmemSt_congr addr size record).1]; exact meets⟩
  have refused : pmem.pmemStores.insert (treeCmp pmem.opts piece) piece =
      { pmem.pmemStores with duplicate := true } := if_pos found
  have sameOpts : after.opts = pmem.opts := by rw [frame]
  have unchanged : after.pmemStores.toList = pmem.pmemStores.toList := by
    rw [listed, refused]
    rfl
  refine ⟨⟨?_, ?_, ?_⟩, unchanged, ?_⟩
  · rw [frame]
    exact ⟨sound.layout.first, sound.layout.chained, sound.layout.ordered⟩
  · have trimmed : Sound (pmem.setSlot index kept) := sound.setSlot trims.proper
    rw [slots, frame]
    exact trimmed.slots
  · rw [sameOpts]
    exact sound.tree.congr unchanged (by omega)
  · rw [flag, refused]

end Slot

/-! ## The loops -/

/-- The effect of the loop body on a list of slots in use. Only the slots, the tree with its
counter, the warnings and the exit change, and a part behind the store is inserted unless it
meets a tree record under reorganisation. -/
structure Overwritten (store : PmemSt) (slots : List Nat) (before after : PmemOps) : Prop where
  frame : after = { before with
    slots := after.slots
    pmemStores := after.pmemStores
    dbPmemStoreIndex := after.dbPmemStoreIndex
    multipleStores := after.multipleStores
    exited := after.exited }
  others : ∀ other, other ∉ slots → after.slots other = before.slots other
  sound : Sound after
  grown : before.dbPmemStoreIndex ≤ after.dbPmemStoreIndex
  indices : ∀ number < before.dbPmemStoreIndex,
    (∀ record ∈ before.pmemStores.toList, record.index ≠ number) →
      ∀ record ∈ after.pmemStores.toList, record.index ≠ number
  rewrites : Rewrites store after → Rewrites store before
  gap : (before.opts.treeReorganization = true → GapFor store slots before) →
    Kept store.Covers before after
  refused : before.opts.treeReorganization = true → ¬ GapFor store slots before →
    after.pmemStores.duplicate = true
  flagged : before.pmemStores.duplicate = true → after.pmemStores.duplicate = true

/-- A slot whose record is not cut in the middle does not count. -/
theorem gapFor_skip {store : PmemSt} {slots : List Nat} {slot : Nat} {pmem after : PmemOps}
    (beside : ¬ cutsMiddle store (pmem.slots slot)) (tree : after.pmemStores = pmem.pmemStores)
    (same : ∀ other ∈ slots, after.slots other = pmem.slots other) :
    GapFor store (slot :: slots) pmem ↔ GapFor store slots after := by
  have filtered : slots.filter (fun other => cutsMiddle store (after.slots other)) =
      slots.filter (fun other => cutsMiddle store (pmem.slots other)) := by
    refine List.filter_congr (fun other member => ?_)
    rw [same other member]
  unfold GapFor
  rw [filtered, tree, List.filter_cons_of_neg (by simpa using beside)]
  refine and_congr_right (fun _ => ?_)
  constructor
  · intro clear other member cuts
    rw [same other member] at cuts ⊢
    exact clear other (List.mem_cons_of_mem _ member) cuts
  · intro clear other member cuts
    rcases List.mem_cons.mp member with rfl | later
    · exact absurd cuts beside
    · have cuts' := cuts
      rw [← same other later] at cuts' ⊢
      exact clear other later cuts'

/-- Once a part behind the cut was entered, no other record may be cut in the middle. -/
theorem gapFor_first {store : PmemSt} {slots : List Nat} {slot : Nat} {pmem : PmemOps}
    (middle : cutsMiddle store (pmem.slots slot))
    (clear : ∀ record ∈ pmem.pmemStores.toList,
      cmpPmemSt (partBehind store (pmem.slots slot)) record ≠ .eq) :
    GapFor store (slot :: slots) pmem ↔ ∀ other ∈ slots, ¬ cutsMiddle store (pmem.slots other) := by
  unfold GapFor
  rw [List.filter_cons_of_pos (by simpa using middle), List.length_cons]
  constructor
  · rintro ⟨few, _⟩ other member cuts
    have inFilter : other ∈ slots.filter (fun tested => cutsMiddle store (pmem.slots tested)) :=
      List.mem_filter.mpr ⟨member, by simpa using cuts⟩
    have := List.length_pos_of_mem inFilter
    omega
  · intro none
    constructor
    · have empty : slots.filter (fun tested => cutsMiddle store (pmem.slots tested)) = [] := by
        rw [List.filter_eq_nil_iff]
        simpa using none
      rw [empty]
      exact Nat.le_refl _
    · intro other member cuts
      rcases List.mem_cons.mp member with rfl | later
      · exact clear
      · exact absurd cuts (none other later)

section FirstTurn

variable {store : PmemSt} {slot : Nat} {rest : List Nat} {pmem : PmemOps}

/-- What the loop has to know of its first turn, which leaves the remaining slots as they are. -/
structure FirstTurn (store : PmemSt) (slot : Nat) (rest : List Nat) (before after : PmemOps) :
    Prop where
  sound : Sound after
  avoids : ∀ number < before.dbPmemStoreIndex,
    (∀ record ∈ before.pmemStores.toList, record.index ≠ number) →
      ∀ record ∈ after.pmemStores.toList, record.index ≠ number
  older : ∀ record ∈ after.pmemStores.toList,
    record ∈ before.pmemStores.toList ∨ record.addr = store.maxAddr
  gap : (before.opts.treeReorganization = true → GapFor store (slot :: rest) before) →
    Kept store.Covers before after ∧
      (before.opts.treeReorganization = true → GapFor store rest after)
  refused : before.opts.treeReorganization = true → ¬ GapFor store (slot :: rest) before →
    after.pmemStores.duplicate = true ∨ ¬ GapFor store rest after

/-- Whatever happens at the first slot, the rest is the loop from the state after it. -/
theorem FirstTurn.overwritten (first : FirstTurn store slot rest pmem
    (pmem.overwriteSlot store slot)) (proper : store.Proper)
    (later : Overwritten store rest (pmem.overwriteSlot store slot)
      (rest.foldl (overwriteSlot store) (pmem.overwriteSlot store slot))) :
    Overwritten store (slot :: rest) pmem ((slot :: rest).foldl (overwriteSlot store) pmem) := by
  obtain ⟨frame, others, grown, flagged⟩ := overwriteSlot_frame store pmem slot
  have sameOpts : (pmem.overwriteSlot store slot).opts = pmem.opts := by rw [frame]
  rw [List.foldl_cons]
  refine ⟨?_, ?_, later.sound, Nat.le_trans grown later.grown, ?_, ?_, ?_, ?_, ?_⟩
  · rw [later.frame, frame]
  · intro other absent
    rw [List.mem_cons, not_or] at absent
    rw [later.others other absent.2, others other absent.1]
  · intro number below absent
    exact later.indices number (by omega) (first.avoids number below absent)
  · intro rewrites
    obtain ⟨plain, record, member, same⟩ := later.rewrites rewrites
    unfold isSameWrite at same
    rw [sameOpts] at same plain
    refine ⟨plain, record, (first.older record member).resolve_right (fun behind => ?_), same⟩
    rw [proper.nonWrapping.maxAddr_eq] at behind
    have size := proper.nonempty
    simp only [decide_eq_true_eq] at same
    omega
  · intro allowed
    obtain ⟨kept, restGap⟩ := first.gap allowed
    exact kept.trans (later.gap (fun reorganised => restGap (sameOpts ▸ reorganised)))
  · intro reorganised noGap
    rcases first.refused reorganised noGap with already | restNoGap
    · exact later.flagged already
    · exact later.refused (by rw [sameOpts]; exact reorganised) restNoGap
  · exact fun already => later.flagged (flagged already)

variable (proper : store.Proper) (sound : Sound pmem) (slotUsed : slot < pmem.current.index)
  (restUsed : ∀ other ∈ rest, other < pmem.current.index)
  (restHeld : ∀ other ∈ rest, (pmem.overwriteSlot store slot).slots other = pmem.slots other)

include proper sound slotUsed

include restUsed restHeld in
/-- The store cuts the record in its middle, and the tree takes the part behind the cut. Just
entered, that part stands in the way of every other one. -/
theorem overwriteSlot_entersPart (middle : cutsMiddle store (pmem.slots slot))
    (clear : pmem.opts.treeReorganization = true → ∀ record ∈ pmem.pmemStores.toList,
      cmpPmemSt (partBehind store (pmem.slots slot)) record ≠ .eq) :
    FirstTurn store slot rest pmem (pmem.overwriteSlot store slot) := by
  obtain ⟨kept, piece, next, starts, compared, members⟩ :=
    overwriteSlot_gap proper sound slotUsed middle clear
  have only : GapFor store rest (pmem.overwriteSlot store slot) ↔
      ∀ other ∈ rest, ¬ cutsMiddle store (pmem.slots other) := by
    constructor
    · rintro ⟨_, restClear⟩ other member cuts
      refine restClear other member (by rw [restHeld other member]; exact cuts) piece
        ((members piece).mpr (.inl rfl)) ?_
      rw [restHeld other member, compared]
      exact partsBehind_meet proper (sound.slots other (restUsed other member))
        (sound.slots slot slotUsed) cuts.2.2 middle.2.2
    · intro none
      have empty : rest.filter (fun other =>
          cutsMiddle store ((pmem.overwriteSlot store slot).slots other)) = [] := by
        rw [List.filter_eq_nil_iff]
        intro other member
        rw [restHeld other member]
        simpa using none other member
      refine ⟨by rw [empty]; exact Nat.zero_le _, fun other member cuts => ?_⟩
      rw [restHeld other member] at cuts
      exact absurd cuts (none other member)
  refine ⟨kept.sound, ?_, ?_, ?_, ?_⟩
  · intro number below absent record member
    rcases (members record).mp member with rfl | old
    · omega
    · exact absent record old
  · intro record member
    rcases (members record).mp member with rfl | old
    · exact .inr starts
    · exact .inl old
  · intro allowed
    exact ⟨kept, fun reorganised => only.mpr ((gapFor_first middle (clear reorganised)).mp
      (allowed reorganised))⟩
  · intro reorganised noGap
    right
    rw [only]
    exact fun none => noGap ((gapFor_first middle (clear reorganised)).mpr none)

/-- The store cuts the record in its middle, and the tree refuses the part behind the cut. -/
theorem overwriteSlot_refusesPart (middle : cutsMiddle store (pmem.slots slot))
    (reorganised : pmem.opts.treeReorganization = true) {record : PmemSt}
    (member : record ∈ pmem.pmemStores.toList)
    (meets : cmpPmemSt (partBehind store (pmem.slots slot)) record = .eq) :
    FirstTurn store slot rest pmem (pmem.overwriteSlot store slot) := by
  obtain ⟨firstSound, listed, refused⟩ :=
    overwriteSlot_refused proper sound slotUsed middle reorganised member meets
  refine ⟨firstSound, ?_, ?_, ?_, ?_⟩
  · intro number _ absent
    rw [listed]
    exact absent
  · intro record member
    rw [listed] at member
    exact .inl member
  · intro allowed
    exact absurd meets ((allowed reorganised).2 slot List.mem_cons_self middle record member)
  · exact fun _ _ => .inl refused

include restHeld in
/-- The store takes an end of the record, all of it or nothing, and the tree stays as it is. -/
theorem overwriteSlot_sparesTree (beside : ¬ cutsMiddle store (pmem.slots slot)) :
    FirstTurn store slot rest pmem (pmem.overwriteSlot store slot) := by
  obtain ⟨kept, tree⟩ := overwriteSlot_beside proper sound slotUsed beside
  have skip : GapFor store (slot :: rest) pmem ↔
      GapFor store rest (pmem.overwriteSlot store slot) := gapFor_skip beside tree restHeld
  refine ⟨kept.sound, ?_, ?_, ?_, ?_⟩
  · intro number _ absent
    rw [tree]
    exact absent
  · intro record member
    rw [tree] at member
    exact .inl member
  · intro allowed
    exact ⟨kept, fun reorganised => skip.mp (allowed reorganised)⟩
  · intro reorganised noGap
    exact .inr (fun restGap => noGap (skip.mpr restGap))

end FirstTurn

/-- The loop over distinct slots in use, by induction on the slots: the first turn leaves the others
as they are. -/
theorem overwriteSlots_exact {store : PmemSt} (proper : store.Proper) (slots : List Nat)
    (pmem : PmemOps) (distinct : slots.Nodup) (sound : Sound pmem)
    (inUse : ∀ slot ∈ slots, slot < pmem.current.index) :
    Overwritten store slots pmem (slots.foldl (overwriteSlot store) pmem) := by
  induction slots generalizing pmem with
  | nil =>
    refine ⟨rfl, fun _ _ => rfl, sound, Nat.le_refl _, fun _ _ absent => absent, id,
      fun _ => Kept.refl sound, fun _ noGap => ?_, id⟩
    exact absurd ⟨by simp, by simp⟩ noGap
  | cons slot rest inductionHypothesis =>
    obtain ⟨fresh, restDistinct⟩ := List.nodup_cons.mp distinct
    obtain ⟨slotUsed, restUsed⟩ := List.forall_mem_cons.mp inUse
    obtain ⟨frame, others, _⟩ := overwriteSlot_frame store pmem slot
    have restHeld (other : Nat) (member : other ∈ rest) :
        (pmem.overwriteSlot store slot).slots other = pmem.slots other :=
      others other (fun same => fresh (same ▸ member))
    have first : FirstTurn store slot rest pmem (pmem.overwriteSlot store slot) := by
      by_cases middle : cutsMiddle store (pmem.slots slot)
      · by_cases clear : pmem.opts.treeReorganization = true →
            ∀ record ∈ pmem.pmemStores.toList,
              cmpPmemSt (partBehind store (pmem.slots slot)) record ≠ .eq
        · exact overwriteSlot_entersPart proper sound slotUsed restUsed restHeld middle clear
        · simp only [Classical.not_imp, not_forall, not_not] at clear
          obtain ⟨reorganised, record, member, meets⟩ := clear
          exact overwriteSlot_refusesPart proper sound slotUsed middle reorganised member meets
      · exact overwriteSlot_sparesTree proper sound slotUsed restHeld middle
    refine first.overwritten proper (inductionHypothesis _ restDistinct first.sound ?_)
    have sameIndex : (pmem.overwriteSlot store slot).current.index = pmem.current.index := by
      rw [frame]
      rfl
    rw [sameIndex]
    exact restUsed

/-- The loop over the slots leaves the table. -/
theorem overwriteSlots_snippets (store : PmemSt) (slots : List Nat) (pmem : PmemOps) :
    (slots.foldl (overwriteSlot store) pmem).snippetInfo = pmem.snippetInfo := by
  induction slots generalizing pmem with
  | nil => rfl
  | cons slot rest inductionHypothesis =>
    rw [List.foldl_cons, inductionHypothesis, (overwriteSlot_frame store pmem slot).1]

/-- The two nested loops visit the slots of the snippets that the store does not miss. -/
theorem overwriteSnippets_eq (store : PmemSt) (pmem : PmemOps) :
    (List.range (pmem.snippetInfoIndex + 1)).foldl (overwriteSnippet store) pmem =
      (reachedSlots store pmem).foldl (overwriteSlot store) pmem := by
  have loop (indices : List Nat) (state : PmemOps) (same : state.snippetInfo = pmem.snippetInfo) :
      indices.foldl (overwriteSnippet store) state =
        (indices.flatMap (reachedIn store pmem)).foldl (overwriteSlot store) state := by
    induction indices generalizing state with
    | nil => rfl
    | cons sIndex rest inductionHypothesis =>
      have first : overwriteSnippet store state sIndex =
          (reachedIn store pmem sIndex).foldl (overwriteSlot store) state := by
        simp only [overwriteSnippet, reachedIn, same]
        split <;> rfl
      rw [List.foldl_cons, List.flatMap_cons, List.foldl_append, ← first]
      refine inductionHypothesis _ ?_
      rw [first, overwriteSlots_snippets, same]
  exact loop _ pmem rfl

/-- The slots that are reached are distinct slots in use. -/
theorem reachedSlots_inUse (range : PmemSt) {pmem : PmemOps} (layout : Layout pmem) :
    (reachedSlots range pmem).Nodup ∧ ∀ slot ∈ reachedSlots range pmem, slot <
      pmem.current.index := by
  have part : (reachedSlots range pmem).Sublist (List.range pmem.current.index) := by
    rw [← layout.usedSlots_eq]
    unfold reachedSlots usedSlots
    refine List.Sublist.flatMap_right _ (fun sIndex _ => ?_)
    unfold reachedIn
    split
    · exact List.nil_sublist _
    · exact List.Sublist.refl _
  exact ⟨part.nodup List.nodup_range, fun slot member => List.mem_range.mp (part.subset member)⟩

/-- The bytes that a store takes from older records under `--mult-stores`. When the rewrite
of a value in the tree is ignored, another record of the tree may go. -/
def TakenBy (store : PmemSt) (pmem : PmemOps) (byte : Nat) : Prop :=
  pmem.opts.trackMultipleStores = true ∧ (store.Covers byte ∨ Rewrites store pmem)

/-- The effect of the checks that follow the write of a record. Free slots and the snippet
table stay as they were, and the tree stays sound. -/
structure StoreChecked (store : PmemSt) (before after : PmemOps) : Prop where
  frame : after = { before with
    slots := after.slots
    pmemStores := after.pmemStores
    dbPmemStoreIndex := after.dbPmemStoreIndex
    multipleStores := after.multipleStores
    pmemTimeRecords := after.pmemTimeRecords
    exited := after.exited }
  free : ∀ slot, before.current.index ≤ slot → after.slots slot = before.slots slot
  sound : Sound after
  grown : before.dbPmemStoreIndex ≤ after.dbPmemStoreIndex
  indices : ∀ number < before.dbPmemStoreIndex,
    (∀ record ∈ before.pmemStores.toList, record.index ≠ number) →
      ∀ record ∈ after.pmemStores.toList, record.index ≠ number
  gap : (before.opts.trackMultipleStores = true → before.opts.treeReorganization = true →
      GapFor store (reachedSlots store before) before) → Kept (TakenBy store before) before after
  refused : before.opts.trackMultipleStores = true → before.opts.treeReorganization = true →
    ¬ GapFor store (reachedSlots store before) before → after.pmemStores.duplicate = true

/-- The loops over the array and the tree together. -/
theorem handleWithMultStores_checked {store : PmemSt} (proper : store.Proper) {pmem : PmemOps}
    (sound : Sound pmem) (mult : pmem.opts.trackMultipleStores = true) :
    StoreChecked store pmem (pmem.handleWithMultStores store) := by
  obtain ⟨distinct, inUse⟩ := reachedSlots_inUse store sound.layout
  have array := overwriteSlots_exact proper (reachedSlots store pmem) pmem distinct sound inUse
  rw [← overwriteSnippets_eq] at array
  simp only [handleWithMultStores]
  generalize (List.range (pmem.snippetInfoIndex + 1)).foldl (overwriteSnippet store) pmem =
    overwritten at *
  have sameOpts : overwritten.opts = pmem.opts := by rw [array.frame]
  have free (slot : Nat) (above : pmem.current.index ≤ slot) :
      overwritten.slots slot = pmem.slots slot :=
    array.others slot (fun member => by
      have := inUse slot member
      omega)
  have weaken (kept : Kept store.Covers pmem overwritten) :
      Kept (TakenBy store pmem) pmem overwritten :=
        kept.weaken (fun _ inside => ⟨mult, .inl inside⟩)
  split
  · refine ⟨?_, free, array.sound, array.grown, array.indices, fun allowed =>
      weaken (array.gap (allowed mult)), fun _ => array.refused⟩
    rw [array.frame]
  · have reset : TreeSound overwritten.opts overwritten.dbPmemStoreIndex
        overwritten.pmemStores.resetIter := array.sound.tree.congr rfl (Nat.le_refl _)
    have tree := overwriteTree_kept proper (fun byte inside => Or.inl inside)
      (4 * overwritten.pmemStores.size + 1)
      { overwritten with pmemStores := overwritten.pmemStores.resetIter }
      (fun rewrites byte => show store.Covers byte ∨ Rewrites store overwritten from .inr rewrites)
      reset
    have frame := overwriteTree_frame store (4 * overwritten.pmemStores.size + 1)
      { overwritten with pmemStores := overwritten.pmemStores.resetIter }
    generalize overwriteTree store (4 * overwritten.pmemStores.size + 1)
      { overwritten with pmemStores := overwritten.pmemStores.resetIter } = after at *
    have walked : TreeKept overwritten.opts (OverwriteLike store)
        (fun byte => store.Covers byte ∨ Rewrites store overwritten)
        overwritten.pmemStores overwritten.dbPmemStoreIndex after.pmemStores
        after.dbPmemStoreIndex := ⟨tree.sound, tree.flag, tree.carved, tree.grown, tree.indices⟩
    have kept : Kept (fun byte => store.Covers byte ∨ Rewrites store overwritten) overwritten
        after := by
      refine walked.kept array.sound ?_ ?_ ?_ ?_ <;> rw [frame]
    have kept := kept.weaken (fun byte taken =>
      show TakenBy store pmem byte from ⟨mult, taken.imp_right array.rewrites⟩)
    refine ⟨?_, ?_, kept.sound, Nat.le_trans array.grown tree.grown, ?_, ?_, ?_⟩
    · rw [frame, array.frame]
    · intro slot above
      rw [frame]
      exact free slot above
    · intro number below absent record member
      rcases walked.indices record member with ⟨source, isSource, same⟩ | new
      · rw [same]
        exact array.indices number below absent source isSource
      · have := array.grown
        omega
    · intro allowed
      exact (weaken (array.gap (allowed mult))).trans kept
    · intro _ reorganised noGap
      rw [kept.flag]
      exact array.refused reorganised noGap

/-- The check of a store, with or without `--mult-stores`. -/
theorem checkStore_checked {store : PmemSt} (proper : store.Proper) {pmem : PmemOps}
    (sound : Sound pmem) : StoreChecked store pmem (pmem.checkStore store) := by
  have overwritten : StoreChecked store pmem
      (if pmem.opts.trackMultipleStores then pmem.handleWithMultStores store else pmem) := by
    split
    · next mult => exact handleWithMultStores_checked proper sound mult
    · next single =>
      refine ⟨rfl, fun _ _ => rfl, sound, Nat.le_refl _, fun _ _ absent => absent,
        fun _ => Kept.refl sound, fun mult => absurd mult single⟩
  simp only [checkStore]
  generalize (if pmem.opts.trackMultipleStores = true then pmem.handleWithMultStores store
    else pmem) = checked at *
  split
  · have timed : SameRecords checked { checked with
        pmemTimeRecords := checked.pmemTimeRecords.map (restartTime store checked) } :=
      ⟨rfl, rfl, Nat.le_refl _, rfl, rfl, fun _ => rfl, fun _ => rfl⟩
    have timedKept : Kept (fun _ => True) checked _ := timed.kept overwritten.sound
    refine ⟨?_, overwritten.free, timedKept.sound, overwritten.grown, overwritten.indices,
      fun allowed => ?_, overwritten.refused⟩
    · rw [overwritten.frame]
    · exact (overwritten.gap allowed).trans (timed.kept overwritten.sound)
  · exact overwritten

/-- The gap is a matter of the range and of the slots in use. -/
theorem gapFor_congr {store range : PmemSt} {pmem after : PmemOps} (layout : Layout pmem)
    (addr : store.addr = range.addr) (size : store.size = range.size)
    (slots : ∀ slot < pmem.current.index, after.slots slot = pmem.slots slot)
    (snippets : after.snippetInfo = pmem.snippetInfo)
    (used : after.snippetInfoIndex = pmem.snippetInfoIndex)
    (tree : after.pmemStores.toList = pmem.pmemStores.toList) :
    GapFor store (reachedSlots store after) after ↔
      GapFor range (reachedSlots range pmem) pmem := by
  have maxAddr : store.maxAddr = range.maxAddr := by
    unfold PmemSt.maxAddr
    rw [addr, size]
  have reached : reachedSlots store after = reachedSlots range pmem := by
    have each : reachedIn store after = reachedIn range pmem := by
      funext sIndex
      unfold reachedIn missesBox
      rw [snippets, addr, maxAddr]
    unfold reachedSlots
    rw [used, each]
  have cuts (slot : Nat) (member : slot ∈ reachedSlots range pmem) :
      cutsMiddle store (after.slots slot) ↔ cutsMiddle range (pmem.slots slot) := by
    unfold cutsMiddle
    rw [slots slot ((reachedSlots_inUse range layout).2 slot member), addr, maxAddr]
  have filtered : (reachedSlots range pmem).filter
      (fun slot => cutsMiddle store (after.slots slot)) =
      (reachedSlots range pmem).filter (fun slot => cutsMiddle range (pmem.slots slot)) := by
    apply List.filter_congr
    intro slot member
    simp only [cuts slot member]
  unfold GapFor
  rw [reached, filtered, tree]
  refine and_congr_right (fun _ => forall_congr' (fun slot => forall_congr' (fun member => ?_)))
  rw [cuts slot member, slots slot ((reachedSlots_inUse range layout).2 slot member)]
  unfold partBehind
  rw [maxAddr]

/-- A new store is entered, in the array or in the tree, after the older records gave way. -/
structure StoreTracked (range : PmemSt) (before after : PmemOps) : Prop where
  opts : after.opts = before.opts
  sound : Sound after
  gap : (before.opts.trackMultipleStores = true → before.opts.treeReorganization = true →
      GapFor range (reachedSlots range before) before) →
    after.pmemStores.duplicate = before.pmemStores.duplicate ∧
      (∀ byte, range.Covers byte → Shown after byte) ∧
      (∀ byte, Shown before byte → Shown after byte ∨ TakenBy range before byte) ∧
      ∀ byte, Hidden after byte → Hidden before byte ∨ TakenBy range before byte
  refused : before.opts.trackMultipleStores = true → before.opts.treeReorganization = true →
    ¬ GapFor range (reachedSlots range before) before → after.pmemStores.duplicate = true

/-- What remains after the checks is to add the store itself. -/
theorem StoreChecked.tracked {store range : PmemSt} {pmem start checked after : PmemOps}
    (layout : Layout pmem) (addr : store.addr = range.addr) (size : store.size = range.size)
    (value : store.value = range.value) (block : store.blockNum = range.blockNum)
    (visible : store.isDelete = false) (begun : Kept (fun _ => False) pmem start)
    (slots : ∀ slot < pmem.current.index, start.slots slot = pmem.slots slot)
    (snippets : start.snippetInfo = pmem.snippetInfo)
    (used : start.snippetInfoIndex = pmem.snippetInfoIndex)
    (tree : start.pmemStores.toList = pmem.pmemStores.toList)
    (result : StoreChecked store start checked) (appended : Appended store checked after) :
    StoreTracked range pmem after := by
  have covers (byte : Nat) : store.Covers byte ↔ range.Covers byte := by
    unfold PmemSt.Covers
    rw [addr, size]
  have sameOpts : start.opts = pmem.opts := begun.opts
  have taken (byte : Nat) : TakenBy store start byte ↔ TakenBy range pmem byte := by
    unfold TakenBy Rewrites isSameWrite
    rw [covers, sameOpts, tree, addr, size, value, block]
  have gapIff := gapFor_congr layout addr size slots snippets used tree
  have checkedOpts : checked.opts = start.opts := by rw [result.frame]
  refine ⟨appended.opts.trans (checkedOpts.trans sameOpts), appended.sound, ?_, ?_⟩
  · intro allowed
    have kept := result.gap (fun mult reorganised => by
      rw [sameOpts] at mult reorganised
      exact gapIff.mpr (allowed mult reorganised))
    refine ⟨appended.flag.trans (kept.flag.trans begun.flag), ?_, ?_, ?_⟩
    · intro byte inside
      exact (appended.shown byte).mpr (.inl ⟨visible, (covers byte).mpr inside⟩)
    · intro byte isShown
      rcases begun.shown byte isShown with atStart | impossible
      · rcases kept.shown byte atStart with isKept | isTaken
        · exact .inl ((appended.shown byte).mpr (.inr isKept))
        · exact .inr ((taken byte).mp isTaken)
      · exact impossible.elim
    · intro byte isHidden
      rcases appended.hidden byte isHidden with ⟨deleted, _⟩ | inChecked
      · rw [visible] at deleted
        cases deleted
      · rcases kept.hidden byte inChecked with atStart | isTaken
        · exact .inl ((begun.hidden byte atStart).resolve_right id)
        · exact .inr ((taken byte).mp isTaken)
  · intro mult reorganised noGap
    rw [appended.flag]
    rw [← sameOpts] at mult reorganised
    exact result.refused mult reorganised (fun gap => noGap (gapIff.mp gap))

/-- Writing a slot that is not in use yet shows nothing. -/
theorem setSlot_unused {pmem : PmemOps} (sound : Sound pmem) {record : PmemSt}
    (proper : record.Proper) :
    Kept (fun _ => False) pmem (pmem.setSlot pmem.current.index record) := by
  have slots (slot : Nat) (inUse : slot < pmem.current.index) :
      (pmem.setSlot pmem.current.index record).slots slot = pmem.slots slot := by
    rw [setSlot_slots, if_neg (by omega)]
  refine ⟨rfl, sound.setSlot proper, rfl, ?_, ?_, ?_⟩
  · rintro byte (⟨slot, inUse, rest⟩ | inTree)
    · rw [slots slot inUse] at rest
      exact .inl ⟨slot, inUse, rest⟩
    · exact .inr inTree
  · rintro byte (⟨slot, inUse, rest⟩ | inTree)
    · exact .inl (.inl ⟨slot, inUse, by rw [slots slot inUse]; exact rest⟩)
    · exact .inl (.inr inTree)
  · rintro byte ⟨slot, inUse, rest⟩
    rw [slots slot inUse] at rest
    exact .inl ⟨slot, inUse, rest⟩

/-- The current snippet takes in the slot behind it, which was written before. -/
theorem grow_appended {pmem : PmemOps} {store : PmemSt} (sound : Sound pmem)
    (held : pmem.slots pmem.current.index = store) (proper : store.Proper) :
    Appended store pmem ((pmem.setSnippet pmem.snippetInfoIndex
      { pmem.current with index := pmem.current.index + 1 }).updatePmemStoresHeadMinandmax
        store) := by
  have stored : pmem.setSlot pmem.current.index store = pmem := by
    have same : (pmem.setSlot pmem.current.index store).slots = pmem.slots := by
      funext slot
      rw [setSlot_slots]
      split
      · next isLast => rw [isLast, held]
      · rfl
    unfold setSlot at same ⊢
    simp only at same
    rw [same]
  have appended := appendSlot_appended store sound proper
  rw [stored] at appended
  apply appended.same
  generalize pmem.setSnippet pmem.snippetInfoIndex
    { pmem.current with index := pmem.current.index + 1 } = grown
  refine ⟨rfl, rfl, Nat.le_refl _, rfl, rfl, fun sIndex => ?_, fun sIndex => ?_⟩
  · simp only [updatePmemStoresHeadMinandmax, setSnippet_snippetInfo]
    split
    · next same =>
      rw [same]
      rfl
    · rfl
  · simp only [updatePmemStoresHeadMinandmax, setSnippet_snippetInfo]
    split
    · next same =>
      rw [same]
      rfl
    · rfl

/-- The law of `trace_pmem_store` for the records. -/
theorem trackStore_tracked {addr size : Nat} (value : Nat) (context : Option ExeContext)
    {pmem : PmemOps} (proper : (PmemSt.range addr size).Proper) (sound : Sound pmem) :
    StoreTracked (pmem.writeStore addr size value context PmemSt.zero) pmem
      (pmem.trackStore addr size value context).1 := by
  have written (held : PmemSt) : (pmem.writeStore addr size value context held).Proper :=
    ⟨proper.nonempty, proper.nonWrapping⟩
  unfold trackStore
  simp only
  split
  · generalize isStore : pmem.writeStore addr size value context (pmem.slots pmem.current.index) =
      store
    have storeProper : store.Proper := isStore ▸ written _
    have visible : store.isDelete = false := by
      rw [← isStore]
      rfl
    -- The slot is written before it is in use.
    have slots (slot : Nat) (inUse : slot < pmem.current.index) :
        (pmem.setSlot pmem.current.index store).slots slot = pmem.slots slot := by
      rw [setSlot_slots, if_neg (by omega)]
    have begun := setSlot_unused sound storeProper
    have result := checkStore_checked storeProper begun.sound
    generalize (pmem.setSlot pmem.current.index store).checkStore store = checked at *
    have current : checked.current = pmem.current := by
      rw [result.frame]
      rfl
    have held : checked.slots checked.current.index = store := by
      rw [current, result.free _ (Nat.le_refl pmem.current.index), setSlot_slots, if_pos rfl]
    have appended := grow_appended result.sound held storeProper
    exact result.tracked sound.layout (by rw [← isStore]; rfl) (by rw [← isStore]; rfl)
      (by rw [← isStore]; rfl) (by rw [← isStore]; rfl) visible begun slots rfl rfl rfl
      appended
  · generalize isStore : pmem.writeStore addr size value context
      { PmemSt.zero with index := pmem.dbPmemStoreIndex } = store
    have storeProper : store.Proper := isStore ▸ written _
    have visible : store.isDelete = false := by
      rw [← isStore]
      rfl
    have number : store.index = pmem.dbPmemStoreIndex := by
      rw [← isStore]
      rfl
    have raised : SameRecords pmem { pmem with dbPmemStoreIndex := pmem.dbPmemStoreIndex + 1 } :=
      ⟨rfl, rfl, Nat.le_succ _, rfl, rfl, fun _ => rfl, fun _ => rfl⟩
    have begun : Kept (fun _ => False) pmem
        { pmem with dbPmemStoreIndex := pmem.dbPmemStoreIndex + 1 } := raised.kept sound
    have result := checkStore_checked storeProper begun.sound
    generalize checkStore store { pmem with dbPmemStoreIndex := pmem.dbPmemStoreIndex + 1 } =
      checked at *
    have checkedOpts : checked.opts = pmem.opts := by rw [result.frame]
    have entered := insertStore_entered result.sound.tree storeProper
      (fun _ => by
        rw [number]
        exact Nat.lt_of_lt_of_le (Nat.lt_succ_self _) result.grown)
      (fun plain => by
        rw [number]
        refine result.indices pmem.dbPmemStoreIndex (Nat.lt_succ_self _) (fun record member => ?_)
        exact Nat.ne_of_lt (sound.tree.fresh (checkedOpts ▸ plain) record member))
    have appended := entered.appended result.sound visible (by rw [insertStore_frame])
    generalize checked.insertStore store = inserted at *
    have bounded : SameRecords inserted.1 (inserted.1.updateOsetPmemStoresMinandmax inserted.2) :=
      ⟨rfl, rfl, Nat.le_refl _, rfl, rfl, fun _ => rfl, fun _ => rfl⟩
    exact result.tracked sound.layout (by rw [← isStore]; rfl) (by rw [← isStore]; rfl)
      (by rw [← isStore]; rfl) (by rw [← isStore]; rfl) visible begun (fun _ _ => rfl) rfl rfl rfl
      (appended.same bounded)

end PmDebugger
