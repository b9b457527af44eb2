import PmDebugger.Overwrites

/-!
# Clearing a range

`SET_CLEAN` cuts a region out of the records. In the array it shortens what sticks out of
the region and marks as deleted what lies within it. The part behind the region goes to
the next free slot, of which only the range is overwritten: what was left there by a
record of the time before the last fence, the mark of a deletion included, stays.

The loop reads its bound again in every turn, but the parts that it appends are clear of
the region, so it cleans each record once.
-/

namespace PmDebugger

open OrderedSet OrderedSet.OSet PmemOps Carving

/-- The request leaves the record alone. It is deleted already, or the region misses it. -/
def Untouched (region record : PmemSt) : Prop :=
  record.isDelete = true ∨ cmpPmemSt region record ≠ .eq

instance (region record : PmemSt) : Decidable (Untouched region record) :=
  inferInstanceAs (Decidable (_ ∨ _))

/-- An undeleted record within the region, which the request marks as deleted. Its bytes are
then hidden and no longer shown. -/
def liesWithin (region record : PmemSt) : Prop :=
  record.isDelete = false ∧ region.addr ≤ record.addr ∧ record.maxAddr ≤ region.maxAddr

instance (region record : PmemSt) : Decidable (liesWithin region record) :=
  inferInstanceAs (Decidable (_ ∧ _ ∧ _))

/-- The number of slots whose record the region cuts in the middle. As many tails are appended. -/
def cutCount (region : PmemSt) (slots : List Nat) (pmem : PmemOps) : Nat :=
  (slots.filter (fun slot => cutsMiddle region (pmem.slots slot))).length

/-- Cleaning the slots hides bytes: a record within the region is marked as deleted, or a
part behind the region takes a slot that still bears such a mark. -/
def Hides (region : PmemSt) (slots : List Nat) (pmem : PmemOps) : Prop :=
  (∃ slot ∈ slots, liesWithin region (pmem.slots slot)) ∨
    ∃ free ∈ List.range' pmem.current.index (cutCount region slots pmem),
      free < pmem.opts.maxArrayNum ∧ (pmem.slots free).isDelete = true

instance (region : PmemSt) (slots : List Nat) (pmem : PmemOps) :
    Decidable (Hides region slots pmem) :=
  inferInstanceAs (Decidable ((∃ slot ∈ slots, _) ∨ ∃ free ∈ List.range' _ _, _ ∧ _))

/-! ## The part behind the region -/

/-- The current snippet is longer by the piece, or the tree took it. Which of the two depends
on the room in the array. -/
structure Lengthened (piece : PmemSt) (before after : PmemOps) : Prop where
  used : after.snippetInfoIndex = before.snippetInfoIndex
  snippets : ∀ sIndex, after.snippetInfo sIndex =
    { before.snippetInfo sIndex with index := (after.snippetInfo sIndex).index }
  ends : ∀ sIndex, sIndex ≠ before.snippetInfoIndex →
    (after.snippetInfo sIndex).index = (before.snippetInfo sIndex).index
  longer : before.current.index ≤ after.current.index
  few : after.current.index ≤ before.current.index + 1
  others : ∀ slot, slot < before.current.index ∨ after.current.index ≤ slot →
    after.slots slot = before.slots slot
  added : ∀ slot, before.current.index ≤ slot → slot < after.current.index →
    after.slots slot = piece

/-- The tail of a cleaned slot is added. It is the one piece whose state and mark are not
written: in a slot they are what the slot held before. -/
theorem appendUncleaned_added {addr size : Nat} {pmem : PmemOps} (sound : Sound pmem)
    (proper : (PmemSt.range addr size).Proper) :
    ∃ piece, piece.addr = addr ∧ piece.size = size ∧
      (piece.isDelete = true → pmem.current.index < pmem.opts.maxArrayNum ∧
        (pmem.slots pmem.current.index).isDelete = true) ∧
      Appended piece pmem (pmem.appendUncleaned addr size) ∧
      Lengthened piece pmem (pmem.appendUncleaned addr size) := by
  unfold appendUncleaned
  simp only
  split
  · next room =>
    refine ⟨{ pmem.slots pmem.current.index with addr := addr, size := size }, rfl, rfl,
      fun stale => ⟨room, stale⟩, appendSlot_appended _ sound ⟨proper.nonempty, proper.nonWrapping⟩,
      ?_⟩
    generalize isPiece : ({ pmem.slots pmem.current.index with addr := addr, size :=
      size } : PmemSt) = piece
    generalize grew : (pmem.setSlot pmem.current.index piece).setSnippet pmem.snippetInfoIndex
      { pmem.current with index := pmem.current.index + 1 } = after
    have snippets (sIndex : Nat) : after.snippetInfo sIndex =
        if sIndex = pmem.snippetInfoIndex then { pmem.current with index := pmem.current.index + 1 }
        else pmem.snippetInfo sIndex := by
      rw [← grew]
      rfl
    have slots (slot : Nat) : after.slots slot =
        if slot = pmem.current.index then piece else pmem.slots slot := by
      rw [← grew]
      rfl
    have used : after.snippetInfoIndex = pmem.snippetInfoIndex := by
      rw [← grew]
      rfl
    have index : after.current.index = pmem.current.index + 1 := by
      rw [current, used, snippets, if_pos rfl]
    refine ⟨used, fun sIndex => ?_, fun sIndex differs => ?_, by omega, by omega,
      fun slot outside => ?_, fun slot above below => ?_⟩
    · rw [snippets]
      split
      · next same =>
        rw [same]
        rfl
      · rfl
    · rw [snippets, if_neg differs]
    · rw [slots, if_neg (by omega)]
    · rw [slots, if_pos (by omega)]
  · next full =>
    have entered := insertNext_entered
      { PmemSt.range addr size with index := pmem.dbPmemStoreIndex } sound.tree
      ⟨proper.nonempty, proper.nonWrapping⟩ rfl
    have appended := entered.appended sound rfl (by rw [insertStore_frame])
    have frame := insertStore_frame { PmemSt.range addr size with index := pmem.dbPmemStoreIndex }
      { pmem with dbPmemStoreIndex := pmem.dbPmemStoreIndex + 1 }
    refine ⟨{ PmemSt.range addr size with index := pmem.dbPmemStoreIndex }, rfl, rfl,
      fun deleted => Bool.noConfusion deleted, appended, ?_⟩
    generalize insertStore { PmemSt.range addr size with index := pmem.dbPmemStoreIndex }
      { pmem with dbPmemStoreIndex := pmem.dbPmemStoreIndex + 1 } = result at *
    have index : result.1.current.index = pmem.current.index := by
      rw [frame]
      rfl
    refine ⟨by rw [frame], fun sIndex => ?_, fun sIndex _ => ?_, by omega, by omega,
      fun slot _ => ?_, fun slot above below => by omega⟩
    · rw [frame]
    · rw [frame]
    · rw [frame]

/-! ## The slots -/

/-- What cleaning some of the slots does. The slots are treated as their records demand, the
tails are appended, and the other slots in use are as before. -/
structure Cleaned (region : PmemSt) (slots : List Nat) (before after : PmemOps) : Prop where
  opts : after.opts = before.opts
  sound : Sound after
  flag : after.pmemStores.duplicate = before.pmemStores.duplicate
  used : after.snippetInfoIndex = before.snippetInfoIndex
  snippets : ∀ sIndex, after.snippetInfo sIndex =
    { before.snippetInfo sIndex with index := (after.snippetInfo sIndex).index }
  ends : ∀ sIndex, sIndex ≠ before.snippetInfoIndex →
    (after.snippetInfo sIndex).index = (before.snippetInfo sIndex).index
  longer : before.current.index ≤ after.current.index
  few : after.current.index ≤ before.current.index + cutCount region slots before
  others : ∀ slot, slot ∉ slots → slot < before.current.index ∨ after.current.index ≤ slot →
    after.slots slot = before.slots slot
  added : ∀ slot, before.current.index ≤ slot → slot < after.current.index →
    Untouched region (after.slots slot)
  shown : ∀ byte, Shown before byte →
    Shown after byte ∨ region.Covers byte ∨ Hides region slots before
  hidden : ∀ byte, Hidden after byte → Hidden before byte ∨ Hides region slots before

/-- Where no slot is left to clean, nothing happens. -/
theorem Cleaned.refl {region : PmemSt} {pmem : PmemOps} (slots : List Nat) (sound : Sound pmem) :
    Cleaned region slots pmem pmem :=
  ⟨rfl, sound, rfl, rfl, fun _ => rfl, fun _ _ => rfl, Nat.le_refl _, Nat.le_add_right _ _,
    fun _ _ _ => rfl, fun _ above below => by omega, fun _ => .inl, fun _ => .inl⟩

/-- One slot and then others. -/
theorem Cleaned.cons {region : PmemSt} {slot : Nat} {rest : List Nat}
    {before middle after : PmemOps}
    (fresh : slot ∉ rest) (inUse : ∀ other ∈ slot :: rest, other < before.current.index)
    (first : Cleaned region [slot] before middle) (second : Cleaned region rest middle after) :
    Cleaned region (slot :: rest) before after := by
  have slotUsed := inUse slot List.mem_cons_self
  have held (other : Nat) (member : other ∈ rest) : middle.slots other = before.slots other :=
    first.others other (fun same => fresh (List.mem_singleton.mp same ▸ member))
      (.inl (inUse other (List.mem_cons_of_mem _ member)))
  have restCount : cutCount region rest middle = cutCount region rest before := by
    unfold cutCount
    congr 1
    apply List.filter_congr
    intro other member
    rw [held other member]
  have allCount : cutCount region (slot :: rest) before =
      cutCount region [slot] before + cutCount region rest before := by
    unfold cutCount
    rw [← List.singleton_append, List.filter_append, List.length_append]
  have firstFew := first.few
  have firstLonger := first.longer
  have secondFew := second.few
  have hidesFirst (hides : Hides region [slot] before) : Hides region (slot :: rest) before := by
    rcases hides with ⟨tested, member, within⟩ | ⟨free, member, stale⟩
    · exact .inl ⟨tested, List.mem_cons.mpr (.inl (List.mem_singleton.mp member)), within⟩
    · rw [List.mem_range'_1] at member
      exact .inr ⟨free, List.mem_range'_1.mpr (by omega), stale⟩
  have hidesRest (hides : Hides region rest middle) : Hides region (slot :: rest) before := by
    rcases hides with ⟨tested, member, within⟩ | ⟨free, member, room, stale⟩
    · rw [held tested member] at within
      exact .inl ⟨tested, List.mem_cons_of_mem _ member, within⟩
    · rw [List.mem_range'_1] at member
      rw [first.others free (by simp only [List.mem_singleton]; omega) (.inr member.1)] at stale
      rw [first.opts] at room
      exact .inr ⟨free, List.mem_range'_1.mpr (by omega), room, stale⟩
  constructor
  · exact second.opts.trans first.opts
  · exact second.sound
  · exact second.flag.trans first.flag
  · exact second.used.trans first.used
  · intro sIndex
    rw [second.snippets, first.snippets]
  · intro sIndex differs
    rw [second.ends sIndex (by rw [first.used]; exact differs), first.ends sIndex differs]
  · exact Nat.le_trans first.longer second.longer
  · omega
  · intro other absent outside
    rw [List.mem_cons, not_or] at absent
    have secondLonger := second.longer
    rw [second.others other absent.2 (by omega),
      first.others other (by simpa using absent.1) (by omega)]
  · intro other above below
    by_cases old : other < middle.current.index
    · have untouched := first.added other above old
      have absent : other ∉ rest := fun member => by
        have := inUse other (List.mem_cons_of_mem _ member)
        omega
      rw [second.others other absent (.inl old)]
      exact untouched
    · exact second.added other (by omega) below
  · intro byte isShown
    rcases first.shown byte isShown with between | inRegion | hides
    · rcases second.shown byte between with atEnd | inRegion | hides
      · exact .inl atEnd
      · exact .inr (.inl inRegion)
      · exact .inr (.inr (hidesRest hides))
    · exact .inr (.inl inRegion)
    · exact .inr (.inr (hidesFirst hides))
  · intro byte isHidden
    rcases second.hidden byte isHidden with between | hides
    · rcases first.hidden byte between with atStart | hides
      · exact .inl atStart
      · exact .inr (hidesFirst hides)
    · exact .inr (hidesRest hides)

section Slot

variable {region : PmemSt} {pmem : PmemOps} {index : Nat}

/-- A slot is rewritten. -/
theorem setSlot_cleaned {record : PmemSt} (sound : Sound pmem) (inUse : index < pmem.current.index)
    (proper : record.Proper)
    (kept : ∀ byte, (pmem.slots index).Covers byte → record.isDelete = false ∧ record.Covers byte ∨
      region.Covers byte ∨ Hides region [index] pmem)
    (hides : record.isDelete = true → Hides region [index] pmem) :
    Cleaned region [index] pmem (pmem.setSlot index record) := by
  refine ⟨rfl, sound.setSlot proper, rfl, rfl, fun _ => rfl, fun _ _ => rfl, Nat.le_refl _,
    Nat.le_add_right _ _, fun slot absent _ => ?_, fun slot above below =>
      ?_, fun byte isShown => ?_,
    fun byte isHidden => ?_⟩
  · rw [List.mem_singleton] at absent
    rw [setSlot_slots, if_neg absent]
  · have below' : slot < pmem.current.index := below
    omega
  · rw [shown_setSlot inUse]
    rcases (shown_iff inUse byte).mp isShown with ⟨_, inside⟩ | beside
    · rcases kept byte inside with stays | lost
      · exact .inl (.inl stays)
      · exact .inr lost
    · exact .inl (.inr beside)
  · rcases hidden_setSlot isHidden with ⟨deleted, _⟩ | before
    · exact .inr (hides deleted)
    · exact .inl before

/-- A slot is shortened to its front and the part behind the region goes elsewhere. -/
theorem Appended.cleaned {front piece : PmemSt} {after : PmemOps}
    (inUse : index < pmem.current.index)
    (visible : front.isDelete = false) (lengthened : Lengthened piece
      (pmem.setSlot index front) after)
    (counted : 1 ≤ cutCount region [index] pmem)
      (hides : piece.isDelete = true → Hides region [index] pmem)
    (covered : ∀ byte, (pmem.slots index).Covers byte → ¬ region.Covers byte →
      front.Covers byte ∨ piece.Covers byte)
    (clear : cmpPmemSt region piece ≠ .eq)
    (appended : Appended piece (pmem.setSlot index front) after) :
    Cleaned region [index] pmem after := by
  refine ⟨appended.opts, appended.sound, appended.flag, lengthened.used, lengthened.snippets,
    lengthened.ends, lengthened.longer, Nat.le_trans lengthened.few (Nat.add_le_add_left counted _),
    fun slot absent outside => ?_, fun slot above below => ?_, fun byte isShown => ?_,
    fun byte isHidden => ?_⟩
  · rw [List.mem_singleton] at absent
    rw [lengthened.others slot outside, setSlot_slots, if_neg absent]
  · rw [lengthened.added slot above below]
    exact .inr clear
  · rw [appended.shown, shown_setSlot inUse]
    rcases (shown_iff inUse byte).mp isShown with ⟨_, inside⟩ | beside
    · by_cases inRegion : region.Covers byte
      · exact .inr (.inl inRegion)
      · rcases covered byte inside inRegion with inFront | inPiece
        · exact .inl (.inr (.inl ⟨visible, inFront⟩))
        · cases mark : piece.isDelete with
          | false => exact .inl (.inl ⟨rfl, inPiece⟩)
          | true => exact .inr (.inr (hides mark))
    · exact .inl (.inr (.inr beside))
  · rcases appended.hidden byte isHidden with ⟨deleted, _⟩ | between
    · exact .inr (hides deleted)
    · rcases hidden_setSlot between with ⟨deleted, _⟩ | before
      · rw [visible] at deleted
        cases deleted
      · exact .inl before

/-- The body of the loop. -/
theorem cleanSlot_cleaned (regionProper : region.Proper) (sound : Sound pmem)
    (inUse : index < pmem.current.index) :
    Cleaned region [index] pmem (pmem.cleanSlot region index) := by
  have proper := sound.slots index inUse
  simp only [cleanSlot]
  split
  · exact Cleaned.refl _ sound
  · next touched =>
    rw [not_or, not_not] at touched
    have visible : (pmem.slots index).isDelete = false := by simpa using touched.1
    have meets : cmpPmemSt (pmem.slots index) region = .eq := by
      rw [cmpPmemSt_eq_iff proper.nonWrapping regionProper.nonWrapping]
      exact ((cmpPmemSt_eq_iff regionProper.nonWrapping proper.nonWrapping).mp touched.2).symm
    have excised := remainders_excised regionProper proper 0 meets
    have deletes (within : liesWithin region (pmem.slots index)) :
        Cleaned region [index] pmem
          (pmem.setSlot index { pmem.slots index with isDelete := true }) :=
      have hides : Hides region [index] pmem := .inl ⟨index, List.mem_singleton.mpr rfl, within⟩
      setSlot_cleaned sound inUse ⟨proper.nonempty, proper.nonWrapping⟩
        (fun _ _ => .inr (.inr hides)) (fun _ => hides)
    have shortens (part : PmemSt) (only : remainders region (pmem.slots index) 0 = [part])
        (sameMark : part.isDelete = (pmem.slots index).isDelete) :
        Cleaned region [index] pmem (pmem.setSlot index part) := by
      rw [only] at excised
      have shownPart : part.isDelete = false := sameMark.trans visible
      refine setSlot_cleaned sound inUse (excised.ranges.proper part (by simp))
        (fun byte inside => ?_) (fun deleted => ?_)
      · by_cases inRegion : region.Covers byte
        · exact .inr (.inl inRegion)
        · have covered := (excised.bytes byte).mpr ⟨inside, inRegion⟩
          simp only [tracks_cons, tracks_nil, or_false] at covered
          exact .inl ⟨shownPart, covered⟩
      · rw [shownPart] at deleted
        cases deleted
    split
    · next within => exact deletes ⟨visible, Nat.le_of_lt within.1, Nat.le_of_lt within.2⟩
    · next notWithin =>
      split
      · next both =>
        have parts : remainders region (pmem.slots index) 0 =
            [frontPart region (pmem.slots index), newPart region (pmem.slots index) 0] := by
          simp only [remainders, if_neg notWithin, if_pos both]
        rw [parts] at excised
        have middle : cutsMiddle region (pmem.slots index) := ⟨visible, both⟩
        have counted : cutCount region [index] pmem = 1 := by
          unfold cutCount
          rw [List.filter_cons_of_pos (by simpa using middle)]
          rfl
        have backProper := excised.ranges.proper (newPart region (pmem.slots index) 0) (by simp)
        have frontProper := excised.ranges.proper (frontPart region (pmem.slots index)) (by simp)
        obtain ⟨piece, addr, size, stale, appended, lengthened⟩ := appendUncleaned_added
          (sound.setSlot frontProper) (show (PmemSt.range region.maxAddr
            (Word64.sub (pmem.slots index).maxAddr region.maxAddr)).Proper from
            ⟨backProper.nonempty, backProper.nonWrapping⟩)
        have hides (deleted : piece.isDelete = true) : Hides region [index] pmem := by
          obtain ⟨room, marked⟩ := stale deleted
          have other : pmem.current.index ≠ index := by omega
          rw [setSlot_current, setSlot_slots, if_neg other] at marked
          exact .inr ⟨pmem.current.index, List.mem_range'_1.mpr (by omega), room, marked⟩
        have covered (byte : Nat) (inside : (pmem.slots index).Covers byte)
            (outside : ¬ region.Covers byte) :
            (frontPart region (pmem.slots index)).Covers byte ∨ piece.Covers byte := by
          have left := (excised.bytes byte).mpr ⟨inside, outside⟩
          simp only [tracks_cons, tracks_nil, or_false] at left
          refine left.imp_right (fun inBack => ?_)
          unfold PmemSt.Covers
          rw [addr, size]
          exact inBack
        have clear : cmpPmemSt region piece ≠ .eq := by
          have behind : piece.addr = region.addr + region.size :=
            addr.trans regionProper.nonWrapping.maxAddr_eq
          have fits : piece.NonWrapping := by
            unfold PmemSt.NonWrapping
            rw [addr, size]
            exact backProper.nonWrapping
          rw [ne_eq, cmpPmemSt_eq_iff regionProper.nonWrapping fits]
          omega
        exact appended.cleaned inUse
          (show (frontPart region (pmem.slots index)).isDelete = false from visible) lengthened
          (Nat.le_of_eq counted.symm) hides covered clear
      · next notBoth =>
        split
        · next behind =>
          exact shortens (backPart region (pmem.slots index))
            (by simp only [remainders, if_neg notWithin, if_neg notBoth, if_pos behind]) rfl
        · next notBehind =>
          split
          · next before =>
            exact shortens (frontPart region (pmem.slots index)) (by
              simp only [remainders, if_neg notWithin, if_neg notBoth, if_neg notBehind,
                if_pos before]) rfl
          · exact deletes ⟨visible, by omega, by omega⟩

end Slot

/-! ## The loops -/

section Loops

variable {region : PmemSt}

/-- Cleaning distinct slots in use, one after another. -/
theorem cleanSlots_cleaned (regionProper : region.Proper) (slots : List Nat) (pmem : PmemOps)
    (distinct : slots.Nodup) (sound : Sound pmem)
    (inUse : ∀ slot ∈ slots, slot < pmem.current.index) :
    Cleaned region slots pmem (slots.foldl (fun state slot => cleanSlot region slot state)
      pmem) := by
  induction slots generalizing pmem with
  | nil => exact Cleaned.refl _ sound
  | cons slot rest inductionHypothesis =>
    obtain ⟨fresh, restDistinct⟩ := List.nodup_cons.mp distinct
    have first := cleanSlot_cleaned regionProper sound (inUse slot List.mem_cons_self)
    have later := inductionHypothesis (pmem.cleanSlot region slot) restDistinct first.sound
      (fun other member => Nat.lt_of_lt_of_le (inUse other (List.mem_cons_of_mem _ member))
        first.longer)
    exact Cleaned.cons fresh inUse first later

/-- A record that is left alone. -/
theorem cleanSlot_untouched {pmem : PmemOps} {index : Nat}
    (untouched : Untouched region (pmem.slots index)) : pmem.cleanSlot region index = pmem := by
  simp only [cleanSlot]
  exact if_pos untouched

/-- The loop leaves a stretch of such records as it is. -/
theorem cleanSlots_untouched (sIndex fuel index : Nat) (pmem : PmemOps)
    (untouched : ∀ slot, index ≤ slot → slot < (pmem.snippetInfo sIndex).index →
      Untouched region (pmem.slots slot)) : cleanSlots region sIndex fuel index pmem = pmem := by
  induction fuel generalizing index with
  | zero => rfl
  | succ fuel inductionHypothesis =>
    simp only [cleanSlots]
    split
    · next more =>
      rw [cleanSlot_untouched (untouched index (Nat.le_refl _) more)]
      exact inductionHypothesis (index + 1) (fun slot above below =>
        untouched slot (by omega) below)
    · rfl

/-- The end of a snippet after some slots were cleaned. -/
theorem Cleaned.bound {slots : List Nat} {before after : PmemOps} {sIndex : Nat}
    (cleaned : Cleaned region slots before after) :
    (before.snippetInfo sIndex).index ≤ (after.snippetInfo sIndex).index := by
  by_cases last : sIndex = before.snippetInfoIndex
  · have longer := cleaned.longer
    unfold current at longer
    rw [cleaned.used] at longer
    rw [last]
    exact longer
  · rw [cleaned.ends sIndex last]

/-- The loop visits the records up to a stop, if it leaves alone what is behind that. -/
theorem cleanSlots_eq (regionProper : region.Proper) {sIndex stop : Nat} (fuel index : Nat)
    (pmem : PmemOps) (sound : Sound pmem) (used : sIndex ≤ pmem.snippetInfoIndex)
    (enough : stop - index ≤ fuel) (inside : stop ≤ (pmem.snippetInfo sIndex).index)
    (begun : index ≤ stop)
    (untouched : ∀ slot, stop ≤ slot → slot < (pmem.snippetInfo sIndex).index →
      Untouched region (pmem.slots slot)) :
    cleanSlots region sIndex fuel index pmem =
      (List.range' index (stop - index)).foldl (fun state slot => cleanSlot region slot state)
        pmem := by
  induction fuel generalizing index pmem with
  | zero =>
    rw [Nat.le_zero.mp enough]
    rfl
  | succ fuel inductionHypothesis =>
    by_cases finished : index = stop
    · rw [finished, Nat.sub_self]
      exact cleanSlots_untouched sIndex (fuel + 1) stop pmem untouched
    · have more : index < (pmem.snippetInfo sIndex).index := by omega
      have inUse : index < pmem.current.index :=
        Nat.lt_of_lt_of_le more (sound.layout.bounded used)
      have first := cleanSlot_cleaned regionProper sound inUse
      simp only [cleanSlots, if_pos more]
      rw [show stop - index = (stop - (index + 1)) + 1 by omega, List.range'_succ, List.foldl_cons]
      refine inductionHypothesis (index + 1) _ first.sound (by rw [first.used]; exact used)
        (by omega) (Nat.le_trans inside first.bound) (by omega) (fun slot above below => ?_)
      by_cases old : slot < (pmem.snippetInfo sIndex).index
      · rw [first.others slot (by simp only [List.mem_singleton]; omega)
          (.inl (Nat.lt_of_lt_of_le old (sound.layout.bounded used)))]
        exact untouched slot above old
      · -- Only the current snippet grows.
        by_cases last : sIndex = pmem.snippetInfoIndex
        · rw [last] at old below
          refine first.added slot (Nat.le_of_not_lt old) ?_
          unfold current
          rw [first.used]
          exact below
        · rw [first.ends sIndex last] at below
          exact absurd below old

/-- The first snippets reach distinct slots in use. -/
theorem reachedBefore_inUse (range : PmemSt) {pmem : PmemOps} (layout : Layout pmem) {count : Nat}
    (few : count ≤ pmem.snippetInfoIndex + 1) :
    ((List.range count).flatMap (reachedIn range pmem)).Nodup ∧
      ∀ slot ∈ (List.range count).flatMap (reachedIn range pmem), slot < pmem.current.index := by
  obtain ⟨distinct, inUse⟩ := reachedSlots_inUse range layout
  have part : ((List.range count).flatMap (reachedIn range pmem)).Sublist
      (reachedSlots range pmem) := List.Sublist.flatMap (List.range_sublist.mpr few) _
  exact ⟨part.nodup distinct, fun slot member => inUse slot (part.subset member)⟩

/-- The nested loops clean the slots of the snippets that the region does not miss. -/
theorem cleanSnippets_eq (regionProper : region.Proper) {pmem : PmemOps} (sound : Sound pmem)
    (count : Nat) (few : count ≤ pmem.snippetInfoIndex + 1) :
    (List.range count).foldl (cleanSnippet region) pmem =
      ((List.range count).flatMap (reachedIn region pmem)).foldl
        (fun state slot => cleanSlot region slot state) pmem := by
  induction count with
  | zero => rfl
  | succ count inductionHypothesis =>
    obtain ⟨distinct, inUse⟩ := reachedBefore_inUse region sound.layout (Nat.le_of_succ_le few)
    have cleaned := cleanSlots_cleaned regionProper _ pmem distinct sound inUse
    rw [List.range_succ, List.foldl_append, List.flatMap_append, List.foldl_append,
      inductionHypothesis (Nat.le_of_succ_le few)]
    generalize ((List.range count).flatMap (reachedIn region pmem)).foldl
      (fun state slot => cleanSlot region slot state) pmem = state at *
    have same := cleaned.snippets count
    have ordered := sound.layout.ordered count (by omega)
    have grown : (pmem.snippetInfo count).index ≤ (state.snippetInfo count).index := cleaned.bound
    have starts : (state.snippetInfo count).startIndex = (pmem.snippetInfo count).startIndex := by
      rw [same]
    have box : missesBox region (state.snippetInfo count) =
        missesBox region (pmem.snippetInfo count) := by
      rw [same]
      rfl
    simp only [List.foldl_cons, List.foldl_nil, List.flatMap_singleton, cleanSnippet,
      reachedIn, box]
    split
    · rfl
    · rw [starts]
      refine cleanSlots_eq regionProper _ _ state cleaned.sound (by rw [cleaned.used]; omega)
        (by omega) grown ordered (fun slot above below => ?_)
      by_cases last : count = pmem.snippetInfoIndex
      · rw [last] at above below
        refine cleaned.added slot above ?_
        unfold current
        rw [cleaned.used]
        exact below
      · rw [cleaned.ends count last] at below
        omega

/-- What the request does to the records. What was shown is shown still, except for the bytes
of the region and those of a tail that its new slot hides. -/
structure RegionCleaned (region : PmemSt) (before after : PmemOps) : Prop where
  opts : after.opts = before.opts
  sound : Sound after
  flag : after.pmemStores.duplicate = before.pmemStores.duplicate
  shown : ∀ byte, Shown before byte → Shown after byte ∨ region.Covers byte ∨
    Hides region (reachedSlots region before) before
  hidden : ∀ byte, Hidden after byte → Hidden before byte ∨
    Hides region (reachedSlots region before) before

/-- The law of `SET_CLEAN` for the records. -/
theorem setClean_cleaned {base size : Nat} {pmem : PmemOps}
    (regionProper : (PmemSt.range base size).Proper) (sound : Sound pmem) :
    RegionCleaned (PmemSt.range base size) pmem (pmem.setClean base size) := by
  unfold setClean
  simp only
  generalize PmemSt.range base size = region at *
  obtain ⟨distinct, inUse⟩ := reachedSlots_inUse region sound.layout
  have array := cleanSlots_cleaned regionProper (reachedSlots region pmem) pmem distinct sound inUse
  have loops := cleanSnippets_eq regionProper sound (pmem.snippetInfoIndex + 1) (Nat.le_refl _)
  rw [loops]
  change Cleaned region (reachedSlots region pmem) pmem (((List.range
    (pmem.snippetInfoIndex + 1)).flatMap (reachedIn region pmem)).foldl
      (fun state slot => cleanSlot region slot state) pmem) at array
  generalize ((List.range (pmem.snippetInfoIndex + 1)).flatMap (reachedIn region pmem)).foldl
    (fun state slot => cleanSlot region slot state) pmem = cleaned at *
  have tree : TreeKept cleaned.opts AnyPart region.Covers cleaned.pmemStores
      cleaned.dbPmemStoreIndex
      (removeRegion (treeCmp cleaned.opts) region cleaned.pmemStores cleaned.dbPmemStoreIndex).1
      (removeRegion (treeCmp cleaned.opts) region cleaned.pmemStores
        cleaned.dbPmemStoreIndex).2 := by
    have loop := removeRegionLoop_kept regionProper (3 * cleaned.pmemStores.size + 1)
      cleaned.pmemStores.resetIter cleaned.dbPmemStoreIndex
        (array.sound.tree.congr rfl (Nat.le_refl _))
    exact ⟨loop.sound, loop.flag, loop.carved, loop.grown, loop.indices⟩
  generalize removeRegion (treeCmp cleaned.opts) region cleaned.pmemStores
    cleaned.dbPmemStoreIndex = removed at *
  have kept : Kept region.Covers cleaned { cleaned with
      pmemStores := removed.1, dbPmemStoreIndex := removed.2 } :=
    TreeKept.kept (show TreeKept cleaned.opts AnyPart _ _ _ _ _ from tree)
      array.sound rfl rfl rfl rfl
  refine ⟨array.opts, kept.sound, kept.flag.trans array.flag, fun byte isShown => ?_,
    fun byte isHidden => array.hidden byte isHidden⟩
  rcases array.shown byte isShown with between | lost
  · exact (kept.shown byte between).imp_right .inl
  · exact .inr lost

end Loops

end PmDebugger
