import PmDebugger.Durability

/-!
# Flushes that take records whole

A flush takes records whole when it covers every live record that it meets. Along a run
of such flushes nothing is ever cut, no record leaves the box of its snippet, and both
mistakes of a flush are excluded. The tracker then agrees with the byte-level machine on
every byte.

Records also keep the order of their stores: of two records in the array that share a
byte, the later one is not flushed while the earlier one is dirty, and records of the tree
that share a byte are flushed together.
-/

namespace PmDebugger

open OrderedSet OrderedSet.OSet PmemOps Persistency

/-- The flush covers every live record that it meets. Then no record is cut. -/
def TakesWhole (flush : PmemSt) (pmem : PmemOps) : Prop :=
  ∀ store ∈ pmem.live, cmpPmemSt flush store = .eq → Within flush store

instance (flush : PmemSt) (pmem : PmemOps) : Decidable (TakesWhole flush pmem) :=
  inferInstanceAs (Decidable (∀ store ∈ pmem.live, _ → _))

/-- Every record lies within the box of its snippet. Cutting a record is what breaks this. -/
def Boxed (pmem : PmemOps) : Prop :=
  ∀ sIndex ≤ pmem.snippetInfoIndex, ∀ slot, InSnippet pmem sIndex slot →
    (pmem.snippetInfo sIndex).minAdd ≤ (pmem.slots slot).addr ∧
      (pmem.slots slot).addr + (pmem.slots slot).size ≤ (pmem.snippetInfo sIndex).maxAdd

/-- A tag does not change what lies within a flush. -/
theorem settle_within (flush : PmemSt) (tag : FlushedState) (store : PmemSt) :
    Within flush (settle tag store) ↔ Within flush store := by
  unfold settle
  split <;> exact Iff.rfl

/-- A proper record within the flushed range meets it. -/
theorem Within.meets {flush store : PmemSt} (within : Within flush store) (range : flush.Proper)
    (proper : store.Proper) : cmpPmemSt flush store = .eq := by
  have first : store.Covers store.addr :=
    ⟨Nat.le_refl _, Nat.lt_add_of_pos_right proper.nonempty⟩
  exact (cmpPmemSt_eq_iff_shared range proper).mpr
    ⟨store.addr, within.covers range proper first, first⟩

section Flush

variable {flush : PmemSt} {pmem : PmemOps}

/-- A record of the array that the flush meets is covered. -/
theorem TakesWhole.slot (whole : TakesWhole flush pmem) (well : WellFormed pmem) {sIndex slot : Nat}
    (used : sIndex ≤ pmem.snippetInfoIndex) (inside : InSnippet pmem sIndex slot)
    (meets : cmpPmemSt flush (pmem.slots slot) = .eq) : Within flush (pmem.slots slot) := by
  have undeleted := (well.slots sIndex used slot inside).undeleted
  have member := mem_live.mpr (.inl ⟨sIndex, used, slot, inside, undeleted, rfl⟩)
  exact (settle_within _ _ _).mp (whole _ member ((settle_cmp _ _ _).trans meets))

/-- A tagged snippet has its records within the flushed range. -/
theorem within_of_tagged (well : WellFormed pmem) (boxed : Boxed pmem) {sIndex slot : Nat}
    (used : sIndex ≤ pmem.snippetInfoIndex) (inside : InSnippet pmem sIndex slot)
    (tagged : tagsSnippet flush (pmem.snippetInfo sIndex)) : Within flush (pmem.slots slot) := by
  have box := boxed sIndex used slot inside
  have fits := (well.slots sIndex used slot inside).proper.nonWrapping.maxAddr_eq
  obtain ⟨high, low, _⟩ := tagged
  unfold Within
  omega

/-- A flush that takes records whole tags no snippet by mistake. -/
theorem tagsSafely_of_whole (well : WellFormed pmem) (boxed : Boxed pmem)
    (whole : TakesWhole flush pmem) : TagsSafely flush pmem := by
  intro tagged
  constructor
  · intro slot member
    exact within_of_tagged well boxed (Nat.le_refl _) (mem_slotRange.mp member) tagged
  · intro sIndex earlier _ slot member marked
    exact whole.slot well (Nat.le_of_lt (List.mem_range.mp earlier)) (mem_slotRange.mp member)
      marked.1

/-- A flush skips no record within the box of its snippet. -/
theorem reachesDirty_of_boxed (well : WellFormed pmem) (range : flush.Proper)
    (boxed : Boxed pmem) : ReachesDirty flush pmem := by
  intro sIndex member slot inRange marked
  have used : sIndex ≤ pmem.snippetInfoIndex := Nat.le_of_lt_succ (List.mem_range.mp member)
  have inside := mem_slotRange.mp inRange
  have box := boxed sIndex used slot inside
  have meets := (cmpPmemSt_eq_iff range.nonWrapping
    (well.slots sIndex used slot inside).proper.nonWrapping).mp marked.1
  have fits := range.nonWrapping.maxAddr_eq
  refine .inr (fun skipped => ?_)
  unfold skipsSnippet at skipped
  omega

end Flush

/-- Where both records have a byte and the second one is flushed, so is the first. -/
def InOrder (first second : PmemSt) : Prop :=
  ∀ byte, first.Covers byte → second.Covers byte → second.state = .flushed → first.state = .flushed

/-- The records of the array are in the order of their stores, and those of the tree are
flushed together. -/
structure Aged (pmem : PmemOps) : Prop where
  slots : ∀ sIndex ≤ pmem.snippetInfoIndex, ∀ slot, InSnippet pmem sIndex slot →
    ∀ later ≤ pmem.snippetInfoIndex, ∀ slot', InSnippet pmem later slot' → slot ≤ slot' →
      InOrder (settle (pmem.snippetInfo sIndex).flushedNum (pmem.slots slot))
        (settle (pmem.snippetInfo later).flushedNum (pmem.slots slot'))
  stores : ∀ first ∈ pmem.pmemStores.toList, ∀ second ∈ pmem.pmemStores.toList, InOrder first second

/-- A record that was flushed if the range meets it, and is otherwise as it was. -/
structure FlushedWhole (flush old new : PmemSt) : Prop where
  covers : ∀ byte, new.Covers byte ↔ old.Covers byte
  state : new.state = .flushed ↔ old.state = .flushed ∨ cmpPmemSt flush old = .eq

/-- A flush keeps two records in order when it covers the second if it meets it. -/
theorem InOrder.flushed {flush first second first' second' : PmemSt}
    (inOrder : InOrder first second)
    (range : flush.Proper) (proper : first.Proper) (proper' : second.Proper)
    (whole : cmpPmemSt flush second = .eq → Within flush second)
    (flushedFirst : FlushedWhole flush first first')
    (flushedSecond : FlushedWhole flush second second') : InOrder first' second' := by
  intro byte inFirst inSecond isFlushed
  have inOld := (flushedFirst.covers byte).mp inFirst
  have inOld' := (flushedSecond.covers byte).mp inSecond
  apply flushedFirst.state.mpr
  cases flushedSecond.state.mp isFlushed with
  | inl wasFlushed => exact .inl (inOrder byte inOld inOld' wasFlushed)
  | inr meets =>
    have inFlush := (whole meets).covers range proper' inOld'
    exact .inr ((cmpPmemSt_eq_iff_shared range proper).mpr ⟨byte, inFlush, inOld⟩)

section Flushed

variable {flush : PmemSt} {before array tree after : PmemOps}

/-- The part of a record that a flush keeps is the whole record if the flush covers it. -/
theorem flushedPart_whole {being : PmemSt} (range : flush.Proper) (pending : Pending being)
    (meets : cmpPmemSt flush being = .eq) (within : Within flush being) :
    FlushedWhole flush being (flushedPart flush being) := by
  obtain ⟨_, isFlushed, _, covers⟩ := Flushed.kept_exact range pending meets
  constructor
  · intro byte
    rw [covers byte]
    exact and_iff_left_of_imp (within.covers range pending.proper)
  · exact iff_of_true isFlushed (.inr meets)

/-- What the flush does to a slot in use. -/
theorem Flushed.slot_whole (flushed : Flushed flush before array tree after)
    (well : WellFormed before)
    (range : flush.Proper) (boxed : Boxed before) (whole : TakesWhole flush before)
    {sIndex slot : Nat} (used : sIndex ≤ before.snippetInfoIndex)
    (inside : InSnippet before sIndex slot) :
    FlushedWhole flush (settle (before.snippetInfo sIndex).flushedNum (before.slots slot))
      (settle (array.snippetInfo sIndex).flushedNum (array.slots slot)) := by
  have pending := well.slots sIndex used slot inside
  have reaching := reachesDirty_of_boxed well range boxed
  cases flushed.slot_cases used inside with
  | inl kept =>
    obtain ⟨same, unmarked⟩ := kept
    constructor
    · intro byte
      rw [settle_covers, settle_covers, same]
    · rw [settle_flushed_iff, settle_flushed_iff, settle_cmp, same, or_assoc]
      apply or_congr_right'
      intro notFlushed
      by_cases tagged : tagsSnippet flush (before.snippetInfo sIndex)
      · have within := within_of_tagged well boxed used inside tagged
        exact iff_of_true (flushed.arrayPart.taggedTags sIndex (Nat.lt_succ_of_le used) tagged)
          (.inr (within.meets range pending.proper))
      · rw [flushed.tag_notAll used tagged]
        refine (or_iff_left_of_imp (fun meets => ?_)).symm
        -- A dirty record that the flush meets would have been reached and marked.
        by_contra notAll
        have isDirty : (before.slots slot).state = .dirty := by
          have := pending.written
          cases state : (before.slots slot).state <;> simp_all
        have marked : marks flush (before.snippetInfo sIndex).flushedNum (before.slots slot) :=
          ⟨meets, notAll, isDirty⟩
        cases reaching sIndex (List.mem_range.mpr (Nat.lt_succ_of_le used)) slot
          (mem_slotRange.mpr inside) marked with
        | inl isTagged => exact tagged isTagged
        | inr notSkipped => exact unmarked ⟨⟨tagged, notSkipped⟩, marked⟩
  | inr cut =>
    obtain ⟨isPart, _, marked⟩ := cut
    have taken := flushedPart_whole range pending marked.1 (whole.slot well used inside marked.1)
    constructor
    · intro byte
      rw [settle_covers, settle_covers, isPart]
      exact taken.covers byte
    · rw [settle_flushed_iff, settle_cmp, isPart]
      exact iff_of_true (.inl (taken.state.mpr (.inr marked.1))) (.inr marked.1)

/-- A flush that takes records whole fills no slot. -/
theorem Flushed.inSnippet_whole (flushed : Flushed flush before array tree after)
    (well : WellFormed before) (range : flush.Proper) (whole : TakesWhole flush before)
    {sIndex slot : Nat} (used : sIndex ≤ before.snippetInfoIndex) :
    InSnippet array sIndex slot ↔ InSnippet before sIndex slot := by
  rw [flushed.inSnippet_iff well.layout used]
  apply or_iff_left
  rintro ⟨_, above, below⟩
  -- A new slot would hold a piece of a record that the flush covers.
  obtain ⟨passed, passedUsed, origin, inOrigin, marked, pending, _, covers⟩ :=
    flushed.new_slot well range above below
  have first := covers (array.slots slot).addr
    ⟨Nat.le_refl _, Nat.lt_add_of_pos_right pending.proper.nonempty⟩
  exact first.2 ((whole.slot well passedUsed inOrigin marked.1).covers range
    (well.slots passed passedUsed origin inOrigin).proper first.1)

/-- What the flush makes of the tree. -/
theorem Flushed.store_whole (flushed : Flushed flush before array tree after)
    (well : WellFormed before)
    (range : flush.Proper) (whole : TakesWhole flush before) {store : PmemSt}
    (member : store ∈ tree.pmemStores.toList) :
    ∃ being ∈ before.pmemStores.toList, FlushedWhole flush being store := by
  have covered (being : PmemSt) (isBeing : being ∈ before.pmemStores.toList) :
      cmpPmemSt flush being = .eq → Within flush being :=
    whole being (mem_live.mpr (.inr isBeing))
  rcases flushed.treePart.origin store member with none | ⟨being, isBeing, rfl⟩ |
    ⟨being, isBeing, piece, isPiece, same⟩
  · exact absurd none List.not_mem_nil
  · have pending := well.stores being isBeing
    refine ⟨being, isBeing, ?_⟩
    unfold treatTree
    split
    · next marked =>
      exact flushedPart_whole range pending marked.1 (covered being isBeing marked.1)
    · next unmarked =>
      refine ⟨fun _ => Iff.rfl, (or_iff_left_of_imp (fun meets => ?_)).symm⟩
      have := pending.written
      cases state : being.state with
      | dirty => exact absurd ⟨meets, state⟩ unmarked
      | flushed => rfl
      | clean => exact absurd state this
  · exfalso
    unfold treatTreePieces at isPiece
    split at isPiece
    · next marked =>
      have proper := (well.stores being isBeing).proper
      have cut := tree_cut_exact range proper marked.1
      have first := (cut.pieces_cover piece.addr).mp ⟨piece, isPiece,
        Nat.le_refl _, Nat.lt_add_of_pos_right (cut.pieces_proper piece isPiece).nonempty⟩
      exact first.2 ((covered being isBeing marked.1).covers range proper first.1)
    · exact absurd isPiece List.not_mem_nil

/-- Opening a new snippet fills no slot. -/
theorem closeSnippet_inSnippet {pmem : PmemOps} {sIndex slot : Nat}
    (used : sIndex ≤ pmem.closeSnippet.snippetInfoIndex)
    (inside : InSnippet pmem.closeSnippet sIndex slot) :
    sIndex ≤ pmem.snippetInfoIndex ∧ InSnippet pmem sIndex slot ∧
      pmem.closeSnippet.snippetInfo sIndex = pmem.snippetInfo sIndex := by
  unfold closeSnippet at used inside ⊢
  split at used
  · next touched =>
    rw [if_pos touched] at inside ⊢
    have used' : sIndex ≤ pmem.snippetInfoIndex + 1 := used
    unfold InSnippet at inside
    by_cases new : sIndex = pmem.snippetInfoIndex + 1
    · rw [show pmem.initSnippetInfo.snippetInfo sIndex = emptySnippet pmem.current.index from
        if_pos new] at inside
      exact absurd inside.2 (Nat.not_lt.mpr inside.1)
    · have other : pmem.initSnippetInfo.snippetInfo sIndex = pmem.snippetInfo sIndex := if_neg new
      rw [other] at inside
      exact ⟨by omega, inside, other⟩
  · next untouched =>
    rw [if_neg untouched] at inside ⊢
    exact ⟨used, inside, rfl⟩

/-- What a slot in use after the flush was before it. -/
theorem Flushed.slot_origin (flushed : Flushed flush before array tree after)
    (well : WellFormed before) (range : flush.Proper) (boxed : Boxed before)
    (whole : TakesWhole flush before) {sIndex slot : Nat} (used : sIndex ≤ after.snippetInfoIndex)
    (inside : InSnippet after sIndex slot) :
    sIndex ≤ before.snippetInfoIndex ∧ InSnippet before sIndex slot ∧
      (after.snippetInfo sIndex).minAdd = (before.snippetInfo sIndex).minAdd ∧
      (after.snippetInfo sIndex).maxAdd = (before.snippetInfo sIndex).maxAdd ∧
      (after.slots slot).Proper ∧
      FlushedWhole flush (settle (before.snippetInfo sIndex).flushedNum (before.slots slot))
        (settle (after.snippetInfo sIndex).flushedNum (after.slots slot)) := by
  obtain ⟨quiet, frame, closing⟩ := flushed.closing
  obtain ⟨slots, snippets, index⟩ := flushed.sameArray
  rw [closing] at used inside
  obtain ⟨usedQuiet, inQuiet, sameSnippet⟩ := closeSnippet_inSnippet used inside
  rw [frame] at usedQuiet
  have used' : sIndex ≤ before.snippetInfoIndex := Nat.le_trans usedQuiet (Nat.le_of_eq index)
  have inArray : InSnippet array sIndex slot := by
    unfold InSnippet at inQuiet ⊢
    rw [frame] at inQuiet
    rwa [snippets] at inQuiet
  have inBefore := (flushed.inSnippet_whole well range whole used').mp inArray
  have sameSlots : after.slots = array.slots := by
    rw [closing, closeSnippet_frame, frame]
    exact slots
  have sameInfo : after.snippetInfo sIndex = array.snippetInfo sIndex := by
    rw [closing, sameSnippet, frame]
    exact congrFun snippets sIndex
  have minAdd : (array.snippetInfo sIndex).minAdd = (before.snippetInfo sIndex).minAdd := by
    rw [flushed.arrayPart.snippets sIndex]
  have maxAdd : (array.snippetInfo sIndex).maxAdd = (before.snippetInfo sIndex).maxAdd := by
    rw [flushed.arrayPart.snippets sIndex]
  rw [sameSlots, sameInfo]
  exact ⟨used', inBefore, minAdd, maxAdd, (flushed.array_slot well range used' inArray).proper,
    flushed.slot_whole well range boxed whole used' inBefore⟩

/-- The boxes still hold after a flush that takes records whole. -/
theorem Flushed.boxed (flushed : Flushed flush before array tree after) (well : WellFormed before)
    (range : flush.Proper) (boxed : Boxed before) (whole : TakesWhole flush before) :
      Boxed after := by
  intro sIndex used slot inside
  obtain ⟨used', inBefore, minAdd, maxAdd, proper, taken⟩ :=
    flushed.slot_origin well range boxed whole used inside
  have box := boxed sIndex used' slot inBefore
  have ends : (before.slots slot).addr ≤ (after.slots slot).addr ∧
      (after.slots slot).addr + (after.slots slot).size ≤
        (before.slots slot).addr + (before.slots slot).size := by
    apply enclosed proper
    intro byte covered
    exact (settle_covers _ _ _).mp ((taken.covers byte).mp ((settle_covers _ _ _).mpr covered))
  rw [minAdd, maxAdd]
  omega

/-- The records keep their order in a flush that takes them whole. -/
theorem Flushed.aged (flushed : Flushed flush before array tree after) (well : WellFormed before)
    (range : flush.Proper) (boxed : Boxed before) (whole : TakesWhole flush before)
    (aged : Aged before) : Aged after := by
  constructor
  · intro sIndex used slot inside later used' slot' inside' less
    obtain ⟨wasUsed, wasInside, _, _, _, taken⟩ :=
      flushed.slot_origin well range boxed whole used inside
    obtain ⟨wasUsed', wasInside', _, _, _, taken'⟩ :=
      flushed.slot_origin well range boxed whole used' inside'
    have pending := well.slots sIndex wasUsed slot wasInside
    have pending' := well.slots later wasUsed' slot' wasInside'
    apply (aged.slots sIndex wasUsed slot wasInside later wasUsed' slot' wasInside' less).flushed
      range ((settle_proper _ _).mpr pending.proper) ((settle_proper _ _).mpr pending'.proper) _
      taken taken'
    exact whole _
      (mem_live.mpr (.inl ⟨later, wasUsed', slot', wasInside', pending'.undeleted, rfl⟩))
  · have sameStores : after.pmemStores = tree.pmemStores := by
      obtain ⟨quiet, frame, closing⟩ := flushed.closing
      rw [closing, closeSnippet_frame, frame]
    rw [sameStores]
    intro first member second member'
    obtain ⟨being, isBeing, taken⟩ := flushed.store_whole well range whole member
    obtain ⟨being', isBeing', taken'⟩ := flushed.store_whole well range whole member'
    exact (aged.stores being isBeing being' isBeing').flushed range
      (well.stores being isBeing).proper
      (well.stores being' isBeing').proper (whole being' (mem_live.mpr (.inr isBeing')))
        taken taken'

end Flushed

section Steps

variable {store : PmemSt} {before after : PmemOps}

/-- A store widens the box that it enters. -/
theorem Stored.boxed (stored : Stored store before after) (well : WellFormed before)
    (proper : store.Proper) (boxed : Boxed before) : Boxed after := by
  intro sIndex used slot inside
  have same : after.snippetInfoIndex = before.snippetInfoIndex := by rw [stored.frame]
  rw [same] at used
  rcases (stored.inSnippet_iff well.layout).mp inside with old | ⟨rfl, rfl⟩
  · have box := boxed sIndex used slot old
    rw [stored.held well.layout used old, stored.snippets sIndex]
    split
    · next here =>
      subst here
      exact widen_keeps proper (well.slots _ used slot old).proper box
    · exact box
  · rw [stored.slots, if_pos rfl, stored.snippets, if_pos rfl]
    exact widen_encloses proper _ _

/-- A store is written behind all records of the array, and it is dirty. -/
theorem Stored.aged (stored : Stored store before after) (well : WellFormed before)
    (dirty : store.state ≠ .flushed) (aged : Aged before) : Aged after := by
  have same : after.snippetInfoIndex = before.snippetInfoIndex := by rw [stored.frame]
  constructor
  · intro sIndex used slot inside later used' slot' inside' less
    rw [same] at used used'
    rw [stored.tags, stored.tags]
    rcases (stored.inSnippet_iff well.layout).mp inside' with old' | ⟨rfl, rfl⟩
    · have below := Nat.lt_of_lt_of_le old'.2 (well.layout.bounded used')
      rcases (stored.inSnippet_iff well.layout).mp inside with old | ⟨_, rfl⟩
      · rw [stored.held well.layout used old, stored.held well.layout used' old']
        exact aged.slots sIndex used slot old later used' slot' old' less
      · exact absurd below (Nat.not_lt.mpr less)
    · have new : settle (before.snippetInfo before.snippetInfoIndex).flushedNum store = store :=
        settle_of_ne (by rw [well.current_tag]; simp) store
      rw [stored.slots before.current.index, if_pos rfl, new]
      intro byte _ _ isFlushed
      exact absurd isFlushed dirty
  · rw [stored.frame]
    exact aged.stores

/-- An empty array has no record outside a box. -/
theorem FenceEffect.unused (effect : FenceEffect before after) {sIndex slot : Nat}
    (used : sIndex ≤ after.snippetInfoIndex) : ¬ InSnippet after sIndex slot := by
  intro inside
  rw [effect.frame] at used
  have first : sIndex = 0 := Nat.le_zero.mp used
  unfold InSnippet at inside
  rw [first, effect.emptied] at inside
  exact absurd inside.2 (Nat.not_lt.mpr (Nat.zero_le _))

/-- After a fence no slot is in use. -/
theorem FenceEffect.boxed (effect : FenceEffect before after) : Boxed after :=
  fun _ used _ inside => absurd inside (effect.unused used)

/-- A fence leaves dirty records only. -/
theorem FenceEffect.aged (effect : FenceEffect before after) : Aged after := by
  constructor
  · intro sIndex used slot inside
    exact absurd inside (effect.unused used)
  · intro first _ second member byte _ _ isFlushed
    obtain ⟨old, isOld, same⟩ := effect.live.left second (mem_live.mpr (.inr member))
    have dirty := (List.mem_filter.mp isOld).2
    rw [same.sameRange.state] at isFlushed
    exact absurd isFlushed (by simpa using dirty)

/-- Array and boxes are as before. -/
theorem SameTracking.boxed (same : SameTracking before after) (boxed : Boxed before) :
    Boxed after := by
  unfold Boxed InSnippet
  rw [same.slots, same.snippetInfo, same.snippetInfoIndex]
  exact boxed

/-- Array and tree are as before. -/
theorem SameTracking.aged (same : SameTracking before after) (aged : Aged before) : Aged after := by
  constructor
  · unfold InSnippet
    rw [same.slots, same.snippetInfo, same.snippetInfoIndex]
    exact aged.slots
  · rw [same.pmemStores]
    exact aged.stores

end Steps

/-- The tracker agrees with the byte-level machine on every byte. A byte is dirty as soon as
one of its records is. -/
structure Exact (pmem : PmemOps) (memory : Memory Nat) : Prop where
  dirty : ∀ byte, memory byte = .dirty ↔
    ∃ store ∈ pmem.live, store.state ≠ .flushed ∧ store.Covers byte
  flushed : ∀ byte, memory byte = .flushed ↔ (∃ store ∈ pmem.live, store.Covers byte) ∧
    ¬ ∃ store ∈ pmem.live, store.state ≠ .flushed ∧ store.Covers byte
  clean : ∀ byte, memory byte = .clean ↔ ¬ ∃ store ∈ pmem.live, store.Covers byte

/-- Missing nothing and inventing nothing determines every byte. -/
theorem exact_of_both {pmem : PmemOps} {memory : Memory Nat} (missed : NothingMissed pmem memory)
    (invented : NothingInvented pmem memory) : Exact pmem memory := by
  have dirty (byte : Nat) : memory byte = .dirty ↔
      ∃ store ∈ pmem.live, store.state ≠ .flushed ∧ store.Covers byte :=
    ⟨missed.dirty byte, fun ⟨store, member, isDirty, inside⟩ =>
      invented.dirty store member isDirty byte inside⟩
  have pending (byte : Nat) : memory byte ≠ .clean ↔ ∃ store ∈ pmem.live, store.Covers byte :=
    ⟨missed.pending byte, invented.pending byte⟩
  refine ⟨dirty, fun byte => ?_, fun byte => ?_⟩
  · rw [← pending byte, ← dirty byte]
    cases memory byte <;> simp
  · rw [← pending byte, not_not]

/-- A flush takes records whole. Other requests are always fine. -/
def FlushesWhole (tool : Tool) : PmemRequest → Prop
  | .flush _ base size => TakesWhole (flushRange tool base size) tool.pmem
  | _ => True

instance (tool : Tool) : (request : PmemRequest) → Decidable (FlushesWhole tool request)
  | .flush _ base size => inferInstanceAs (Decidable (TakesWhole (flushRange tool base size) _))
  | .store _ _ _ _ _ | .fence | .registerMapping _ _ | .orderGuarantee _ _ _ _ | .fenceMark _
  | .epochBegin | .epochEnd _ | .newStrand _ _ => .isTrue trivial

/-- The tracker along a run of flushes that take records whole, beside the byte-level machine:
nothing is missed, and nothing is invented. -/
structure WholeExact (opts : Options) (flushAlignSize : Nat) (tool : Tool) (memory : Memory Nat) :
    Prop where
  ready : Ready opts flushAlignSize tool
  boxed : Boxed tool.pmem
  aged : Aged tool.pmem
  missed : NothingMissed tool.pmem memory
  invented : NothingInvented tool.pmem memory

section Runs

variable {opts : Options} {flushAlignSize : Nat} {tool : Tool} {memory : Memory Nat}
  {request : PmemRequest}

/-- One step keeps the records in their boxes. -/
theorem step_boxed (admissible : Admissible tool request) (ready : Ready opts flushAlignSize tool)
    (whole : FlushesWhole tool request) (boxed : Boxed tool.pmem) :
    Boxed (tool.step request).pmem := by
  have well := ready.wellFormed
  rcases step_pmem admissible with ⟨_, context, addr, size, value, rfl, proper, stored⟩ |
    ⟨context, base, size, rfl, range, flushed⟩ | ⟨rfl, fenced⟩ | ⟨_, _, rfl, same, _⟩
  · rw [stored]
    exact (trackStore_exact addr size value context well.single admissible.1).1.boxed well
      (writeStore_pending value context _ proper).proper boxed
  · obtain ⟨register, array, tree, wellChecked, parts⟩ := doFlush_flushed well context tool.strandId
      range (by rw [← doFlush_opts base size context tool.strandId]; exact admissible.2.1)
    rw [flushed]
    exact parts.boxed wellChecked range boxed whole
  · rw [fenced]
    exact (doFence_effect well).boxed
  · exact same.boxed boxed

/-- One step keeps the records in order. -/
theorem step_aged (admissible : Admissible tool request) (ready : Ready opts flushAlignSize tool)
    (whole : FlushesWhole tool request) (boxed : Boxed tool.pmem) (aged : Aged tool.pmem) :
    Aged (tool.step request).pmem := by
  have well := ready.wellFormed
  rcases step_pmem admissible with ⟨_, context, addr, size, value, rfl, proper, stored⟩ |
    ⟨context, base, size, rfl, range, flushed⟩ | ⟨rfl, fenced⟩ | ⟨_, _, rfl, same, _⟩
  · rw [stored]
    exact (trackStore_exact addr size value context well.single admissible.1).1.aged well
      (by simp [writeStore]) aged
  · obtain ⟨register, array, tree, wellChecked, parts⟩ := doFlush_flushed well context tool.strandId
      range (by rw [← doFlush_opts base size context tool.strandId]; exact admissible.2.1)
    rw [flushed]
    exact parts.aged wellChecked range boxed whole ⟨aged.slots, aged.stores⟩
  · rw [fenced]
    exact (doFence_effect well).aged
  · exact same.aged aged

/-- One step of both machines. -/
theorem step_wholeExact (exact : WholeExact opts flushAlignSize tool memory)
    (admissible : Admissible tool request) (whole : FlushesWhole tool request) :
    WholeExact opts flushAlignSize (tool.step request)
      (referenceStep opts flushAlignSize memory request) := by
  have well := exact.ready.wellFormed
  have safe : FlushesSafely tool request := by
    cases request with
    | flush context base size => exact tagsSafely_of_whole well exact.boxed whole
    | _ => exact trivial
  have dirty : FlushesDirty tool request := by
    cases request with
    | flush context base size => exact reachesDirty_of_boxed well admissible.2.2 exact.boxed
    | _ => exact trivial
  exact ⟨step_ready admissible exact.ready, step_boxed admissible exact.ready whole exact.boxed,
    step_aged admissible exact.ready whole exact.boxed exact.aged,
    step_missed admissible exact.ready safe exact.missed,
    step_invented admissible exact.ready dirty exact.invented⟩

/-- At the start nothing is tracked. -/
theorem initTool_wholeExact (defaults : DefaultTracking opts)
    (transactionsOnly redundantLogging : Bool)
    (cacheLineSize : Nat) (slots : Nat → PmemSt) : WholeExact opts cacheLineSize
      (initTool opts transactionsOnly redundantLogging cacheLineSize slots) Memory.clean where
  ready := initTool_ready defaults transactionsOnly redundantLogging cacheLineSize slots
  boxed := fun _ _ _ inside => absurd inside.2 (Nat.not_lt.mpr (Nat.zero_le _))
  aged := by
    constructor
    · exact fun _ _ _ inside => absurd inside.2 (Nat.not_lt.mpr (Nat.zero_le _))
    · intro first member
      exact absurd member List.not_mem_nil
  missed := (initTool_complete defaults transactionsOnly redundantLogging cacheLineSize
    slots).missed
  invented := (initTool_faithful defaults transactionsOnly redundantLogging cacheLineSize
    slots).invented

/-- The whole run. -/
theorem run_wholeExact (defaults : DefaultTracking opts) (transactionsOnly redundantLogging : Bool)
    (cacheLineSize : Nat) (slots : Nat → PmemSt) (requests : List PmemRequest)
    (admitted : Runs.AllSteps Tool.step
      (fun tool request => Admissible tool request ∧ FlushesWhole tool request)
      (initTool opts transactionsOnly redundantLogging cacheLineSize slots) requests) :
    WholeExact opts cacheLineSize (requests.foldl Tool.step
        (initTool opts transactionsOnly redundantLogging cacheLineSize slots))
      (requests.foldl (referenceStep opts cacheLineSize) Memory.clean) := by
  apply Runs.simulation _ _ _ requests
    (initTool_wholeExact defaults transactionsOnly redundantLogging cacheLineSize slots) admitted
  intro tool memory request exact step
  exact step_wholeExact exact step.1 step.2

end Runs

end PmDebugger
