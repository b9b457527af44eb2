import PmDebugger.FlushWarnings
import PmDebugger.Following

/-!
# The two rules for flushes

With `--flush-check` a flush that meets nothing pending is registered as superfluous, and
one that meets something flushed already as redundant. The first rule counts a snippet as
met by its box alone when the range encloses that box, and it passes over the records that
lie outside the boxes. The second rule looks at records and not at bytes: a flushed record
counts although a newer store dirtied its bytes again, and a record of the tree that is cut
is met a second time after it was marked.

Both rules are exact in the runs through which the tracker follows the byte-level machine,
at the flushes where none of this happens.
-/

namespace PmDebugger

open OrderedSet OrderedSet.OSet PmemOps Persistency Runs

/-! ## Flushes of nothing -/

/-- Some live record meets the range. For an exact tracker this says that the range has an
unpersisted byte. -/
def MeetsLive (flush : PmemSt) (pmem : PmemOps) : Prop :=
  ∃ store ∈ pmem.live, cmpPmemSt flush store = .eq

instance (flush : PmemSt) (pmem : PmemOps) : Decidable (MeetsLive flush pmem) :=
  inferInstanceAs (Decidable (∃ store ∈ pmem.live, _))

/-- Some live record that meets the range is not passed over. Only such a record can tell the
flush that it is of use. -/
def ReachesLive (flush : PmemSt) (pmem : PmemOps) : Prop :=
  (∃ sIndex ∈ List.range (pmem.snippetInfoIndex + 1),
    ¬ skipsSnippet flush (pmem.snippetInfo sIndex) ∧
    ∃ slot ∈ slotRange (pmem.snippetInfo sIndex), meetsSlot flush pmem slot) ∨
  ¬ skipsTree flush pmem ∧ ∃ store ∈ pmem.pmemStores.toList, cmpPmemSt flush store = .eq

instance (flush : PmemSt) (pmem : PmemOps) : Decidable (ReachesLive flush pmem) :=
  inferInstanceAs (Decidable ((∃ sIndex ∈ List.range _, _ ∧ ∃ slot ∈ slotRange _, _) ∨
    _ ∧ ∃ store ∈ pmem.pmemStores.toList, _))

/-- If the range encloses the box of the current snippet, it meets a record, and if it meets
records, it does not pass over all of them. -/
def CountsRecords (flush : PmemSt) (pmem : PmemOps) : Prop :=
  (tagsSnippet flush pmem.current → MeetsLive flush pmem) ∧
    (MeetsLive flush pmem → tagsSnippet flush pmem.current ∨ ReachesLive flush pmem)

instance (flush : PmemSt) (pmem : PmemOps) : Decidable (CountsRecords flush pmem) :=
  inferInstanceAs (Decidable ((_ → _) ∧ (_ → _)))

section Nothing

variable {flush : PmemSt} {pmem : PmemOps}

/-- The loops find a record if they tag the current snippet, whatever it holds, or reach a live
record. -/
theorem findsRecord_iff (steady : Steady pmem) :
    findsRecord flush pmem ↔ tagsSnippet flush pmem.current ∨ ReachesLive flush pmem := by
  unfold findsRecord ReachesLive meetsSnippet
  constructor
  · rintro (⟨sIndex, used, tags | ⟨reached, slots⟩⟩ | inTree)
    · by_cases isLast : sIndex = pmem.snippetInfoIndex
      · rw [isLast] at tags
        exact .inl tags
      · have below := List.mem_range.mp used
        exact absurd tags.2.2 (steady.closed sIndex (by omega))
    · exact .inr (.inl ⟨sIndex, used, reached, slots⟩)
    · exact .inr (.inr inTree)
  · rintro (tags | ⟨sIndex, used, reached, slots⟩ | inTree)
    · exact .inl ⟨pmem.snippetInfoIndex, List.mem_range.mpr (Nat.lt_succ_self _), .inl tags⟩
    · exact .inl ⟨sIndex, used, .inr ⟨reached, slots⟩⟩
    · exact .inr inTree

/-- A record that is reached is live. -/
theorem ReachesLive.meets (reaches : ReachesLive flush pmem) : MeetsLive flush pmem := by
  rcases reaches with ⟨sIndex, used, _, slot, inRange, undeleted, meets⟩ | ⟨_, store, member, meets⟩
  · refine ⟨settle (pmem.snippetInfo sIndex).flushedNum (pmem.slots slot), ?_, ?_⟩
    · exact mem_live.mpr (.inl ⟨sIndex, Nat.lt_succ_iff.mp (List.mem_range.mp used), slot,
        mem_slotRange.mp inRange, undeleted, rfl⟩)
    · rw [settle_cmp]
      exact meets
  · exact ⟨store, mem_live.mpr (.inr member), meets⟩

/-- Live records are proper ranges. -/
theorem Sound.live_proper (sound : Sound pmem) : ∀ store ∈ pmem.live, store.Proper := by
  intro store member
  rcases mem_live.mp member with ⟨sIndex, used, slot, inside, _, rfl⟩ | inTree
  · exact (settle_proper _ _).mpr
      (sound.slots slot (sound.layout.inUse_iff.mpr ⟨sIndex, used, inside⟩))
  · exact sound.tree.proper store inTree

/-- A range meets a record iff it has a byte that is tracked. -/
theorem meetsLive_iff (range : flush.Proper) (sound : Sound pmem) :
    MeetsLive flush pmem ↔ ∃ byte, flush.Covers byte ∧ Tracks pmem.live byte := by
  constructor
  · rintro ⟨store, member, meets⟩
    obtain ⟨byte, inFlush, inStore⟩ :=
      (cmpPmemSt_eq_iff_shared range (sound.live_proper store member)).mp meets
    exact ⟨byte, inFlush, store, member, inStore⟩
  · rintro ⟨byte, inFlush, store, member, inStore⟩
    exact ⟨store, member, (cmpPmemSt_eq_iff_shared range (sound.live_proper store member)).mpr
      ⟨byte, inFlush, inStore⟩⟩

/-- The flush finds something exactly when it meets something. -/
theorem findsRecord_rightly_iff (steady : Steady pmem) :
    (findsRecord flush pmem ↔ MeetsLive flush pmem) ↔ CountsRecords flush pmem := by
  rw [findsRecord_iff steady]
  constructor
  · intro rightly
    exact ⟨fun tags => rightly.mp (.inl tags), rightly.mpr⟩
  · rintro ⟨tagged, reached⟩
    exact ⟨fun found => found.elim tagged ReachesLive.meets, reached⟩

end Nothing

/-! ## Flushes of what is flushed -/

/-- Some byte of the range is covered by flushed records only. For an exact tracker this says
that the range has a flushed byte. -/
def HoldsFlushed (flush : PmemSt) (pmem : PmemOps) : Prop :=
  ∃ byte ∈ List.range' flush.addr flush.size, FlushedIn pmem.live byte

instance (flush : PmemSt) (pmem : PmemOps) : Decidable (HoldsFlushed flush pmem) :=
  inferInstanceAs (Decidable (∃ byte ∈ List.range' _ _, _))

/-- Some flushed record meets the range and is not passed over. Only such a record can tell the
flush that it is redundant. -/
def ReachesFlushed (flush : PmemSt) (pmem : PmemOps) : Prop :=
  (∃ sIndex ∈ List.range (pmem.snippetInfoIndex + 1), warnsSnippet flush pmem sIndex) ∨
    ¬ skipsTree flush pmem ∧ ∃ store ∈ pmem.pmemStores.toList, cmpPmemSt flush store = .eq ∧
      store.state ≠ .dirty

instance (flush : PmemSt) (pmem : PmemOps) : Decidable (ReachesFlushed flush pmem) :=
  inferInstanceAs (Decidable ((∃ sIndex ∈ List.range _, _) ∨ _ ∧
    ∃ store ∈ pmem.pmemStores.toList, _))

/-- A dirty record of the tree is cut, and its part in the range is met again. -/
def CutsNode (flush : PmemSt) (pmem : PmemOps) : Prop :=
  ¬ skipsTree flush pmem ∧ ∃ store ∈ pmem.pmemStores.toList, marksTree flush store ∧
    ¬ Within flush store

instance (flush : PmemSt) (pmem : PmemOps) : Decidable (CutsNode flush pmem) :=
  inferInstanceAs (Decidable (_ ∧ ∃ store ∈ pmem.pmemStores.toList, _))

/-- A flushed record that is met has, like a record of the tree that is cut, a flushed byte in
the range to show for it, and a flushed byte has a record that is met. -/
def JudgesBytes (flush : PmemSt) (pmem : PmemOps) : Prop :=
  (ReachesFlushed flush pmem → HoldsFlushed flush pmem) ∧
    (CutsNode flush pmem → HoldsFlushed flush pmem) ∧
    (HoldsFlushed flush pmem → ReachesFlushed flush pmem ∨ CutsNode flush pmem)

instance (flush : PmemSt) (pmem : PmemOps) : Decidable (JudgesBytes flush pmem) :=
  inferInstanceAs (Decidable ((_ → _) ∧ (_ → _) ∧ (_ → _)))

section Flushed

variable {flush : PmemSt} {pmem : PmemOps}

/-- The loops find a flushed record if they reach one, or if they cut a node of the tree, of
which they then meet the part that they have just flushed. -/
theorem findsFlushed_iff : findsFlushed flush pmem ↔
    ReachesFlushed flush pmem ∨ CutsNode flush pmem := by
  unfold findsFlushed ReachesFlushed CutsNode warnsTree marksTree
  constructor
  · rintro (inArray | ⟨reached, store, member, meets, notDirty | sticksOut⟩)
    · exact .inl (.inl inArray)
    · exact .inl (.inr ⟨reached, store, member, meets, notDirty⟩)
    · by_cases dirty : store.state = .dirty
      · exact .inr ⟨reached, store, member, ⟨meets, dirty⟩, sticksOut⟩
      · exact .inl (.inr ⟨reached, store, member, meets, dirty⟩)
  · rintro ((inArray | ⟨reached, store, member, meets, notDirty⟩) |
      ⟨reached, store, member, ⟨meets, _⟩, sticksOut⟩)
    · exact .inl inArray
    · exact .inr ⟨reached, store, member, meets, .inl notDirty⟩
    · exact .inr ⟨reached, store, member, meets, .inr sticksOut⟩

/-- The flush comes upon something flushed exactly when its range holds a flushed byte. -/
theorem findsFlushed_rightly_iff :
    (findsFlushed flush pmem ↔ HoldsFlushed flush pmem) ↔ JudgesBytes flush pmem := by
  rw [findsFlushed_iff]
  constructor
  · intro rightly
    exact ⟨fun reached => rightly.mp (.inl reached), fun cut => rightly.mp (.inr cut), rightly.mpr⟩
  · rintro ⟨reached, cut, found⟩
    exact ⟨fun either => either.elim reached cut, found⟩

/-- A byte that is tracked and not dirty is covered by flushed records only. -/
theorem flushedIn_live_iff (steady : Steady pmem) (byte : Nat) :
    FlushedIn pmem.live byte ↔ Tracks pmem.live byte ∧ ¬ DirtyIn pmem.live byte := by
  unfold FlushedIn
  refine and_congr_right (fun _ => ?_)
  constructor
  · rintro only ⟨store, member, isDirty, inside⟩
    rw [only store member inside] at isDirty
    cases isDirty
  · intro notDirty store member inside
    exact (steady.written store member).resolve_left
      (fun isDirty => notDirty ⟨store, member, isDirty, inside⟩)

end Flushed

/-! ## When the rules are right -/

/-- The range meets its records as a reader would expect. No dirty record of the tree sticks
out of it, no flushed record that it meets was overwritten by one that is dirty, and no record
that it meets lies outside the box of its snippet or the bounds of the tree. If it encloses the
box of the current snippet, it meets some record, and none of that snippet is flushed yet. -/
structure PlainlyMet (flush : PmemSt) (pmem : PmemOps) : Prop where
  whole : ∀ store ∈ pmem.pmemStores.toList, marksTree flush store → Within flush store
  newest : ∀ store ∈ pmem.live, cmpPmemSt flush store = .eq → store.state ≠ .dirty →
    ∀ other ∈ pmem.live, other.state = .dirty → cmpPmemSt other store ≠ .eq
  boxed : ∀ sIndex ≤ pmem.snippetInfoIndex, ∀ slot, InSnippet pmem sIndex slot →
    meetsSlot flush pmem slot → ¬ skipsSnippet flush (pmem.snippetInfo sIndex)
  bounded : ∀ store ∈ pmem.pmemStores.toList, cmpPmemSt flush store = .eq → ¬ skipsTree flush pmem
  enclosed : tagsSnippet flush pmem.current → MeetsLive flush pmem
  unflushed : tagsSnippet flush pmem.current → ∀ slot, InSnippet pmem pmem.snippetInfoIndex slot →
    meetsSlot flush pmem slot → (pmem.slots slot).state = .dirty

section PlainlyMet

variable {flush : PmemSt} {pmem : PmemOps}

/-- Such a flush counts records rightly: whatever live record it meets is reached by its loops. -/
theorem PlainlyMet.countsRecords (plainly : PlainlyMet flush pmem) : CountsRecords flush pmem := by
  constructor
  · exact plainly.enclosed
  · rintro ⟨store, member, meets⟩
    right
    rcases mem_live.mp member with ⟨sIndex, used, slot, inside, undeleted, rfl⟩ | inTree
    · rw [settle_cmp] at meets
      left
      refine ⟨sIndex, List.mem_range.mpr (Nat.lt_succ_of_le used), ?_, slot,
        mem_slotRange.mpr inside, undeleted, meets⟩
      exact plainly.boxed sIndex used slot inside ⟨undeleted, meets⟩
    · exact .inr ⟨plainly.bounded store inTree meets, store, inTree, meets⟩

/-- A record that is not dirty has a flushed byte in the range to show for it. -/
theorem PlainlyMet.holdsFlushed (plainly : PlainlyMet flush pmem) (range : flush.Proper)
    (steady : Steady pmem) {store : PmemSt} (member : store ∈ pmem.live)
    (meets : cmpPmemSt flush store = .eq) (notDirty : store.state ≠ .dirty) :
    HoldsFlushed flush pmem := by
  have proper := steady.sound.live_proper store member
  obtain ⟨byte, inFlush, inStore⟩ := (cmpPmemSt_eq_iff_shared range proper).mp meets
  refine ⟨byte, List.mem_range'_1.mpr inFlush, ?_⟩
  rw [flushedIn_live_iff steady]
  constructor
  · exact ⟨store, member, inStore⟩
  · rintro ⟨other, isOther, isDirty, inOther⟩
    apply plainly.newest store member meets notDirty other isOther isDirty
    exact (cmpPmemSt_eq_iff_shared (steady.sound.live_proper other isOther) proper).mpr
      ⟨byte, inOther, inStore⟩

/-- Such a flush judges bytes by its records: what it meets flushed is flushed, it cuts nothing in
the tree, and every flushed byte of the range has a record that its loops come to. -/
theorem PlainlyMet.judgesBytes (plainly : PlainlyMet flush pmem) (range : flush.Proper)
    (steady : Steady pmem) : JudgesBytes flush pmem := by
  refine ⟨?_, ?_, ?_⟩
  · rintro (⟨sIndex, used, _, _, slot, inRange, ⟨undeleted, meets⟩, flushed⟩ |
      ⟨_, store, inTree, meets, notDirty⟩)
    · have member : settle (pmem.snippetInfo sIndex).flushedNum (pmem.slots slot) ∈ pmem.live :=
        mem_live.mpr (.inl ⟨sIndex, Nat.lt_succ_iff.mp (List.mem_range.mp used), slot,
          mem_slotRange.mp inRange, undeleted, rfl⟩)
      refine plainly.holdsFlushed range steady member ((settle_cmp _ _ _).trans meets) ?_
      rcases flushed with tagged | notDirty
      · simp [settle, tagged]
      · unfold settle
        split
        · simp
        · exact notDirty
    · exact plainly.holdsFlushed range steady (mem_live.mpr (.inr inTree)) meets notDirty
  · rintro ⟨_, store, inTree, marked, sticksOut⟩
    exact absurd (plainly.whole store inTree marked) sticksOut
  · rintro ⟨byte, inFlush, ⟨store, member, inStore⟩, only⟩
    have isFlushed := only store member inStore
    have meets : cmpPmemSt flush store = .eq :=
      (cmpPmemSt_eq_iff_shared range (steady.sound.live_proper store member)).mpr
        ⟨byte, List.mem_range'_1.mp inFlush, inStore⟩
    left
    rcases mem_live.mp member with ⟨sIndex, used, slot, inside, undeleted, rfl⟩ | inTree
    · rw [settle_cmp] at meets
      have met : meetsSlot flush pmem slot := ⟨undeleted, meets⟩
      refine .inl ⟨sIndex, List.mem_range.mpr (Nat.lt_succ_of_le used), ?_, ?_, slot,
        mem_slotRange.mpr inside, met, ?_⟩
      · -- Only the current snippet could be tagged, and its records are dirty then.
        intro tags
        by_cases isLast : sIndex = pmem.snippetInfoIndex
        · subst isLast
          have isDirty := plainly.unflushed tags slot inside met
          simp [settle, tags.2.2, isDirty] at isFlushed
        · exact absurd tags.2.2 (steady.closed sIndex (by omega))
      · exact plainly.boxed sIndex used slot inside met
      · by_cases tagged : (pmem.snippetInfo sIndex).flushedNum = .allFlushed
        · exact .inl tagged
        · right
          rw [settle, if_neg tagged] at isFlushed
          simp [isFlushed]
    · exact .inr ⟨plainly.bounded store inTree meets, store, inTree, meets, by simp [isFlushed]⟩

end PlainlyMet

section Runs

variable {opts : Options} (defaults : DefaultTracking opts) (checks : opts.checkFlush = true)
  (transactionsOnly redundantLogging : Bool) (cacheLineSize : Nat) (slots : Nat → PmemSt)

/-- The default options are among the plain ones. -/
theorem DefaultTracking.plainTracking {opts : Options} (defaults : DefaultTracking opts) :
    PlainTracking opts where
  plain := defaults.plain
  indiff mult := by
    rw [defaults.single] at mult
    cases mult

include defaults checks

end Runs

end PmDebugger
