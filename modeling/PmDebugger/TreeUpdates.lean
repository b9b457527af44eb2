import PmDebugger.TreeIntegrity

/-!
# The loops over the tree

Every loop of the tracker that touches the tree keeps its order and fails no insertion,
whatever the order of the tree and wherever the walk stands. Overwriting loses the bytes
of the new store and keeps the states; a flush loses nothing and turns states only within
its range; entering a record adds its bytes.

The one insertion that is not among these is the one that `handle_with_mult_stores` makes
for an array record. It is described with the array.
-/

namespace PmDebugger

open OrderedSet OrderedSet.OSet PmemOps Carving

/-! ## Overwriting -/

/-- A part has the state of its source, at every byte. -/
def SameState (_ : Nat) (source part : PmemSt) : Prop := part.state = source.state

/-- To have the same state is a likeness. -/
theorem sameState_likeness : Likeness SameState where
  refl _ _ := rfl
  trans _ _ _ _ first second := Eq.trans second first

/-- A part has the state of its source, and where the new store lies it is the source. -/
def OverwriteLike (store : PmemSt) (byte : Nat) (source part : PmemSt) : Prop :=
  part.state = source.state ∧ (store.Covers byte → part = source)

/-- What a store leaves of a record is a likeness: parts of parts are parts. -/
theorem overwriteLike_likeness (store : PmemSt) : Likeness (OverwriteLike store) where
  refl _ _ := ⟨rfl, fun _ => rfl⟩
  trans _ _ _ _ first second :=
    ⟨second.1.trans first.1, fun inside => (second.2 inside).trans (first.2 inside)⟩

/-- What `split_stores` leaves of a record that a new store overlaps. There may be a part in
its place and one behind the store, and no byte beside the store is lost. -/
structure SplitParts (store existing : PmemSt) (dbIndex : Nat) (result : SplitResult) : Prop where
  single : result.kept = none → result.after = none
  whole : result.kept = none → ∀ byte, existing.Covers byte → store.Covers byte
  trims : ∀ piece, result.kept = some piece → Trims existing piece ∧
    piece.index = existing.index ∧ piece.isDelete = existing.isDelete
  behind : ∀ piece, result.after = some piece → Trims existing piece ∧ piece.index = dbIndex
  clear : ∀ kept piece, result.kept = some kept → result.after = some piece → Clear kept piece
  carved : Carved PmemSt.Covers (OverwriteLike store) store.Covers [existing]
    (result.kept.toList ++ result.after.toList)

/-- A proper store splits every proper record that it overlaps. -/
theorem splitStores_parts {store existing : PmemSt} (proper : store.Proper)
    (record : existing.Proper) (dbIndex : Nat) (meets : cmpPmemSt existing store = .eq) :
    ∃ result, splitStores existing store dbIndex = some result ∧
      SplitParts store existing dbIndex result := by
  have symmetric : cmpPmemSt store existing = .eq := by
    rw [cmpPmemSt_eq_iff proper.nonWrapping record.nonWrapping]
    rw [cmpPmemSt_eq_iff record.nonWrapping proper.nonWrapping] at meets
    exact meets.symm
  obtain ⟨result, split, both, excised⟩ := splitStores_exact proper record dbIndex symmetric
  obtain ⟨keptMarks, behindMarks⟩ := splitStores_marks split
  have trims (piece : PmemSt) (member : piece ∈ result.kept.toList ++ result.after.toList) :
      Trims existing piece :=
    ⟨excised.ranges.proper piece member, (excised.within piece member).1,
      (excised.within piece member).2⟩
  have sameState (piece : PmemSt) (member : piece ∈ result.kept.toList ++ result.after.toList) :
      piece.state = existing.state := by
    rcases List.mem_append.mp member with isKept | isBehind
    · exact (keptMarks piece (Option.mem_toList.mp isKept)).2.1.state
    · exact (behindMarks piece (Option.mem_toList.mp isBehind)).2.state
  refine ⟨result, split, both, ?_, ?_, ?_, ?_, ?_⟩
  · intro none byte inside
    by_contra outside
    obtain ⟨piece, member, _⟩ := (excised.bytes byte).mpr ⟨inside, outside⟩
    simp [none, both none] at member
  · intro piece isKept
    obtain ⟨index, _, deleted⟩ := keptMarks piece isKept
    exact ⟨trims piece (by simp [isKept]), index, deleted⟩
  · intro piece isBehind
    exact ⟨trims piece (by simp [isBehind]), (behindMarks piece isBehind).1⟩
  · intro kept piece isKept isBehind
    have disjoint := excised.ranges.disjoint
    rw [isKept, isBehind] at disjoint
    simp only [Option.toList_some, List.singleton_append, List.pairwise_cons, List.mem_singleton,
      forall_eq] at disjoint
    exact .inl disjoint.1
  · constructor
    · intro part isPart
      refine ⟨existing, List.mem_singleton.mpr rfl, fun byte inside =>
        ⟨(trims part isPart).covers inside, sameState part isPart, fun taken => ?_⟩⟩
      exact absurd taken ((excised.bytes byte).mp ⟨part, isPart, inside⟩).2
    · intro source isSource byte inside needed
      rw [List.mem_singleton.mp isSource] at inside ⊢
      obtain ⟨part, member, covered⟩ := (excised.bytes byte).mpr ⟨inside, needed⟩
      exact ⟨part, member, covered, sameState part member, fun taken => absurd taken needed⟩

/-- The same-value branch changes the tree and the mark of the end. -/
theorem dropRewritten_frame (store : PmemSt) (position : Nat) (walked : OSet PmemSt)
    (pmem : PmemOps) :
    (pmem.dropRewritten store position walked).opts = pmem.opts ∧
      (pmem.dropRewritten store position walked).dbPmemStoreIndex = pmem.dbPmemStoreIndex := by
  simp only [dropRewritten]
  split
  · exact ⟨rfl, rfl⟩
  · exact ⟨rfl, rfl⟩

/-- The loop over the tree changes the tree, the counter and the register of overwrites. -/
theorem overwriteTree_frame (store : PmemSt) (fuel : Nat) (pmem : PmemOps) :
    overwriteTree store fuel pmem = { pmem with
      pmemStores := (overwriteTree store fuel pmem).pmemStores
      dbPmemStoreIndex := (overwriteTree store fuel pmem).dbPmemStoreIndex
      multipleStores := (overwriteTree store fuel pmem).multipleStores
      exited := (overwriteTree store fuel pmem).exited } := by
  induction fuel generalizing pmem with
  | zero => rfl
  | succ fuel inductionHypothesis =>
    simp only [overwriteTree]
    split
    · rfl
    · split
      · rw [inductionHypothesis]
      · split
        · rw [inductionHypothesis]
          simp only [dropRewritten]
          split <;> rfl
        · split
          · rfl
          · split <;> rw [inductionHypothesis] <;> rfl

/-- The new store writes a value of the tree again, within the window in which that is
ignored. In a tree that is ordered by index the record is then looked for under the index
of the new store. -/
def Rewrites (store : PmemSt) (pmem : PmemOps) : Prop :=
  pmem.opts.treeReorganization = false ∧
    ∃ record ∈ pmem.pmemStores.toList, pmem.isSameWrite store record = true

instance (store : PmemSt) (pmem : PmemOps) : Decidable (Rewrites store pmem) :=
  inferInstanceAs (Decidable (_ ∧ ∃ record ∈ pmem.pmemStores.toList, _))

/-- Overwriting does not bring about rewrites. -/
theorem rewrites_of_carved {store : PmemSt} (proper : store.Proper) {lost : Nat → Prop}
    {before after : PmemOps} (opts : after.opts = before.opts)
    (carved : Carved PmemSt.Covers (OverwriteLike store) lost before.pmemStores.toList
      after.pmemStores.toList) (rewrites : Rewrites store after) : Rewrites store before := by
  obtain ⟨plain, record, member, same⟩ := rewrites
  have covered : record.Covers store.addr ∧ store.Covers store.addr := by
    simp only [isSameWrite, decide_eq_true_eq] at same
    have size := proper.nonempty
    unfold PmemSt.Covers
    omega
  obtain ⟨source, isSource, like⟩ := carved.origin record member
  have unchanged := (like store.addr covered.1).2.2 covered.2
  rw [unchanged] at same
  unfold isSameWrite at same
  rw [opts] at same
  exact ⟨opts ▸ plain, source, isSource, same⟩

/-- The branch for a rewrite of the same value keeps the tree sound. Under the order by address
it takes the rewritten record itself, whose bytes the new store covers; under the order by index
it takes whatever has the index of the store. -/
theorem dropRewritten_kept {store existing : PmemSt} {lost : Nat → Prop} {pmem : PmemOps}
    (covers : ∀ byte, store.Covers byte → lost byte)
    (window : Rewrites store pmem → ∀ byte, lost byte)
    (sound : TreeSound pmem.opts pmem.dbPmemStoreIndex pmem.pmemStores)
    (member : existing ∈ pmem.pmemStores.toList) (same : pmem.isSameWrite store existing = true)
    (position : Nat) (iter : Option Nat) :
    TreeKept pmem.opts (OverwriteLike store) lost pmem.pmemStores pmem.dbPmemStoreIndex
      (pmem.dropRewritten store position { pmem.pmemStores with iter := iter }).pmemStores
      pmem.dbPmemStoreIndex := by
  have ahead : TreeSound pmem.opts pmem.dbPmemStoreIndex
      { pmem.pmemStores with iter := iter } := sound.congr rfl (Nat.le_refl _)
  have walkKept : TreeKept pmem.opts (OverwriteLike store) lost pmem.pmemStores
      pmem.dbPmemStoreIndex { pmem.pmemStores with iter := iter } pmem.dbPmemStoreIndex :=
    TreeKept.walked (overwriteLike_likeness store) sound rfl rfl
  have taken := TreeKept.take (overwriteLike_likeness store) ahead (treeCmp pmem.opts store)
    (fun foundStore searched byte inside => by
      cases mode : pmem.opts.treeReorganization with
      | false => exact window ⟨mode, existing, member, same⟩ byte
      | true =>
        simp only [isSameWrite, decide_eq_true_eq] at same
        have key : treeCmp pmem.opts store = treeCmp pmem.opts existing := by
          rw [treeCmp_ranges mode]
          funext record
          exact (cmpPmemSt_congr same.2.1.symm same.2.2.1.symm record).1
        rw [key, ahead.lookup_self member] at searched
        cases searched
        refine covers byte ?_
        unfold PmemSt.Covers at inside ⊢
        omega)
  have removed := walkKept.trans (overwriteLike_likeness store) taken
  simp only [dropRewritten]
  split
  · exact removed.congr rfl rfl (Nat.le_refl _)
  · exact removed.congr rfl rfl (Nat.le_refl _)

/-- Overwriting in the tree loses the bytes of the new store, and no others unless a rewrite of
the same value can be ignored.

Proof: by induction on the turns. Each turn keeps the tree, whichever branch it takes, and the
loop goes on from a sound tree; the losses of the turns are all among the given bytes. -/
theorem overwriteTree_kept {store : PmemSt} (proper : store.Proper) {lost : Nat → Prop}
    (covers : ∀ byte, store.Covers byte → lost byte) (fuel : Nat) (pmem : PmemOps)
    (window : Rewrites store pmem → ∀ byte, lost byte)
    (sound : TreeSound pmem.opts pmem.dbPmemStoreIndex pmem.pmemStores) :
    TreeKept pmem.opts (OverwriteLike store) lost pmem.pmemStores pmem.dbPmemStoreIndex
      (overwriteTree store fuel pmem).pmemStores
      (overwriteTree store fuel pmem).dbPmemStoreIndex := by
  induction fuel generalizing pmem with
  | zero => exact TreeKept.refl (overwriteLike_likeness store) sound
  | succ fuel inductionHypothesis =>
    -- Each turn is one step, after which the loop goes on from a sound tree.
    have step {next : PmemOps} (opts : next.opts = pmem.opts)
        (kept : TreeKept pmem.opts (OverwriteLike store) lost pmem.pmemStores pmem.dbPmemStoreIndex
          next.pmemStores next.dbPmemStoreIndex) :
        TreeKept pmem.opts (OverwriteLike store) lost pmem.pmemStores pmem.dbPmemStoreIndex
          (overwriteTree store fuel next).pmemStores
          (overwriteTree store fuel next).dbPmemStoreIndex := by
      have later := inductionHypothesis next
        (fun rewrites => window (rewrites_of_carved proper opts kept.carved rewrites))
        (opts ▸ kept.sound)
      rw [opts] at later
      exact kept.trans (overwriteLike_likeness store) later
    simp only [overwriteTree]
    cases found : pmem.pmemStores.next with
    | none => exact TreeKept.refl (overwriteLike_likeness store) sound
    | some result =>
      obtain ⟨position, existing, walked⟩ := result
      obtain ⟨done, rest, listed, rfl, rfl⟩ := next_listed found
      have member : existing ∈ pmem.pmemStores.toList := by simp [listed]
      have aheadListed : ({ pmem.pmemStores with iter := some (done.length + 1) } :
          OSet PmemSt).toList = done ++ existing :: rest := listed
      have ahead : TreeSound pmem.opts pmem.dbPmemStoreIndex
          { pmem.pmemStores with iter := some (done.length + 1) } :=
        sound.congr rfl (Nat.le_refl _)
      have walkKept : TreeKept pmem.opts (OverwriteLike store) lost pmem.pmemStores
          pmem.dbPmemStoreIndex
          { pmem.pmemStores with iter := some (done.length + 1) } pmem.dbPmemStoreIndex :=
        TreeKept.walked (overwriteLike_likeness store) sound rfl rfl
      simp only
      split
      · exact step rfl walkKept
      · next meets =>
        rw [not_not] at meets
        split
        · next same =>
          have dropped := dropRewritten_kept covers window sound member same done.length
            (some (done.length + 1))
          obtain ⟨sameOpts, sameIndex⟩ := dropRewritten_frame store done.length
            { pmem.pmemStores with iter := some (done.length + 1) } pmem
          refine step sameOpts ?_
          rw [sameIndex]
          exact dropped
        · obtain ⟨⟨kept, behind, overlap⟩, split, parts⟩ :=
            splitStores_parts proper (sound.proper existing member) pmem.dbPmemStoreIndex meets
          rw [split]
          cases kept with
          | none =>
            have taken := TreeKept.take (overwriteLike_likeness store) ahead
                (treeCmp pmem.opts existing) (fun foundStore searched byte inside => by
                rw [ahead.lookup_self member] at searched
                cases searched
                exact covers byte (parts.whole rfl byte inside))
            exact step rfl ((walkKept.trans (overwriteLike_likeness store) taken).congr rfl rfl
              (Nat.le_succ _))
          | some first =>
            obtain ⟨trims, sameIndex, _⟩ := parts.trims first rfl
            have edited := modifyAt_match aheadListed (fun _ => first)
            cases behind with
            | none =>
              have trimmed := TreeKept.exchange (overwriteLike_likeness store) member
                (sound.trim listed edited rfl trims sameIndex) (parts.carved.weaken covers)
              exact step rfl (trimmed.congr rfl rfl (Nat.le_succ _))
            | some second =>
              obtain ⟨trimsSecond, next⟩ := parts.behind second rfl
              have exchanged := TreeKept.exchange (overwriteLike_likeness store) member
                (sound.cut listed edited rfl trims sameIndex trimsSecond
                  (parts.clear first second rfl rfl) next) (parts.carved.weaken covers)
              exact step rfl (exchanged.congr rfl rfl (Nat.le_succ _))

/-! ## Entering -/

/-- The effect of entering a record, which may be merged with its neighbours. The tree then
holds the bytes of both, and the entry has the state of the record. -/
structure StoreEntered (store : PmemSt) (before after : PmemOps) (entry : PmemSt) : Prop where
  sound : TreeSound before.opts after.dbPmemStoreIndex after.pmemStores
  flag : after.pmemStores.duplicate = before.pmemStores.duplicate
  proper : entry.Proper
  state : entry.state = store.state
  members : ∀ elem ∈ after.pmemStores.toList, elem = entry ∨ ∃ old ∈ before.pmemStores.toList,
    elem.state = old.state ∧ ∀ byte, elem.Covers byte → old.Covers byte
  bytes : ∀ byte, Tracks after.pmemStores.toList byte ↔
    store.Covers byte ∨ Tracks before.pmemStores.toList byte

/-- A record with an unused index can be entered under either order. -/
theorem insertStore_entered {pmem : PmemOps} {store : PmemSt}
    (sound : TreeSound pmem.opts pmem.dbPmemStoreIndex pmem.pmemStores) (proper : store.Proper)
    (below : pmem.opts.treeReorganization = false → store.index < pmem.dbPmemStoreIndex)
    (unused : pmem.opts.treeReorganization = false →
      ∀ elem ∈ pmem.pmemStores.toList, elem.index ≠ store.index) :
    StoreEntered store pmem (pmem.insertStore store).1 (pmem.insertStore store).2 := by
  cases mode : pmem.opts.treeReorganization with
  | false =>
    have result : pmem.insertStore store = ({ pmem with
        pmemStores := pmem.pmemStores.insert (cmpPmemOwnSt store) store }, store) := by
      simp [insertStore, mode]
    obtain ⟨newSound, members, flag⟩ := sound.entered proper below unused
      (fun reorganised => by rw [mode] at reorganised; cases reorganised)
    rw [treeCmp_own mode] at newSound members flag
    rw [result]
    refine ⟨newSound, flag, proper, rfl, ?_, ?_⟩
    · intro elem member
      rcases (members elem).mp member with isNew | old
      · exact .inl isNew
      · exact .inr ⟨elem, old, rfl, fun _ inside => inside⟩
    · intro byte
      simp only [Tracks, members]
      constructor
      · rintro ⟨elem, rfl | old, inside⟩
        · exact .inl inside
        · exact .inr ⟨elem, old, inside⟩
      · rintro (inside | ⟨elem, old, inside⟩)
        · exact ⟨store, .inl rfl, inside⟩
        · exact ⟨elem, .inr old, inside⟩
  | true =>
    have result : pmem.insertStore store = pmem.addAndMergeStore store := by
      simp [insertStore, mode]
    have ranges := sound.disjoint mode
    obtain ⟨beside, bytes⟩ := makeRoom_exact pmem.opts.isIpMemsetMemcpy proper ranges
      pmem.dbPmemStoreIndex
    obtain ⟨marks, flag, parts⟩ := makeRoom_keeps pmem.opts.isIpMemsetMemcpy proper ranges
      pmem.dbPmemStoreIndex
    rw [result]
    unfold addAndMergeStore
    simp only
    generalize makeRoom pmem.opts.isIpMemsetMemcpy store pmem.pmemStores pmem.dbPmemStoreIndex =
      room at *
    obtain ⟨newRanges, newBytes⟩ := beside.ranges.insert beside.proper beside.clear
    obtain ⟨members, newFlag⟩ :=
      insert_fresh room.1 (beside.ranges.guides beside.proper) beside.clear
    refine ⟨⟨newRanges.proper, ?_, ?_, fun _ => newRanges⟩, newFlag.trans flag, beside.proper,
      marks.state, ?_, fun byte => (newBytes byte).trans (bytes byte)⟩
    · intro plain
      rw [mode] at plain
      cases plain
    · intro plain
      rw [mode] at plain
      cases plain
    · intro elem member
      rcases (members elem).mp member with isNew | old
      · exact .inl isNew
      · obtain ⟨source, isSource, same, covers⟩ := parts elem old
        exact .inr ⟨source, isSource, same.state, covers⟩

/-- A record that takes the next index can be entered. -/
theorem insertNext_entered {pmem : PmemOps} (store : PmemSt)
    (sound : TreeSound pmem.opts pmem.dbPmemStoreIndex pmem.pmemStores) (proper : store.Proper)
    (next : store.index = pmem.dbPmemStoreIndex) :
    StoreEntered store pmem
      ({ pmem with dbPmemStoreIndex := pmem.dbPmemStoreIndex + 1 }.insertStore store).1
      ({ pmem with dbPmemStoreIndex := pmem.dbPmemStoreIndex + 1 }.insertStore store).2 := by
  have raised : TreeSound pmem.opts (pmem.dbPmemStoreIndex + 1) pmem.pmemStores :=
    sound.congr rfl (Nat.le_succ _)
  have entered := insertStore_entered
    (show TreeSound ({ pmem with dbPmemStoreIndex := pmem.dbPmemStoreIndex + 1 } : PmemOps).opts
      _ _ from raised) proper (fun _ => by rw [next]; exact Nat.lt_succ_self _)
    (fun plain elem member same => by
      have := sound.fresh plain elem member
      omega)
  exact ⟨entered.sound, entered.flag, entered.proper, entered.state, entered.members,
    entered.bytes⟩

/-! ## Flushing -/

/-- A flush turns dirty records to flushed ones, and only within its range. A record that was
written never becomes clean. -/
structure FlushLike (flush : PmemSt) (byte : Nat) (source part : PmemSt) : Prop where
  dirty : part.state ≠ .flushed → source.state ≠ .flushed
  outside : ¬ flush.Covers byte → source.state ≠ .flushed → part.state ≠ .flushed
  written : source.state ≠ .clean → part.state ≠ .clean

/-- What a flush leaves of a record is a likeness. -/
theorem flushLike_likeness (flush : PmemSt) : Likeness (FlushLike flush) where
  refl _ _ := ⟨id, fun _ => id, id⟩
  trans _ _ _ _ first second :=
    ⟨fun dirty => first.dirty (second.dirty dirty),
      fun outside dirty => second.outside outside (first.outside outside dirty),
      fun written => second.written (first.written written)⟩

/-- A record that is cut along the flushed range. -/
theorem CutExact.carved {flush being kept : PmemSt} {pieces : List PmemSt}
    (cut : CutExact flush being kept pieces) (dirty : being.state = .dirty) :
    Carved PmemSt.Covers (FlushLike flush) (fun _ => False) [being] (kept :: pieces) where
  origin part member := by
    refine ⟨being, List.mem_singleton.mpr rfl, fun byte inside => ?_⟩
    rcases List.mem_cons.mp member with rfl | isPiece
    · obtain ⟨covered, flushed⟩ := (cut.kept_covers byte).mp inside
      exact ⟨covered, fun _ => by simp [dirty], fun outside => absurd flushed outside,
        fun _ => by simp [cut.kept_state]⟩
    · have covered := ((cut.pieces_cover byte).mp ⟨part, isPiece, inside⟩).1
      exact ⟨covered, fun _ => by simp [dirty], fun _ _ => by simp [cut.pieces_state part isPiece],
        fun _ => by simp [cut.pieces_state part isPiece]⟩
  kept source member byte inside _ := by
    rw [List.mem_singleton.mp member] at inside ⊢
    by_cases flushed : flush.Covers byte
    · exact ⟨kept, List.mem_cons_self, (cut.kept_covers byte).mpr ⟨inside, flushed⟩,
        fun _ => by simp [dirty], fun outside => absurd flushed outside,
        fun _ => by simp [cut.kept_state]⟩
    · obtain ⟨piece, isPiece, covered⟩ := (cut.pieces_cover byte).mpr ⟨inside, flushed⟩
      exact ⟨piece, List.mem_cons_of_mem _ isPiece, covered, fun _ => by simp [dirty],
        fun _ _ => by simp [cut.pieces_state piece isPiece],
        fun _ => by simp [cut.pieces_state piece isPiece]⟩

section Splits

variable {flush being : PmemSt} {pmem : PmemOps} {done rest : List PmemSt}

/-- The part that is flushed is a part of the record. -/
theorem flushedFront_trims (range : flush.Proper) (proper : being.Proper)
    (meets : cmpPmemSt flush being = .eq) : Trims being (flushedFront flush being) := by
  obtain ⟨start, finish, positive⟩ := flushedFront_exact range proper meets
  have fits := flushedFront_nonWrapping range proper meets
  exact ⟨⟨positive, fits⟩, by omega, Nat.le_of_eq finish⟩

/-- It is flushed. -/
theorem flushedFront_flushed (flush being : PmemSt) :
    (flushedFront flush being).state = .flushed := by
  unfold flushedFront cutFront
  simp only
  split <;> rfl

/-- The tree with the record under the walk marked as flushed. Its range is not cut. -/
def markAt (position : Nat) (being : PmemSt) (pmem : PmemOps) : PmemOps :=
  { pmem with
    pmemStores := pmem.pmemStores.modifyAt position (fun _ => { being with state := .flushed }) }

/-- Marking the record under the walk and cutting its front. -/
theorem splitFrontTree_exchanged (range : flush.Proper) (proper : being.Proper)
    (meets : cmpPmemSt flush being = .eq)
    (sound : TreeSound pmem.opts pmem.dbPmemStoreIndex pmem.pmemStores)
    (listed : pmem.pmemStores.toList = done ++ being :: rest) :
    let flushed := { being with state := .flushed }
    let cut := (markAt done.length being pmem).splitFrontTree flush flushed done.length
    cut.2 = flushedFront flush being ∧ cut.1.opts = pmem.opts ∧
      ∃ added, Paired SameRecord added
          (if being.addr < flush.addr then [frontSplit flush flushed] else []) ∧
        added.length ≤ 1 ∧ TreeExchanged pmem.opts being (flushedFront flush being :: added)
          pmem.pmemStores pmem.dbPmemStoreIndex cut.1.pmemStores cut.1.dbPmemStoreIndex := by
  have trims := flushedFront_trims range proper meets
  have marked := modifyAt_match listed (fun _ => { being with state := .flushed })
  have index := flushedFront_index flush being
  by_cases sticksOut : being.addr < flush.addr
  · have front : flushedFront flush being = cutFront flush { being with state := .flushed } :=
      if_pos sticksOut
    obtain ⟨start, finish, positive⟩ := flushedFront_exact range proper meets
    let piece : PmemSt := { frontSplit flush { being with state := .flushed } with
      index := pmem.dbPmemStoreIndex }
    have addr : piece.addr = being.addr := rfl
    have size : piece.size = flush.addr - being.addr :=
      Word64.sub_eq (show being.addr ≤ flush.addr by omega)
    have fits := proper.nonWrapping
    unfold PmemSt.NonWrapping at fits
    have trimsPiece : Trims being piece := by
      refine ⟨?_, ?_, ?_⟩
      · rw [proper_iff]
        omega
      · omega
      · omega
    have clear : Clear (flushedFront flush being) piece := by
      right
      omega
    have edited := modifyAt_match marked (fun _ => cutFront flush { being with state := .flushed })
    rw [← front] at edited
    have exchanged := sound.cut listed edited rfl trims index trimsPiece clear rfl
    simp only [splitFrontTree, if_pos sticksOut]
    refine ⟨front.symm, rfl, [piece], Paired.single rfl, Nat.le_refl 1, ?_⟩
    rw [front] at exchanged ⊢
    exact exchanged.congr rfl rfl (Nat.le_refl _)
  · have whole : flushedFront flush being = { being with state := .flushed } := if_neg sticksOut
    simp only [splitFrontTree, if_neg sticksOut]
    refine ⟨whole.symm, rfl, [], Paired.nil, Nat.zero_le 1, ?_⟩
    rw [whole] at trims index ⊢
    exact sound.trim listed marked rfl trims index

/-- Cutting the back of a record through its own key. -/
theorem splitBackTree_exchanged {front : PmemSt} (range : flush.Proper)
    (sound : TreeSound pmem.opts pmem.dbPmemStoreIndex pmem.pmemStores)
    (member : front ∈ pmem.pmemStores.toList) (starts : front.addr < flush.addr + flush.size)
      (sticksOut : front.maxAddr > flush.maxAddr) :
    TreeExchanged pmem.opts front
      [cutBack flush front, backNode flush front pmem.dbPmemStoreIndex] pmem.pmemStores
      pmem.dbPmemStoreIndex (pmem.splitBackTree flush front).pmemStores
      (pmem.splitBackTree flush front).dbPmemStoreIndex := by
  obtain ⟨before, after, listed, edited⟩ := update_found (sound.lookup_self member)
  have frontProper := sound.proper front member
  have frontMax := frontProper.nonWrapping.maxAddr_eq
  have flushMax := range.nonWrapping.maxAddr_eq
  have fits := frontProper.nonWrapping
  unfold PmemSt.NonWrapping at fits
  have excess : Word64.sub front.maxAddr flush.maxAddr =
      front.addr + front.size - (flush.addr + flush.size) := by
    rw [frontMax, flushMax]
    exact Word64.sub_eq (by omega)
  have keptSize : (cutBack flush front).size = flush.addr + flush.size - front.addr := by
    simp only [cutBack, excess]
    rw [Word64.sub_eq (by omega)]
    omega
  have keptAddr : (cutBack flush front).addr = front.addr := rfl
  have backAddr : (backNode flush front pmem.dbPmemStoreIndex).addr = flush.addr + flush.size :=
    flushMax
  have backSize : (backNode flush front pmem.dbPmemStoreIndex).size =
      front.addr + front.size - (flush.addr + flush.size) := excess
  have trims : Trims front (cutBack flush front) := by
    refine ⟨?_, ?_, ?_⟩
    · rw [proper_iff]
      omega
    · omega
    · omega
  have trimsBack : Trims front (backNode flush front pmem.dbPmemStoreIndex) := by
    refine ⟨?_, ?_, ?_⟩
    · rw [proper_iff]
      omega
    · omega
    · omega
  have clear : Clear (cutBack flush front) (backNode flush front pmem.dbPmemStoreIndex) := by
    left
    omega
  have exchanged := sound.cut listed (edited (fun _ => cutBack flush front))
    (update_duplicate _ _ _) trims rfl trimsBack clear rfl
  simp only [splitBackTree, if_pos sticksOut]
  exact exchanged.congr rfl rfl (Nat.le_refl _)

/-- The two cuts together exchange the record for its flushed part and the pieces outside
the range. -/
theorem splitsTree_exchanged (range : flush.Proper) (proper : being.Proper)
    (meets : cmpPmemSt flush being = .eq) (dirty : being.state = .dirty)
    (sound : TreeSound pmem.opts pmem.dbPmemStoreIndex pmem.pmemStores)
    (listed : pmem.pmemStores.toList = done ++ being :: rest) :
    let flushed := { being with state := .flushed }
    let cut := (markAt done.length being pmem).splitFrontTree flush flushed done.length
    (cut.1.splitBackTree flush cut.2).opts = pmem.opts ∧
      ∃ added, Paired SameRecord added (treeCutPieces flush being) ∧ added.length ≤ 2 ∧
        TreeExchanged pmem.opts being (flushedPart flush being :: added) pmem.pmemStores
          pmem.dbPmemStoreIndex (cut.1.splitBackTree flush cut.2).pmemStores
          (cut.1.splitBackTree flush cut.2).dbPmemStoreIndex := by
  obtain ⟨isFront, opts, added, pairs, few, exchanged⟩ :=
    splitFrontTree_exchanged range proper meets sound listed
  simp only
  generalize (markAt done.length being pmem).splitFrontTree flush
    { being with state := .flushed } done.length = cut at *
  rw [isFront]
  unfold flushedPart treeCutPieces
  by_cases sticksOut : (flushedFront flush being).maxAddr > flush.maxAddr
  · have trims := flushedFront_trims range proper meets
    obtain ⟨start, finish, _⟩ := flushedFront_exact range proper meets
    have overlap := (cmpPmemSt_eq_iff range.nonWrapping proper.nonWrapping).mp meets
    have size := range.nonempty
    have back := splitBackTree_exchanged range (opts ▸ exchanged.sound)
      ((exchanged.members _).mpr (.inl List.mem_cons_self)) (by omega) sticksOut
    rw [opts] at back
    have differs : flushedFront flush being ≠ being := by
      intro same
      have flushed := flushedFront_flushed flush being
      rw [same, dirty] at flushed
      cases flushed
    have apart : flushedFront flush being ∉ added := by
      intro isAdded
      obtain ⟨piece, isPiece, same⟩ := pairs.left _ isAdded
      have flushed := flushedFront_flushed flush being
      rw [same] at flushed
      split at isPiece
      · rw [List.mem_singleton.mp isPiece] at flushed
        cases flushed
      · simp at isPiece
    have index := flushedFront_index flush being
    have whole := exchanged.further back index apart
      (sound.unlisted (by simp [listed]) trims index differs)
    simp only [if_pos sticksOut]
    refine ⟨?_, added ++ [backNode flush (flushedFront flush being) cut.1.dbPmemStoreIndex],
      pairs.append (Paired.single rfl), ?_, ?_⟩
    · simp only [splitBackTree, if_pos sticksOut]
      exact opts
    · rw [List.length_append]
      exact Nat.add_le_add_right few 1
    · refine ⟨whole.sound, whole.flag, fun store => ?_, whole.grown, fun part member => ?_⟩
      · rw [whole.members store]
        simp only [List.mem_append, List.mem_cons, List.not_mem_nil, or_false]
        tauto
      · refine whole.indices part ?_
        simp only [List.mem_append, List.mem_cons, List.not_mem_nil, or_false] at member ⊢
        tauto
  · have same : cut.1.splitBackTree flush (flushedFront flush being) = cut.1 := if_neg sticksOut
    simp only [if_neg sticksOut, List.append_nil, same]
    exact ⟨opts, added, pairs, Nat.le_succ_of_le few, exchanged⟩

end Splits

/-- Pieces that are the same up to their index are cut just as exactly. -/
theorem CutExact.of_paired {flush being kept : PmemSt} {pieces added : List PmemSt}
    (cut : CutExact flush being kept pieces) (pairs : Paired SameRecord added pieces) :
    CutExact flush being kept added where
  kept_covers := cut.kept_covers
  pieces_cover byte := by
    rw [← cut.pieces_cover byte]
    constructor
    · rintro ⟨piece, member, inside⟩
      obtain ⟨other, isOther, same⟩ := pairs.left piece member
      exact ⟨other, isOther, (same.covers byte).mp inside⟩
    · rintro ⟨other, isOther, inside⟩
      obtain ⟨piece, member, same⟩ := pairs.right other isOther
      exact ⟨piece, member, (same.covers byte).mpr inside⟩
  kept_proper := cut.kept_proper
  pieces_proper piece member := by
    obtain ⟨other, isOther, same⟩ := pairs.left piece member
    exact same.proper.mpr (cut.pieces_proper other isOther)
  kept_state := cut.kept_state
  pieces_state piece member := by
    obtain ⟨other, isOther, same⟩ := pairs.left piece member
    exact same.sameRange.state.trans (cut.pieces_state other isOther)
  kept_mark := cut.kept_mark

/-- The cuts change the tree and the counter. -/
theorem splitFrontTree_unchanged (flush being : PmemSt) (position : Nat) (pmem : PmemOps) :
    (pmem.splitFrontTree flush being position).1 = { pmem with
      pmemStores := (pmem.splitFrontTree flush being position).1.pmemStores
      dbPmemStoreIndex := (pmem.splitFrontTree flush being position).1.dbPmemStoreIndex } := by
  unfold splitFrontTree
  split <;> rfl

/-- A cut at the back writes to the tree and takes an index. -/
theorem splitBackTree_unchanged (flush being : PmemSt) (pmem : PmemOps) :
    pmem.splitBackTree flush being = { pmem with
      pmemStores := (pmem.splitBackTree flush being).pmemStores
      dbPmemStoreIndex := (pmem.splitBackTree flush being).dbPmemStoreIndex } := by
  unfold splitBackTree
  split <;> rfl

/-- The loop over the tree changes the tree, the counter and the register of redundant
flushes. -/
theorem flushTree_unchanged (flush : PmemSt) (fuel : Nat) (pmem : PmemOps) (valid : Bool) :
    (flushTree flush fuel pmem valid).1 = { pmem with
      pmemStores := (flushTree flush fuel pmem valid).1.pmemStores
      dbPmemStoreIndex := (flushTree flush fuel pmem valid).1.dbPmemStoreIndex
      redundantFlushes := (flushTree flush fuel pmem valid).1.redundantFlushes
      exited := (flushTree flush fuel pmem valid).1.exited } := by
  induction fuel generalizing pmem valid with
  | zero => rfl
  | succ fuel inductionHypothesis =>
    simp only [flushTree]
    split
    · rfl
    · split
      · rw [inductionHypothesis]
      · split
        · rw [inductionHypothesis, warnRedundantFlush_frame]
        · rw [inductionHypothesis, splitBackTree_unchanged, splitFrontTree_unchanged]

/-- A flush of the tree loses nothing and turns states within its range only. -/
theorem flushTree_kept {flush : PmemSt} (range : flush.Proper) (fuel : Nat) (pmem : PmemOps)
    (valid : Bool) (sound : TreeSound pmem.opts pmem.dbPmemStoreIndex pmem.pmemStores) :
    TreeKept pmem.opts (FlushLike flush) (fun _ => False) pmem.pmemStores pmem.dbPmemStoreIndex
      (flushTree flush fuel pmem valid).1.pmemStores
      (flushTree flush fuel pmem valid).1.dbPmemStoreIndex := by
  induction fuel generalizing pmem valid with
  | zero => exact TreeKept.refl (flushLike_likeness flush) sound
  | succ fuel inductionHypothesis =>
    have step {next : PmemOps} (validNow : Bool) (opts : next.opts = pmem.opts)
        (kept : TreeKept pmem.opts (FlushLike flush) (fun _ => False) pmem.pmemStores
          pmem.dbPmemStoreIndex next.pmemStores next.dbPmemStoreIndex) :
        TreeKept pmem.opts (FlushLike flush) (fun _ => False) pmem.pmemStores pmem.dbPmemStoreIndex
          (flushTree flush fuel next validNow).1.pmemStores
          (flushTree flush fuel next validNow).1.dbPmemStoreIndex := by
      have later := inductionHypothesis next validNow (opts ▸ kept.sound)
      rw [opts] at later
      exact kept.trans (flushLike_likeness flush) later
    simp only [flushTree]
    cases found : pmem.pmemStores.next with
    | none => exact TreeKept.refl (flushLike_likeness flush) sound
    | some result =>
      obtain ⟨position, being, walked⟩ := result
      obtain ⟨done, rest, listed, rfl, rfl⟩ := next_listed found
      have member : being ∈ pmem.pmemStores.toList := by simp [listed]
      have walkKept : TreeKept pmem.opts (FlushLike flush) (fun _ => False) pmem.pmemStores
          pmem.dbPmemStoreIndex { pmem.pmemStores with iter := some (done.length + 1) }
          pmem.dbPmemStoreIndex := TreeKept.walked (flushLike_likeness flush) sound rfl rfl
      simp only
      split
      · exact step valid rfl walkKept
      · next meets =>
        rw [not_not] at meets
        split
        · refine step true ?_ ?_
          · rw [warnRedundantFlush_frame]
          · rw [warnRedundantFlush_frame]
            exact walkKept
        · next dirty =>
          rw [not_not] at dirty
          let ahead : PmemOps := { pmem with
            pmemStores := { pmem.pmemStores with iter := some (done.length + 1) } }
          have aheadSound : TreeSound ahead.opts ahead.dbPmemStoreIndex ahead.pmemStores :=
            walkKept.sound
          obtain ⟨opts, added, pairs, _, exchanged⟩ := splitsTree_exchanged range
            (sound.proper being member) meets dirty aheadSound
            (show ahead.pmemStores.toList = done ++ being :: rest from listed)
          have cut := (tree_cut_exact range (sound.proper being member) meets).of_paired pairs
          have turned := TreeKept.exchange (flushLike_likeness flush)
            (show being ∈ ahead.pmemStores.toList from member) exchanged (cut.carved dirty)
          exact step true opts (walkKept.trans (flushLike_likeness flush) turned)

/-! ## Fences and cleaning -/

/-- A fence only takes records out of the tree. -/
theorem fenceTree_kept (fuel : Nat) (pmem : PmemOps)
    (sound : TreeSound pmem.opts pmem.dbPmemStoreIndex pmem.pmemStores) :
    TreeKept pmem.opts SameState (fun _ => True) pmem.pmemStores pmem.dbPmemStoreIndex
      (fenceTree fuel pmem).pmemStores (fenceTree fuel pmem).dbPmemStoreIndex := by
  induction fuel generalizing pmem with
  | zero => exact TreeKept.refl sameState_likeness sound
  | succ fuel inductionHypothesis =>
    have step {next : PmemOps} (opts : next.opts = pmem.opts)
        (kept : TreeKept pmem.opts SameState (fun _ => True) pmem.pmemStores pmem.dbPmemStoreIndex
          next.pmemStores next.dbPmemStoreIndex) :
        TreeKept pmem.opts SameState (fun _ => True) pmem.pmemStores pmem.dbPmemStoreIndex
          (fenceTree fuel next).pmemStores (fenceTree fuel next).dbPmemStoreIndex := by
      have later := inductionHypothesis next (opts ▸ kept.sound)
      rw [opts] at later
      exact kept.trans sameState_likeness later
    simp only [fenceTree]
    cases found : pmem.pmemStores.next with
    | none => exact TreeKept.refl sameState_likeness sound
    | some result =>
      obtain ⟨position, being, walked⟩ := result
      obtain ⟨done, rest, listed, rfl, rfl⟩ := next_listed found
      have walkKept : TreeKept pmem.opts SameState (fun _ => True) pmem.pmemStores
          pmem.dbPmemStoreIndex { pmem.pmemStores with iter := some (done.length + 1) }
          pmem.dbPmemStoreIndex := TreeKept.walked sameState_likeness sound rfl rfl
      simp only
      split
      · have taken := TreeKept.take sameState_likeness walkKept.sound (treeCmp pmem.opts being)
          (fun _ _ _ _ => trivial)
        exact step rfl ((walkKept.trans sameState_likeness taken).congr rfl rfl (Nat.le_refl _))
      · exact step rfl walkKept

/-- What `remove_region` leaves of an overlapped record are its bytes outside the region. -/
theorem remainders_excised {region entry : PmemSt} (regionProper : region.Proper)
    (proper : entry.Proper) (dbIndex : Nat) (meets : cmpPmemSt entry region = .eq) :
    Excised region entry (remainders region entry dbIndex) := by
  have overlap := (cmpPmemSt_eq_iff proper.nonWrapping regionProper.nonWrapping).mp meets
  have symmetric : cmpPmemSt region entry = .eq := by
    rw [cmpPmemSt_eq_iff regionProper.nonWrapping proper.nonWrapping]
    exact overlap.symm
  have entryMax := proper.nonWrapping.maxAddr_eq
  have regionMax := regionProper.nonWrapping.maxAddr_eq
  have excise := excised_of_ends regionProper proper symmetric
  have front (sticksOut : entry.addr < region.addr) :
      IsFront region entry (frontPart region entry) := by
    have size : (frontPart region entry).size = region.addr - entry.addr :=
      Word64.sub_eq (Nat.le_of_lt sticksOut)
    have addr : (frontPart region entry).addr = entry.addr := rfl
    unfold IsFront
    omega
  have new (sticksOut : region.addr + region.size < entry.addr + entry.size) :
      IsBack region entry (newPart region entry dbIndex) := by
    have size : (newPart region entry dbIndex).size =
        entry.addr + entry.size - (region.addr + region.size) := by
      show Word64.sub entry.maxAddr region.maxAddr = _
      rw [entryMax, regionMax]
      exact Word64.sub_eq (Nat.le_of_lt sticksOut)
    have addr : (newPart region entry dbIndex).addr = region.addr + region.size := regionMax
    unfold IsBack
    omega
  have back (starts : region.addr ≤ entry.addr)
      (sticksOut : region.addr + region.size < entry.addr + entry.size) :
      IsBack region entry (backPart region entry) := by
    have size : (backPart region entry).size =
        entry.size - (region.addr + region.size - entry.addr) := by
      have trimmed : Word64.sub region.maxAddr entry.addr =
          region.addr + region.size - entry.addr := by
        rw [regionMax]
        exact Word64.sub_eq (by omega)
      show Word64.sub entry.size (Word64.sub region.maxAddr entry.addr) = _
      rw [trimmed]
      exact Word64.sub_eq (by omega)
    have addr : (backPart region entry).addr = region.addr + region.size := regionMax
    unfold IsBack
    omega
  unfold remainders
  simp only [entryMax, regionMax]
  split
  · exact excise none none (by simp) (fun _ => by omega) (by simp) (fun _ => by omega)
  · split
    · next both =>
      apply excise (some _) (some _)
      · rintro piece ⟨⟩
        exact ⟨both.1, front both.1⟩
      · simp
      · rintro piece ⟨⟩
        exact ⟨both.2, new both.2⟩
      · simp
    · split
      · next behind =>
        apply excise none (some _)
        · simp
        · exact fun _ => behind.1
        · rintro piece ⟨⟩
          exact ⟨behind.2, back behind.1 behind.2⟩
        · simp
      · split
        · next before =>
          have only : Excised region entry ((some (frontPart region entry)).toList ++
              none.toList) := by
            apply excise (some _) none
            · rintro piece ⟨⟩
              exact ⟨before.2, front before.2⟩
            · simp
            · simp
            · exact fun _ => before.1
          exact only
        · exact excise none none (by simp) (fun _ => by omega) (by simp) (fun _ => by omega)

/-- Any part will do. Loops about which only the ranges matter are stated with it. -/
def AnyPart (_ : Nat) (_ _ : PmemSt) : Prop := True

/-- That any part will do is a likeness. -/
theorem anyPart_likeness : Likeness AnyPart where
  refl _ _ := trivial
  trans _ _ _ _ _ _ := trivial

/-- Excising a region loses the bytes of the region only. -/
theorem Excised.carved {region old : PmemSt} {pieces : List PmemSt}
    (excised : Excised region old pieces) :
    Carved PmemSt.Covers AnyPart region.Covers [old] pieces where
  origin part member := by
    refine ⟨old, List.mem_singleton.mpr rfl, fun byte inside => ⟨?_, trivial⟩⟩
    exact ((excised.bytes byte).mp ⟨part, member, inside⟩).1
  kept source member byte inside needed := by
    rw [List.mem_singleton.mp member] at inside
    obtain ⟨part, isPart, covered⟩ := (excised.bytes byte).mpr ⟨inside, needed⟩
    exact ⟨part, isPart, covered, trivial⟩

/-- Each piece is a part of the record. -/
theorem Excised.trims {region old : PmemSt} {pieces : List PmemSt}
    (excised : Excised region old pieces) {piece : PmemSt} (member : piece ∈ pieces) :
    Trims old piece :=
  ⟨excised.ranges.proper piece member, (excised.within piece member).1,
    (excised.within piece member).2⟩

/-- `remove_region` takes the region out of the tree and keeps the other bytes. -/
theorem removeRegionLoop_kept {opts : Options} {region : PmemSt} (regionProper : region.Proper)
    (fuel : Nat) (set : OSet PmemSt) (dbIndex : Nat) (sound : TreeSound opts dbIndex set) :
    TreeKept opts AnyPart region.Covers set dbIndex
      (removeRegionLoop (treeCmp opts) region fuel set dbIndex).1
      (removeRegionLoop (treeCmp opts) region fuel set dbIndex).2 := by
  induction fuel generalizing set dbIndex with
  | zero => exact TreeKept.refl anyPart_likeness sound
  | succ fuel inductionHypothesis =>
    have step {next : OSet PmemSt} {final : Nat}
        (kept : TreeKept opts AnyPart region.Covers set dbIndex next final) :
        TreeKept opts AnyPart region.Covers set dbIndex
          (removeRegionLoop (treeCmp opts) region fuel next final).1
          (removeRegionLoop (treeCmp opts) region fuel next final).2 :=
      kept.trans anyPart_likeness (inductionHypothesis next final kept.sound)
    simp only [removeRegionLoop]
    cases found : set.next with
    | none => exact TreeKept.refl anyPart_likeness sound
    | some result =>
      obtain ⟨position, entry, walked⟩ := result
      obtain ⟨done, rest, listed, rfl, rfl⟩ := next_listed found
      have member : entry ∈ set.toList := by simp [listed]
      have aheadListed : ({ set with iter := some (done.length + 1) } : OSet PmemSt).toList =
          done ++ entry :: rest := listed
      have walkKept : TreeKept opts AnyPart region.Covers set dbIndex
          { set with iter := some (done.length + 1) } dbIndex :=
        TreeKept.walked anyPart_likeness sound rfl rfl
      simp only
      split
      · exact step walkKept
      · next meets =>
        rw [not_not] at meets
        have excised := remainders_excised regionProper (sound.proper entry member) dbIndex meets
        have carved := excised.carved
        have edited (kept : PmemSt) := modifyAt_match aheadListed (fun _ => kept)
        have takes (inside : ∀ byte, entry.Covers byte → region.Covers byte) :
            TreeKept opts AnyPart region.Covers set dbIndex
              ((({ set with iter := some (done.length + 1) } : OSet PmemSt).remove (treeCmp opts)
                (treeCmp opts entry)).resetIterAt (treeCmp opts entry)) dbIndex := by
          have taken := TreeKept.take anyPart_likeness walkKept.sound (treeCmp opts entry)
            (fun foundStore searched byte covered => by
              rw [walkKept.sound.lookup_self member] at searched
              cases searched
              exact inside byte covered)
          exact (walkKept.trans anyPart_likeness taken).congr rfl rfl (Nat.le_refl _)
        have dropped (none : remainders region entry dbIndex = []) (byte : Nat)
            (inside : entry.Covers byte) : region.Covers byte := by
          by_contra outside
          have left := (excised.bytes byte).mpr ⟨inside, outside⟩
          rw [none] at left
          exact tracks_nil byte left
        split
        · next within =>
          exact step (takes (dropped (by simp only [remainders, if_pos within])))
        · next notWithin =>
          split
          · next both =>
            have parts : remainders region entry dbIndex =
                [frontPart region entry, newPart region entry dbIndex] := by
              simp only [remainders, if_neg notWithin, if_pos both]
            rw [parts] at excised carved
            have clear : Clear (frontPart region entry) (newPart region entry dbIndex) :=
              .inl ((List.pairwise_cons.mp excised.ranges.disjoint).1 _ (by simp))
            have exchanged := TreeKept.exchange anyPart_likeness member
              (sound.cut listed (edited (frontPart region entry)) rfl (excised.trims (by simp)) rfl
                (excised.trims (by simp)) clear rfl) carved
            exact step (exchanged.congr rfl rfl (Nat.le_refl _))
          · next notBoth =>
            split
            · next behind =>
              have parts : remainders region entry dbIndex = [backPart region entry] := by
                simp only [remainders, if_neg notWithin, if_neg notBoth, if_pos behind]
              rw [parts] at excised carved
              exact step (TreeKept.exchange anyPart_likeness member
                (sound.trim listed (edited (backPart region entry)) rfl (excised.trims (by simp))
                  rfl) carved)
            · next notBehind =>
              split
              · next before =>
                have parts : remainders region entry dbIndex = [frontPart region entry] := by
                  simp only [remainders, if_neg notWithin, if_neg notBoth, if_neg notBehind,
                    if_pos before]
                rw [parts] at excised carved
                exact step (TreeKept.exchange anyPart_likeness member
                  (sound.trim listed (edited (frontPart region entry)) rfl (excised.trims (by simp))
                    rfl) carved)
              · next notBefore =>
                exact step (takes (dropped (by
                  simp only [remainders, if_neg notWithin, if_neg notBoth, if_neg notBehind,
                    if_neg notBefore])))

end PmDebugger
