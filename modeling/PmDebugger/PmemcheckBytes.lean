import PmDebugger.Mappings
import PmDebugger.Pmemcheck
import PmDebugger.ReportedStates
import PmDebugger.TreeUpdates

/-!
# What the plain checker knows of each byte

The set of the plain checker holds disjoint ranges. A store takes its bytes away from whatever held
them and enters them as dirty. A flush cuts the dirty records along its range and marks what is
inside, and a fence removes what is marked. So at any time each byte has the state of at most one
record, and this is the state that the byte has.
-/

namespace PmDebugger

open OrderedSet OrderedSet.OSet PmemOps Persistency

namespace Pmemcheck

/-! ## Cutting a region out of the set -/

/-- The set without the bytes of a region. Every other byte keeps its state and no insertion
failed. -/
structure CutOut (region : PmemSt) (before after : OSet PmemSt) : Prop where
  ranges : Ranges after.toList
  clear : ∀ elem ∈ after.toList, cmpPmemSt region elem ≠ .eq
  marks : ∀ byte state, MarksAs after.toList byte state ↔
    MarksAs before.toList byte state ∧ ¬ region.Covers byte
  duplicate : after.duplicate = before.duplicate

/-- One overlapped element is exchanged for what is left of it. The bytes outside of the region
keep their states, and one element fewer overlaps the region. -/
structure Exchanged (region : PmemSt) (before after : OSet PmemSt) : Prop where
  ranges : Ranges after.toList
  marks : ∀ byte state, MarksAs after.toList byte state ∧ ¬ region.Covers byte ↔
    MarksAs before.toList byte state ∧ ¬ region.Covers byte
  fewer : overlaps region after.toList + 1 = overlaps region before.toList
  duplicate : after.duplicate = before.duplicate

section Cutting

variable {region old : PmemSt} {before middle after : OSet PmemSt}

/-- A region that meets nothing is cut out already. -/
theorem cutOut_clear (proper : region.Proper) (ranges : Ranges before.toList)
    (absent : before.lookup (cmpPmemSt region) = none) : CutOut region before before := by
  have outside := (ranges.lookup_none_iff proper).mp absent
  constructor
  · exact ranges
  · exact (lookup_none (ranges.guides proper)).mp absent
  · intro byte state
    constructor
    · rintro ⟨entry, member, covered, same⟩
      exact ⟨⟨entry, member, covered, same⟩, fun inside =>
        outside byte inside ⟨entry, member, covered⟩⟩
    · exact And.left
  · rfl

/-- A record may be exchanged for its remainders before the rest is cut out. -/
theorem Exchanged.cutOut (exchanged : Exchanged region before middle)
    (cut : CutOut region middle after) : CutOut region before after where
  ranges := cut.ranges
  clear := cut.clear
  marks byte state := (cut.marks byte state).trans (exchanged.marks byte state)
  duplicate := cut.duplicate.trans exchanged.duplicate

/-- Parts with the state of the element say what it said. -/
theorem exchanged_of_excised {pieces first last : List PmemSt} (ranges : Ranges before.toList)
    (meets : cmpPmemSt region old = .eq) (excised : Excised region old pieces)
    (states : ∀ piece ∈ pieces, piece.state = old.state)
    (listed : before.toList = first ++ old :: last)
    (nextListed : after.toList = first ++ pieces ++ last)
    (flag : after.duplicate = before.duplicate) : Exchanged region before after := by
  constructor
  · rw [nextListed]
    exact (listed ▸ ranges).refine excised.ranges excised.within
  · intro byte state
    have inPieces : MarksAs pieces byte state ↔
        (old.Covers byte ∧ old.state = state) ∧ ¬ region.Covers byte := by
      constructor
      · rintro ⟨piece, isPiece, covered, same⟩
        have inside := (excised.bytes byte).mp ⟨piece, isPiece, covered⟩
        exact ⟨⟨inside.1, (states piece isPiece).symm.trans same⟩, inside.2⟩
      · rintro ⟨⟨covered, same⟩, outside⟩
        obtain ⟨piece, isPiece, inside⟩ := (excised.bytes byte).mpr ⟨covered, outside⟩
        exact ⟨piece, isPiece, inside, (states piece isPiece).trans same⟩
    rw [nextListed, listed]
    simp only [marksAs_append, marksAs_cons, inPieces]
    tauto
  · exact overlaps_excised excised meets listed nextListed
  · exact flag

/-- `split_stores` in the set. -/
theorem splitStore_exchanged (proper : region.Proper) (ranges : Ranges before.toList)
    (searched : before.lookup (cmpPmemSt region) = some old) :
    ∃ rest overlap, splitStore old region before = some (rest, overlap) ∧
      Exchanged region before rest := by
  obtain ⟨first, last, pieces, next, final, listed, excised, nextListed, ⟨marks, flag⟩, turned⟩ :=
    cutTurn_step proper 0 ranges searched
  have meets := (lookup_sound searched).2
  have exchange (rest : OSet PmemSt) (sameList : rest.toList = next.toList)
      (sameFlag : rest.duplicate = next.duplicate) : Exchanged region before rest :=
    exchanged_of_excised ranges meets excised (fun piece isPiece => (marks piece isPiece).state)
      listed (sameList.trans nextListed) (sameFlag.trans flag)
  simp only [cutTurn, searched] at turned
  unfold splitStore
  cases split : splitStores old region 0 with
  | none =>
      rw [split] at turned
      cases turned
  | some result =>
      obtain ⟨kept, behind, overlap⟩ := result
      rw [split] at turned
      -- The other tool resets its walk at the end of a turn, which changes no element.
      cases kept with
      | none =>
          cases turned
          exact ⟨_, _, rfl, exchange _ rfl rfl⟩
      | some kept =>
          cases behind with
          | none =>
              cases turned
              exact ⟨_, _, rfl, exchange _ rfl rfl⟩
          | some behind =>
              cases turned
              exact ⟨_, _, rfl, exchange _ rfl rfl⟩

/-- The loop of `add_and_merge_store`. -/
theorem cutStores_cutOut (proper : region.Proper) (fuel : Nat) (set : OSet PmemSt)
    (ranges : Ranges set.toList) (enough : overlaps region set.toList < fuel) :
    CutOut region set (cutStores region fuel set) := by
  induction fuel generalizing set with
  | zero => omega
  | succ fuel inductionHypothesis =>
      cases searched : set.lookup (cmpPmemSt region) with
      | none =>
          simp only [cutStores, searched]
          exact cutOut_clear proper ranges searched
      | some old =>
          obtain ⟨rest, overlap, split, exchanged⟩ := splitStore_exchanged proper ranges searched
          have fewer := exchanged.fewer
          simp only [cutStores, searched, split]
          exact exchanged.cutOut (inductionHypothesis rest exchanged.ranges (by omega))

end Cutting

/-! ## Stores -/

/-- The bytes of the region have its state now, and the others have theirs. This is what
`add_and_merge_store` owes to the set. -/
structure Entered (region : PmemSt) (before after : OSet PmemSt) : Prop where
  ranges : Ranges after.toList
  marks : ∀ byte state, MarksAs after.toList byte state ↔
    region.Covers byte ∧ region.state = state ∨
      MarksAs before.toList byte state ∧ ¬ region.Covers byte
  duplicate : after.duplicate = before.duplicate

section Stores

variable {region : PmemSt} {before middle : OSet PmemSt}

/-- Where the region was cut out, it can be merged with its neighbours and inserted. -/
theorem addAndMergeStore_entered (isIpMemsetMemcpy : Nat → Bool) (proper : region.Proper)
    (ranges : Ranges before.toList) :
    Entered region before (addAndMergeStore isIpMemsetMemcpy region before).1 := by
  have cut := cutStores_cutOut proper (before.size + 1) before ranges
    (Nat.lt_succ_of_le List.countP_le_length)
  unfold addAndMergeStore
  generalize cutStores region (before.size + 1) before = middle at *
  have absent : middle.lookup (cmpPmemSt region) = none :=
    (lookup_none (cut.ranges.guides proper)).mpr cut.clear
  have merged (state : StoreState) := insert_merged (inherited_state isIpMemsetMemcpy state) proper
    cut.ranges 0 (makeRoom isIpMemsetMemcpy region middle 0).1.index
  simp only [makeRoom, cutOverlaps, absent] at merged
  constructor
  · exact (merged .clean).1
  · intro byte state
    have shown : MarksAs _ byte state ↔ _ := (merged state).2.2 byte
    rw [shown]
    have outside : Shows (fun entry => entry.state = state) middle.toList byte ↔ _ :=
      cut.marks byte state
    rw [outside]
    tauto
  · exact (merged .clean).2.1.trans cut.duplicate

/-- Inserting a region that was cut out. -/
theorem CutOut.insert (cut : CutOut region before middle) (proper : region.Proper) :
    Entered region before (middle.insert (cmpPmemSt region) region) := by
  obtain ⟨inserted, flag⟩ := insert_fresh region (cut.ranges.guides proper) cut.clear
  constructor
  · exact (cut.ranges.insert proper cut.clear).1
  · intro byte state
    rw [← cut.marks byte state]
    simp only [MarksAs, inserted, or_and_right, exists_or, exists_eq_left]
  · exact flag.trans cut.duplicate

/-- Two checkers that differ in the pending stores, the registers and the end of the process only.
-/
structure SameSetup (before after : Pmemcheck) : Prop where
  opts : after.opts = before.opts
  pmemMappings : after.pmemMappings = before.pmemMappings
  flushAlignSize : after.flushAlignSize = before.flushAlignSize

/-- Nothing of the setup changes. -/
theorem SameSetup.refl (check : Pmemcheck) : SameSetup check check := ⟨rfl, rfl, rfl⟩

/-- Two steps that keep the setup keep it together. -/
theorem SameSetup.trans {first second third : Pmemcheck} (early : SameSetup first second)
    (late : SameSetup second third) : SameSetup first third where
  opts := late.opts.trans early.opts
  pmemMappings := late.pmemMappings.trans early.pmemMappings
  flushAlignSize := late.flushAlignSize.trans early.flushAlignSize

/-- A rewrite with the range of the store is removed whole. -/
theorem sameWrite_exchanged {store existing : PmemSt} {set : OSet PmemSt} (proper : store.Proper)
    (ranges : Ranges set.toList) (searched : set.lookup (cmpPmemSt store) = some existing)
    (addr : existing.addr = store.addr) (size : existing.size = store.size) :
    Exchanged store set (set.remove cmpPmemSt (cmpPmemSt store)) := by
  obtain ⟨member, meets⟩ := lookup_sound searched
  obtain ⟨first, last, listed, removed, flag⟩ :=
    remove_found ranges.ordered (ranges.reflexive member) searched
  have excised : Excised store existing [] :=
    excised_of_ends proper (ranges.proper existing member) meets none none (by simp)
      (fun _ => Nat.le_of_eq addr.symm) (by simp) (fun _ => Nat.le_of_eq (by rw [addr, size]))
  exact exchanged_of_excised ranges meets excised (by simp) listed (by simpa using removed) flag

/-- The loop of `handle_with_mult_stores`. -/
theorem overwriteStores_cutOut {store : PmemSt} (proper : store.Proper) (fuel : Nat)
    (check : Pmemcheck) (ranges : Ranges check.pmemStores.toList)
    (enough : overlaps store check.pmemStores.toList < fuel) :
    CutOut store check.pmemStores (overwriteStores store fuel check).pmemStores ∧
      SameSetup check (overwriteStores store fuel check) := by
  induction fuel generalizing check with
  | zero => omega
  | succ fuel inductionHypothesis =>
      cases searched : check.pmemStores.lookup (cmpPmemSt store) with
      | none =>
          simp only [overwriteStores, searched]
          exact ⟨cutOut_clear proper ranges searched, SameSetup.refl check⟩
      | some existing =>
          simp only [overwriteStores, searched]
          split
          · rename_i same
            simp only [isSameWrite, decide_eq_true_eq] at same
            have exchanged := sameWrite_exchanged proper ranges searched same.2.1 same.2.2.1
            have fewer := exchanged.fewer
            obtain ⟨cut, setup⟩ := inductionHypothesis
              { check with pmemStores := check.pmemStores.remove cmpPmemSt (cmpPmemSt store) }
              exchanged.ranges (by simp only; omega)
            exact ⟨exchanged.cutOut cut, ⟨setup.opts, setup.pmemMappings, setup.flushAlignSize⟩⟩
          · obtain ⟨rest, overlap, split, exchanged⟩ := splitStore_exchanged proper ranges searched
            have fewer := exchanged.fewer
            simp only [split]
            obtain ⟨cut, setup⟩ := inductionHypothesis
              ({ check with pmemStores := rest }.addMultOverwriteWarn overlap) exchanged.ranges
              (by simp only [addMultOverwriteWarn]; omega)
            exact ⟨exchanged.cutOut cut, ⟨setup.opts, setup.pmemMappings, setup.flushAlignSize⟩⟩

/-- A store is entered, whether or not multiple stores are tracked. -/
theorem trackStore_entered {store : PmemSt} (proper : store.Proper) {check : Pmemcheck}
    (ranges : Ranges check.pmemStores.toList) :
    Entered store check.pmemStores (check.trackStore store).1.pmemStores ∧
      SameSetup check (check.trackStore store).1 := by
  unfold trackStore
  split
  · obtain ⟨cut, setup⟩ := overwriteStores_cutOut proper (check.pmemStores.size + 1) check ranges
      (Nat.lt_succ_of_le List.countP_le_length)
    exact ⟨cut.insert proper, ⟨setup.opts, setup.pmemMappings, setup.flushAlignSize⟩⟩
  · exact ⟨addAndMergeStore_entered check.opts.isIpMemsetMemcpy proper ranges, ⟨rfl, rfl, rfl⟩⟩

end Stores

/-! ## Flushes -/

/-- What a flush makes of a record: the parts before, within and behind its range. -/
def flushParts (flush being : PmemSt) : List PmemSt :=
  if marksTree flush being then
    (if being.addr < flush.addr then [frontSplit flush { being with state := .flushed }] else []) ++
      flushedPart flush being ::
        (if (flushedFront flush being).maxAddr > flush.maxAddr
          then [backSplit flush (flushedFront flush being)] else [])
  else [being]

/-- How often the walk can still meet the remaining records. A record that the flush marks
counts three times, since what it is cut into is met again. -/
def meetings (flush : PmemSt) (rest : List PmemSt) : Nat :=
  (rest.map (fun being => if marksTree flush being then 3 else 1)).sum

section Flushes

variable {flush being : PmemSt} {first last : List PmemSt}

/-- Two parts take the place of a record, in either order, and the walk goes on at the second. -/
theorem reinsert_listed {low high split cut : PmemSt} {set : OSet PmemSt}
    (listed : set.toList = first ++ being :: last) (ranges : Ranges (first ++ being :: last))
    (parts : Ranges (first ++ [low, high] ++ last))
    (order : split = low ∧ cut = high ∨ split = high ∧ cut = low) :
    (reinsert being split cut high set).toList = (first ++ [low]) ++ high :: last ∧
      (reinsert being split cut high set).iter = some (first ++ [low]).length ∧
      (reinsert being split cut high set).duplicate = set.duplicate := by
  have member : being ∈ first ++ being :: last := by simp
  obtain ⟨above, below⟩ := ordered_match ranges.ordered
  obtain ⟨removed, removedFlag⟩ := remove_match listed (listed ▸ ranges.ordered)
    (ranges.reflexive member) (lookup_match listed above (ranges.reflexive member) below)
  have partsList : first ++ [low, high] ++ last = (first ++ [low]) ++ high :: last := by simp
  obtain ⟨aboveHigh, belowHigh⟩ := ordered_match (partsList ▸ parts.ordered)
  have partsList' : first ++ [low, high] ++ last = first ++ low :: (high :: last) := by simp
  obtain ⟨aboveLow, belowLow⟩ := ordered_match (partsList' ▸ parts.ordered)
  have inserted :
      (((set.remove cmpPmemSt (cmpPmemSt being)).insert (cmpPmemSt split) split).insert
        (cmpPmemSt cut) cut).toList = (first ++ [low]) ++ high :: last ∧
      (((set.remove cmpPmemSt (cmpPmemSt being)).insert (cmpPmemSt split) split).insert
        (cmpPmemSt cut) cut).duplicate = set.duplicate := by
    rcases order with ⟨rfl, rfl⟩ | ⟨rfl, rfl⟩
    · obtain ⟨one, oneFlag⟩ := insert_split split removed aboveLow
        (fun elem isElem => belowLow elem (List.mem_cons_of_mem _ isElem))
      obtain ⟨two, twoFlag⟩ := insert_split cut (one.trans (List.append_cons ..)) aboveHigh
          belowHigh
      exact ⟨two, twoFlag.trans (oneFlag.trans removedFlag)⟩
    · obtain ⟨one, oneFlag⟩ := insert_split split removed
        (fun elem isElem => aboveHigh elem (List.mem_append_left _ isElem)) belowHigh
      obtain ⟨two, twoFlag⟩ := insert_split cut one aboveLow belowLow
      exact ⟨two.trans (List.append_cons ..), twoFlag.trans (oneFlag.trans removedFlag)⟩
  unfold reinsert
  generalize ((set.remove cmpPmemSt (cmpPmemSt being)).insert (cmpPmemSt split) split).insert
    (cmpPmemSt cut) cut = result at *
  constructor
  · exact inserted.1
  · constructor
    · apply resetIterAt_split inserted.1 aboveHigh
      · rw [inserted.1]
        exact separates_match aboveHigh belowHigh
      · intro elem isElem
        rcases List.mem_cons.mp isElem with rfl | later
        · have proper := parts.proper elem (by simp)
          rw [ne_eq, cmpPmemSt_gt_iff proper.nonWrapping proper.nonWrapping]
          have := proper.nonempty
          omega
        · simp [belowHigh elem later]
    · exact inserted.2

/-- Two parts of a record, one behind the other. -/
theorem ranges_pair {low high : PmemSt} (lowProper : low.Proper) (highProper : high.Proper)
    (apart : low.addr + low.size ≤ high.addr) : Ranges [low, high] where
  proper := by simp [lowProper, highProper]
  disjoint := by simp [apart]

/-- The first cut leaves the rest of the record behind the part that was cut off. -/
theorem front_ranges (range : flush.Proper) (ranges : Ranges (first ++ being :: last))
    (meets : cmpPmemSt flush being = .eq) (sticksOut : being.addr < flush.addr) :
    Ranges (first ++ [frontSplit flush { being with state := .flushed },
      flushedFront flush being] ++ last) := by
  have proper := ranges.proper being (by simp)
  obtain ⟨start, finish, nonempty⟩ := flushedFront_exact range proper meets
  have fits := proper.nonWrapping
  have size : (frontSplit flush { being with state := .flushed }).size = flush.addr - being.addr :=
    Word64.sub_eq (Nat.le_of_lt sticksOut)
  have addr : (frontSplit flush { being with state := .flushed }).addr = being.addr := rfl
  rw [Nat.max_eq_right (Nat.le_of_lt sticksOut)] at start
  have overlap := (cmpPmemSt_eq_iff range.nonWrapping proper.nonWrapping).mp meets
  unfold PmemSt.NonWrapping at fits
  apply ranges.refine
  · apply ranges_pair
    · rw [proper_iff]
      omega
    · rw [proper_iff]
      omega
    · omega
  · intro piece isPiece
    simp only [List.mem_cons, List.not_mem_nil, or_false] at isPiece
    rcases isPiece with rfl | rfl
    · omega
    · omega

/-- The second cut leaves the flushed part in front of the part that was cut off. -/
theorem back_ranges (range : flush.Proper) (proper : being.Proper)
    (meets : cmpPmemSt flush being = .eq)
    (ranges : Ranges (first ++ flushedFront flush being :: last))
    (sticksOut : (flushedFront flush being).maxAddr > flush.maxAddr) :
    Ranges (first ++ [flushedPart flush being, backSplit flush (flushedFront flush being)] ++
      last) := by
  obtain ⟨start, finish, _⟩ := flushedFront_exact range proper meets
  obtain ⟨partStart, partFinish⟩ := flushedPart_range range proper meets
  rw [range.nonWrapping.maxAddr_eq, (flushedFront_nonWrapping range proper meets).maxAddr_eq,
    finish] at sticksOut
  have isPiece := (mem_cutPieces range proper meets _).mpr (.inr ⟨sticksOut, rfl⟩)
  have pieceRange := cutPiece_range range proper meets isPiece
  have cut := cut_exact range proper meets
  have pieceStart : (backSplit flush (flushedFront flush being)).addr = flush.addr + flush.size :=
    range.nonWrapping.maxAddr_eq
  have size := proper.nonempty
  have flushSize := range.nonempty
  apply ranges.refine
  · apply ranges_pair cut.kept_proper (cut.pieces_proper _ isPiece)
    omega
  · intro piece isPart
    simp only [List.mem_cons, List.not_mem_nil, or_false] at isPart
    rcases isPart with rfl | rfl
    · omega
    · omega

/-- The walk stands between the records that it has dealt with and the rest. The records behind
it and the parts of those before it make up the final listing. -/
structure Walking (flush : PmemSt) (before : List PmemSt) (done rest : List PmemSt)
    (set : OSet PmemSt) : Prop where
  listed : set.toList = done ++ rest
  walk : set.iter = some done.length
  ranges : Ranges (done ++ rest)
  parts : done ++ rest.flatMap (flushParts flush) = before

/-- Records that the flush does not mark are met once. -/
theorem meetings_cons_other (other : ¬ marksTree flush being) (rest : List PmemSt) :
    meetings flush (being :: rest) = 1 + meetings flush rest := by
  simp [meetings, other]

/-- A record that is cut is met up to three times. -/
theorem meetings_cons_marked (marked : marksTree flush being) (rest : List PmemSt) :
    meetings flush (being :: rest) = 3 + meetings flush rest := by
  simp [meetings, marked]

/-- A record that the flush does not mark stays whole. -/
theorem flushParts_other (other : ¬ marksTree flush being) : flushParts flush being = [being] :=
  if_neg other

/-- What is flushed is not dirty any more. -/
theorem flushedPart_flushed (flush being : PmemSt) :
    ¬ marksTree flush (flushedPart flush being) := by
  rintro ⟨_, dirty⟩
  rw [(flushedPart_fields flush being).1] at dirty
  cases dirty

/-- A part behind the flushed range does not meet it. -/
theorem backSplit_unmarked (range : flush.Proper) (being : PmemSt) :
    ¬ marksTree flush (backSplit flush (flushedFront flush being)) := by
  rintro ⟨again, _⟩
  have start : (backSplit flush (flushedFront flush being)).addr = flush.addr + flush.size :=
    range.nonWrapping.maxAddr_eq
  have bounds := (cmpPmemSt_eq_bounds again).1
  rw [start, range.nonWrapping.maxAddr_eq] at bounds
  omega

/-- A dirty record in the range is marked and cut, and the walk goes on behind the flushed part, or
at it when only its front was cut off. -/
theorem Walking.cut {before done rest : List PmemSt} {set : OSet PmemSt} (range : flush.Proper)
    (walking : Walking flush before done (being :: rest) set) (marked : marksTree flush being) :
    let flushed := { being with state := .flushed }
    let state := splitFront flush flushed
      ({ set with iter := some (done.length + 1) }.modifyAt done.length (fun _ => flushed))
    ∃ done' rest', Walking flush before done' rest' (splitBack flush state.2 state.1) ∧
      meetings flush rest' < meetings flush (being :: rest) ∧
      (splitBack flush state.2 state.1).duplicate = set.duplicate := by
  intro flushed state
  obtain ⟨listed, walk, ranges, parts⟩ := walking
  have proper := ranges.proper being (by simp)
  obtain ⟨meets, dirty⟩ := marked
  have isMarked : marksTree flush being := ⟨meets, dirty⟩
  have markedListed : ({ set with iter := some (done.length + 1) }.modifyAt done.length
      (fun _ => flushed)).toList = done ++ flushed :: rest :=
    modifyAt_match
      (show ({ set with iter := some (done.length + 1) } : OSet PmemSt).toList = _ from listed) _
  have flushedRanges : Ranges (done ++ flushed :: rest) := by
    have same : flushed.Proper := ⟨proper.nonempty, proper.nonWrapping⟩
    have within : Ranges (done ++ [flushed] ++ rest) :=
      ranges.refine ⟨by simpa using same, by simp⟩ (by simp [flushed])
    simpa using within
  have flushedMeets : cmpPmemSt flush flushed = .eq := meets
  rw [List.flatMap_cons, flushParts, if_pos isMarked] at parts
  -- After the first cut the walk stands at the rest of the record, or behind it without a cut.
  have frontCut : state.2 = flushedFront flush being ∧
      state.1.toList = done ++ (if being.addr < flush.addr
        then [frontSplit flush flushed] else []) ++ flushedFront flush being :: rest ∧
      Ranges (done ++ (if being.addr < flush.addr
        then [frontSplit flush flushed] else []) ++ flushedFront flush being :: rest) ∧
      state.1.iter = some (if being.addr < flush.addr
        then (done ++ [frontSplit flush flushed]).length else done.length + 1) ∧
      state.1.duplicate = set.duplicate := by
    simp only [state, splitFront]
    by_cases sticksOut : being.addr < flush.addr
    · have frontRanges := front_ranges range ranges meets sticksOut
      have isFront : flushedFront flush being = cutFront flush flushed := if_pos sticksOut
      rw [isFront] at frontRanges ⊢
      have inserted := reinsert_listed markedListed flushedRanges frontRanges (.inl ⟨rfl, rfl⟩)
      rw [if_pos (show flushed.addr < flush.addr from sticksOut)]
      simp only [if_pos sticksOut]
      refine ⟨trivial, inserted.1, ?_, inserted.2.1, inserted.2.2⟩
      simpa using frontRanges
    · have isFront : flushedFront flush being = flushed := if_neg sticksOut
      rw [isFront, if_neg (show ¬ flushed.addr < flush.addr from sticksOut)]
      simp only [if_neg sticksOut, List.append_nil]
      exact ⟨trivial, markedListed, flushedRanges, rfl, rfl⟩
  obtain ⟨isFront, frontListed, frontRanges, frontWalk, frontFlag⟩ := frontCut
  rw [isFront]
  unfold splitBack
  have fewer := meetings_cons_marked isMarked rest
  by_cases sticksOut : (flushedFront flush being).maxAddr > flush.maxAddr
  · have isPart : flushedPart flush being = cutBack flush (flushedFront flush being) :=
      if_pos sticksOut
    have backRanges := back_ranges range proper meets frontRanges sticksOut
    rw [isPart] at backRanges parts
    have inserted := reinsert_listed frontListed frontRanges backRanges (.inr ⟨rfl, rfl⟩)
    have other := backSplit_unmarked range being
    rw [if_pos sticksOut] at parts ⊢
    refine ⟨_, _, ⟨inserted.1, inserted.2.1, ?_, ?_⟩, ?_, inserted.2.2.trans frontFlag⟩
    · simpa using backRanges
    · rw [← parts, List.flatMap_cons, flushParts_other other]
      simp [flushed]
    · rw [fewer, meetings_cons_other other]
      omega
  · have isPart : flushedPart flush being = flushedFront flush being := if_neg sticksOut
    rw [if_neg sticksOut] at parts ⊢
    rw [isPart] at parts
    by_cases front : being.addr < flush.addr
    · simp only [if_pos front] at frontListed frontRanges frontWalk parts
      have other := isPart ▸ flushedPart_flushed flush being
      refine ⟨_, _, ⟨frontListed, frontWalk, frontRanges, ?_⟩, ?_, frontFlag⟩
      · rw [← parts, List.flatMap_cons, flushParts_other other]
        simp [flushed]
      · rw [fewer, meetings_cons_other other]
        omega
    · simp only [if_neg front, List.append_nil] at frontListed frontRanges frontWalk parts
      refine ⟨done ++ [flushedFront flush being], rest, ⟨?_, ?_, ?_, ?_⟩, ?_, frontFlag⟩
      · simpa using frontListed
      · simpa using frontWalk
      · simpa using frontRanges
      · rw [← parts]
        simp
      · rw [fewer]
        omega

/-- A record that the flush does not mark is passed. -/
theorem Walking.pass {before done rest : List PmemSt} {set : OSet PmemSt}
    (walking : Walking flush before done (being :: rest) set) (other : ¬ marksTree flush being) :
    Walking flush before (done ++ [being]) rest { set with iter := some (done.length + 1) } where
  listed := by simpa using walking.listed
  walk := by simp
  ranges := by simpa using walking.ranges
  parts := by
    rw [← walking.parts, List.flatMap_cons, flushParts_other other]
    simp

/-- The warning writes to its register, and the records stay. -/
theorem warnRedundantFlush_setup (store : PmemSt) (check : Pmemcheck) :
    SameSetup check (check.warnRedundantFlush store) ∧
      (check.warnRedundantFlush store).pmemStores = check.pmemStores := by
  unfold warnRedundantFlush
  split
  · exact ⟨⟨rfl, rfl, rfl⟩, rfl⟩
  · exact ⟨SameSetup.refl check, rfl⟩

/-- The set after the loop of `do_flush` has the parts of all records, in the order of their
addresses, and nothing else of the checker has changed. -/
structure FlushedInto (before : List PmemSt) (start after : Pmemcheck) : Prop where
  listed : after.pmemStores.toList = before
  ranges : Ranges after.pmemStores.toList
  duplicate : after.pmemStores.duplicate = start.pmemStores.duplicate
  setup : SameSetup start after

/-- The loop of `do_flush` reaches its end. -/
theorem flushStores_flushedInto (range : flush.Proper) (fuel : Nat) (check : Pmemcheck)
    (valid : Bool) {before done rest : List PmemSt}
    (walking : Walking flush before done rest check.pmemStores)
    (enough : meetings flush rest < fuel) :
    FlushedInto before check (flushStores flush fuel check valid).1 := by
  induction fuel generalizing check valid done rest with
  | zero => omega
  | succ fuel inductionHypothesis =>
      cases rest with
      | nil =>
          have listed : check.pmemStores.toList = done := by simpa using walking.listed
          have ended : check.pmemStores.next = none := next_end (by rw [walking.walk, listed])
          simp only [flushStores, ended]
          constructor
          · rw [listed]
            simpa using walking.parts
          · rw [walking.listed]
            exact walking.ranges
          · rfl
          · exact SameSetup.refl check
      | cons being rest =>
          simp only [flushStores, next_some walking.listed walking.walk]
          by_cases meets : cmpPmemSt flush being = .eq
          · rw [if_neg (not_not.mpr meets)]
            by_cases dirty : being.state = .dirty
            · rw [if_neg (not_not.mpr dirty)]
              obtain ⟨done', rest', later, fewer, flag⟩ := walking.cut range ⟨meets, dirty⟩
              have reached := inductionHypothesis
                { check with pmemStores := _ } true later (by omega)
              exact ⟨reached.listed, reached.ranges, reached.duplicate.trans flag,
                ⟨reached.setup.opts, reached.setup.pmemMappings, reached.setup.flushAlignSize⟩⟩
            · rw [if_pos dirty]
              have other : ¬ marksTree flush being := fun marked => dirty marked.2
              obtain ⟨setup, same⟩ := warnRedundantFlush_setup being { check with
                pmemStores := { check.pmemStores with iter := some (done.length + 1) } }
              rw [meetings_cons_other other] at enough
              have stands : Walking flush before (done ++ [being]) rest (warnRedundantFlush being
                  { check with pmemStores := { check.pmemStores with
                    iter := some (done.length + 1) } }).pmemStores := by
                rw [same]
                exact walking.pass other
              have reached := inductionHypothesis _ true stands (by omega)
              exact ⟨reached.listed, reached.ranges, reached.duplicate.trans (by rw [same]),
                SameSetup.trans ⟨setup.opts, setup.pmemMappings, setup.flushAlignSize⟩
                  reached.setup⟩
          · rw [if_pos meets]
            have other : ¬ marksTree flush being := fun marked => meets marked.1
            rw [meetings_cons_other other] at enough
            have reached := inductionHypothesis { check with pmemStores := _ } valid
              (walking.pass other) (by omega)
            exact ⟨reached.listed, reached.ranges, reached.duplicate,
              ⟨reached.setup.opts, reached.setup.pmemMappings, reached.setup.flushAlignSize⟩⟩

/-- No record is met more than three times, which bounds the fuel. -/
theorem meetings_le (flush : PmemSt) (rest : List PmemSt) :
    meetings flush rest ≤ 3 * rest.length := by
  induction rest with
  | nil => simp [meetings]
  | cons being rest inductionHypothesis =>
      by_cases marked : marksTree flush being
      · rw [meetings_cons_marked marked, List.length_cons]
        omega
      · rw [meetings_cons_other marked, List.length_cons]
        omega

/-- `do_flush` cuts every dirty record along its range. -/
theorem doFlush_flushedInto (base size : Nat) (context : Option ExeContext) {check : Pmemcheck}
    (range : (flushInfo check.opts check.flushAlignSize base size).Proper)
    (ranges : Ranges check.pmemStores.toList) :
    FlushedInto (check.pmemStores.toList.flatMap
        (flushParts (flushInfo check.opts check.flushAlignSize base size))) check
      (check.doFlush base size context) := by
  have start : Walking (flushInfo check.opts check.flushAlignSize base size)
      (check.pmemStores.toList.flatMap
        (flushParts (flushInfo check.opts check.flushAlignSize base size))) []
      check.pmemStores.toList check.pmemStores.resetIter := ⟨rfl, rfl, ranges, rfl⟩
  have reached := flushStores_flushedInto range (3 * check.pmemStores.size + 1)
    { check with pmemStores := check.pmemStores.resetIter } false start
    (Nat.lt_succ_of_le (meetings_le _ _))
  unfold doFlush warnSuperfluousFlush
  simp only
  split
  · exact ⟨reached.listed, reached.ranges, reached.duplicate, ⟨reached.setup.opts,
      reached.setup.pmemMappings, reached.setup.flushAlignSize⟩⟩
  · exact ⟨reached.listed, reached.ranges, reached.duplicate, ⟨reached.setup.opts,
      reached.setup.pmemMappings, reached.setup.flushAlignSize⟩⟩

end Flushes

/-! ## Fences -/

/-- The loop of `do_fence` keeps what is not flushed. -/
theorem fenceStores_listed (fuel : Nat) (set : OSet PmemSt) {done rest : List PmemSt}
    (listed : set.toList = done ++ rest) (walk : set.iter = some done.length)
    (ranges : Ranges (done ++ rest)) (enough : rest.length < fuel) :
    (fenceStores fuel set).toList = done ++ rest.filter (fun store => store.state ≠ .flushed) ∧
      (fenceStores fuel set).duplicate = set.duplicate := by
  induction fuel generalizing set done rest with
  | zero => omega
  | succ fuel inductionHypothesis =>
      cases rest with
      | nil =>
          have ended : set.next = none := next_end (by rw [walk, listed, List.append_nil])
          simp only [fenceStores, ended]
          exact ⟨by simpa using listed, trivial⟩
      | cons being rest =>
          simp only [fenceStores, next_some listed walk]
          simp only [List.length_cons] at enough
          by_cases flushed : being.state = .flushed
          · rw [if_pos flushed]
            obtain ⟨removed, resumed, flag⟩ := remove_resume
              (show ({ set with iter := some (done.length + 1) } : OSet PmemSt).toList =
                _ from listed)
              (listed ▸ ranges.ordered) (ranges.reflexive (by simp))
            obtain ⟨fenced, sameFlag⟩ := inductionHypothesis _ removed resumed
              (ranges.sublist (by simp)) (by omega)
            rw [List.filter_cons_of_neg (by simp [flushed])]
            exact ⟨fenced, sameFlag.trans flag⟩
          · rw [if_neg flushed]
            have assoc : done ++ being :: rest = (done ++ [being]) ++ rest := by simp
            obtain ⟨fenced, sameFlag⟩ := inductionHypothesis
              { set with iter := some (done.length + 1) } (listed.trans assoc) (by simp)
              (assoc ▸ ranges) (by omega)
            rw [List.filter_cons_of_pos (by simp [flushed])]
            exact ⟨by simpa using fenced, sameFlag⟩

/-- `do_fence` removes what is flushed. -/
theorem doFence_listed {check : Pmemcheck} (ranges : Ranges check.pmemStores.toList) :
    check.doFence.pmemStores.toList =
        check.pmemStores.toList.filter (fun store => store.state ≠ .flushed) ∧
      check.doFence.pmemStores.duplicate = check.pmemStores.duplicate := by
  apply fenceStores_listed (check.pmemStores.size + 1) check.pmemStores.resetIter
    (List.nil_append _).symm rfl ranges
  exact Nat.lt_succ_self _

/-! ## Mappings -/

/-- Taking an element out by the key that found it is taking it out by its own. -/
theorem absorb_eq (search : PmemSt) (fuel : Nat) (entry : PmemSt) (set : OSet PmemSt)
    (ranges : Ranges set.toList) :
    absorb search fuel entry set = PmDebugger.absorb search fuel entry set := by
  induction fuel generalizing entry set with
  | zero => rfl
  | succ fuel inductionHypothesis =>
      cases searched : set.lookup (cmpPmemSt search) with
      | none => simp only [absorb, PmDebugger.absorb, searched]
      | some old =>
          have member := (lookup_sound searched).1
          have reflexive := ranges.reflexive member
          obtain ⟨before, after, listed, removed, _⟩ :=
            remove_found ranges.ordered reflexive searched
          obtain ⟨above, below⟩ := ordered_match (listed ▸ ranges.ordered)
          have own : set.lookup (cmpPmemSt old) = some old :=
            lookup_match listed above reflexive below
          have same : set.remove cmpPmemSt (cmpPmemSt search) =
              set.remove cmpPmemSt (cmpPmemSt old) := by
            simp only [OSet.remove, searched, own]
          have fewer : Ranges (set.remove cmpPmemSt (cmpPmemSt search)).toList := by
            rw [removed]
            exact (listed ▸ ranges).sublist (by simp)
          simp only [absorb, PmDebugger.absorb, searched, ← same]
          exact inductionHypothesis _ _ fewer

/-- `add_region` of the two tools. -/
theorem addRegion_eq (region : PmemSt) {set : OSet PmemSt} (regions : RegionSet set.toList) :
    addRegion region set = PmDebugger.addRegion region set := by
  simp only [addRegion, PmDebugger.addRegion, absorb_eq _ _ _ set regions.ranges]

/-! ## Cleaned ranges -/

/-- No record sticks out of the region on both sides. What is left of a record is then a part
of it that keeps its state, where the back part of a sliced one would be a fresh element. -/
def Unsliced (region : PmemSt) (stores : List PmemSt) : Prop :=
  ∀ store ∈ stores,
    ¬ (store.addr < region.addr ∧ region.addr + region.size < store.addr + store.size)

section Cleaning

variable {region entry : PmemSt}

/-- What is left of a record that is not sliced has its state. -/
theorem remainders_state (regionProper : region.Proper) (proper : entry.Proper)
    (unsliced : ¬ (entry.addr < region.addr ∧ region.addr + region.size < entry.addr + entry.size))
    {piece : PmemSt} (isPiece : piece ∈ remainders region entry 0) : piece.state = entry.state := by
  have regionMax := regionProper.nonWrapping.maxAddr_eq
  have entryMax := proper.nonWrapping.maxAddr_eq
  simp only [remainders, regionMax, entryMax, gt_iff_lt, if_neg unsliced] at isPiece
  split at isPiece
  · simp at isPiece
  · split at isPiece
    · rw [List.mem_singleton.mp isPiece]
      rfl
    · split at isPiece
      · rw [List.mem_singleton.mp isPiece]
        rfl
      · simp at isPiece

/-- A turn of the loop of `remove_region`. -/
theorem removeTurn_exchanged {set : OSet PmemSt} (proper : region.Proper)
    (ranges : Ranges set.toList) (unsliced : Unsliced region set.toList)
    (searched : set.lookup (cmpPmemSt region) = some entry) :
    let next := (mappingRemainders region entry).foldl
      (fun rest piece => rest.insert (cmpPmemSt piece) piece)
      (set.remove cmpPmemSt (cmpPmemSt region))
    Exchanged region set next ∧ Unsliced region next.toList := by
  intro next
  obtain ⟨member, meets⟩ := lookup_sound searched
  have entryProper := ranges.proper entry member
  obtain ⟨before, after, listed, removed, flag⟩ :=
    remove_found ranges.ordered (ranges.reflexive member) searched
  have meets' : cmpPmemSt entry region = .eq := by
    rw [cmpPmemSt_eq_iff proper.nonWrapping entryProper.nonWrapping] at meets
    rw [cmpPmemSt_eq_iff entryProper.nonWrapping proper.nonWrapping]
    exact meets.symm
  have excised := remainders_excised proper entryProper 0 meets'
  have refined : Ranges (before ++ remainders region entry 0 ++ after) :=
    (listed ▸ ranges : Ranges (before ++ entry :: after)).refine excised.ranges excised.within
  obtain ⟨put, putFlag⟩ := insertPieces_listing removed refined
  have nextListed : next.toList = before ++ remainders region entry 0 ++ after := put
  constructor
  · exact exchanged_of_excised ranges meets excised
      (fun piece isPiece => remainders_state proper entryProper (unsliced entry member) isPiece)
      listed nextListed (putFlag.trans flag)
  · intro store isStore slices
    rw [nextListed, List.append_assoc, List.mem_append, List.mem_append] at isStore
    rcases isStore with early | isPiece | late
    · exact unsliced store (by simp [listed, early]) slices
    · have pieceProper := excised.ranges.proper store isPiece
      apply excised.clear store isPiece
      rw [cmpPmemSt_eq_iff proper.nonWrapping pieceProper.nonWrapping]
      have := proper.nonempty
      omega
    · exact unsliced store (by simp [listed, late]) slices

/-- `remove_region` cuts a region out of the set, as long as it slices no record. -/
theorem removeRegion_cutOut {set : OSet PmemSt} (proper : region.Proper)
    (ranges : Ranges set.toList) (unsliced : Unsliced region set.toList) :
    CutOut region set (removeRegion region set) := by
  have loop (fuel : Nat) (set : OSet PmemSt) (ranges : Ranges set.toList)
      (unsliced : Unsliced region set.toList) (enough : overlaps region set.toList < fuel) :
      CutOut region set (removeRegionMappingLoop region fuel set) := by
    induction fuel generalizing set with
    | zero => omega
    | succ fuel inductionHypothesis =>
        cases searched : set.lookup (cmpPmemSt region) with
        | none =>
            simp only [removeRegionMappingLoop, searched]
            exact cutOut_clear proper ranges searched
        | some entry =>
            obtain ⟨exchanged, still⟩ := removeTurn_exchanged proper ranges unsliced searched
            have fewer := exchanged.fewer
            simp only [removeRegionMappingLoop, searched]
            exact exchanged.cutOut (inductionHypothesis _ exchanged.ranges still (by omega))
  exact loop (set.size + 1) set ranges unsliced (Nat.lt_succ_of_le List.countP_le_length)

end Cleaning

end Pmemcheck

end PmDebugger
