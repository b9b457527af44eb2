import PmDebugger.Library.Loops
import PmDebugger.Mappings
import PmDebugger.TreeUpdates

/-!
# The two removers of regions

`remove_region` edits the elements of a set in place while it walks over them, and
`remove_region_mapping` takes out one overlapping element after the other and puts back
what is left of it. The reference for both is the list of what is left of each element.
A turn of either loop keeps this list as it is, and both end with elements that have no
byte of the region, where the list is that of the elements themselves.

The elements may touch one another, as long as no byte is shared.
-/

namespace PmDebugger

open OrderedSet OrderedSet.OSet Loops

/-- The start and the size of an element. Listings are compared by their intervals, since the
two removal functions fill the other fields in differently. -/
def interval (store : PmemSt) : Nat × Nat := (store.addr, store.size)

/-- What is left of an element without the bytes of the region: nothing, one part or two, or
the element itself if it does not overlap the region. -/
def cutOut (region entry : PmemSt) : List PmemSt :=
  if cmpPmemSt entry region = .eq then remainders region entry 0 else [entry]

/-- The intervals that are left of the elements, in order. Both removal functions end with this
listing. -/
def leftover (region : PmemSt) (elems : List PmemSt) : List (Nat × Nat) :=
  (elems.flatMap (cutOut region)).map interval

/-- One turn of the loop of `remove_region_mapping`, unless no element overlaps the region. The
element found is removed and its parts are inserted. -/
def removeRegionMappingTurn (region : PmemSt) (set : OSet PmemSt) : Option (OSet PmemSt) :=
  match set.lookup (cmpPmemSt region) with
  | none => none
  | some entry => some ((mappingRemainders region entry).foldl
      (fun rest piece => rest.insert (cmpPmemSt piece) piece)
      (set.remove cmpPmemSt (cmpPmemSt region)))

section Leftover

variable {region : PmemSt} {elems : List PmemSt}

/-- What is left of two lists is left of each. -/
theorem leftover_append (region : PmemSt) (first second : List PmemSt) :
    leftover region (first ++ second) = leftover region first ++ leftover region second := by
  simp [leftover]

/-- Nothing is cut from elements beside the region. -/
theorem leftover_clear (clear : ∀ elem ∈ elems, cmpPmemSt elem region ≠ .eq) :
    leftover region elems = elems.map interval := by
  have each : elems.flatMap (cutOut region) = elems.flatMap (fun elem => [elem]) := by
    apply List.flatMap_congr
    intro elem member
    exact if_neg (clear elem member)
  rw [leftover, each, List.flatMap_singleton']

/-- The number that a new piece gets does not matter. -/
theorem remainders_interval (region entry : PmemSt) (dbIndex : Nat) :
    (remainders region entry dbIndex).map interval = (remainders region entry 0).map interval := by
  simp only [remainders]
  repeat' split
  all_goals rfl

/-- Exchanging an overlapped element for what is left of it does not change the rest. -/
theorem leftover_exchange {before after : List PmemSt} {entry : PmemSt} {dbIndex : Nat}
    (meets : cmpPmemSt entry region = .eq)
    (clear : ∀ piece ∈ remainders region entry dbIndex, cmpPmemSt piece region ≠ .eq) :
    leftover region (before ++ remainders region entry dbIndex ++ after) =
      leftover region (before ++ entry :: after) := by
  have exchanged : leftover region (remainders region entry dbIndex) = leftover region [entry] := by
    rw [leftover_clear clear, remainders_interval, leftover, List.flatMap_singleton, cutOut,
      if_pos meets]
  rw [← List.singleton_append (l := after), ← List.append_assoc, leftover_append, leftover_append,
    leftover_append, leftover_append, exchanged]

/-- The bytes of a listing are those of its intervals. -/
theorem tracks_intervals (elems : List PmemSt) (byte : Nat) :
    Tracks elems byte ↔ ∃ range ∈ elems.map interval, range.1 ≤ byte ∧
      byte < range.1 + range.2 := by
  simp only [Tracks, List.mem_map, interval, exists_exists_and_eq_and]
  rfl

/-- What is left of an element compares unequal to the region either way. -/
theorem Excised.beside {entry : PmemSt} {pieces : List PmemSt}
    (excised : Excised region entry pieces)
    (proper : region.Proper) : ∀ piece ∈ pieces, cmpPmemSt piece region ≠ .eq := by
  intro piece isPiece
  have fits := (excised.ranges.proper piece isPiece).nonWrapping
  have clear := excised.clear piece isPiece
  rw [ne_eq, cmpPmemSt_eq_iff proper.nonWrapping fits] at clear
  rw [ne_eq, cmpPmemSt_eq_iff fits proper.nonWrapping, and_comm]
  exact clear

/-- What is left of an element are its bytes outside the region. -/
theorem cutOut_bytes {entry : PmemSt} (proper : region.Proper) (entryProper : entry.Proper)
    (byte : Nat) : Tracks (cutOut region entry) byte ↔ entry.Covers byte ∧
      ¬ region.Covers byte := by
  unfold cutOut
  split
  · next meets => exact (remainders_excised proper entryProper 0 meets).bytes byte
  · next beside =>
    rw [tracks_cons, or_iff_left (tracks_nil byte)]
    refine (and_iff_left_of_imp (fun covered inside => beside ?_)).symm
    exact (cmpPmemSt_eq_iff_shared entryProper proper).mpr ⟨byte, covered, inside⟩

/-- The intervals that are left have the bytes outside the region. -/
theorem leftover_bytes (proper : region.Proper) (ranges : Ranges elems) (byte : Nat) :
    (∃ range ∈ leftover region elems, range.1 ≤ byte ∧ byte < range.1 + range.2) ↔
      Tracks elems byte ∧ ¬ region.Covers byte := by
  have each (entry : PmemSt) (member : entry ∈ elems) :=
    cutOut_bytes proper (ranges.proper entry member) byte
  rw [leftover, ← tracks_intervals]
  constructor
  · rintro ⟨piece, isPiece, covered⟩
    obtain ⟨entry, member, isPart⟩ := List.mem_flatMap.mp isPiece
    obtain ⟨inside, outside⟩ := (each entry member).mp ⟨piece, isPart, covered⟩
    exact ⟨⟨entry, member, inside⟩, outside⟩
  · rintro ⟨⟨entry, member, inside⟩, outside⟩
    obtain ⟨piece, isPart, covered⟩ := (each entry member).mpr ⟨inside, outside⟩
    exact ⟨piece, List.mem_flatMap.mpr ⟨entry, member, isPart⟩, covered⟩

end Leftover

/-! ## The walk of `remove_region` -/

section Walk

variable {region entry : PmemSt} {original done rest : List PmemSt} {set : OSet PmemSt}

/-- The walk stands between the elements that it has dealt with and the rest. What it has
passed lies clear of the region, and the leftover of the whole listing has not changed. -/
structure Removing (region : PmemSt) (original done rest : List PmemSt) (set : OSet PmemSt) :
    Prop where
  listed : set.toList = done ++ rest
  walk : set.iter = some done.length
  ranges : Ranges set.toList
  passed : ∀ elem ∈ done, cmpPmemSt elem region ≠ .eq
  same : leftover region set.toList = leftover region original

/-- A turn of the walk leaves fewer visits. -/
theorem Removing.turn (proper : region.Proper)
    (removing : Removing region original done (entry :: rest) set) (dbIndex : Nat) :
    ∃ next, removeRegionTurn cmpPmemSt region (set, dbIndex) = some next ∧
      ∃ done' rest', Removing region original done' rest' next.1 ∧
        visits region rest' < visits region (entry :: rest) := by
  obtain ⟨listed, walk, ranges, passed, same⟩ := removing
  rw [← List.singleton_append, visits_append]
  by_cases meets : cmpPmemSt entry region = .eq
  · have excised := remainders_excised proper (ranges.proper entry (by simp [listed])) dbIndex meets
    have clear := excised.beside proper
    have combined : Ranges (done ++ remainders region entry dbIndex ++ rest) :=
      (listed ▸ ranges : Ranges (done ++ entry :: rest)).refine excised.ranges excised.within
    obtain ⟨next, final, skipped, short, stepped, nextListed, nextWalk, progress, _⟩ :=
      removeRegionTurn_exact dbIndex listed walk ranges meets combined
    refine ⟨(next, final), stepped, done ++ (remainders region entry dbIndex).take skipped,
      (remainders region entry dbIndex).drop skipped ++
        rest, ⟨?_, ?_, nextListed ▸ combined, ?_, ?_⟩,
      ?_⟩
    · rw [nextListed]
      simp only [List.append_assoc]
      rw [← List.append_assoc (List.take _ _), List.take_append_drop]
    · simp [nextWalk, Nat.min_eq_left short]
    · intro elem member
      rcases List.mem_append.mp member with early | isPiece
      · exact passed elem early
      · exact clear elem (List.mem_of_mem_take isPiece)
    · rw [← same, nextListed, listed]
      exact leftover_exchange meets clear
    · have one : visits region [entry] = 3 := by simp [visits, meets]
      rw [visits_append, visits_clear (fun elem member => clear elem (List.mem_of_mem_drop member)),
        List.length_drop, one]
      omega
  · have one : visits region [entry] = 1 := by simp [visits, meets]
    refine ⟨({ set with iter := some (done.length + 1) }, dbIndex), ?_, done ++ [entry], rest,
      ⟨by simpa using listed, by simp, ranges, ?_, same⟩, by omega⟩
    · simp only [removeRegionTurn, next_some listed walk]
      exact if_pos meets
    · intro elem member
      rcases List.mem_append.mp member with early | here
      · exact passed elem early
      · rw [List.mem_singleton.mp here]
        exact meets

/-- `remove_region` ends, and leaves of each element what is outside the region. -/
theorem removeRegion_leaves (proper : region.Proper) (ranges : Ranges set.toList) (dbIndex : Nat) :
    (∃ enough, ∀ fuel ≥ enough, within (removeRegionTurn cmpPmemSt region) fuel
        (set.resetIter, dbIndex) = some (removeRegion cmpPmemSt region set dbIndex)) ∧
      Ranges (removeRegion cmpPmemSt region set dbIndex).1.toList ∧
      (removeRegion cmpPmemSt region set dbIndex).1.toList.map interval =
        leftover region set.toList := by
  obtain ⟨result, left, finished, _, done, rest, removing, _⟩ := within_ends
    (removeRegionTurn cmpPmemSt region)
    (fun rank state => ∃ done rest, Removing region set.toList done rest state.1 ∧
      visits region rest = rank)
    (fun rank state next stands turned => by
      obtain ⟨done, rest, removing, isRank⟩ := stands
      cases rest with
      | nil =>
        have ended : state.1.next = none := next_end
            (by simpa [removing.listed] using removing.walk)
        simp only [removeRegionTurn, ended] at turned
        cases turned
      | cons entry rest =>
        obtain ⟨later, isLater, done', rest', goesOn, fewer⟩ := removing.turn proper state.2
        rw [isLater] at turned
        cases turned
        exact ⟨visits region rest', isRank ▸ fewer, done', rest', goesOn, rfl⟩)
    (set.resetIter, dbIndex) ⟨[], set.toList, ⟨rfl, rfl, ranges, by simp, rfl⟩, rfl⟩
    (Nat.lt_succ_of_le (visits_le region set.toList))
  have isResult : result = removeRegion cmpPmemSt region set dbIndex := within_bounded
    (removeRegionTurn cmpPmemSt region) (fun fuel state =>
      removeRegionLoop cmpPmemSt region fuel state.1 state.2)
    (fun fuel state => removeRegionLoop_succ cmpPmemSt region fuel state.1 state.2) left
  rw [← isResult]
  refine ⟨⟨3 * set.size + 1, fun fuel enough => within_mono enough left⟩, removing.ranges, ?_⟩
  cases rest with
  | nil =>
    have listed := removing.listed
    rw [List.append_nil] at listed
    rw [← removing.same, leftover_clear (listed ▸ removing.passed)]
  | cons entry rest =>
    obtain ⟨_, more, _⟩ := removing.turn proper result.2
    rw [finished] at more
    cases more

end Walk

/-! ## The loop of `remove_region_mapping` -/

section Take

variable {region : PmemSt} {set : OSet PmemSt}

/-- The loop repeats its turn. -/
theorem removeRegionMappingLoop_succ (region : PmemSt) (fuel : Nat) (set : OSet PmemSt) :
    removeRegionMappingLoop region (fuel + 1) set =
      (removeRegionMappingTurn region set).elim set (removeRegionMappingLoop region fuel) := by
  simp only [removeRegionMappingLoop, removeRegionMappingTurn]
  cases set.lookup (cmpPmemSt region) <;> rfl

/-- A turn keeps what is left, and leaves fewer elements that overlap the region. -/
theorem removeRegionMappingTurn_exact (proper : region.Proper) (ranges : Ranges set.toList)
    {next : OSet PmemSt} (turned : removeRegionMappingTurn region set = some next) :
    Ranges next.toList ∧ leftover region next.toList = leftover region set.toList ∧
      overlapping region next.toList < overlapping region set.toList := by
  simp only [removeRegionMappingTurn] at turned
  cases searched : set.lookup (cmpPmemSt region) with
  | none =>
    rw [searched] at turned
    cases turned
  | some entry =>
    rw [searched] at turned
    obtain ⟨member, meets⟩ := lookup_sound searched
    have entryProper := ranges.proper entry member
    obtain ⟨before, after, listed, removed, _⟩ :=
      remove_found ranges.ordered (ranges.reflexive member) searched
    have meets' : cmpPmemSt entry region = .eq := by
      rw [cmpPmemSt_eq_iff proper.nonWrapping entryProper.nonWrapping] at meets
      rw [cmpPmemSt_eq_iff entryProper.nonWrapping proper.nonWrapping]
      exact meets.symm
    have excised := remainders_excised proper entryProper 0 meets'
    have refined : Ranges (before ++ remainders region entry 0 ++ after) :=
      (listed ▸ ranges : Ranges (before ++ entry :: after)).refine excised.ranges excised.within
    obtain ⟨put, _⟩ := insertPieces_listing removed refined
    obtain rfl : _ = next := Option.some.inj turned
    rw [mappingRemainders_eq, put, listed]
    refine ⟨refined, leftover_exchange meets' (excised.beside proper), ?_⟩
    have none : overlapping region (remainders region entry 0) = 0 :=
      List.countP_eq_zero.mpr (fun piece isPiece => by simpa using excised.clear piece isPiece)
    simp only [overlapping, List.countP_append, List.countP_cons, meets, decide_true,
      if_true] at none ⊢
    omega

/-- `remove_region_mapping` ends, and leaves of each element what is outside the region. -/
theorem removeRegionMapping_leaves (proper : region.Proper) (ranges : Ranges set.toList) :
    (∃ enough, ∀ fuel ≥ enough, within (removeRegionMappingTurn region) fuel set =
        some (removeRegionMapping region set)) ∧
      Ranges (removeRegionMapping region set).toList ∧
      (removeRegionMapping region set).toList.map interval = leftover region set.toList := by
  obtain ⟨result, left, finished, _, resultRanges, same, _⟩ := within_ends
    (removeRegionMappingTurn region)
    (fun rank state => Ranges state.toList ∧
      leftover region state.toList = leftover region set.toList ∧
      overlapping region state.toList = rank)
    (fun rank state next stands turned => by
      obtain ⟨stateRanges, same, isRank⟩ := stands
      obtain ⟨nextRanges, nextSame, fewer⟩ :=
        removeRegionMappingTurn_exact proper stateRanges turned
      exact ⟨_, isRank ▸ fewer, nextRanges, nextSame.trans same, rfl⟩)
    set ⟨ranges, rfl, rfl⟩ (Nat.lt_succ_of_le List.countP_le_length)
  have isResult : result = removeRegionMapping region set := within_bounded
    (removeRegionMappingTurn region) (removeRegionMappingLoop region)
    (removeRegionMappingLoop_succ region) left
  rw [← isResult]
  refine ⟨⟨set.size + 1, fun fuel enough => within_mono enough left⟩, resultRanges, ?_⟩
  have absent : result.lookup (cmpPmemSt region) = none := by
    simp only [removeRegionMappingTurn] at finished
    cases searched : result.lookup (cmpPmemSt region) with
    | none => rfl
    | some entry =>
      rw [searched] at finished
      cases finished
  rw [← same, leftover_clear (fun elem member meets => ?_)]
  have elemProper := resultRanges.proper elem member
  obtain ⟨byte, covered, inside⟩ := (cmpPmemSt_eq_iff_shared elemProper proper).mp meets
  exact (resultRanges.lookup_none_iff proper).mp absent byte inside ⟨elem, member, covered⟩

end Take

/-- The two removers agree: on a set of disjoint ranges both end, with the same intervals.
These are disjoint and have exactly the bytes outside the region.

Proof: both are compared with the list `leftover` of what the region leaves of each range. The
walk of `remove_region` stays at a range that it has cut, and that of `remove_region_mapping`
starts anew after each cut; in both the bytes shared with the region get fewer. -/
theorem region_removers_agree {set : OSet PmemSt} (ranges : Ranges set.toList) {region : PmemSt}
    (proper : region.Proper) (dbIndex : Nat) :
    let walked := (removeRegion cmpPmemSt region set dbIndex).1
    let taken := removeRegionMapping region set
    (∃ enough, ∀ fuel ≥ enough, within (removeRegionTurn cmpPmemSt region) fuel
        (set.resetIter, dbIndex) = some (removeRegion cmpPmemSt region set dbIndex)) ∧
      (∃ enough, ∀ fuel ≥ enough, within (removeRegionMappingTurn region) fuel set = some taken) ∧
      walked.toList.map interval = taken.toList.map interval ∧
      Ranges walked.toList ∧ Ranges taken.toList ∧
      ∀ byte, (Tracks walked.toList byte ↔ Tracks set.toList byte ∧ ¬ region.Covers byte) ∧
        (Tracks taken.toList byte ↔ Tracks set.toList byte ∧ ¬ region.Covers byte) := by
  obtain ⟨walkEnds, walkRanges, walkLeaves⟩ := removeRegion_leaves proper ranges dbIndex
  obtain ⟨takeEnds, takeRanges, takeLeaves⟩ := removeRegionMapping_leaves proper ranges
  refine ⟨walkEnds, takeEnds, walkLeaves.trans takeLeaves.symm, walkRanges, takeRanges,
    fun byte => ?_⟩
  rw [tracks_intervals, tracks_intervals (removeRegionMapping region set).toList, walkLeaves,
    takeLeaves]
  exact ⟨leftover_bytes proper ranges byte, leftover_bytes proper ranges byte⟩

/-- Three ranges, of which two touch. The region cuts the back of the first, takes the
second and cuts the front of the third. -/
theorem region_removers_agree_three :
    let set : OSet PmemSt := ⟨.node (.node .leaf (PmemSt.range 100 20) .leaf 0)
        (PmemSt.range 120 10) (.node .leaf (PmemSt.range 140 30) .leaf 0) 0, none, false⟩
    let region := PmemSt.range 110 40
    let walked := (removeRegion cmpPmemSt region set 0).1
    let taken := removeRegionMapping region set
    Ranges set.toList ∧ walked.toList.map interval = [(100, 10), (150, 20)] ∧
      ((∃ enough, ∀ fuel ≥ enough, within (removeRegionTurn cmpPmemSt region) fuel
        (set.resetIter, 0) = some (removeRegion cmpPmemSt region set 0)) ∧
      (∃ enough, ∀ fuel ≥ enough, within (removeRegionMappingTurn region) fuel set = some taken) ∧
      walked.toList.map interval = taken.toList.map interval ∧
      Ranges walked.toList ∧ Ranges taken.toList ∧
      ∀ byte, (Tracks walked.toList byte ↔ Tracks set.toList byte ∧ ¬ region.Covers byte) ∧
        (Tracks taken.toList byte ↔ Tracks set.toList byte ∧ ¬ region.Covers byte)) := by
  intro set region walked taken
  have ranges : Ranges set.toList := by
    constructor
    · simp only [proper_iff]
      decide
    · decide
  exact ⟨ranges, by decide, region_removers_agree ranges ⟨by decide, by decide⟩ 0⟩

end PmDebugger
