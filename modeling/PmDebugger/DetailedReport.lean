import PmDebugger.Live

/-!
# The detailed report

`print_store_stats_detail` enters every live record into `debug_memory_merge`, a set of
disjoint ranges. An entry first cuts its range out of the set, then swallows the
neighbours on both sides that it may be merged with. Neither step gains or loses a
byte, so at the end the set covers exactly the bytes of the live records.

The searches for the neighbours shift the range by one byte and wrap at the ends of
the address space. A wrapped search finds nothing, so a neighbour is then left alone.
-/

namespace PmDebugger

open OrderedSet OrderedSet.OSet PmemOps

/-- What an overlapped element is replaced by: ranges within it, clear of the region,
with its other bytes. -/
structure Excised (region old : PmemSt) (pieces : List PmemSt) : Prop where
  ranges : Ranges pieces
  within : ∀ piece ∈ pieces,
    old.addr ≤ piece.addr ∧ piece.addr + piece.size ≤ old.addr + old.size
  clear : ∀ piece ∈ pieces, cmpPmemSt region piece ≠ .eq
  bytes : ∀ byte, Tracks pieces byte ↔ old.Covers byte ∧ ¬ region.Covers byte

/-- The piece is what the old range has in front of the region. It begins where the range
begins and ends where the region does. -/
def IsFront (region old piece : PmemSt) : Prop :=
  piece.addr = old.addr ∧ piece.addr + piece.size = region.addr

/-- The piece is what the old range has behind the region. It begins where the region ends and
ends where the range does. -/
def IsBack (region old piece : PmemSt) : Prop :=
  piece.addr = region.addr + region.size ∧ piece.addr + piece.size = old.addr + old.size

/-- A front and a back piece, each present when there is something to keep there. -/
theorem excised_of_ends {region old : PmemSt} (regionProper : region.Proper)
    (proper : old.Proper) (meets : cmpPmemSt region old = .eq) (front back : Option PmemSt)
    (isFront : ∀ piece, front = some piece → old.addr < region.addr ∧ IsFront region old piece)
    (noFront : front = none → region.addr ≤ old.addr)
    (isBack : ∀ piece, back = some piece →
      region.addr + region.size < old.addr + old.size ∧ IsBack region old piece)
    (noBack : back = none → old.addr + old.size ≤ region.addr + region.size) :
    Excised region old (front.toList ++ back.toList) := by
  rw [cmpPmemSt_eq_iff regionProper.nonWrapping proper.nonWrapping] at meets
  have regionFits := regionProper.nonWrapping
  have oldFits := proper.nonWrapping
  have regionSize := regionProper.nonempty
  unfold PmemSt.NonWrapping at regionFits oldFits
  unfold IsFront at isFront
  unfold IsBack at isBack
  have side (piece : PmemSt) (member : piece ∈ front.toList ++ back.toList) :
      front = some piece ∨ back = some piece := by
    simpa [Option.mem_toList, eq_comm] using member
  have pieceProper (piece : PmemSt) (member : piece ∈ front.toList ++ back.toList) :
      piece.Proper := by
    rw [proper_iff]
    rcases side piece member with inFront | inBack
    · have := isFront piece inFront
      omega
    · have := isBack piece inBack
      omega
  refine ⟨⟨pieceProper, ?_⟩, ?_, ?_, ?_⟩
  · cases front with
    | none => cases back <;> simp
    | some first =>
      cases back with
      | none => simp
      | some second =>
        have := isFront first rfl
        have := isBack second rfl
        simp
        omega
  · intro piece member
    rcases side piece member with inFront | inBack
    · have := isFront piece inFront
      omega
    · have := isBack piece inBack
      omega
  · intro piece member equal
    rw [cmpPmemSt_eq_iff regionProper.nonWrapping (pieceProper piece member).nonWrapping] at equal
    rcases side piece member with inFront | inBack
    · have := isFront piece inFront
      omega
    · have := isBack piece inBack
      omega
  · intro byte
    constructor
    · rintro ⟨piece, member, inside⟩
      unfold PmemSt.Covers at inside ⊢
      rcases side piece member with inFront | inBack
      · have := isFront piece inFront
        omega
      · have := isBack piece inBack
        omega
    · rintro ⟨inside, outside⟩
      unfold PmemSt.Covers at inside outside
      by_cases early : byte < region.addr
      · cases front with
        | none =>
          have := noFront rfl
          omega
        | some piece =>
          have := isFront piece rfl
          exact ⟨piece, by simp, by unfold PmemSt.Covers; omega⟩
      · cases back with
        | none =>
          have := noBack rfl
          omega
        | some piece =>
          have := isBack piece rfl
          exact ⟨piece, by simp, by unfold PmemSt.Covers; omega⟩

/-- `split_stores` cuts the new range out of an old one that it overlaps. -/
theorem splitStores_exact {region old : PmemSt} (regionProper : region.Proper)
    (proper : old.Proper) (dbIndex : Nat) (meets : cmpPmemSt region old = .eq) :
    ∃ result, splitStores old region dbIndex = some result ∧
      (result.kept = none → result.after = none) ∧
      Excised region old (result.kept.toList ++ result.after.toList) := by
  have overlap := (cmpPmemSt_eq_iff regionProper.nonWrapping proper.nonWrapping).mp meets
  have regionMax := regionProper.nonWrapping.maxAddr_eq
  have oldMax := proper.nonWrapping.maxAddr_eq
  have excise := excised_of_ends regionProper proper meets
  have front {piece : PmemSt} (sticksOut : old.addr < region.addr) (addr : piece.addr = old.addr)
      (size : piece.size = Word64.sub region.addr old.addr) : IsFront region old piece := by
    rw [Word64.sub_eq (by omega)] at size
    unfold IsFront
    omega
  have back {piece : PmemSt} (sticksOut : region.addr + region.size < old.addr + old.size)
      (addr : piece.addr = region.addr + region.size)
      (size : piece.size = Word64.sub (old.addr + old.size) (region.addr + region.size)) :
      IsBack region old piece := by
    rw [Word64.sub_eq (by omega)] at size
    unfold IsBack
    omega
  unfold splitStores
  simp only [regionMax, oldMax]
  by_cases inside : old.addr ≥ region.addr ∧ old.addr + old.size ≤ region.addr + region.size
  · rw [if_pos inside]
    exact ⟨_, rfl, fun _ => rfl, excise none none (by simp) (fun _ => inside.1) (by simp)
      (fun _ => inside.2)⟩
  rw [if_neg inside]
  by_cases before : old.addr < region.addr
  · rw [if_pos before]
    by_cases behind : old.addr + old.size > region.addr + region.size
    · rw [if_pos behind]
      refine ⟨_, rfl, by simp, excise (some _) (some _) ?_ (by simp) ?_ (by simp)⟩
      · rintro piece ⟨⟩
        exact ⟨before, front before rfl rfl⟩
      · rintro piece ⟨⟩
        exact ⟨behind, back behind rfl rfl⟩
    · rw [if_neg behind]
      refine ⟨_, rfl, by simp, excise (some _) none ?_ (by simp) (by simp) (fun _ => by omega)⟩
      rintro piece ⟨⟩
      exact ⟨before, front before rfl rfl⟩
  · have behind : old.addr + old.size > region.addr + region.size := by omega
    rw [if_neg before, if_pos behind]
    refine ⟨_, rfl, by simp, excise none (some _) (by simp) (fun _ => by omega) ?_ (by simp)⟩
    rintro piece ⟨⟩
    exact ⟨behind, back behind rfl rfl⟩

/-- The piece keeps what decides whether a record may be merged: its state and its context. -/
structure SameMarks (piece old : PmemSt) : Prop where
  state : piece.state = old.state
  context : piece.context = old.context

/-- What is kept in place keeps its index, and the piece behind takes the next one. -/
theorem splitStores_marks {old new : PmemSt} {dbIndex : Nat} {result : SplitResult}
    (split : splitStores old new dbIndex = some result) :
    (∀ piece, result.kept = some piece → piece.index = old.index ∧ SameMarks piece old ∧
      piece.isDelete = old.isDelete) ∧
    ∀ piece, result.after = some piece → piece.index = dbIndex ∧ SameMarks piece old := by
  unfold splitStores at split
  simp only at split
  split at split
  · cases split
    simp
  · split at split
    · split at split
      · cases split
        constructor <;> rintro piece ⟨⟩
        · exact ⟨rfl, ⟨rfl, rfl⟩, rfl⟩
        · exact ⟨rfl, rfl, rfl⟩
      · cases split
        refine ⟨?_, by simp⟩
        rintro piece ⟨⟩
        exact ⟨rfl, ⟨rfl, rfl⟩, rfl⟩
    · split at split
      · cases split
        refine ⟨?_, by simp⟩
        rintro piece ⟨⟩
        exact ⟨rfl, ⟨rfl, rfl⟩, rfl⟩
      · cases split

/-- A turn of the loop that cuts the region out of the set. There is no further turn once
nothing is found, and none behind a failed assertion. -/
def cutTurn (region : PmemSt) (state : OSet PmemSt × Nat) : Option (OSet PmemSt × Nat) :=
  match state.1.lookup (cmpPmemSt region) with
  | none => none
  | some old =>
      match splitStores old region state.2 with
      | none => none
      | some result =>
          match result.kept, result.after with
          | none, _ =>
              some ((state.1.remove cmpPmemSt (cmpPmemSt old)).resetIterAt (cmpPmemSt old), state.2)
          | some kept, none => some (state.1.update (cmpPmemSt region) (fun _ => kept), state.2)
          | some kept, some after =>
              let cut := state.1.update (cmpPmemSt region) (fun _ => kept)
              some ((cut.insert (cmpPmemSt after) after).resetIterAt (cmpPmemSt kept), state.2 + 1)

/-- The loop with a bound on its turns makes these turns. -/
theorem cutOverlaps_succ (region : PmemSt) (fuel : Nat) (state : OSet PmemSt × Nat) :
    cutOverlaps region (fuel + 1) state.1 state.2 = (cutTurn region state).elim state
      (fun next => cutOverlaps region fuel next.1 next.2) := by
  obtain ⟨set, dbIndex⟩ := state
  simp only [cutOverlaps, cutTurn]
  cases set.lookup (cmpPmemSt region) with
  | none => rfl
  | some old =>
    simp only
    cases splitStores old region dbIndex with
    | none => rfl
    | some result =>
      obtain ⟨kept, after, overlap⟩ := result
      cases kept <;> cases after <;> rfl

/-- One turn of the loop replaces an overlapped element by its pieces. -/
theorem cutTurn_step {region : PmemSt} (proper : region.Proper)
    {set : OSet PmemSt} (dbIndex : Nat) (ranges : Ranges set.toList) {old : PmemSt}
    (searched : set.lookup (cmpPmemSt region) = some old) :
    ∃ before after pieces next final, set.toList = before ++ old :: after ∧
      Excised region old pieces ∧ next.toList = before ++ pieces ++ after ∧
      ((∀ piece ∈ pieces, SameMarks piece old) ∧ next.duplicate = set.duplicate) ∧
      cutTurn region (set, dbIndex) = some (next, final) := by
  obtain ⟨member, meets⟩ := lookup_sound searched
  obtain ⟨⟨kept, behind, overlap⟩, split, both, excised⟩ :=
    splitStores_exact proper (ranges.proper old member) dbIndex meets
  obtain ⟨keptMarks, behindMarks⟩ := splitStores_marks split
  obtain ⟨before, after, listed, edited⟩ := update_found searched
  have marks : ∀ piece ∈ kept.toList ++ behind.toList, SameMarks piece old := by
    intro piece isPiece
    rcases List.mem_append.mp isPiece with isKept | isBehind
    · exact (keptMarks piece (Option.mem_toList.mp isKept)).2.1
    · exact (behindMarks piece (Option.mem_toList.mp isBehind)).2
  refine ⟨before, after, kept.toList ++ behind.toList, ?_⟩
  have refined := (listed ▸ ranges).refine excised.ranges excised.within
  have reflexive := ranges.reflexive member
  simp only [cutTurn, searched, split]
  cases kept with
  | none =>
    obtain rfl : behind = none := both rfl
    obtain ⟨above, below⟩ := ordered_match (listed ▸ ranges.ordered)
    obtain ⟨removed, _⟩ := remove_match listed ranges.ordered reflexive
      (lookup_match listed above reflexive below)
    exact ⟨(set.remove cmpPmemSt (cmpPmemSt old)).resetIterAt (cmpPmemSt old), dbIndex, listed,
      excised, by simpa using removed, ⟨marks, remove_duplicate _ _ set⟩, rfl⟩
  | some first =>
    cases behind with
    | none => exact ⟨_, _, listed, excised, by simpa using edited (fun _ => first),
        ⟨marks, update_duplicate _ _ set⟩, rfl⟩
    | some second =>
      have newOrdered : Ordered cmpPmemSt ((before ++ [first]) ++ second :: after) := by
        simpa using refined.ordered
      obtain ⟨above, below⟩ := ordered_match newOrdered
      obtain ⟨inserted, flag⟩ := insert_split second
        ((edited (fun _ => first)).trans (List.append_cons ..)) above below
      exact ⟨((set.update (cmpPmemSt region) (fun _ => first)).insert (cmpPmemSt second)
        second).resetIterAt (cmpPmemSt first), dbIndex + 1, listed,
          excised, by simpa using inserted,
        ⟨marks, flag.trans (update_duplicate _ _ set)⟩, rfl⟩

/-- How many elements of the set the region overlaps. Each turn of the cutting loop makes this
number smaller. -/
def overlaps (region : PmemSt) (elems : List PmemSt) : Nat :=
  elems.countP (fun elem => cmpPmemSt region elem = .eq)

/-- Replacing an overlapped element by its pieces leaves one overlap less. -/
theorem overlaps_excised {region old : PmemSt} {elems next before pieces after : List PmemSt}
    (excised : Excised region old pieces) (meets : cmpPmemSt region old = .eq)
    (listed : elems = before ++ old :: after) (nextListed : next = before ++ pieces ++ after) :
    overlaps region next + 1 = overlaps region elems := by
  have piecesClear : overlaps region pieces = 0 := by
    refine List.countP_eq_zero.mpr (fun piece member => ?_)
    simpa using excised.clear piece member
  rw [nextListed, listed]
  unfold overlaps at piecesClear ⊢
  simp only [List.countP_append, List.countP_cons, piecesClear, meets]
  simp
  omega

/-- The loop cuts the region out of the set. -/
theorem cutOverlaps_exact {region : PmemSt} (proper : region.Proper) (fuel : Nat)
    (set : OSet PmemSt) (dbIndex : Nat) (enough : overlaps region set.toList < fuel)
    (ranges : Ranges set.toList) :
    Ranges (cutOverlaps region fuel set dbIndex).1.toList ∧
      (∀ elem ∈ (cutOverlaps region fuel set dbIndex).1.toList, cmpPmemSt region elem ≠ .eq) ∧
      ∀ byte, Tracks (cutOverlaps region fuel set dbIndex).1.toList byte ↔
        Tracks set.toList byte ∧ ¬ region.Covers byte := by
  induction fuel generalizing set dbIndex with
  | zero => omega
  | succ fuel inductionHypothesis =>
    cases searched : set.lookup (cmpPmemSt region) with
    | none =>
      have result : cutOverlaps region (fuel + 1) set dbIndex = (set, dbIndex) := by
        simp [cutOverlaps, searched]
      rw [result]
      refine ⟨ranges, (lookup_none (ranges.guides proper)).mp searched, fun byte => ?_⟩
      have outside := (ranges.lookup_none_iff proper).mp searched byte
      tauto
    | some old =>
      obtain ⟨before, after, pieces, next, final, listed, excised, nextListed, _, turned⟩ :=
        cutTurn_step proper dbIndex ranges searched
      have fewer := overlaps_excised excised (lookup_sound searched).2 listed nextListed
      obtain ⟨cutRanges, clear, bytes⟩ := inductionHypothesis next final (by omega)
        (nextListed ▸ (listed ▸ ranges).refine excised.ranges excised.within)
      rw [cutOverlaps_succ region fuel (set, dbIndex), turned, Option.elim_some]
      refine ⟨cutRanges, clear, fun byte => ?_⟩
      rw [bytes byte, nextListed, listed]
      simp only [tracks_append, tracks_cons, excised.bytes byte]
      tauto

/-- Whatever the fuel, the loop fails no insertion, and its elements are parts of the old
ones. -/
theorem cutOverlaps_keeps {region : PmemSt} (proper : region.Proper) (fuel : Nat)
    (set : OSet PmemSt) (dbIndex : Nat) (ranges : Ranges set.toList) :
    (cutOverlaps region fuel set dbIndex).1.duplicate = set.duplicate ∧
      ∀ elem ∈ (cutOverlaps region fuel set dbIndex).1.toList, ∃ old ∈ set.toList,
        SameMarks elem old ∧ ∀ byte, elem.Covers byte → old.Covers byte := by
  induction fuel generalizing set dbIndex with
  | zero => exact ⟨rfl, fun elem member => ⟨elem, member, ⟨rfl, rfl⟩, fun _ inside => inside⟩⟩
  | succ fuel inductionHypothesis =>
    cases searched : set.lookup (cmpPmemSt region) with
    | none =>
      have result : cutOverlaps region (fuel + 1) set dbIndex = (set, dbIndex) := by
        simp [cutOverlaps, searched]
      rw [result]
      exact ⟨rfl, fun elem member => ⟨elem, member, ⟨rfl, rfl⟩, fun _ inside => inside⟩⟩
    | some old =>
      obtain ⟨before, after, pieces, next, final, listed, excised, nextListed, ⟨marks, flag⟩,
        turned⟩ := cutTurn_step proper dbIndex ranges searched
      obtain ⟨laterFlag, laterMarks⟩ := inductionHypothesis next final
        (nextListed ▸ (listed ▸ ranges).refine excised.ranges excised.within)
      rw [cutOverlaps_succ region fuel (set, dbIndex), turned, Option.elim_some]
      refine ⟨laterFlag.trans flag, fun elem member => ?_⟩
      obtain ⟨between, isBetween, same, covers⟩ := laterMarks elem member
      rw [nextListed, List.append_assoc, List.mem_append, List.mem_append] at isBetween
      rw [listed]
      rcases isBetween with early | isPiece | late
      · exact ⟨between, by simp [early], same, covers⟩
      · have pieceMarks := marks between isPiece
        refine ⟨old, by simp, ⟨same.state.trans pieceMarks.state,
          same.context.trans pieceMarks.context⟩, fun byte inside => ?_⟩
        exact ((excised.bytes byte).mp ⟨between, isPiece, covers byte inside⟩).1
      · exact ⟨between, by simp [late], same, covers⟩

/-- A region and a set of ranges clear of it. This is what the cutting loop leaves. -/
structure Beside (region : PmemSt) (elems : List PmemSt) : Prop where
  proper : region.Proper
  ranges : Ranges elems
  clear : ∀ elem ∈ elems, cmpPmemSt region elem ≠ .eq

/-- No element of the set shares a byte with the region. -/
theorem Beside.outside {region : PmemSt} {elems : List PmemSt} (beside : Beside region elems)
    {elem : PmemSt} (member : elem ∈ elems) {byte : Nat} (inside : region.Covers byte) :
    ¬ elem.Covers byte :=
  fun covered => beside.clear elem member ((cmpPmemSt_eq_iff_shared beside.proper
    (beside.ranges.proper elem member)).mpr ⟨byte, inside, covered⟩)

/-- `merge_stores` of two ranges that touch is their union. -/
theorem mergeStores_exact {region old : PmemSt} (proper : region.Proper) (oldProper : old.Proper)
    (touch : old.addr + old.size = region.addr ∨ region.addr + region.size = old.addr) :
    (mergeStores region old).Proper ∧
      ((mergeStores region old).addr ≤ region.addr ∧
        region.addr + region.size ≤ (mergeStores region old).addr + (mergeStores region old).size) ∧
      ∀ byte, (mergeStores region old).Covers byte ↔ region.Covers byte ∨ old.Covers byte := by
  have regionFits := proper.nonWrapping
  have oldFits := oldProper.nonWrapping
  unfold PmemSt.NonWrapping at regionFits oldFits
  have regionSize := proper.nonempty
  have oldSize := oldProper.nonempty
  have addr : (mergeStores region old).addr = min region.addr old.addr := rfl
  have size : (mergeStores region old).size =
      max (region.addr + region.size) (old.addr + old.size) - min region.addr old.addr := by
    unfold mergeStores
    simp only [proper.nonWrapping.maxAddr_eq, oldProper.nonWrapping.maxAddr_eq]
    exact Word64.sub_eq (by omega)
  refine ⟨?_, ?_, ?_⟩
  · rw [proper_iff]
    omega
  · omega
  · intro byte
    unfold PmemSt.Covers
    omega

/-- A search that only finds neighbours of the region merges nothing else. -/
theorem mergeNeighbour_exact (isIpMemsetMemcpy : Nat → Bool) (search : PmemSt) {region : PmemSt}
    {set : OSet PmemSt} (beside : Beside region set.toList)
    (touch : ∀ elem ∈ set.toList, cmpPmemSt search elem = .eq →
      elem.addr + elem.size = region.addr ∨ region.addr + region.size = elem.addr) :
    Beside (mergeNeighbour isIpMemsetMemcpy search region set).1
        (mergeNeighbour isIpMemsetMemcpy search region set).2.toList ∧
      ((mergeNeighbour isIpMemsetMemcpy search region set).1.addr ≤ region.addr ∧
        region.addr + region.size ≤ (mergeNeighbour isIpMemsetMemcpy search region set).1.addr +
          (mergeNeighbour isIpMemsetMemcpy search region set).1.size) ∧
      ∀ byte, ((mergeNeighbour isIpMemsetMemcpy search region set).1.Covers byte ∨
          Tracks (mergeNeighbour isIpMemsetMemcpy search region set).2.toList byte) ↔
        region.Covers byte ∨ Tracks set.toList byte := by
  have unchanged : Beside region set.toList ∧
      (region.addr ≤ region.addr ∧ region.addr + region.size ≤ region.addr + region.size) ∧
      ∀ byte, (region.Covers byte ∨ Tracks set.toList byte) ↔
        region.Covers byte ∨ Tracks set.toList byte :=
    ⟨beside, ⟨Nat.le_refl _, Nat.le_refl _⟩, fun _ => Iff.rfl⟩
  unfold mergeNeighbour
  cases searched : set.lookup (cmpPmemSt search) with
  | none => exact unchanged
  | some old =>
    simp only
    split
    · obtain ⟨member, meets⟩ := lookup_sound searched
      obtain ⟨before, after, listed, removed, _⟩ :=
        remove_found beside.ranges.ordered (beside.ranges.reflexive member) searched
      obtain ⟨mergedProper, hull, bytes⟩ := mergeStores_exact beside.proper
        (beside.ranges.proper old member) (touch old member meets)
      have ranges := listed ▸ beside.ranges
      have part : (before ++ after).Sublist (before ++ old :: after) :=
        List.Sublist.append (List.Sublist.refl _) (List.sublist_cons_self _ _)
      rw [removed]
      refine ⟨⟨mergedProper, ranges.sublist part, ?_⟩, hull, ?_⟩
      · intro elem isElem equal
        have elemProper := ranges.proper elem (part.subset isElem)
        obtain ⟨byte, inMerged, inElem⟩ :=
          (cmpPmemSt_eq_iff_shared mergedProper elemProper).mp equal
        rcases (bytes byte).mp inMerged with inRegion | inOld
        · exact beside.outside (listed ▸ part.subset isElem) inRegion inElem
        · exact ranges.apart isElem inOld inElem
      · intro byte
        rw [bytes byte, listed]
        simp only [tracks_append, tracks_cons]
        tauto
    · exact unchanged

/-- The range shifted down by one byte meets only the neighbour in front. At address
zero the shift wraps, and it meets nothing. -/
theorem left_touch {region elem : PmemSt} (proper : region.Proper) (elemProper : elem.Proper)
    (clear : cmpPmemSt region elem ≠ .eq)
    (meets : cmpPmemSt { region with addr := Word64.sub region.addr 1 } elem = .eq) :
    elem.addr + elem.size = region.addr := by
  have regionFits := proper.nonWrapping
  have elemFits := elemProper.nonWrapping
  have regionSize := proper.nonempty
  have elemSize := elemProper.nonempty
  rw [ne_eq, cmpPmemSt_eq_iff proper.nonWrapping elemProper.nonWrapping] at clear
  unfold PmemSt.NonWrapping at regionFits elemFits
  obtain ⟨start, stop⟩ := cmpPmemSt_eq_bounds meets
  rw [elemProper.nonWrapping.maxAddr_eq] at stop
  unfold PmemSt.maxAddr at start
  simp only at start stop
  by_cases positive : 1 ≤ region.addr
  · rw [Word64.sub_eq positive] at start stop
    rw [Word64.add_eq (by omega)] at start
    omega
  · unfold Word64.add Word64.sub at start
    rw [if_neg positive] at start
    split at start <;> omega

/-- The range shifted up by one byte meets only the neighbour behind. -/
theorem right_touch {region merged elem : PmemSt} (proper : region.Proper)
    (mergedProper : merged.Proper) (elemProper : elem.Proper)
    (hull : merged.addr ≤ region.addr ∧
      region.addr + region.size ≤ merged.addr + merged.size)
    (clear : cmpPmemSt merged elem ≠ .eq)
    (meets : cmpPmemSt { region with
      addr := Word64.add (Word64.sub region.addr 1) 2 } elem = .eq) :
    merged.addr + merged.size = elem.addr := by
  have regionFits := proper.nonWrapping
  have mergedFits := mergedProper.nonWrapping
  have elemFits := elemProper.nonWrapping
  have regionSize := proper.nonempty
  have elemSize := elemProper.nonempty
  rw [ne_eq, cmpPmemSt_eq_iff mergedProper.nonWrapping elemProper.nonWrapping] at clear
  unfold PmemSt.NonWrapping at regionFits mergedFits elemFits
  have shifted : Word64.add (Word64.sub region.addr 1) 2 = region.addr + 1 := by
    unfold Word64.add Word64.sub
    split <;> split <;> omega
  rw [shifted] at meets
  obtain ⟨start, stop⟩ := cmpPmemSt_eq_bounds meets
  rw [elemProper.nonWrapping.maxAddr_eq] at stop
  unfold PmemSt.maxAddr Word64.add at start
  simp only at start stop
  split at start <;> omega

/-- What holds of the region and the set after the overlaps are cut, and is kept by every
merge with a neighbour, holds when room is made. -/
theorem makeRoom_rule (isIpMemsetMemcpy : Nat → Bool) {region : PmemSt} (proper : region.Proper)
    {set : OSet PmemSt} (ranges : Ranges set.toList) (dbIndex : Nat)
    {P : PmemSt → OSet PmemSt → Prop} (cut : P region
      (cutOverlaps region (set.size + 1) set dbIndex).1)
    (merge : ∀ search merged rest, Beside merged rest.toList →
      (∀ elem ∈ rest.toList, cmpPmemSt search elem = .eq →
        elem.addr + elem.size = merged.addr ∨ merged.addr + merged.size = elem.addr) →
      P merged rest → P (mergeNeighbour isIpMemsetMemcpy search merged rest).1
        (mergeNeighbour isIpMemsetMemcpy search merged rest).2) :
    Beside (makeRoom isIpMemsetMemcpy region set dbIndex).1
        (makeRoom isIpMemsetMemcpy region set dbIndex).2.1.toList ∧
      P (makeRoom isIpMemsetMemcpy region set dbIndex).1
        (makeRoom isIpMemsetMemcpy region set dbIndex).2.1 := by
  obtain ⟨cutRanges, clear, _⟩ := cutOverlaps_exact proper (set.size + 1) set dbIndex
    (Nat.lt_succ_of_le List.countP_le_length) ranges
  unfold makeRoom
  simp only
  generalize (cutOverlaps region (set.size + 1) set dbIndex).1 = start at *
  have left (elem : PmemSt) (member : elem ∈ start.toList)
      (meets : cmpPmemSt { region with addr := Word64.sub region.addr 1 } elem = .eq) :
      elem.addr + elem.size = region.addr ∨ region.addr + region.size = elem.addr :=
    .inl (left_touch proper (cutRanges.proper elem member) (clear elem member) meets)
  have first := merge _ region start ⟨proper, cutRanges, clear⟩ left cut
  obtain ⟨beside, hull, _⟩ := mergeNeighbour_exact isIpMemsetMemcpy
    { region with addr := Word64.sub region.addr 1 } ⟨proper, cutRanges, clear⟩ left
  generalize mergeNeighbour isIpMemsetMemcpy { region with addr := Word64.sub region.addr 1 } region
    start = merged at *
  have right (elem : PmemSt) (member : elem ∈ merged.2.toList)
      (meets : cmpPmemSt { region with
        addr := Word64.add (Word64.sub region.addr 1) 2 } elem = .eq) :
      elem.addr + elem.size = merged.1.addr ∨ merged.1.addr + merged.1.size = elem.addr :=
    .inr (right_touch proper beside.proper (beside.ranges.proper elem member) hull
      (beside.clear elem member) meets)
  exact ⟨(mergeNeighbour_exact isIpMemsetMemcpy _ beside right).1, merge _ _ _ beside right first⟩

/-- Making room for a region moves bytes between the region and the set, but neither
gains nor loses any. -/
theorem makeRoom_exact (isIpMemsetMemcpy : Nat → Bool) {region : PmemSt} (proper : region.Proper)
    {set : OSet PmemSt} (ranges : Ranges set.toList) (dbIndex : Nat) :
    Beside (makeRoom isIpMemsetMemcpy region set dbIndex).1
        (makeRoom isIpMemsetMemcpy region set dbIndex).2.1.toList ∧
      ∀ byte, ((makeRoom isIpMemsetMemcpy region set dbIndex).1.Covers byte ∨
          Tracks (makeRoom isIpMemsetMemcpy region set dbIndex).2.1.toList byte) ↔
        region.Covers byte ∨ Tracks set.toList byte := by
  obtain ⟨_, _, cutBytes⟩ := cutOverlaps_exact proper (set.size + 1) set dbIndex
    (Nat.lt_succ_of_le List.countP_le_length) ranges
  apply makeRoom_rule isIpMemsetMemcpy proper ranges dbIndex
    (P := fun merged rest => ∀ byte, (merged.Covers byte ∨ Tracks rest.toList byte) ↔
      region.Covers byte ∨ Tracks set.toList byte)
  · intro byte
    rw [cutBytes byte]
    tauto
  · intro search merged rest beside touch kept byte
    obtain ⟨_, _, bytes⟩ := mergeNeighbour_exact isIpMemsetMemcpy search beside touch
    exact (bytes byte).trans (kept byte)

/-- Looking for a neighbour fails no insertion, keeps the marks of the region and adds no
element. -/
theorem mergeNeighbour_keeps (isIpMemsetMemcpy : Nat → Bool) (search region : PmemSt)
    {set : OSet PmemSt} (ranges : Ranges set.toList) :
    SameMarks (mergeNeighbour isIpMemsetMemcpy search region set).1 region ∧
      (mergeNeighbour isIpMemsetMemcpy search region set).2.duplicate = set.duplicate ∧
      ∀ elem ∈ (mergeNeighbour isIpMemsetMemcpy search region set).2.toList, elem ∈ set.toList := by
  unfold mergeNeighbour
  cases searched : set.lookup (cmpPmemSt search) with
  | none => exact ⟨⟨rfl, rfl⟩, rfl, fun _ member => member⟩
  | some old =>
    simp only
    split
    · obtain ⟨before, after, listed, removed, flag⟩ := remove_found ranges.ordered
        (ranges.reflexive (lookup_sound searched).1) searched
      refine ⟨⟨rfl, rfl⟩, flag, fun elem member => ?_⟩
      rw [removed] at member
      rw [listed]
      simp only [List.mem_append, List.mem_cons] at member ⊢
      tauto
    · exact ⟨⟨rfl, rfl⟩, rfl, fun _ member => member⟩

/-- Making room fails no insertion and keeps the marks of the region and of the parts that
stay. -/
theorem makeRoom_keeps (isIpMemsetMemcpy : Nat → Bool) {region : PmemSt} (proper : region.Proper)
    {set : OSet PmemSt} (ranges : Ranges set.toList) (dbIndex : Nat) :
    SameMarks (makeRoom isIpMemsetMemcpy region set dbIndex).1 region ∧
      (makeRoom isIpMemsetMemcpy region set dbIndex).2.1.duplicate = set.duplicate ∧
      ∀ elem ∈ (makeRoom isIpMemsetMemcpy region set dbIndex).2.1.toList, ∃ old ∈ set.toList,
        SameMarks elem old ∧ ∀ byte, elem.Covers byte → old.Covers byte := by
  obtain ⟨cutFlag, cutMarks⟩ := cutOverlaps_keeps proper (set.size + 1) set dbIndex ranges
  refine (makeRoom_rule isIpMemsetMemcpy proper ranges dbIndex
    (P := fun merged rest => SameMarks merged region ∧ rest.duplicate = set.duplicate ∧
      ∀ elem ∈ rest.toList, ∃ old ∈ set.toList,
        SameMarks elem old ∧ ∀ byte, elem.Covers byte → old.Covers byte)
    ⟨⟨rfl, rfl⟩, cutFlag, cutMarks⟩ ?_).2
  rintro search merged rest beside _ ⟨marks, flag, parts⟩
  obtain ⟨newMarks, newFlag, newElems⟩ :=
    mergeNeighbour_keeps isIpMemsetMemcpy search merged beside.ranges
  exact ⟨⟨newMarks.state.trans marks.state, newMarks.context.trans marks.context⟩,
    newFlag.trans flag, fun elem member => parts elem (newElems elem member)⟩

/-- `db_add_and_merge_store` adds the bytes of the region to the set. -/
theorem dbAddAndMergeStore_exact (isIpMemsetMemcpy : Nat → Bool) {region : PmemSt}
    (proper : region.Proper) {set : OSet PmemSt} (ranges : Ranges set.toList) (dbIndex : Nat) :
    Ranges (dbAddAndMergeStore isIpMemsetMemcpy region set dbIndex).2.1.toList ∧
      ∀ byte, Tracks (dbAddAndMergeStore isIpMemsetMemcpy region set dbIndex).2.1.toList byte ↔
        region.Covers byte ∨ Tracks set.toList byte := by
  obtain ⟨beside, bytes⟩ := makeRoom_exact isIpMemsetMemcpy proper ranges dbIndex
  unfold dbAddAndMergeStore
  simp only
  generalize makeRoom isIpMemsetMemcpy region set dbIndex = room at *
  have entryProper : ({ room.1 with index := room.2.2 } : PmemSt).Proper :=
    ⟨beside.proper.nonempty, beside.proper.nonWrapping⟩
  obtain ⟨inserted, insertedBytes⟩ := beside.ranges.insert entryProper beside.clear
  exact ⟨inserted, fun byte => (insertedBytes byte).trans (bytes byte)⟩

/-- The region keeps its delete mark when room is made for it. -/
theorem makeRoom_isDelete (isIpMemsetMemcpy : Nat → Bool) (region : PmemSt) (set : OSet PmemSt)
    (dbIndex : Nat) : (makeRoom isIpMemsetMemcpy region set dbIndex).1.isDelete =
      region.isDelete := by
  have merge (search region : PmemSt) (set : OSet PmemSt) :
      (mergeNeighbour isIpMemsetMemcpy search region set).1.isDelete = region.isDelete := by
    simp only [mergeNeighbour]
    split
    · rfl
    · split <;> rfl
  simp only [makeRoom]
  rw [merge, merge]

/-- Entering one record adds its bytes to the report. -/
theorem reportStore_exact (pmem : PmemOps) {store : PmemSt} (proper : store.Proper)
    (ranges : Ranges (reported pmem)) :
    (pmem.reportStore store).1 = { pmem with
        debugMemoryMerge := (pmem.reportStore store).1.debugMemoryMerge
        dbPmemStoreIndex := (pmem.reportStore store).1.dbPmemStoreIndex } ∧
      Ranges (reported (pmem.reportStore store).1) ∧
      ∀ byte, Tracks (reported (pmem.reportStore store).1) byte ↔
        store.Covers byte ∨ Tracks (reported pmem) byte :=
  ⟨rfl, dbAddAndMergeStore_exact pmem.opts.isIpMemsetMemcpy proper ranges pmem.dbPmemStoreIndex⟩

/-- The record itself may grow, but only by bytes that are in the report. -/
theorem reportStore_record (pmem : PmemOps) {store : PmemSt} (proper : store.Proper)
    (ranges : Ranges (reported pmem)) :
    (pmem.reportStore store).2.Proper ∧ (pmem.reportStore store).2.isDelete = store.isDelete ∧
      ∀ byte, (pmem.reportStore store).2.Covers byte →
        store.Covers byte ∨ Tracks (reported pmem) byte := by
  obtain ⟨beside, bytes⟩ :=
    makeRoom_exact pmem.opts.isIpMemsetMemcpy proper ranges pmem.dbPmemStoreIndex
  exact ⟨beside.proper, makeRoom_isDelete _ _ _ _, fun byte inside => (bytes byte).mp (.inl inside)⟩

/-- The report in the course of the array loops: the records entered so far make up the
report. A slot whose record grew has no byte beyond its own ones and those. -/
structure Reporting (start : PmemOps) (records : List PmemSt) (state : PmemOps) : Prop where
  frame : state = { start with
    slots := state.slots
    debugMemoryMerge := state.debugMemoryMerge
    dbPmemStoreIndex := state.dbPmemStoreIndex }
  deleted : ∀ slot, (state.slots slot).isDelete = (start.slots slot).isDelete
  proper : ∀ slot, (start.slots slot).Proper → (state.slots slot).Proper
  grown : ∀ slot byte, (state.slots slot).Covers byte ∨ Tracks records byte ↔
    (start.slots slot).Covers byte ∨ Tracks records byte
  ranges : Ranges (reported state)
  bytes : ∀ byte, Tracks (reported state) byte ↔ Tracks records byte

namespace Reporting

variable {start state : PmemOps} {records : List PmemSt}

/-- The body of the inner loop. -/
theorem slot (reporting : Reporting start records state) (tag : FlushedState) {index : Nat}
    (proper : (start.slots index).Proper) :
    Reporting start (records ++ slotLive tag (start.slots index)) (state.reportSlot tag index) := by
  have held := (settle_proper tag (state.slots index)).mpr (reporting.proper index proper)
  unfold reportSlot slotLive
  simp only [reporting.deleted index]
  split
  · rw [List.append_nil]
    exact reporting
  · next undeleted =>
    obtain ⟨frame, ranges, bytes⟩ := reportStore_exact state held reporting.ranges
    obtain ⟨newProper, newMark, newBytes⟩ := reportStore_record state held reporting.ranges
    generalize state.reportStore (settle tag (state.slots index)) = result at *
    have entered (byte : Nat) :
        Tracks (records ++ [settle tag (start.slots index)]) byte ↔
          (state.slots index).Covers byte ∨ Tracks records byte := by
      rw [reporting.grown, tracks_append, tracks_cons, settle_covers]
      simp only [tracks_nil, or_false]
      exact or_comm
    have unchanged : result.1.slots = state.slots := by rw [frame]
    refine ⟨?_, fun slot => ?_, fun slot isProper => ?_, fun slot byte =>
      ?_, ranges, fun byte => ?_⟩
    · show result.1.setSlot index result.2 = _
      rw [frame, reporting.frame]
      rfl
    · rw [setSlot_slots]
      split
      · next same =>
        rw [same, newMark, ← reporting.deleted index]
        unfold settle
        split <;> rfl
      · rw [unchanged]
        exact reporting.deleted slot
    · rw [setSlot_slots]
      split
      · exact newProper
      · rw [unchanged]
        exact reporting.proper slot isProper
    · rw [setSlot_slots]
      split
      · next same =>
        rw [same, entered]
        constructor
        · rintro (inside | old)
          · have := newBytes byte inside
            rw [settle_covers, reporting.bytes] at this
            exact .inr this
          · exact .inr old
        · rintro (inside | old)
          · exact .inr ((reporting.grown index byte).mpr (.inl inside))
          · exact .inr old
      · have before := reporting.grown slot byte
        rw [unchanged, tracks_append, ← or_assoc, before, or_assoc]
    · rw [entered, ← reporting.bytes byte]
      exact (bytes byte).trans (or_congr_left (settle_covers _ _ _))

/-- The inner loop. -/
theorem slots (tag : FlushedState) (indices : List Nat) (reporting : Reporting start records state)
    (proper : ∀ index ∈ indices, (start.slots index).Proper) :
    Reporting start (records ++ indices.flatMap (fun index => slotLive tag (start.slots index)))
      (indices.foldl (reportSlot tag) state) := by
  induction indices generalizing records state with
  | nil => simpa using reporting
  | cons index rest inductionHypothesis =>
    have first := reporting.slot tag (proper index List.mem_cons_self)
    rw [List.flatMap_cons, ← List.append_assoc]
    exact inductionHypothesis first (fun later member =>
      proper later (List.mem_cons_of_mem _ member))

/-- The outer loop. -/
theorem snippets (indices : List Nat) (reporting : Reporting start records state)
    (proper : ∀ sIndex ∈ indices, ∀ slot, InSnippet start sIndex slot → (start.slots slot).Proper) :
    Reporting start (records ++ indices.flatMap (snippetLive start))
      (indices.foldl reportSnippet state) := by
  induction indices generalizing records state with
  | nil => simpa using reporting
  | cons sIndex rest inductionHypothesis =>
    have same : state.snippetInfo sIndex = start.snippetInfo sIndex := by rw [reporting.frame]
    have first := reporting.slots (start.snippetInfo sIndex).flushedNum
      (slotRange (start.snippetInfo sIndex))
      (fun index member => proper sIndex List.mem_cons_self index (mem_slotRange.mp member))
    have turn : Reporting start (records ++ snippetLive start sIndex)
        (state.reportSnippet sIndex) := by
      unfold reportSnippet
      rw [same]
      exact first
    rw [List.flatMap_cons, ← List.append_assoc]
    exact inductionHypothesis turn (fun later member =>
      proper later (List.mem_cons_of_mem _ member))

end Reporting

/-- The array loops enter exactly the live records of the array. -/
theorem reportSnippets_exact {start : PmemOps}
    (proper : ∀ sIndex ≤ start.snippetInfoIndex, ∀ slot, InSnippet start sIndex slot →
      (start.slots slot).Proper) (fresh : reported start = []) :
    Reporting start start.liveSlots
      ((List.range (start.snippetInfoIndex + 1)).foldl reportSnippet start) := by
  have entered : Reporting start [] start :=
    ⟨rfl, fun _ => rfl, fun _ => id, fun _ _ =>
      Iff.rfl, fresh ▸ ranges_nil, fun byte => by rw [fresh]⟩
  have whole := entered.snippets (List.range (start.snippetInfoIndex + 1))
    (fun sIndex member => proper sIndex (Nat.lt_succ_iff.mp (List.mem_range.mp member)))
  rw [List.nil_append] at whole
  exact whole

/-- The walk over the tree enters the records ahead of it, one by one, under the same options. -/
theorem reportTree_rule {opts : Options} {P : List PmemSt → List PmemSt → Prop}
    (enter : ∀ records pmem store, pmem.opts = opts → store.Proper → P records (reported pmem) →
      P (records ++ [store]) (reported (pmem.reportStore store).1)) (fuel : Nat) (pmem : PmemOps)
    (done rest records : List PmemSt) (sameOpts : pmem.opts = opts) (enough : rest.length < fuel)
    (listed : pmem.pmemStores.toList = done ++ rest)
      (walk : pmem.pmemStores.iter = some done.length)
    (proper : ∀ store ∈ rest, store.Proper) (start : P records (reported pmem)) :
    P (records ++ rest) (reported (reportTree fuel pmem)) := by
  induction fuel generalizing pmem done rest records with
  | zero => omega
  | succ fuel inductionHypothesis =>
    cases rest with
    | nil =>
      rw [List.append_nil] at listed
      have finished : pmem.pmemStores.next = none := next_end (by rw [walk, listed])
      simp only [reportTree, finished, List.append_nil]
      exact start
    | cons store rest =>
      simp only [List.length_cons] at enough
      simp only [reportTree, next_some listed walk]
      let walked : OSet PmemSt := { pmem.pmemStores with iter := some (done.length + 1) }
      have walkedListed : walked.toList = done ++ store :: rest := listed
      have entered := enter records { pmem with pmemStores := walked } store sameOpts
        (proper store List.mem_cons_self) start
      have keptOpts : (({ pmem with pmemStores := walked } : PmemOps).reportStore store).1.opts =
          opts := sameOpts
      generalize ({ pmem with pmemStores := walked } : PmemOps).reportStore store = result at *
      have edited := modifyAt_match walkedListed (fun _ => result.2)
      rw [List.append_cons]
      exact inductionHypothesis { result.1 with
          pmemStores := walked.modifyAt done.length (fun _ => result.2) } (done ++ [result.2]) rest
        (records ++ [store]) keptOpts (by omega) (edited.trans (List.append_cons ..))
        (by simp [OSet.modifyAt, walked])
        (fun other member => proper other (List.mem_cons_of_mem _ member)) entered

/-- The detailed report is a set of disjoint ranges with exactly the bytes of the live
records, if all records are proper. -/
theorem printStoreStatsDetail_cover {pmem : PmemOps}
    (slots : ∀ sIndex ≤ pmem.snippetInfoIndex, ∀ slot, InSnippet pmem sIndex slot →
      (pmem.slots slot).Proper)
    (stores : ∀ store ∈ pmem.pmemStores.toList, store.Proper) :
    Ranges (reported pmem.printStoreStatsDetail) ∧
      ∀ byte, Tracks (reported pmem.printStoreStatsDetail) byte ↔ Tracks pmem.live byte := by
  let start : PmemOps := { pmem with debugMemoryMerge := some create, notPmemNum := 0 }
  have array : Reporting start start.liveSlots
      ((List.range (start.snippetInfoIndex + 1)).foldl reportSnippet start) :=
    reportSnippets_exact slots rfl
  have printed : reported pmem.printStoreStatsDetail = reported (
      let entered := (List.range (start.snippetInfoIndex + 1)).foldl reportSnippet start
      reportTree (entered.pmemStores.size + 1)
        { entered with pmemStores := entered.pmemStores.resetIter }) := rfl
  rw [printed]
  simp only
  generalize (List.range (start.snippetInfoIndex + 1)).foldl reportSnippet start = entered at *
  have sameStores : entered.pmemStores = pmem.pmemStores := by rw [array.frame]
  rw [live]
  apply reportTree_rule (P := fun records entries => Ranges entries ∧
      ∀ byte, Tracks entries byte ↔ Tracks records byte) _ (entered.pmemStores.size + 1)
    { entered with pmemStores := entered.pmemStores.resetIter } [] pmem.pmemStores.toList _
    rfl (by rw [sameStores]; exact Nat.lt_succ_self _) (by rw [sameStores]; rfl) rfl stores
    ⟨array.ranges, array.bytes⟩
  rintro records pmem store _ proper ⟨ranges, bytes⟩
  obtain ⟨_, newRanges, newBytes⟩ := reportStore_exact pmem proper ranges
  refine ⟨newRanges, fun byte => ?_⟩
  rw [newBytes, bytes, tracks_append, tracks_cons]
  simp only [tracks_nil, or_false]
  exact or_comm

/-- The listing covers the bytes of the live records. -/
theorem printStoreStatsDetail_live {pmem : PmemOps}
    (slots : ∀ sIndex ≤ pmem.snippetInfoIndex, ∀ slot, InSnippet pmem sIndex slot →
      (pmem.slots slot).Proper)
    (stores : ∀ store ∈ pmem.pmemStores.toList, store.Proper) (byte : Nat) :
    Tracks (reported pmem.printStoreStatsDetail) byte ↔ Tracks pmem.live byte :=
  (printStoreStatsDetail_cover slots stores).2 byte

/-- In a well-formed tracker too, as its records are proper. -/
theorem printStoreStatsDetail_exact {pmem : PmemOps} (well : WellFormed pmem) (byte : Nat) :
    Tracks (reported pmem.printStoreStatsDetail) byte ↔ Tracks pmem.live byte :=
  printStoreStatsDetail_live
    (fun sIndex used slot inside => (well.slots sIndex used slot inside).proper)
    (fun store member => (well.stores store member).proper) byte

end PmDebugger
