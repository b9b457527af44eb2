import Mathlib.Data.List.Pairwise
import PmDebugger.Records

/-!
# Region sets

The set operations of `pmc_common.c`. `addRegion` merges overlapping and
neighbouring regions; `removeRegion` edits a set in place while walking it.

A region set is a listing of nonempty intervals in increasing order with a gap
between neighbours. Every loop is bounded by explicit fuel; the exactness laws
establish that the bound suffices, since they describe the final contents.
-/

namespace PmDebugger

open OrderedSet OrderedSet.OSet

/-- `is_in_mapping_set`: 0 if the region is not in the set, 1 if it lies fully
within one element, 2 if it overlaps an element otherwise. -/
def isInMappingSet (region : PmemSt) (set : OSet PmemSt) : Nat :=
  match set.lookup (cmpPmemSt region) with
  | none => 0
  | some entry => checkOverlap region entry

/-- The loop of `add_region`: absorb every element that meets the search range,
which stays the one computed from the original region. -/
def absorb (search : PmemSt) : Nat → PmemSt → OSet PmemSt → PmemSt × OSet PmemSt
  | 0, entry, set => (entry, set)
  | fuel + 1, entry, set =>
      match set.lookup (cmpPmemSt search) with
      | none => (entry, set)
      | some oldEntry =>
          let maxAddr := max entry.maxAddr oldEntry.maxAddr
          let addr := min entry.addr oldEntry.addr
          absorb search fuel { entry with addr := addr, size := Word64.sub maxAddr addr }
            (set.remove cmpPmemSt (cmpPmemSt oldEntry))

/-- The range in which `add_region` looks for regions to merge: one byte more on
either side. -/
def searchEntry (entry : PmemSt) : PmemSt :=
  { entry with addr := Word64.sub entry.addr 1, size := Word64.add entry.size 2 }

/-- `add_region`. The elements that the widened search finds are absorbed into the new region
one by one, and the result is inserted as a clean element. -/
def addRegion (region : PmemSt) (set : OSet PmemSt) : OSet PmemSt :=
  let entry := { region with state := .clean }
  let (merged, rest) := absorb (searchEntry entry) (set.size + 1) entry set
  rest.insert (cmpPmemSt merged) merged

/-- The loop of `remove_region` over a set ordered by `cmp`. The last component
is `db_pmem_store_index`, which numbers the piece behind a cut. -/
def removeRegionLoop (cmp : PmemSt → PmemSt → Ordering) (region : PmemSt) :
    Nat → OSet PmemSt → Nat → OSet PmemSt × Nat
  | 0, set, dbIndex => (set, dbIndex)
  | fuel + 1, set, dbIndex =>
      match set.next with
      | none => (set, dbIndex)
      | some (position, entry, walked) =>
          if cmpPmemSt entry region ≠ .eq then removeRegionLoop cmp region fuel walked dbIndex
          else if entry.addr > region.addr ∧ entry.maxAddr < region.maxAddr then
            removeRegionLoop cmp region fuel
              ((walked.remove cmp (cmp entry)).resetIterAt (cmp entry)) dbIndex
          else if entry.addr < region.addr ∧ entry.maxAddr > region.maxAddr then
            let front := { entry with size := Word64.sub region.addr entry.addr }
            let newRegion := { PmemSt.range region.maxAddr (Word64.sub entry.maxAddr region.maxAddr)
              with index := dbIndex }
            removeRegionLoop cmp region fuel
              (((walked.modifyAt position (fun _ => front)).insert (cmp newRegion)
                newRegion).resetIterAt (cmp front)) (dbIndex + 1)
          else if entry.addr ≥ region.addr ∧ entry.maxAddr > region.maxAddr then
            let back := { entry with
              size := Word64.sub entry.size (Word64.sub region.maxAddr entry.addr)
              addr := region.maxAddr }
            removeRegionLoop cmp region fuel (walked.modifyAt position (fun _ => back)) dbIndex
          else if entry.maxAddr ≤ region.maxAddr ∧ region.addr > entry.addr then
            let front := { entry with size := Word64.sub region.addr entry.addr }
            removeRegionLoop cmp region fuel (walked.modifyAt position (fun _ => front)) dbIndex
          else
            removeRegionLoop cmp region fuel
              ((walked.remove cmp (cmp entry)).resetIterAt (cmp entry)) dbIndex

/-- `remove_region`. Each element is met at most three times: once as found, once
more after a cut, and once as the piece behind the cut. -/
def removeRegion (cmp : PmemSt → PmemSt → Ordering) (region : PmemSt) (set : OSet PmemSt)
    (dbIndex : Nat) : OSet PmemSt × Nat :=
  removeRegionLoop cmp region (3 * set.size + 1) set.resetIter dbIndex

/-- A range that `add_region` can widen by one byte on either side without wrapping. It needs a
byte in front of it and one behind it. -/
structure PmemSt.Inner (store : PmemSt) : Prop where
  positive : 1 ≤ store.addr
  nonempty : 0 < store.size
  below : store.addr + store.size < 2 ^ 64 - 1

instance (store : PmemSt) : Decidable store.Inner :=
  decidable_of_iff (1 ≤ store.addr ∧ 0 < store.size ∧ store.addr + store.size < 2 ^ 64 - 1)
    ⟨fun ⟨positive, nonempty, below⟩ => ⟨positive, nonempty, below⟩,
      fun inner => ⟨inner.positive, inner.nonempty, inner.below⟩⟩

/-- A region inside the address space is a proper range. -/
theorem PmemSt.Inner.proper {store : PmemSt} (inner : store.Inner) : store.Proper where
  nonempty := inner.nonempty
  nonWrapping := by
    have := inner.below
    unfold PmemSt.NonWrapping
    omega

/-- Disjoint, non-adjacent intervals in increasing order. At least one byte lies between an
element and the next, so a union of regions has one listing only. -/
structure RegionSet (elems : List PmemSt) : Prop where
  inner : ∀ elem ∈ elems, elem.Inner
  apart : elems.Pairwise (fun first second => first.addr + first.size < second.addr)

/-- The bytes of a listing. Two listings may differ in their elements and still track the same
bytes. -/
def Tracks (elems : List PmemSt) (byte : Nat) : Prop := ∃ elem ∈ elems, elem.Covers byte

instance (elems : List PmemSt) (byte : Nat) : Decidable (Tracks elems byte) :=
  inferInstanceAs (Decidable (∃ elem ∈ elems, elem.Covers byte))

/-- No regions at all are a region set. -/
theorem regionSet_nil : RegionSet [] := ⟨by simp, List.Pairwise.nil⟩

/-- Nothing is tracked by no records. -/
@[simp] theorem tracks_nil (byte : Nat) : ¬ Tracks [] byte := by
  simp [Tracks]

/-- Records tracked in two lists are tracked in one or the other. -/
theorem tracks_append (first second : List PmemSt) (byte : Nat) :
    Tracks (first ++ second) byte ↔ Tracks first byte ∨ Tracks second byte := by
  simp [Tracks, or_and_right, exists_or]

/-- A byte is tracked by the first record or by the rest. -/
theorem tracks_cons (elem : PmemSt) (rest : List PmemSt) (byte : Nat) :
    Tracks (elem :: rest) byte ↔ elem.Covers byte ∨ Tracks rest byte := by
  simp [Tracks]

/-- Disjoint nonempty ranges in increasing order. Unlike the elements of a region set, they may
touch. -/
structure Ranges (elems : List PmemSt) : Prop where
  proper : ∀ elem ∈ elems, elem.Proper
  disjoint : elems.Pairwise (fun first second => first.addr + first.size ≤ second.addr)

/-- No ranges at all are disjoint. -/
theorem ranges_nil : Ranges [] := ⟨by simp, List.Pairwise.nil⟩

namespace Ranges

variable {elems : List PmemSt}

/-- Fewer ranges are disjoint still. -/
theorem sublist {fewer : List PmemSt} (ranges : Ranges elems) (part : fewer.Sublist elems) :
    Ranges fewer where
  proper elem member := ranges.proper elem (part.subset member)
  disjoint := ranges.disjoint.sublist part

/-- Disjoint ranges are ordered by their own comparison. -/
theorem ordered (ranges : Ranges elems) : Ordered cmpPmemSt elems := by
  refine List.Pairwise.imp_of_mem ?_ ranges.disjoint
  intro first second member member' clear
  have firstProper := ranges.proper first member
  have secondProper := ranges.proper second member'
  rw [cmpPmemSt_lt_iff firstProper.nonWrapping,
    cmpPmemSt_gt_iff secondProper.nonWrapping firstProper.nonWrapping]
  have := firstProper.nonempty
  have := secondProper.nonempty
  omega

/-- Every element compares equal to itself. -/
theorem reflexive (ranges : Ranges elems) {elem : PmemSt} (member : elem ∈ elems) :
    cmpPmemSt elem elem = .eq := by
  have proper := ranges.proper elem member
  rw [cmpPmemSt_eq_iff proper.nonWrapping proper.nonWrapping]
  have := proper.nonempty
  omega

/-- A nonempty range guides every search among disjoint ranges. -/
theorem guides (ranges : Ranges elems) {key : PmemSt} (proper : key.Proper) :
    AvlTree.Guides (cmpPmemSt key) elems := by
  refine List.Pairwise.imp_of_mem ?_ ranges.disjoint
  intro first second member member' clear
  have firstProper := ranges.proper first member
  have secondProper := ranges.proper second member'
  have keySize := proper.nonempty
  have firstSize := firstProper.nonempty
  have secondSize := secondProper.nonempty
  rw [cmpPmemSt_lt_iff proper.nonWrapping, cmpPmemSt_lt_iff proper.nonWrapping,
    cmpPmemSt_gt_iff proper.nonWrapping secondProper.nonWrapping,
    cmpPmemSt_gt_iff proper.nonWrapping firstProper.nonWrapping]
  constructor <;> omega

/-- A search fails exactly when the range shares no byte with the set. -/
theorem lookup_none_iff {set : OSet PmemSt} (ranges : Ranges set.toList) {key : PmemSt}
    (proper : key.Proper) :
    set.lookup (cmpPmemSt key) = none ↔ ∀ byte, key.Covers byte → ¬ Tracks set.toList byte := by
  rw [lookup_none (ranges.guides proper)]
  constructor
  · rintro apart byte inside ⟨elem, member, covered⟩
    exact apart elem member
      ((cmpPmemSt_eq_iff_shared proper (ranges.proper elem member)).mpr ⟨byte, inside, covered⟩)
  · intro outside elem member equal
    obtain ⟨byte, inside, covered⟩ :=
      (cmpPmemSt_eq_iff_shared proper (ranges.proper elem member)).mp equal
    exact outside byte inside ⟨elem, member, covered⟩

/-- Replacing one element by ranges within it keeps the ranges disjoint. -/
theorem refine {before after middle : List PmemSt} {elem : PmemSt}
    (ranges : Ranges (before ++ elem :: after)) (inside : Ranges middle)
    (within : ∀ piece ∈ middle,
      elem.addr ≤ piece.addr ∧ piece.addr + piece.size ≤ elem.addr + elem.size) :
    Ranges (before ++ middle ++ after) := by
  obtain ⟨firsts, tail, across⟩ := List.pairwise_append.mp ranges.disjoint
  obtain ⟨fromElem, lasts⟩ := List.pairwise_cons.mp tail
  constructor
  · intro store member
    rcases List.mem_append.mp member with early | late
    · rcases List.mem_append.mp early with first | between
      · exact ranges.proper store (by simp [first])
      · exact inside.proper store between
    · exact ranges.proper store (by simp [late])
  · refine List.pairwise_append.mpr ⟨?_, lasts, ?_⟩
    · refine List.pairwise_append.mpr ⟨firsts, inside.disjoint, ?_⟩
      intro first member piece isPiece
      have := across first member elem (by simp)
      have := within piece isPiece
      omega
    · intro store member last isLast
      rcases List.mem_append.mp member with early | isPiece
      · exact across store early last (by simp [isLast])
      · have := within store isPiece
        have := fromElem last isLast
        omega

/-- The other elements have no byte of an element. -/
theorem apart {before after : List PmemSt} {elem other : PmemSt}
    (ranges : Ranges (before ++ elem :: after)) (member : other ∈ before ++ after) {byte : Nat}
    (inside : elem.Covers byte) : ¬ other.Covers byte := by
  obtain ⟨_, tail, across⟩ := List.pairwise_append.mp ranges.disjoint
  unfold PmemSt.Covers at inside ⊢
  rcases List.mem_append.mp member with early | late
  · have := across other early elem (by simp)
    omega
  · have := (List.pairwise_cons.mp tail).1 other late
    omega

/-- Inserting a range clear of every element extends the set by its bytes. -/
theorem insert {set : OSet PmemSt} (ranges : Ranges set.toList) {entry : PmemSt}
    (proper : entry.Proper) (clear : ∀ elem ∈ set.toList, cmpPmemSt entry elem ≠ .eq) :
    Ranges (set.insert (cmpPmemSt entry) entry).toList ∧
      ∀ byte, Tracks (set.insert (cmpPmemSt entry) entry).toList byte ↔
        entry.Covers byte ∨ Tracks set.toList byte := by
  obtain ⟨before, after, listed, above, below⟩ := exists_split (ranges.guides proper) clear
  obtain ⟨inserted, _⟩ := insert_split entry listed above below
  rw [listed] at ranges
  obtain ⟨firsts, lasts, across⟩ := List.pairwise_append.mp ranges.disjoint
  constructor
  · rw [inserted]
    constructor
    · intro store member
      rcases List.mem_append.mp member with early | later
      · exact ranges.proper store (by simp [early])
      · rcases List.mem_cons.mp later with rfl | late
        · exact proper
        · exact ranges.proper store (by simp [late])
    · refine List.pairwise_append.mpr ⟨firsts, List.pairwise_cons.mpr ⟨?_, lasts⟩, ?_⟩
      · intro last member
        exact (cmpPmemSt_lt_iff proper.nonWrapping).mp (below last member)
      · intro first member store isStore
        rcases List.mem_cons.mp isStore with rfl | late
        · exact ((cmpPmemSt_gt_iff proper.nonWrapping
            (ranges.proper first (by simp [member])).nonWrapping).mp (above first member)).2
        · exact across first member store late
  · intro byte
    rw [inserted, listed, tracks_append, tracks_append, tracks_cons]
    tauto

end Ranges

namespace RegionSet

variable {elems : List PmemSt}

/-- Any subsequence of a region set is a region set. -/
theorem sublist {fewer : List PmemSt} (regions : RegionSet elems) (part : fewer.Sublist elems) :
    RegionSet fewer where
  inner elem member := regions.inner elem (part.subset member)
  apart := regions.apart.sublist part

/-- Regions are disjoint ranges. -/
theorem ranges (regions : RegionSet elems) : Ranges elems where
  proper elem member := (regions.inner elem member).proper
  disjoint := List.Pairwise.imp Nat.le_of_lt regions.apart

/-- Regions stand in the order of their comparator. -/
theorem ordered (regions : RegionSet elems) : Ordered cmpPmemSt elems := regions.ranges.ordered

/-- The comparator finds each region equal to itself. -/
theorem reflexive (regions : RegionSet elems) {elem : PmemSt} (member : elem ∈ elems) :
    cmpPmemSt elem elem = .eq := regions.ranges.reflexive member

/-- A search for a proper key is led by the order of the regions. -/
theorem guides (regions : RegionSet elems) {key : PmemSt} (proper : key.Proper) :
    AvlTree.Guides (cmpPmemSt key) elems := regions.ranges.guides proper

/-- A lookup finds nothing if and only if no region shares a byte with the key. -/
theorem lookup_none_iff {set : OSet PmemSt} (regions : RegionSet set.toList) {key : PmemSt}
    (proper : key.Proper) :
    set.lookup (cmpPmemSt key) = none ↔ ∀ byte, key.Covers byte → ¬ Tracks set.toList byte :=
  regions.ranges.lookup_none_iff proper

/-- Two neighbours of a listing may be replaced by any region between the others. -/
theorem replace {before after middle : List PmemSt} (regions : RegionSet (before ++ after))
    (inside : RegionSet middle)
    (fromBefore : ∀ first ∈ before, ∀ elem ∈ middle, first.addr + first.size < elem.addr)
    (toAfter : ∀ elem ∈ middle, ∀ last ∈ after, elem.addr + elem.size < last.addr) :
    RegionSet (before ++ middle ++ after) where
  inner elem member := by
    rcases List.mem_append.mp member with early | late
    · rcases List.mem_append.mp early with first | between
      · exact regions.inner elem (by simp [first])
      · exact inside.inner elem between
    · exact regions.inner elem (by simp [late])
  apart := by
    obtain ⟨firsts, lasts, across⟩ := List.pairwise_append.mp regions.apart
    refine List.pairwise_append.mpr ⟨?_, lasts, ?_⟩
    · exact List.pairwise_append.mpr ⟨firsts, inside.apart, fromBefore⟩
    · intro first member last member'
      rcases List.mem_append.mp member with early | between
      · exact across first early last member'
      · exact toAfter first between last member'

/-- Replacing one element by regions within it keeps a region set. -/
theorem refine {before after middle : List PmemSt} {elem : PmemSt}
    (regions : RegionSet (before ++ elem :: after)) (inside : RegionSet middle)
    (within : ∀ piece ∈ middle,
      elem.addr ≤ piece.addr ∧ piece.addr + piece.size ≤ elem.addr + elem.size) :
    RegionSet (before ++ middle ++ after) := by
  obtain ⟨_, tail, across⟩ := List.pairwise_append.mp regions.apart
  refine (regions.sublist (by simp)).replace inside ?_ ?_
  · intro first member piece isPiece
    have := across first member elem (by simp)
    have := within piece isPiece
    omega
  · intro piece isPiece last member
    have := (List.pairwise_cons.mp tail).1 last member
    have := within piece isPiece
    omega

end RegionSet

/-- A single region. -/
theorem regionSet_singleton {elem : PmemSt} (inner : elem.Inner) : RegionSet [elem] where
  inner other member := by
    rw [List.mem_singleton.mp member]
    exact inner
  apart := List.pairwise_singleton ..

/-- Inserting a region that keeps a gap to every element extends the set by its
bytes. -/
theorem insert_region {set : OSet PmemSt} (regions : RegionSet set.toList) {entry : PmemSt}
    (inner : entry.Inner)
    (gap : ∀ elem ∈ set.toList,
      elem.addr + elem.size < entry.addr ∨ entry.addr + entry.size < elem.addr) :
    RegionSet (set.insert (cmpPmemSt entry) entry).toList ∧
      (∀ byte, Tracks (set.insert (cmpPmemSt entry) entry).toList byte ↔
        entry.Covers byte ∨ Tracks set.toList byte) ∧
      (set.insert (cmpPmemSt entry) entry).duplicate = set.duplicate := by
  have proper := inner.proper
  have fresh : ∀ elem ∈ set.toList, cmpPmemSt entry elem ≠ .eq := by
    intro elem member equal
    rw [cmpPmemSt_eq_iff proper.nonWrapping (regions.inner elem member).proper.nonWrapping] at equal
    have := gap elem member
    omega
  obtain ⟨before, after, listed, above, below⟩ := exists_split (regions.guides proper) fresh
  obtain ⟨inserted, sameFlag⟩ := insert_split entry listed above below
  rw [listed] at regions
  have combined : RegionSet (before ++ [entry] ++ after) := by
    refine regions.replace (regionSet_singleton inner) ?_ ?_
    · intro first member elem isEntry
      rw [List.mem_singleton.mp isEntry]
      have compared := above first member
      rw [cmpPmemSt_gt_iff proper.nonWrapping
        (regions.inner first (by simp [member])).proper.nonWrapping] at compared
      have := gap first (by simp [listed, member])
      omega
    · intro elem isEntry last member
      rw [List.mem_singleton.mp isEntry]
      have compared := below last member
      rw [cmpPmemSt_lt_iff proper.nonWrapping] at compared
      have := gap last (by simp [listed, member])
      have := (regions.inner last (by simp [member])).nonempty
      omega
  refine ⟨by simpa [inserted] using combined, ?_, sameFlag⟩
  intro byte
  rw [inserted, listed, tracks_append, tracks_append, tracks_cons]
  tauto

/-- The search range of `add_region` meets exactly the regions that overlap or
touch the original one. -/
theorem searchEntry_meets {entry elem : PmemSt} (inner : entry.Inner) (other : elem.Inner) :
    (searchEntry entry).Proper ∧
      (cmpPmemSt (searchEntry entry) elem = .eq ↔
        elem.addr ≤ entry.addr + entry.size ∧ entry.addr ≤ elem.addr + elem.size) := by
  have positive := inner.positive
  have below := inner.below
  have addr : (searchEntry entry).addr = entry.addr - 1 := Word64.sub_eq positive
  have size : (searchEntry entry).size = entry.size + 2 := Word64.add_eq (by omega)
  have proper : (searchEntry entry).Proper :=
    ⟨by omega, by unfold PmemSt.NonWrapping; omega⟩
  refine ⟨proper, ?_⟩
  rw [cmpPmemSt_eq_iff proper.nonWrapping other.proper.nonWrapping, addr, size]
  omega

/-- The merging loop ends with a region that keeps a gap to all that is left and
covers exactly the bytes that left the set.

Every element either still meets the fixed search range or already keeps a gap to
the growing entry. A merged element touches the original region, so the hull
computed from the extreme addresses adds no byte; and it kept a gap to the other
elements, so these keep one to the hull. -/
theorem absorb_exact (region : PmemSt) (regionInner : region.Inner) (fuel : Nat) (entry : PmemSt)
    (set : OSet PmemSt) (enough : set.toList.length < fuel) (regions : RegionSet set.toList)
    (inner : entry.Inner)
    (hull : entry.addr ≤ region.addr ∧ region.addr + region.size ≤ entry.addr + entry.size)
    (gap : ∀ elem ∈ set.toList, cmpPmemSt (searchEntry region) elem = .eq ∨
      elem.addr + elem.size < entry.addr ∨ entry.addr + entry.size < elem.addr) :
    ∃ merged rest, absorb (searchEntry region) fuel entry set = (merged, rest) ∧
      RegionSet rest.toList ∧ merged.Inner ∧
      (∀ elem ∈ rest.toList,
        elem.addr + elem.size < merged.addr ∨ merged.addr + merged.size < elem.addr) ∧
      (∀ byte, merged.Covers byte ∨ Tracks rest.toList byte ↔
        entry.Covers byte ∨ Tracks set.toList byte) ∧
      rest.duplicate = set.duplicate := by
  induction fuel generalizing entry set with
  | zero => omega
  | succ fuel inductionHypothesis =>
    have searchProper : (searchEntry region).Proper :=
      (searchEntry_meets regionInner regionInner).1
    cases searched : set.lookup (cmpPmemSt (searchEntry region)) with
    | none =>
      have outside := (lookup_none (regions.guides searchProper)).mp searched
      refine ⟨entry, set, by simp [absorb, searched], regions, inner, ?_, fun _ => Iff.rfl, rfl⟩
      intro elem member
      exact (gap elem member).resolve_left (outside elem member)
    | some oldEntry =>
      obtain ⟨member, equal⟩ := lookup_sound searched
      have oldInner := regions.inner oldEntry member
      obtain ⟨touchLeft, touchRight⟩ := (searchEntry_meets regionInner oldInner).2.mp equal
      have ownKey : set.lookup (cmpPmemSt oldEntry) = some oldEntry := by
        obtain ⟨before, after, listed⟩ := List.append_of_mem member
        obtain ⟨above, below⟩ := ordered_match (listed ▸ regions.ordered)
        exact lookup_match listed above (regions.reflexive member) below
      obtain ⟨before, after, listed, removed, sameFlag⟩ :=
        remove_found regions.ordered (regions.reflexive member) ownKey
      -- The hull is computed with wrapping arithmetic that does not wrap here.
      have entryMax := inner.proper.nonWrapping.maxAddr_eq
      have oldMax := oldInner.proper.nonWrapping.maxAddr_eq
      have entryBelow := inner.below
      have oldBelow := oldInner.below
      have entrySize := inner.nonempty
      have oldSize := oldInner.nonempty
      have regionSize := regionInner.nonempty
      have hullSize : Word64.sub (max entry.maxAddr oldEntry.maxAddr)
          (min entry.addr oldEntry.addr) =
          max (entry.addr + entry.size) (oldEntry.addr + oldEntry.size) -
            min entry.addr oldEntry.addr := by
        rw [entryMax, oldMax]
        exact Word64.sub_eq (by omega)
      have positive := inner.positive
      have oldPositive := oldInner.positive
      obtain ⟨merged, rest, absorbed, restRegions, mergedInner, restGap, bytes, flag⟩ :=
        inductionHypothesis
          { entry with
            addr := min entry.addr oldEntry.addr
            size := Word64.sub (max entry.maxAddr oldEntry.maxAddr) (min entry.addr oldEntry.addr) }
          (set.remove cmpPmemSt (cmpPmemSt oldEntry))
          (by rw [removed]; simp [listed] at enough ⊢; omega)
          (removed ▸ regions.sublist (by rw [listed]; simp))
          ⟨by simp only; omega, by simp only [hullSize]; omega, by simp only [hullSize]; omega⟩
          (by simp only [hullSize]; omega)
          (by
            intro elem stays
            rw [removed] at stays
            have inSet : elem ∈ set.toList := by
              rw [listed]
              simp only [List.mem_append, List.mem_cons] at stays ⊢
              tauto
            have apart := regions.apart
            rw [listed, List.pairwise_append, List.pairwise_cons] at apart
            have elemSize := (regions.inner elem inSet).nonempty
            rcases gap elem inSet with meets | keeps
            · exact .inl meets
            · right
              simp only [hullSize]
              rcases List.mem_append.mp stays with early | late
              · have := apart.2.2 elem early oldEntry (by simp)
                omega
              · have := apart.2.1.1 elem late
                omega)
      refine ⟨merged, rest, by simpa [absorb, searched] using absorbed, restRegions, mergedInner,
        restGap, ?_, flag.trans sameFlag⟩
      intro byte
      have hullBytes : ({ entry with
            addr := min entry.addr oldEntry.addr
            size := Word64.sub (max entry.maxAddr oldEntry.maxAddr)
              (min entry.addr oldEntry.addr) } : PmemSt).Covers byte ↔
          entry.Covers byte ∨ oldEntry.Covers byte := by
        simp only [PmemSt.Covers, hullSize]
        omega
      rw [bytes byte, hullBytes, removed, listed, tracks_append, tracks_append, tracks_cons]
      tauto

/-- `add_region` keeps a region set and adds exactly the bytes of the region. -/
theorem addRegion_exact {set : OSet PmemSt} (regions : RegionSet set.toList) {region : PmemSt}
    (inner : region.Inner) :
    RegionSet (addRegion region set).toList ∧
      (∀ byte, Tracks (addRegion region set).toList byte ↔
        region.Covers byte ∨ Tracks set.toList byte) ∧
      (addRegion region set).duplicate = set.duplicate := by
  have entryInner : ({ region with state := StoreState.clean } : PmemSt).Inner :=
    ⟨inner.positive, inner.nonempty, inner.below⟩
  obtain ⟨merged, rest, absorbed, restRegions, mergedInner, gap, bytes, flag⟩ :=
    absorb_exact { region with state := .clean } entryInner (set.size + 1)
      { region with state := .clean } set (by simp [OSet.size]) regions entryInner
      ⟨Nat.le_refl _, Nat.le_refl _⟩ (by
        intro elem member
        by_cases meets : cmpPmemSt (searchEntry { region with state := .clean }) elem = .eq
        · exact .inl meets
        · right
          rw [(searchEntry_meets entryInner (regions.inner elem member)).2] at meets
          omega)
  obtain ⟨inserted, insertedBytes, insertedFlag⟩ := insert_region restRegions mergedInner gap
  have result : addRegion region set = rest.insert (cmpPmemSt merged) merged := by
    simp [addRegion, absorbed]
  refine ⟨result ▸ inserted, ?_, result ▸ insertedFlag.trans flag⟩
  intro byte
  rw [result, insertedBytes byte, bytes byte]
  rfl

/-- How often the walk of `remove_region` can still meet the remaining elements. An overlapped
element counts three times, since it is met again after it was cut, and so may its second part
be. -/
def visits (region : PmemSt) (rest : List PmemSt) : Nat :=
  (rest.map (fun elem => if cmpPmemSt elem region = .eq then 3 else 1)).sum

/-- The walk meets an element three times at most, which bounds its fuel. -/
theorem visits_le (region : PmemSt) (rest : List PmemSt) : visits region rest ≤
    3 * rest.length := by
  induction rest with
  | nil => simp [visits]
  | cons elem rest inductionHypothesis =>
    simp only [visits, List.map_cons, List.sum_cons, List.length_cons] at inductionHypothesis ⊢
    split <;> omega

/-- The part of an overlapped element in front of the region. The element is edited in place
and keeps its other fields. -/
def frontPart (region entry : PmemSt) : PmemSt :=
  { entry with size := Word64.sub region.addr entry.addr }

/-- The part of an overlapped element behind the region, as a fresh element. Only its address,
its size and its index are set. -/
def newPart (region entry : PmemSt) (dbIndex : Nat) : PmemSt :=
  { PmemSt.range region.maxAddr (Word64.sub entry.maxAddr region.maxAddr) with index := dbIndex }

/-- The part of an overlapped element behind the region, edited in place. The element moves up
to the end of the region. -/
def backPart (region entry : PmemSt) : PmemSt :=
  { entry with
    size := Word64.sub entry.size (Word64.sub region.maxAddr entry.addr)
    addr := region.maxAddr }

/-- What `remove_region` leaves of an overlapped element. The branches are those of the source,
in its order. -/
def remainders (region entry : PmemSt) (dbIndex : Nat) : List PmemSt :=
  if entry.addr > region.addr ∧ entry.maxAddr < region.maxAddr then []
  else if entry.addr < region.addr ∧ entry.maxAddr > region.maxAddr then
    [frontPart region entry, newPart region entry dbIndex]
  else if entry.addr ≥ region.addr ∧ entry.maxAddr > region.maxAddr then [backPart region entry]
  else if entry.maxAddr ≤ region.maxAddr ∧ region.addr > entry.addr then [frontPart region entry]
  else []

/-- The remainders of an element are regions within it, clear of the removed
region, and carry exactly the other bytes of the element. -/
structure Remains (region entry : PmemSt) (pieces : List PmemSt) : Prop where
  regions : RegionSet pieces
  within : ∀ piece ∈ pieces,
    entry.addr ≤ piece.addr ∧ piece.addr + piece.size ≤ entry.addr + entry.size
  clear : ∀ piece ∈ pieces, cmpPmemSt piece region ≠ .eq
  bytes : ∀ byte, Tracks pieces byte ↔ entry.Covers byte ∧ ¬ region.Covers byte

variable {region entry : PmemSt}

/-- What is left in front of the region ends where the region begins. -/
theorem frontPart_exact (inner : entry.Inner) (cut : entry.addr < region.addr)
    (inside : region.addr ≤ entry.addr + entry.size) : (frontPart region entry).Inner ∧
      (frontPart region entry).addr = entry.addr ∧
      (frontPart region entry).size = region.addr - entry.addr := by
  have below := inner.below
  have size : (frontPart region entry).size = region.addr - entry.addr := by
    simp only [frontPart]
    exact Word64.sub_eq (by omega)
  have addr : (frontPart region entry).addr = entry.addr := rfl
  have positive := inner.positive
  exact ⟨⟨by omega, by omega, by omega⟩, addr, size⟩

/-- What is left behind the region begins where the region ends, with a fresh index. -/
theorem newPart_exact (proper : region.Proper) (inner : entry.Inner) (dbIndex : Nat)
    (cut : region.addr + region.size < entry.addr + entry.size) :
    (newPart region entry dbIndex).Inner ∧
      (newPart region entry dbIndex).addr = region.addr + region.size ∧
      (newPart region entry dbIndex).size =
        entry.addr + entry.size - (region.addr + region.size) := by
  have below := inner.below
  have nonempty := proper.nonempty
  have size : (newPart region entry dbIndex).size =
      entry.addr + entry.size - (region.addr + region.size) := by
    simp only [newPart, PmemSt.range_size, inner.proper.nonWrapping.maxAddr_eq,
      proper.nonWrapping.maxAddr_eq]
    exact Word64.sub_eq (by omega)
  have addr : (newPart region entry dbIndex).addr = region.addr + region.size := by
    simp only [newPart, PmemSt.range_addr, proper.nonWrapping.maxAddr_eq]
  exact ⟨⟨by omega, by omega, by omega⟩, addr, size⟩

/-- An element that only sticks out behind the region is shortened to what sticks out. -/
theorem backPart_exact (proper : region.Proper) (inner : entry.Inner)
    (cut : region.addr + region.size < entry.addr + entry.size)
    (inside : entry.addr ≤ region.addr + region.size) :
    (backPart region entry).Inner ∧ (backPart region entry).addr = region.addr + region.size ∧
      (backPart region entry).size = entry.addr + entry.size - (region.addr + region.size) := by
  have below := inner.below
  have nonempty := proper.nonempty
  have trimmed : Word64.sub region.maxAddr entry.addr = region.addr + region.size - entry.addr := by
    rw [proper.nonWrapping.maxAddr_eq]
    exact Word64.sub_eq inside
  have size : (backPart region entry).size =
      entry.addr + entry.size - (region.addr + region.size) := by
    simp only [backPart, trimmed]
    rw [Word64.sub_eq (by omega)]
    omega
  have addr : (backPart region entry).addr = region.addr + region.size :=
    proper.nonWrapping.maxAddr_eq
  exact ⟨⟨by omega, by omega, by omega⟩, addr, size⟩

/-- One piece that starts or ends at the region. -/
theorem remains_singleton (proper : region.Proper) {piece : PmemSt} (pieceInner : piece.Inner)
    (within : entry.addr ≤ piece.addr ∧ piece.addr + piece.size ≤ entry.addr + entry.size)
    (beside : piece.addr + piece.size ≤ region.addr ∨ region.addr + region.size ≤ piece.addr)
    (bytes : ∀ byte, piece.Covers byte ↔ entry.Covers byte ∧ ¬ region.Covers byte) :
    Remains region entry [piece] where
  regions := regionSet_singleton pieceInner
  within other member := by rwa [List.mem_singleton.mp member]
  clear other member := by
    rw [List.mem_singleton.mp member, ne_eq,
      cmpPmemSt_eq_iff pieceInner.proper.nonWrapping proper.nonWrapping]
    omega
  bytes byte := by simpa [tracks_cons] using bytes byte

/-- Every branch of `remove_region` leaves the right remainders. -/
theorem remainders_exact (proper : region.Proper) (inner : entry.Inner) (dbIndex : Nat)
    (meets : cmpPmemSt entry region = .eq) :
    Remains region entry (remainders region entry dbIndex) := by
  have overlap := (cmpPmemSt_eq_iff inner.proper.nonWrapping proper.nonWrapping).mp meets
  have entryMax := inner.proper.nonWrapping.maxAddr_eq
  have regionMax := proper.nonWrapping.maxAddr_eq
  have dropped (inside : region.addr ≤ entry.addr ∧
      entry.addr + entry.size ≤ region.addr + region.size) : Remains region entry [] := by
    refine ⟨regionSet_nil, by simp, by simp, ?_⟩
    intro byte
    simp only [tracks_nil, false_iff]
    unfold PmemSt.Covers
    omega
  simp only [remainders, entryMax, regionMax]
  split
  · exact dropped (by omega)
  · split
    · next cut =>
      obtain ⟨frontInner, frontAddr, frontSize⟩ := frontPart_exact inner cut.1 (by omega)
      obtain ⟨newInner, newAddr, newSize⟩ := newPart_exact proper inner dbIndex cut.2
      have nonempty := proper.nonempty
      refine ⟨⟨?_, ?_⟩, ?_, ?_, ?_⟩
      · simpa using ⟨frontInner, newInner⟩
      · simp only [List.pairwise_cons, List.mem_singleton, forall_eq, List.not_mem_nil,
          false_imp_iff, implies_true, List.Pairwise.nil, and_true]
        omega
      · simp only [List.mem_cons, List.not_mem_nil, or_false, forall_eq_or_imp, forall_eq]
        omega
      · simp only [List.mem_cons, List.not_mem_nil, or_false, forall_eq_or_imp, forall_eq, ne_eq,
          cmpPmemSt_eq_iff frontInner.proper.nonWrapping proper.nonWrapping,
          cmpPmemSt_eq_iff newInner.proper.nonWrapping proper.nonWrapping]
        omega
      · intro byte
        simp only [tracks_cons, tracks_nil, or_false, PmemSt.Covers]
        omega
    · split
      · next cut =>
        obtain ⟨backInner, backAddr, backSize⟩ := backPart_exact proper inner cut.2 (by omega)
        refine remains_singleton proper backInner (by omega) (by omega) ?_
        intro byte
        simp only [PmemSt.Covers]
        omega
      · split
        · next cut =>
          obtain ⟨frontInner, frontAddr, frontSize⟩ := frontPart_exact inner cut.2 (by omega)
          refine remains_singleton proper frontInner (by omega) (by omega) ?_
          intro byte
          simp only [PmemSt.Covers]
          omega
        · exact dropped (by omega)

/-- One turn of the loop of `remove_region`, unless its walk is at the end. Where the element
is removed, or a second part is inserted, the walk is set back to its place. -/
def removeRegionTurn (cmp : PmemSt → PmemSt → Ordering) (region : PmemSt)
    (state : OSet PmemSt × Nat) : Option (OSet PmemSt × Nat) :=
  let (set, dbIndex) := state
  match set.next with
  | none => none
  | some (position, entry, walked) =>
      if cmpPmemSt entry region ≠ .eq then some (walked, dbIndex)
      else if entry.addr > region.addr ∧ entry.maxAddr < region.maxAddr then
        some ((walked.remove cmp (cmp entry)).resetIterAt (cmp entry), dbIndex)
      else if entry.addr < region.addr ∧ entry.maxAddr > region.maxAddr then
        let front := frontPart region entry
        let new := newPart region entry dbIndex
        some (((walked.modifyAt position (fun _ => front)).insert (cmp new) new).resetIterAt
          (cmp front), dbIndex + 1)
      else if entry.addr ≥ region.addr ∧ entry.maxAddr > region.maxAddr then
        some (walked.modifyAt position (fun _ => backPart region entry), dbIndex)
      else if entry.maxAddr ≤ region.maxAddr ∧ region.addr > entry.addr then
        some (walked.modifyAt position (fun _ => frontPart region entry), dbIndex)
      else some ((walked.remove cmp (cmp entry)).resetIterAt (cmp entry), dbIndex)

/-- The loop of `remove_region` repeats its turn. -/
theorem removeRegionLoop_succ (cmp : PmemSt → PmemSt → Ordering) (region : PmemSt) (fuel : Nat)
    (set : OSet PmemSt) (dbIndex : Nat) :
    removeRegionLoop cmp region (fuel + 1) set dbIndex =
      (removeRegionTurn cmp region (set, dbIndex)).elim (set, dbIndex)
        (fun next => removeRegionLoop cmp region fuel next.1 next.2) := by
  simp only [removeRegionLoop, removeRegionTurn]
  cases set.next with
  | none => rfl
  | some found =>
    simp only
    by_cases beside : cmpPmemSt found.2.1 region ≠ .eq
    · rw [if_pos beside, if_pos beside, Option.elim_some]
    rw [if_neg beside, if_neg beside]
    by_cases inside : found.2.1.addr > region.addr ∧ found.2.1.maxAddr < region.maxAddr
    · rw [if_pos inside, if_pos inside, Option.elim_some]
    rw [if_neg inside, if_neg inside]
    by_cases cut : found.2.1.addr < region.addr ∧ found.2.1.maxAddr > region.maxAddr
    · rw [if_pos cut, if_pos cut]
      rfl
    rw [if_neg cut, if_neg cut]
    by_cases tail : found.2.1.addr ≥ region.addr ∧ found.2.1.maxAddr > region.maxAddr
    · rw [if_pos tail, if_pos tail]
      rfl
    rw [if_neg tail, if_neg tail]
    by_cases head : found.2.1.maxAddr ≤ region.maxAddr ∧ region.addr > found.2.1.addr
    · rw [if_pos head, if_pos head]
      rfl
    · rw [if_neg head, if_neg head, Option.elim_some]

/-- One turn on an overlapped element replaces it by its remainders and goes on with a
shorter walk. After a cut the walk is set back to the front piece. -/
theorem removeRegionTurn_exact {region : PmemSt} {set : OSet PmemSt} (dbIndex : Nat)
    {done rest : List PmemSt} {entry : PmemSt} (listed : set.toList = done ++ entry :: rest)
    (walk : set.iter = some done.length) (ranges : Ranges set.toList)
    (meets : cmpPmemSt entry region = .eq)
    (combined : Ranges (done ++ remainders region entry dbIndex ++ rest)) :
    ∃ next final skipped, skipped ≤ (remainders region entry dbIndex).length ∧
      removeRegionTurn cmpPmemSt region (set, dbIndex) = some (next, final) ∧
      next.toList = done ++ remainders region entry dbIndex ++ rest ∧
      next.iter = some (done.length + skipped) ∧
      (remainders region entry dbIndex).length < 3 + skipped ∧
      next.duplicate = set.duplicate := by
  have stepped := next_some listed walk
  have walkedListed : ({ set with iter := some (done.length + 1) } : OSet PmemSt).toList =
      done ++ entry :: rest := listed
  have dropped : remainders region entry dbIndex = [] → ∃ next,
      next = (({ set with iter := some (done.length + 1) } : OSet PmemSt).remove cmpPmemSt
        (cmpPmemSt entry)).resetIterAt (cmpPmemSt entry) ∧
      next.toList = done ++ remainders region entry dbIndex ++ rest ∧
      next.iter = some done.length ∧ next.duplicate = set.duplicate := by
    intro none
    obtain ⟨removed, resumed, flag⟩ := remove_resume walkedListed ranges.ordered
      (ranges.reflexive (by simp [listed]))
    exact ⟨_, rfl, by simpa [none] using removed, resumed, flag⟩
  simp only [removeRegionTurn, stepped, meets, ne_eq, not_true_eq_false, if_false]
  by_cases inside : entry.addr > region.addr ∧ entry.maxAddr < region.maxAddr
  · have none : remainders region entry dbIndex = [] := by simp [remainders, inside]
    obtain ⟨next, rfl, nextListed, nextWalk, flag⟩ := dropped none
    exact ⟨_, dbIndex, 0, by simp, by simp [inside], nextListed, nextWalk, by simp [none], flag⟩
  by_cases cut : entry.addr < region.addr ∧ entry.maxAddr > region.maxAddr
  · have pieces : remainders region entry dbIndex =
        [frontPart region entry, newPart region entry dbIndex] := by
      simp only [remainders, if_neg inside, if_pos cut]
    rw [pieces] at combined
    have frontListed := modifyAt_match walkedListed (fun _ => frontPart region entry)
    have newOrdered : Ordered cmpPmemSt
        ((done ++ [frontPart region entry]) ++ newPart region entry dbIndex :: rest) := by
      simpa using combined.ordered
    obtain ⟨above, below⟩ := ordered_match newOrdered
    obtain ⟨inserted, flag⟩ := insert_split (newPart region entry dbIndex)
      (frontListed.trans (List.append_cons ..)) above below
    have frontOrdered : Ordered cmpPmemSt
        (done ++ frontPart region entry :: newPart region entry dbIndex :: rest) := by
      simpa using combined.ordered
    obtain ⟨frontAbove, frontBelow⟩ := ordered_match frontOrdered
    have reflexive : cmpPmemSt (frontPart region entry) (frontPart region entry) = .eq :=
      combined.reflexive (by simp)
    have insertedListed := inserted.trans (List.append_cons ..).symm
    have resumed := resetIterAt_split insertedListed frontAbove
      (insertedListed ▸ separates_match frontAbove frontBelow) (by
        intro elem member
        rcases List.mem_cons.mp member with rfl | later
        · simp [reflexive]
        · simp [frontBelow elem later])
    refine ⟨_, dbIndex + 1, 0, by simp, by rw [if_neg inside, if_pos cut], ?_, resumed,
      by simp [pieces], flag⟩
    simpa [pieces] using insertedListed
  by_cases tail : entry.addr ≥ region.addr ∧ entry.maxAddr > region.maxAddr
  · have pieces : remainders region entry dbIndex = [backPart region entry] := by
      simp only [remainders, if_neg inside, if_neg cut, if_pos tail]
    have edited := modifyAt_match walkedListed (fun _ => backPart region entry)
    refine ⟨({ set with iter := some (done.length + 1) } : OSet PmemSt).modifyAt done.length
      (fun _ => backPart region entry), dbIndex, 1, by simp [pieces],
      by rw [if_neg inside, if_neg cut, if_pos tail], ?_, rfl, by simp [pieces], rfl⟩
    rw [edited, pieces]
    simp
  by_cases head : entry.maxAddr ≤ region.maxAddr ∧ region.addr > entry.addr
  · have pieces : remainders region entry dbIndex = [frontPart region entry] := by
      simp only [remainders, if_neg inside, if_neg cut, if_neg tail, if_pos head]
    have edited := modifyAt_match walkedListed (fun _ => frontPart region entry)
    refine ⟨({ set with iter := some (done.length + 1) } : OSet PmemSt).modifyAt done.length
      (fun _ => frontPart region entry), dbIndex, 1, by simp [pieces],
      by rw [if_neg inside, if_neg cut, if_neg tail, if_pos head], ?_, rfl,
      by simp [pieces], rfl⟩
    rw [edited, pieces]
    simp
  · have none : remainders region entry dbIndex = [] := by
      simp only [remainders, if_neg inside, if_neg cut, if_neg tail, if_neg head]
    obtain ⟨next, rfl, nextListed, nextWalk, flag⟩ := dropped none
    exact ⟨_, dbIndex, 0, by simp,
      by rw [if_neg inside, if_neg cut, if_neg tail, if_neg head], nextListed, nextWalk,
      by simp [none], flag⟩

/-- The visits of two parts of the walk add up. -/
theorem visits_append (region : PmemSt) (first second : List PmemSt) :
    visits region (first ++ second) = visits region first + visits region second := by
  simp [visits]

/-- Elements clear of the region are met once each. -/
theorem visits_clear {region : PmemSt} {elems : List PmemSt}
    (clear : ∀ elem ∈ elems, cmpPmemSt elem region ≠ .eq) : visits region elems = elems.length := by
  induction elems with
  | nil => rfl
  | cons elem rest inductionHypothesis =>
    have tail := inductionHypothesis (fun other member => clear other (by simp [member]))
    simp only [visits, List.map_cons, List.sum_cons, List.length_cons,
      if_neg (clear elem (by simp))] at tail ⊢
    omega

/-- The walk of `remove_region` over a region set, from any point of it. The
elements already passed share no byte with the region; the visits left bound the
number of iterations. -/
theorem removeRegionLoop_exact {region : PmemSt} (proper : region.Proper) (fuel : Nat)
    (set : OSet PmemSt) (dbIndex : Nat) (done rest : List PmemSt)
    (enough : visits region rest < fuel) (listed : set.toList = done ++ rest)
    (walk : set.iter = some done.length) (regions : RegionSet set.toList)
    (passed : ∀ elem ∈ done, cmpPmemSt elem region ≠ .eq) :
    ∃ result final, removeRegionLoop cmpPmemSt region fuel set dbIndex = (result, final) ∧
      RegionSet result.toList ∧
      (∀ byte, Tracks result.toList byte ↔ Tracks set.toList byte ∧ ¬ region.Covers byte) ∧
      result.duplicate = set.duplicate := by
  induction fuel generalizing set dbIndex done rest with
  | zero => omega
  | succ fuel inductionHypothesis =>
    cases rest with
    | nil =>
      have finished : set.next = none := next_end (by simpa [listed] using walk)
      refine ⟨set, dbIndex, by simp [removeRegionLoop, finished], regions, ?_, rfl⟩
      intro byte
      simp only [listed, List.append_nil] at regions ⊢
      refine ⟨?_, And.left⟩
      rintro ⟨elem, member, covered⟩
      refine ⟨⟨elem, member, covered⟩, fun inside => passed elem member ?_⟩
      exact (cmpPmemSt_eq_iff_shared (regions.inner elem member).proper proper).mpr
        ⟨byte, covered, inside⟩
    | cons entry rest =>
      rw [← List.singleton_append, visits_append] at enough
      by_cases meets : cmpPmemSt entry region = .eq
      · have exact := remainders_exact proper (regions.inner entry (by simp [listed])) dbIndex meets
        have combined : RegionSet (done ++ remainders region entry dbIndex ++ rest) :=
          (listed ▸ regions : RegionSet (done ++ entry :: rest)).refine exact.regions exact.within
        obtain ⟨next, final, skipped, short, stepped, nextListed, nextWalk, progress, flag⟩ :=
          removeRegionTurn_exact dbIndex listed walk regions.ranges meets combined.ranges
        let pieces := remainders region entry dbIndex
        have clear : ∀ elem ∈ done ++ pieces.take skipped, cmpPmemSt elem region ≠ .eq := by
          intro elem member
          rcases List.mem_append.mp member with early | piece
          · exact passed elem early
          · exact exact.clear elem (List.mem_of_mem_take piece)
        have left : visits region (pieces.drop skipped) = pieces.length - skipped := by
          rw [visits_clear (fun elem member => exact.clear elem (List.mem_of_mem_drop member)),
            List.length_drop]
        have nextRegions : RegionSet next.toList := nextListed ▸ combined
        obtain ⟨result, last, finished, resultRegions, bytes, resultFlag⟩ :=
          inductionHypothesis next final (done ++ pieces.take skipped)
            (pieces.drop skipped ++ rest)
            (by
              have one : visits region [entry] = 3 := by simp [visits, meets]
              rw [visits_append, left]
              have : pieces.length < 3 + skipped := progress
              omega)
            (by
              rw [nextListed]
              simp only [List.append_assoc]
              rw [← List.append_assoc (pieces.take skipped), List.take_append_drop])
            (by simp [nextWalk, pieces, Nat.min_eq_left short]) nextRegions clear
        refine ⟨result, last, ?_, resultRegions, ?_, resultFlag.trans flag⟩
        · rw [removeRegionLoop_succ, stepped, Option.elim_some]
          exact finished
        intro byte
        rw [bytes byte, nextListed, listed]
        simp only [tracks_append, tracks_cons, exact.bytes byte]
        tauto
      · have one : visits region [entry] = 1 := by simp [visits, meets]
        obtain ⟨result, final, finished, exact⟩ := inductionHypothesis
          { set with iter := some (done.length + 1) } dbIndex (done ++ [entry]) rest (by omega)
          (by simpa using listed) (by simp) regions (by
            intro elem member
            rcases List.mem_append.mp member with early | last
            · exact passed elem early
            · exact List.mem_singleton.mp last ▸ meets)
        exact ⟨result, final,
          by simpa [removeRegionLoop, next_some listed walk, meets] using finished, exact⟩

/-- `remove_region` on a region set removes exactly the bytes of the region. -/
theorem removeRegion_exact {set : OSet PmemSt} (regions : RegionSet set.toList) {region : PmemSt}
    (proper : region.Proper) (dbIndex : Nat) :
    RegionSet (removeRegion cmpPmemSt region set dbIndex).1.toList ∧
      (∀ byte, Tracks (removeRegion cmpPmemSt region set dbIndex).1.toList byte ↔
        Tracks set.toList byte ∧ ¬ region.Covers byte) ∧
      (removeRegion cmpPmemSt region set dbIndex).1.duplicate = set.duplicate := by
  obtain ⟨result, final, finished, exact⟩ := removeRegionLoop_exact proper
    (3 * set.size + 1) set.resetIter dbIndex [] set.toList
    (Nat.lt_succ_of_le (visits_le region set.toList)) rfl rfl regions (by simp)
  simp only [removeRegion, finished]
  exact exact

/-- `is_in_mapping_set` answers 0 exactly when no byte is shared. -/
theorem isInMappingSet_eq_zero_iff {set : OSet PmemSt} (regions : RegionSet set.toList)
    {region : PmemSt} (proper : region.Proper) :
    isInMappingSet region set = 0 ↔ ∀ byte, region.Covers byte → ¬ Tracks set.toList byte := by
  rw [← regions.lookup_none_iff proper]
  unfold isInMappingSet
  cases searched : set.lookup (cmpPmemSt region) with
  | none => simp
  | some entry =>
    have equal := (lookup_sound searched).2
    simp only [checkOverlap, equal, ne_eq, not_true_eq_false, if_false, reduceCtorEq, iff_false]
    split <;> simp

/-- Two different elements of a region set are apart, one way or the other. -/
theorem RegionSet.apart_of_ne {elems : List PmemSt} (regions : RegionSet elems)
    {first second : PmemSt} (member : first ∈ elems) (member' : second ∈ elems)
    (differs : first ≠ second) :
    first.addr + first.size < second.addr ∨ second.addr + second.size < first.addr := by
  let Apart (first second : PmemSt) : Prop :=
    first.addr + first.size < second.addr ∨ second.addr + second.size < first.addr
  have symmetric : Std.Symm Apart := ⟨fun _ _ => Or.symm⟩
  have apart : elems.Pairwise Apart := regions.apart.imp .inl
  exact apart.forall member member' differs

/-- `is_in_mapping_set` answers 1 exactly when all bytes are tracked: elements are
never adjacent, so a range that leaves one element meets an untracked byte. -/
theorem isInMappingSet_eq_one_iff {set : OSet PmemSt} (regions : RegionSet set.toList)
    {region : PmemSt} (proper : region.Proper) :
    isInMappingSet region set = 1 ↔ ∀ byte, region.Covers byte → Tracks set.toList byte := by
  have nonempty := proper.nonempty
  unfold isInMappingSet
  cases searched : set.lookup (cmpPmemSt region) with
  | none =>
    have outside := (regions.lookup_none_iff proper).mp searched
    have first : region.Covers region.addr := ⟨Nat.le_refl _, by omega⟩
    simp only [Nat.zero_ne_one, false_iff]
    exact fun tracked => outside region.addr first (tracked region.addr first)
  | some entry =>
    obtain ⟨member, equal⟩ := lookup_sound searched
    have entryProper := (regions.inner entry member).proper
    simp only
    rw [checkOverlap_eq_one_iff proper entryProper.nonWrapping]
    constructor
    · exact fun within byte inside => ⟨entry, member, within byte inside⟩
    · intro tracked
      rw [cmpPmemSt_eq_iff proper.nonWrapping entryProper.nonWrapping] at equal
      have beside (byte : Nat) (inside : region.Covers byte)
          (next : byte + 1 = entry.addr ∨ byte = entry.addr + entry.size) : False := by
        obtain ⟨other, otherMember, covered⟩ := tracked byte inside
        have differs : other ≠ entry := by
          rintro rfl
          unfold PmemSt.Covers at covered
          omega
        have := regions.apart_of_ne otherMember member differs
        unfold PmemSt.Covers at covered
        omega
      have starts : entry.addr ≤ region.addr := by
        by_contra before
        exact beside (entry.addr - 1) (by unfold PmemSt.Covers; omega) (by omega)
      have ends : region.addr + region.size ≤ entry.addr + entry.size := by
        by_contra behind
        exact beside (entry.addr + entry.size) (by unfold PmemSt.Covers; omega) (by omega)
      intro byte inside
      unfold PmemSt.Covers at inside ⊢
      omega

end PmDebugger
