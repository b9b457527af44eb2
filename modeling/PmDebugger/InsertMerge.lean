import PmDebugger.Library.Loops
import PmDebugger.DetailedReport

/-!
# Inserting and merging a record

`add_and_merge_store` and `db_add_and_merge_store` make room for a record in a set of disjoint
ranges: a loop cuts the record out of whatever it overlaps, two probes shifted by one byte merge
it with its neighbours, and the result is inserted. The bytes of the record take over its state
and its context, and every other byte keeps its own, up to the equality of contexts by which
neighbours are merged.
-/

namespace PmDebugger

open OrderedSet OrderedSet.OSet PmemOps

/-! ## What an entry says about its bytes -/

/-- An entry of this kind covers the byte. The kinds are states and contexts. -/
def Shows (kind : PmemSt → Prop) (entries : List PmemSt) (byte : Nat) : Prop :=
  ∃ entry ∈ entries, entry.Covers byte ∧ kind entry

/-- Parts of a record are of its kind, and only records of one kind are merged. -/
structure Inherited (isIpMemsetMemcpy : Nat → Bool) (kind : PmemSt → Prop) : Prop where
  parts : ∀ part old, SameMarks part old → (kind part ↔ kind old)
  merged : ∀ region old, isStoreMergeable isIpMemsetMemcpy region old = true →
    (kind region ↔ kind old)

section Kinds

variable {kind : PmemSt → Prop} {first second : List PmemSt} {store : PmemSt} {byte : Nat}

/-- A byte is shown by the first record or by the rest. -/
theorem shows_cons : Shows kind (store :: first) byte ↔
    store.Covers byte ∧ kind store ∨ Shows kind first byte := by
  simp only [Shows, List.mem_cons, exists_eq_or_imp]

/-- A byte is shown by one list or the other. -/
theorem shows_append : Shows kind (first ++ second) byte ↔
    Shows kind first byte ∨ Shows kind second byte := by
  simp only [Shows, List.mem_append, or_and_right, exists_or]

/-- Of whatever kind, to be shown is to be tracked. -/
theorem shows_true : Shows (fun _ => True) first byte ↔ Tracks first byte := by
  simp only [Shows, Tracks, and_true]

/-- Disjoint ranges that share a byte are the same. -/
theorem Ranges.eq_of_shared (ranges : Ranges first) {other : PmemSt} (member : store ∈ first)
    (member' : other ∈ first) (inside : store.Covers byte) (inside' : other.Covers byte) :
    store = other := by
  obtain ⟨before, after, rfl⟩ := List.append_of_mem member
  by_contra differs
  have beside : other ∈ before ++ after := by
    simp only [List.mem_append, List.mem_cons] at member' ⊢
    tauto
  exact ranges.apart beside inside inside'

end Kinds

section Insertion

variable {isIpMemsetMemcpy : Nat → Bool} {kind : PmemSt → Prop} {region : PmemSt}
  {set : OSet PmemSt} {byte : Nat}

/-- Cutting a region out of the set leaves the other bytes what is said about them. -/
theorem cutOverlaps_shows (inherited : Inherited isIpMemsetMemcpy kind) (proper : region.Proper)
    (ranges : Ranges set.toList) (dbIndex : Nat) :
    Shows kind (cutOverlaps region (set.size + 1) set dbIndex).1.toList byte ↔
      Shows kind set.toList byte ∧ ¬ region.Covers byte := by
  obtain ⟨_, _, bytes⟩ := cutOverlaps_exact proper (set.size + 1) set dbIndex
    (Nat.lt_succ_of_le List.countP_le_length) ranges
  obtain ⟨_, parts⟩ := cutOverlaps_keeps proper (set.size + 1) set dbIndex ranges
  constructor
  · rintro ⟨elem, member, covered, isKind⟩
    obtain ⟨old, isOld, same, covers⟩ := parts elem member
    exact ⟨⟨old, isOld, covers byte covered, (inherited.parts elem old same).mp isKind⟩,
      ((bytes byte).mp ⟨elem, member, covered⟩).2⟩
  · rintro ⟨⟨old, isOld, covered, isKind⟩, outside⟩
    obtain ⟨elem, member, inside⟩ := (bytes byte).mpr ⟨⟨old, isOld, covered⟩, outside⟩
    obtain ⟨origin, isOrigin, same, covers⟩ := parts elem member
    have isOldToo : origin = old :=
      ranges.eq_of_shared isOrigin isOld (covers byte inside) covered
    rw [isOldToo] at same
    exact ⟨elem, member, inside, (inherited.parts elem old same).mpr isKind⟩

/-- A merge with a neighbour changes nothing that is said about a byte. -/
theorem mergeNeighbour_shows (inherited : Inherited isIpMemsetMemcpy kind) (search : PmemSt)
    (beside : Beside region set.toList)
    (touch : ∀ elem ∈ set.toList, cmpPmemSt search elem = .eq →
      elem.addr + elem.size = region.addr ∨ region.addr + region.size = elem.addr) :
    Shows kind ((mergeNeighbour isIpMemsetMemcpy search region set).1 ::
        (mergeNeighbour isIpMemsetMemcpy search region set).2.toList) byte ↔
      Shows kind (region :: set.toList) byte := by
  unfold mergeNeighbour
  cases searched : set.lookup (cmpPmemSt search) with
  | none => exact Iff.rfl
  | some old =>
    simp only
    split
    · next mergeable =>
      obtain ⟨member, meets⟩ := lookup_sound searched
      obtain ⟨before, after, listed, removed, _⟩ :=
        remove_found beside.ranges.ordered (beside.ranges.reflexive member) searched
      obtain ⟨_, _, bytes⟩ := mergeStores_exact beside.proper
        (beside.ranges.proper old member) (touch old member meets)
      have grown : kind (mergeStores region old) ↔ kind region :=
        inherited.parts _ _ ⟨rfl, rfl⟩
      have neighbour := inherited.merged region old mergeable
      rw [removed, listed]
      simp only [shows_cons, shows_append, bytes byte, grown, ← neighbour]
      tauto
    · exact Iff.rfl

/-- Room is made for a region: its own bytes show the region, the others what they did. -/
theorem makeRoom_shows (inherited : Inherited isIpMemsetMemcpy kind) (proper : region.Proper)
    (ranges : Ranges set.toList) (dbIndex byte : Nat) :
    Shows kind ((makeRoom isIpMemsetMemcpy region set dbIndex).1 ::
        (makeRoom isIpMemsetMemcpy region set dbIndex).2.1.toList) byte ↔
      region.Covers byte ∧ kind region ∨ Shows kind set.toList byte ∧ ¬ region.Covers byte := by
  refine (makeRoom_rule isIpMemsetMemcpy proper ranges dbIndex
    (P := fun merged rest => Shows kind (merged :: rest.toList) byte ↔
      region.Covers byte ∧ kind region ∨ Shows kind set.toList byte ∧ ¬ region.Covers byte) ?_ ?_).2
  · rw [shows_cons, cutOverlaps_shows inherited proper ranges]
  · intro search merged rest beside touch kept
    exact (mergeNeighbour_shows inherited search beside touch).trans kept

/-- Entering the merged region, or a copy of it, where room was made for it. -/
theorem insert_merged (inherited : Inherited isIpMemsetMemcpy kind) (proper : region.Proper)
    (ranges : Ranges set.toList) (dbIndex index : Nat) :
    let room := makeRoom isIpMemsetMemcpy region set dbIndex
    let entry := { room.1 with index := index }
    let after := room.2.1.insert (cmpPmemSt entry) entry
    Ranges after.toList ∧ after.duplicate = set.duplicate ∧
      ∀ byte, Shows kind after.toList byte ↔
        region.Covers byte ∧ kind region ∨ Shows kind set.toList byte ∧ ¬ region.Covers byte := by
  obtain ⟨beside, _⟩ := makeRoom_exact isIpMemsetMemcpy proper ranges dbIndex
  obtain ⟨_, flag, _⟩ := makeRoom_keeps isIpMemsetMemcpy proper ranges dbIndex
  have shown := makeRoom_shows inherited proper ranges dbIndex
  simp only
  generalize makeRoom isIpMemsetMemcpy region set dbIndex = room at *
  have entryProper : ({ room.1 with index := index } : PmemSt).Proper :=
    ⟨beside.proper.nonempty, beside.proper.nonWrapping⟩
  obtain ⟨inserted, sameFlag⟩ := insert_fresh { room.1 with index := index }
    (beside.ranges.guides entryProper) beside.clear
  refine ⟨(beside.ranges.insert entryProper beside.clear).1, sameFlag.trans flag, ?_⟩
  intro byte
  have copied : kind { room.1 with index := index } ↔ kind room.1 :=
    inherited.parts _ _ ⟨rfl, rfl⟩
  rw [← shown byte, shows_cons, ← copied]
  simp only [Shows, inserted, exists_eq_or_imp]
  exact Iff.rfl

end Insertion

/-! ## Equal contexts -/

/-- Two contexts are the same, or `cmp_exe_context` takes them for equal. A missing context is
the same as itself here, although the source finds it equal to none. -/
def SameContext (isIpMemsetMemcpy : Nat → Bool) (first second : Option ExeContext) : Prop :=
  first = second ∨ cmpExeContext isIpMemsetMemcpy first second = true

/-- What `cmp_exe_context` answers on two different recorded traces: the callers agree, and the
innermost instructions agree or both belong to `memset` or `memcpy`. -/
theorem sameContext_iff {isIpMemsetMemcpy : Nat → Bool} {first second : Option ExeContext} :
    SameContext isIpMemsetMemcpy first second ↔ first = second ∨
      ∃ inner inner' outer, first = some ⟨inner :: outer⟩ ∧ second = some ⟨inner' :: outer⟩ ∧
        (inner = inner' ∨ isIpMemsetMemcpy inner = true ∧ isIpMemsetMemcpy inner' = true) := by
  unfold SameContext
  constructor
  · rintro (same | compared)
    · exact .inl same
    · cases first with
      | none => simp [cmpExeContext] at compared
      | some first =>
        cases second with
        | none => simp [cmpExeContext] at compared
        | some second =>
          obtain ⟨firstIps⟩ := first
          obtain ⟨secondIps⟩ := second
          simp only [cmpExeContext] at compared
          split at compared
          · next same => exact .inl (congrArg some same)
          · cases firstIps with
            | nil => simp at compared
            | cons inner outer =>
              cases secondIps with
              | nil => simp at compared
              | cons inner' outer' =>
                simp only [Bool.and_eq_true, Bool.or_eq_true, decide_eq_true_eq] at compared
                obtain ⟨rfl, inners⟩ := compared
                exact .inr ⟨inner, inner', outer, rfl, rfl, inners⟩
  · rintro (same | ⟨inner, inner', outer, rfl, rfl, inners⟩)
    · exact .inl same
    · right
      simp only [cmpExeContext]
      split
      · rfl
      · simpa using inners

/-- Despite the exception for `memset` and `memcpy` the comparison of contexts is transitive
in both directions. -/
theorem SameContext.congr {isIpMemsetMemcpy : Nat → Bool} {first second third : Option ExeContext}
    (same : SameContext isIpMemsetMemcpy first second) :
    SameContext isIpMemsetMemcpy first third ↔ SameContext isIpMemsetMemcpy second third := by
  rw [sameContext_iff] at same
  simp only [sameContext_iff]
  rcases same with rfl | ⟨inner, inner', outer, rfl, rfl, inners⟩
  · exact Iff.rfl
  · constructor
    · rintro (rfl | ⟨middle, last, rest, isFirst, rfl, lasts⟩)
      · exact .inr ⟨inner', inner, outer, rfl, rfl, by tauto⟩
      · cases isFirst
        refine .inr ⟨inner', last, outer, rfl, rfl, ?_⟩
        rcases inners with rfl | both <;> rcases lasts with rfl | both' <;> tauto
    · rintro (rfl | ⟨middle, last, rest, isSecond, rfl, lasts⟩)
      · exact .inr ⟨inner, inner', outer, rfl, rfl, inners⟩
      · cases isSecond
        refine .inr ⟨inner, last, outer, rfl, rfl, ?_⟩
        rcases inners with rfl | both <;> rcases lasts with rfl | both' <;> tauto

/-- A state and a context up to the comparison are inherited. -/
theorem inherited_marks (isIpMemsetMemcpy : Nat → Bool) (state : StoreState)
    (context : Option ExeContext) :
    Inherited isIpMemsetMemcpy (fun entry => entry.state = state ∧
      SameContext isIpMemsetMemcpy entry.context context) where
  parts := by
    intro part old same
    simp only [same.state, same.context]
  merged := by
    intro region old mergeable
    simp only [isStoreMergeable, Bool.and_eq_true, decide_eq_true_eq] at mergeable
    have contexts : SameContext isIpMemsetMemcpy region.context old.context := .inr mergeable.2
    simp only [mergeable.1, contexts.congr]

/-! ## The loop over the overlapped elements -/

/-- The loop ends in the state that the bounded loop gives, and it ends because nothing that
overlaps the region is left, not at the assertion of `split_stores`. -/
structure CutEnds (region : PmemSt) (set : OSet PmemSt) (dbIndex : Nat) : Prop where
  ends : ∃ enough, ∀ fuel ≥ enough, Loops.within (cutTurn region) fuel (set, dbIndex) =
    some (cutOverlaps region (set.size + 1) set dbIndex)
  exhausted : (cutOverlaps region (set.size + 1) set dbIndex).1.lookup (cmpPmemSt region) = none

/-- Every turn leaves one element less that overlaps the region. -/
theorem cutEnds {region : PmemSt} (proper : region.Proper) {set : OSet PmemSt}
    (ranges : Ranges set.toList) (dbIndex : Nat) : CutEnds region set dbIndex := by
  have few : overlaps region set.toList < set.size + 1 :=
    Nat.lt_succ_of_le List.countP_le_length
  obtain ⟨result, left, _, _⟩ := Loops.within_ends (cutTurn region)
    (fun rank state => Ranges state.1.toList ∧ overlaps region state.1.toList = rank)
    (fun rank state next stands turned => by
      obtain ⟨stateRanges, rfl⟩ := stands
      cases searched : state.1.lookup (cmpPmemSt region) with
      | none => simp [cutTurn, searched] at turned
      | some old =>
        obtain ⟨before, after, pieces, later, final, listed, excised, laterListed, _, stepped⟩ :=
          cutTurn_step proper state.2 stateRanges searched
        cases turned.symm.trans stepped
        have fewer := overlaps_excised excised (lookup_sound searched).2 listed laterListed
        exact ⟨_, Nat.lt_of_succ_le fewer.le,
          laterListed ▸ (listed ▸ stateRanges).refine excised.ranges excised.within, rfl⟩)
    (set, dbIndex) ⟨ranges, rfl⟩ few
  have bounded := Loops.within_bounded (cutTurn region)
    (fun fuel state => cutOverlaps region fuel state.1 state.2) (cutOverlaps_succ region) left
  obtain ⟨cutRanges, clear, _⟩ := cutOverlaps_exact proper (set.size + 1) set dbIndex few ranges
  constructor
  · refine ⟨set.size + 1, fun fuel enough => ?_⟩
    rw [Loops.within_mono enough left, bounded]
  · exact (lookup_none (cutRanges.guides proper)).mpr clear

/-! ## Both insertions -/

/-- The insertion overrides exactly the bytes of the record: the set stays one of disjoint
ranges, the bytes of the record have its state and its context, and every other byte has the
presence, state and context that it had before. -/
structure Overrides (isIpMemsetMemcpy : Nat → Bool) (region : PmemSt) (before after : OSet PmemSt) :
    Prop where
  ranges : Ranges after.toList
  accepted : after.duplicate = before.duplicate
  inserted : ∀ byte, region.Covers byte → ∃ entry ∈ after.toList, entry.Covers byte ∧
    entry.state = region.state ∧ SameContext isIpMemsetMemcpy entry.context region.context
  presence : ∀ byte, ¬ region.Covers byte → (Tracks after.toList byte ↔ Tracks before.toList byte)
  kept : ∀ byte, ¬ region.Covers byte → ∀ old ∈ before.toList, old.Covers byte →
    ∃ entry ∈ after.toList, entry.Covers byte ∧
      entry.state = old.state ∧ SameContext isIpMemsetMemcpy entry.context old.context

section Both

variable {isIpMemsetMemcpy : Nat → Bool} {region : PmemSt} {set : OSet PmemSt}

/-- An insertion that treats every inherited kind so overrides exactly the bytes of the
record. -/
theorem overrides_of_shows {after : OSet PmemSt} (ranges : Ranges after.toList)
    (accepted : after.duplicate = set.duplicate)
    (shown : ∀ kind, Inherited isIpMemsetMemcpy kind → ∀ byte, Shows kind after.toList byte ↔
      region.Covers byte ∧ kind region ∨ Shows kind set.toList byte ∧ ¬ region.Covers byte) :
    Overrides isIpMemsetMemcpy region set after where
  ranges := ranges
  accepted := accepted
  inserted := by
    intro byte inside
    exact (shown _ (inherited_marks isIpMemsetMemcpy region.state region.context) byte).mpr
      (.inl ⟨inside, rfl, .inl rfl⟩)
  presence := by
    intro byte outside
    have present := shown (fun _ => True) ⟨by simp, by simp⟩ byte
    rw [shows_true, shows_true] at present
    tauto
  kept := by
    intro byte outside old member covered
    exact (shown _ (inherited_marks isIpMemsetMemcpy old.state old.context) byte).mpr
      (.inr ⟨⟨old, member, covered, rfl, .inl rfl⟩, outside⟩)

/-- Entering the merged region, or a copy of it, overrides exactly its bytes. -/
theorem insert_overrides (proper : region.Proper) (ranges : Ranges set.toList)
    (dbIndex index : Nat) :
    let room := makeRoom isIpMemsetMemcpy region set dbIndex
    let entry := { room.1 with index := index }
    Overrides isIpMemsetMemcpy region set (room.2.1.insert (cmpPmemSt entry) entry) := by
  obtain ⟨disjoint, accepted, _⟩ :=
    insert_merged (inherited_marks isIpMemsetMemcpy region.state none) proper ranges dbIndex index
  apply overrides_of_shows disjoint accepted
  intro kind inherited
  exact (insert_merged inherited proper ranges dbIndex index).2.2

/-- `add_and_merge_store` and `db_add_and_merge_store` end, never at the assertion of
`split_stores`, and override exactly the bytes of the record they insert.

Proof: each turn of the loop cuts one record that the new one meets, and what is left of it is
apart. The tree holds finitely many such records. After the last turn nothing meets the record,
and it merges with its two neighbours at most. -/
theorem insertions_override {pmem : PmemOps} (proper : region.Proper)
    (stores : Ranges pmem.pmemStores.toList) (report : Ranges set.toList) (dbIndex : Nat) :
    (CutEnds region pmem.pmemStores pmem.dbPmemStoreIndex ∧
      Overrides pmem.opts.isIpMemsetMemcpy region pmem.pmemStores
        (pmem.addAndMergeStore region).1.pmemStores) ∧
    CutEnds region set dbIndex ∧
      Overrides isIpMemsetMemcpy region set
        (dbAddAndMergeStore isIpMemsetMemcpy region set dbIndex).2.1 := by
  refine ⟨⟨cutEnds proper stores _, ?_⟩, cutEnds proper report _, ?_⟩
  · exact insert_overrides proper stores pmem.dbPmemStoreIndex
      (makeRoom pmem.opts.isIpMemsetMemcpy region pmem.pmemStores pmem.dbPmemStoreIndex).1.index
  · exact insert_overrides proper report dbIndex
      (makeRoom isIpMemsetMemcpy region set dbIndex).2.2

/-- A record from `memset` cuts the back off its first neighbour, which has another caller, and
merges with the second one, which comes from `memcpy`. -/
theorem insertions_override_cut_and_merge :
    let record (addr size inner outer : Nat) : PmemSt := { PmemSt.range addr size with
      state := .dirty, context := some ⟨[inner, outer]⟩ }
    let isIpMemsetMemcpy (ip : Nat) : Bool := ip = 1 ∨ ip = 2
    let stores : OSet PmemSt :=
      ⟨.node .leaf (record 100 10 1 8) (.node .leaf (record 120 10 2 9) .leaf 0) 1, none, false⟩
    let region := record 105 15 1 9
    let pmem : PmemOps := { initPmem (defaultOptions isIpMemsetMemcpy) 64 (fun _ => PmemSt.zero)
      with pmemStores := stores }
    Ranges stores.toList ∧
      (pmem.addAndMergeStore region).1.pmemStores.toList = [record 100 5 1 8, record 105 25 1 9] ∧
      (CutEnds region pmem.pmemStores pmem.dbPmemStoreIndex ∧
        Overrides pmem.opts.isIpMemsetMemcpy region pmem.pmemStores
          (pmem.addAndMergeStore region).1.pmemStores) ∧
      CutEnds region stores 0 ∧
        Overrides isIpMemsetMemcpy region stores
          (dbAddAndMergeStore isIpMemsetMemcpy region stores 0).2.1 := by
  intro record isIpMemsetMemcpy stores region pmem
  have ranges : Ranges stores.toList := by
    constructor
    · simp only [proper_iff]
      decide
    · decide
  refine ⟨ranges, by decide +kernel, ?_⟩
  exact insertions_override ⟨by decide, by decide⟩ ranges ranges 0

end Both

end PmDebugger
