import PmDebugger.DetailedReport
import PmDebugger.Library.Carving

/-!
# The tree under either order

The tree is ordered by index, or with `--tree-reorganization` by address, and then its
records are disjoint. Both are invariants of the same operations: a record is trimmed in
place, a part that was cut off it is entered, or a record is taken out. Each of these is
described once for both orders, together with what it does to the bytes and to the
states of the records; a loop over the tree composes them.

Nothing here depends on where a walk stands. What a walk may miss is a matter of the
exact descriptions of the loops.
-/

namespace PmDebugger

open OrderedSet OrderedSet.OSet PmemOps Carving

/-- The tree is ordered as the options say, by an index below the counter or by address. -/
structure TreeSound (opts : Options) (dbIndex : Nat) (set : OSet PmemSt) : Prop where
  proper : ∀ store ∈ set.toList, store.Proper
  keyed : opts.treeReorganization = false → Keyed PmemSt.index set.toList
  fresh : opts.treeReorganization = false → ∀ store ∈ set.toList, store.index < dbIndex
  disjoint : opts.treeReorganization = true → Ranges set.toList

/-- The comparison reads the range of a record only. -/
theorem cmpPmemSt_congr {piece piece' : PmemSt} (addr : piece.addr = piece'.addr)
    (size : piece.size = piece'.size) (record : PmemSt) :
    cmpPmemSt piece record = cmpPmemSt piece' record ∧
      cmpPmemSt record piece = cmpPmemSt record piece' := by
  unfold cmpPmemSt PmemSt.maxAddr
  rw [addr, size]
  exact ⟨rfl, rfl⟩

/-- One record of the tree is exchanged for parts of it, which bear its index or a new one. -/
structure TreeExchanged (opts : Options) (being : PmemSt) (parts : List PmemSt)
    (set : OSet PmemSt) (dbIndex : Nat) (set' : OSet PmemSt) (dbIndex' : Nat) : Prop where
  sound : TreeSound opts dbIndex' set'
  flag : set'.duplicate = set.duplicate
  members : ∀ store, store ∈ set'.toList ↔ store ∈ parts ∨ store ∈ set.toList ∧ store ≠ being
  grown : dbIndex ≤ dbIndex'
  indices : ∀ part ∈ parts, part.index = being.index ∨ dbIndex ≤ part.index

/-- With reorganisation the tree is ordered by address. -/
theorem treeCmp_ranges {opts : Options} (reorganised : opts.treeReorganization = true) :
    treeCmp opts = cmpPmemSt := by
  simp [treeCmp, reorganised]

/-- A part of a record, which may be all of it. It has at least one byte and does not wrap
around. -/
structure Trims (being kept : PmemSt) : Prop where
  proper : kept.Proper
  low : being.addr ≤ kept.addr
  high : kept.addr + kept.size ≤ being.addr + being.size

/-- A part of a record covers nothing else. -/
theorem Trims.covers {being kept : PmemSt} (trims : Trims being kept) {byte : Nat}
    (inside : kept.Covers byte) : being.Covers byte := by
  have low := trims.low
  have high := trims.high
  unfold PmemSt.Covers at inside ⊢
  omega

/-- A record trims itself, whatever its other fields. -/
theorem Trims.same {being kept : PmemSt} (proper : being.Proper) (addr : kept.addr = being.addr)
    (size : kept.size = being.size) : Trims being kept := by
  refine ⟨?_, ?_, ?_⟩
  · rw [proper_iff] at proper ⊢
    rwa [addr, size]
  · exact Nat.le_of_eq addr.symm
  · rw [addr, size]

/-- Two parts that share no byte. Either of them may come first. -/
def Clear (first second : PmemSt) : Prop :=
  first.addr + first.size ≤ second.addr ∨ second.addr + second.size ≤ first.addr

/-- Clear ranges do not compare equal. -/
theorem Clear.misses {first second : PmemSt} (clear : Clear first second)
    (proper : first.Proper) (proper' : second.Proper) : cmpPmemSt second first ≠ .eq := by
  rw [ne_eq, cmpPmemSt_eq_iff proper'.nonWrapping proper.nonWrapping]
  unfold Clear at clear
  omega

namespace TreeSound

variable {opts : Options} {dbIndex : Nat} {set : OSet PmemSt}

/-- Only the listing counts, and the counter may grow. -/
theorem congr (sound : TreeSound opts dbIndex set) {set' : OSet PmemSt} {dbIndex' : Nat}
    (listed : set'.toList = set.toList) (grown : dbIndex ≤ dbIndex') :
    TreeSound opts dbIndex' set' where
  proper := by
    rw [listed]
    exact sound.proper
  keyed plain := by
    rw [listed]
    exact sound.keyed plain
  fresh plain store member := by
    rw [listed] at member
    exact Nat.lt_of_lt_of_le (sound.fresh plain store member) grown
  disjoint reorganised := by
    rw [listed]
    exact sound.disjoint reorganised

/-- The tree is ordered, by index or by range as the option says. -/
theorem ordered (sound : TreeSound opts dbIndex set) : Ordered (treeCmp opts) set.toList := by
  cases mode : opts.treeReorganization with
  | false =>
    rw [treeCmp_own mode]
    exact (sound.keyed mode).ordered
  | true =>
    rw [treeCmp_ranges mode]
    exact (sound.disjoint mode).ordered

/-- The comparator finds each record equal to itself. -/
theorem reflexive (sound : TreeSound opts dbIndex set) {store : PmemSt}
    (member : store ∈ set.toList) : treeCmp opts store store = .eq := by
  cases mode : opts.treeReorganization with
  | false =>
    rw [treeCmp_own mode]
    exact byKey_eq_iff.mpr rfl
  | true =>
    rw [treeCmp_ranges mode]
    exact (sound.disjoint mode).reflexive member

/-- A record is found under its own key. -/
theorem lookup_self (sound : TreeSound opts dbIndex set) {store : PmemSt}
    (member : store ∈ set.toList) : set.lookup (treeCmp opts store) = some store := by
  obtain ⟨before, after, listed⟩ := List.append_of_mem member
  obtain ⟨above, below⟩ := ordered_match (listed ▸ sound.ordered)
  exact lookup_match listed above (sound.reflexive member) below

/-- A subsequence is ordered too. -/
theorem sublist (sound : TreeSound opts dbIndex set) {set' : OSet PmemSt}
    (part : set'.toList.Sublist set.toList) : TreeSound opts dbIndex set' where
  proper store member := sound.proper store (part.subset member)
  keyed plain := (sound.keyed plain).sublist part
  fresh plain store member := sound.fresh plain store (part.subset member)
  disjoint reorganised := (sound.disjoint reorganised).sublist part

/-- A record may be trimmed in place. -/
theorem trimmed (sound : TreeSound opts dbIndex set) {set' : OSet PmemSt}
    {done rest : List PmemSt} {being kept : PmemSt} (listed : set.toList = done ++ being :: rest)
    (edited : set'.toList = done ++ kept :: rest) (trims : Trims being kept)
    (sameIndex : kept.index = being.index) : TreeSound opts dbIndex set' where
  proper store member := by
    rw [edited, List.mem_append, List.mem_cons] at member
    rcases member with early | rfl | late
    · exact sound.proper store (by simp [listed, early])
    · exact trims.proper
    · exact sound.proper store (by simp [listed, late])
  keyed plain := by
    rw [edited]
    exact keyed_replace (listed ▸ sound.keyed plain) sameIndex
  fresh plain store member := by
    rw [edited, List.mem_append, List.mem_cons] at member
    rcases member with early | rfl | late
    · exact sound.fresh plain store (by simp [listed, early])
    · rw [sameIndex]
      exact sound.fresh plain being (by simp [listed])
    · exact sound.fresh plain store (by simp [listed, late])
  disjoint reorganised := by
    have single : Ranges [kept] :=
      ⟨by simpa using trims.proper, List.pairwise_singleton ..⟩
    have refined := (listed ▸ sound.disjoint reorganised).refine single
      (by simpa using ⟨trims.low, trims.high⟩)
    rw [edited]
    simpa using refined

/-- A record with an unused index, or with reorganisation one that fits into a gap, may be
entered. -/
theorem entered (sound : TreeSound opts dbIndex set) {piece : PmemSt} (proper : piece.Proper)
    (below : opts.treeReorganization = false → piece.index < dbIndex)
    (unused : opts.treeReorganization = false → ∀ store ∈ set.toList, store.index ≠ piece.index)
    (gap : opts.treeReorganization = true → ∀ store ∈ set.toList, cmpPmemSt piece store ≠ .eq) :
    TreeSound opts dbIndex (set.insert (treeCmp opts piece) piece) ∧
      (∀ store, store ∈ (set.insert (treeCmp opts piece) piece).toList ↔
        store = piece ∨ store ∈ set.toList) ∧
      (set.insert (treeCmp opts piece) piece).duplicate = set.duplicate := by
  have allProper {set' : OSet PmemSt} (members : ∀ store, store ∈ set'.toList ↔
      store = piece ∨ store ∈ set.toList) (store : PmemSt) (member : store ∈ set'.toList) :
      store.Proper := by
    rcases (members store).mp member with rfl | old
    · exact proper
    · exact sound.proper store old
  cases mode : opts.treeReorganization with
  | false =>
    rw [treeCmp_own mode]
    have keyed := sound.keyed mode
    have absent : ∀ store ∈ set.toList, byKey PmemSt.index piece.index store ≠ .eq := by
      intro store member equal
      exact unused mode store member (byKey_eq_iff.mp equal)
    obtain ⟨members, flag⟩ := insert_fresh piece (keyed.separates piece.index).guides absent
    refine ⟨⟨allProper members, fun _ => (insert_byKey keyed piece (unused mode)).1, ?_, ?_⟩,
      members, flag⟩
    · intro _ store member
      rcases (members store).mp member with rfl | old
      · exact below mode
      · exact sound.fresh mode store old
    · intro reorganised
      rw [mode] at reorganised
      cases reorganised
  | true =>
    rw [treeCmp_ranges mode]
    have ranges := sound.disjoint mode
    obtain ⟨members, flag⟩ := insert_fresh piece (ranges.guides proper) (gap mode)
    refine ⟨⟨allProper members, ?_, ?_, fun _ => (ranges.insert proper (gap mode)).1⟩, members,
      flag⟩ <;>
    · intro plain
      rw [mode] at plain
      cases plain

section Edit

variable {set' : OSet PmemSt} {done rest : List PmemSt} {being kept piece : PmemSt}

/-- No record is listed twice, so an edit in place exchanges one record. -/
theorem members_of_edit (sound : TreeSound opts dbIndex set)
    (listed : set.toList = done ++ being :: rest) (edited : set'.toList = done ++ kept :: rest)
    (store : PmemSt) :
    store ∈ set'.toList ↔ store = kept ∨ store ∈ set.toList ∧ store ≠ being := by
  obtain ⟨above, below⟩ := ordered_match (listed ▸ sound.ordered)
  have here : treeCmp opts being being = .eq := sound.reflexive (by simp [listed])
  have early (member : store ∈ done) : store ≠ being := by
    rintro rfl
    rw [above store member] at here
    cases here
  have late (member : store ∈ rest) : store ≠ being := by
    rintro rfl
    rw [below store member] at here
    cases here
  rw [edited, listed]
  simp only [List.mem_append, List.mem_cons]
  tauto

/-- A record that trims another one takes its place in the order, so it is not listed
itself. -/
theorem unlisted (sound : TreeSound opts dbIndex set) (member : being ∈ set.toList)
    (trims : Trims being kept) (sameIndex : kept.index = being.index) (differs : kept ≠ being) :
    kept ∉ set.toList := by
  intro listed
  have equal : treeCmp opts being kept = .eq := by
    cases mode : opts.treeReorganization with
    | false =>
      rw [treeCmp_own mode]
      exact byKey_eq_iff.mpr sameIndex
    | true =>
      rw [treeCmp_ranges mode, cmpPmemSt_eq_iff_shared (sound.proper being member) trims.proper]
      have size := trims.proper.nonempty
      have inside : kept.Covers kept.addr := ⟨Nat.le_refl _, by omega⟩
      exact ⟨kept.addr, trims.covers inside, inside⟩
  obtain ⟨before, after, split⟩ := List.append_of_mem member
  obtain ⟨above, below⟩ := ordered_match (split ▸ sound.ordered)
  rw [split, List.mem_append, List.mem_cons] at listed
  rcases listed with early | same | late
  · rw [above kept early] at equal
    cases equal
  · exact differs same
  · rw [below kept late] at equal
    cases equal

/-- A part of a record fits into the gap that trimming the record leaves. -/
theorem gap_of_trim (ranges : Ranges (done ++ being :: rest)) (trims : Trims being kept)
    (trimsPiece : Trims being piece) (clear : Clear kept piece) :
    ∀ store ∈ done ++ kept :: rest, cmpPmemSt piece store ≠ .eq := by
  intro store member
  have other (isOther : store ∈ done ++ rest) : cmpPmemSt piece store ≠ .eq := by
    intro meets
    have storeProper := ranges.proper store (by
      simp only [List.mem_append, List.mem_cons] at isOther ⊢
      tauto)
    obtain ⟨byte, inPiece, inStore⟩ :=
      (cmpPmemSt_eq_iff_shared trimsPiece.proper storeProper).mp meets
    exact ranges.apart isOther (trimsPiece.covers inPiece) inStore
  rw [List.mem_append, List.mem_cons] at member
  rcases member with early | rfl | late
  · exact other (List.mem_append_left _ early)
  · exact clear.misses trims.proper trimsPiece.proper
  · exact other (List.mem_append_right _ late)

/-- A record is trimmed in place. -/
theorem trim (sound : TreeSound opts dbIndex set)
    (listed : set.toList = done ++ being :: rest) (edited : set'.toList = done ++ kept :: rest)
    (flag : set'.duplicate = set.duplicate) (trims : Trims being kept)
    (sameIndex : kept.index = being.index) :
    TreeExchanged opts being [kept] set dbIndex set' dbIndex where
  sound := sound.trimmed listed edited trims sameIndex
  flag := flag
  members store := by
    rw [sound.members_of_edit listed edited store, List.mem_singleton]
  grown := Nat.le_refl _
  indices part member := by
    rw [List.mem_singleton.mp member]
    exact .inl sameIndex

/-- A record is trimmed and a part that was cut off is entered with the next index. -/
theorem cut (sound : TreeSound opts dbIndex set)
    (listed : set.toList = done ++ being :: rest) (edited : set'.toList = done ++ kept :: rest)
    (flag : set'.duplicate = set.duplicate) (trims : Trims being kept)
    (sameIndex : kept.index = being.index) (trimsPiece : Trims being piece)
    (clear : Clear kept piece) (next : piece.index = dbIndex) :
    TreeExchanged opts being [kept, piece] set dbIndex
      (set'.insert (treeCmp opts piece) piece) (dbIndex + 1) := by
  have trimmed := sound.trimmed listed edited trims sameIndex
  obtain ⟨newSound, members, newFlag⟩ := (trimmed.congr rfl (Nat.le_succ dbIndex)).entered
    trimsPiece.proper (fun _ => by omega) (fun plain store member same => by
      have := trimmed.fresh plain store member
      omega)
    (fun reorganised => by
      rw [edited]
      exact gap_of_trim (listed ▸ sound.disjoint reorganised) trims trimsPiece clear)
  refine ⟨newSound, newFlag.trans flag, fun store => ?_, Nat.le_succ _, fun part member => ?_⟩
  · rw [members store, sound.members_of_edit listed edited store]
    simp only [List.mem_cons, List.not_mem_nil, or_false]
    tauto
  · simp only [List.mem_cons, List.not_mem_nil, or_false] at member
    rcases member with rfl | rfl
    · exact .inl sameIndex
    · exact .inr (Nat.le_of_eq next.symm)

end Edit

/-- Whatever a key finds may be taken out. -/
theorem removed (sound : TreeSound opts dbIndex set) (key : PmemSt → Ordering) :
    TreeSound opts dbIndex (set.remove (treeCmp opts) key) ∧
      (set.remove (treeCmp opts) key).toList.Sublist set.toList ∧
      ∀ store ∈ set.toList, store ∈ (set.remove (treeCmp opts) key).toList ∨
        set.lookup key = some store := by
  cases searched : set.lookup key with
  | none =>
    have same : set.remove (treeCmp opts) key = set := by simp [OSet.remove, searched]
    rw [same]
    exact ⟨sound, List.Sublist.refl _, fun store member => .inl member⟩
  | some found =>
    obtain ⟨before, after, listed, removed, _⟩ := remove_found sound.ordered
      (sound.reflexive (lookup_sound searched).1) searched
    have part : (set.remove (treeCmp opts) key).toList.Sublist set.toList := by
      rw [removed, listed]
      exact List.Sublist.append (List.Sublist.refl _) (List.sublist_cons_self _ _)
    refine ⟨sound.sublist part, part, fun store member => ?_⟩
    rw [listed] at member
    rw [removed]
    simp only [List.mem_append, List.mem_cons] at member ⊢
    rcases member with early | rfl | late
    · exact .inl (.inl early)
    · exact .inr rfl
    · exact .inl (.inr late)

end TreeSound

namespace TreeExchanged

variable {opts : Options} {being kept : PmemSt} {parts others : List PmemSt}
  {set set' set'' : OSet PmemSt} {dbIndex dbIndex' dbIndex'' : Nat}

/-- Only the listing counts, and the counter may grow further. -/
theorem congr (exchanged : TreeExchanged opts being parts set dbIndex set' dbIndex')
    (listed : set''.toList = set'.toList) (flag : set''.duplicate = set'.duplicate)
    (grown : dbIndex' ≤ dbIndex'') : TreeExchanged opts being parts set dbIndex set''
      dbIndex'' where
  sound := exchanged.sound.congr listed grown
  flag := flag.trans exchanged.flag
  members := by
    rw [listed]
    exact exchanged.members
  grown := Nat.le_trans exchanged.grown grown
  indices := exchanged.indices

/-- One of the parts may be exchanged in turn. -/
theorem further (first : TreeExchanged opts being (kept :: others) set dbIndex set' dbIndex')
    (second : TreeExchanged opts kept parts set' dbIndex' set'' dbIndex'')
    (sameIndex : kept.index = being.index) (apart : kept ∉ others) (unlisted : kept ∉ set.toList) :
    TreeExchanged opts being (parts ++ others) set dbIndex set'' dbIndex'' where
  sound := second.sound
  flag := second.flag.trans first.flag
  members store := by
    have here (same : store = kept) : store ∉ others ∧ store ∉ set.toList := by
      rw [same]
      exact ⟨apart, unlisted⟩
    rw [second.members store, first.members store]
    simp only [List.mem_append, List.mem_cons]
    tauto
  grown := Nat.le_trans first.grown second.grown
  indices part member := by
    rcases List.mem_append.mp member with new | other
    · rcases second.indices part new with same | above
      · exact .inl (same.trans sameIndex)
      · exact .inr (Nat.le_trans first.grown above)
    · exact first.indices part (List.mem_cons_of_mem _ other)

end TreeExchanged

/-- What a loop makes of the tree and of the index counter. The tree stays sound, each part
comes from a record, and numbers that are new are above the counter. -/
structure TreeKept (opts : Options) (like : Nat → PmemSt → PmemSt → Prop) (lost : Nat → Prop)
    (set : OSet PmemSt) (dbIndex : Nat) (set' : OSet PmemSt) (dbIndex' : Nat) : Prop where
  sound : TreeSound opts dbIndex' set'
  flag : set'.duplicate = set.duplicate
  carved : Carved PmemSt.Covers like lost set.toList set'.toList
  grown : dbIndex ≤ dbIndex'
  indices : ∀ part ∈ set'.toList,
    (∃ source ∈ set.toList, part.index = source.index) ∨ dbIndex ≤ part.index

namespace TreeKept

variable {opts : Options} {like : Nat → PmemSt → PmemSt → Prop} {lost : Nat → Prop}
  {set set' set'' : OSet PmemSt} {dbIndex dbIndex' dbIndex'' : Nat}

/-- Nothing happens to the tree. -/
theorem refl (likeness : Likeness like) (sound : TreeSound opts dbIndex set) :
    TreeKept opts like lost set dbIndex set dbIndex where
  sound := sound
  flag := rfl
  carved := Carved.refl likeness set.toList
  grown := Nat.le_refl _
  indices part member := .inl ⟨part, member, rfl⟩

/-- Two steps keep what each of them keeps, and a part of a part is a part. -/
theorem trans (likeness : Likeness like) (first : TreeKept opts like lost set dbIndex set' dbIndex')
    (second : TreeKept opts like lost set' dbIndex' set'' dbIndex'') :
    TreeKept opts like lost set dbIndex set'' dbIndex'' where
  sound := second.sound
  flag := second.flag.trans first.flag
  carved := first.carved.trans likeness second.carved
  grown := Nat.le_trans first.grown second.grown
  indices part member := by
    rcases second.indices part member with ⟨source, isSource, same⟩ | new
    · rw [same]
      exact first.indices source isSource
    · exact .inr (Nat.le_trans first.grown new)

/-- Only the listing counts, and the counter may grow further. -/
theorem congr (kept : TreeKept opts like lost set dbIndex set' dbIndex')
    (listed : set''.toList = set'.toList) (flag : set''.duplicate = set'.duplicate)
    (grown : dbIndex' ≤ dbIndex'') : TreeKept opts like lost set dbIndex set'' dbIndex'' where
  sound := kept.sound.congr listed grown
  flag := flag.trans kept.flag
  carved := by
    rw [listed]
    exact kept.carved
  grown := Nat.le_trans kept.grown grown
  indices := by
    rw [listed]
    exact kept.indices

/-- A change of the walk alone. -/
theorem walked (likeness : Likeness like) (sound : TreeSound opts dbIndex set)
    (listed : set'.toList = set.toList) (flag : set'.duplicate = set.duplicate) :
    TreeKept opts like lost set dbIndex set' dbIndex :=
  (refl likeness sound).congr listed flag (Nat.le_refl _)

/-- One record is exchanged for parts of it. -/
theorem exchange (likeness : Likeness like) {being : PmemSt} {parts : List PmemSt}
    (member : being ∈ set.toList)
    (exchanged : TreeExchanged opts being parts set dbIndex set' dbIndex')
    (carved : Carved PmemSt.Covers like lost [being] parts) :
    TreeKept opts like lost set dbIndex set' dbIndex' where
  sound := exchanged.sound
  flag := exchanged.flag
  carved := Carved.exchange likeness member exchanged.members carved
  grown := exchanged.grown
  indices part isPart := by
    rcases (exchanged.members part).mp isPart with fromBeing | ⟨stays, _⟩
    · rcases exchanged.indices part fromBeing with same | new
      · exact .inl ⟨being, member, same⟩
      · exact .inr new
    · exact .inl ⟨part, stays, rfl⟩

/-- A record whose bytes may be lost is taken out. -/
theorem take (likeness : Likeness like) (sound : TreeSound opts dbIndex set)
    (key : PmemSt → Ordering) (mayLose : ∀ found, set.lookup key = some found →
      ∀ byte, found.Covers byte → lost byte) :
    TreeKept opts like lost set dbIndex (set.remove (treeCmp opts) key) dbIndex := by
  obtain ⟨newSound, part, kept⟩ := sound.removed key
  refine ⟨newSound, remove_duplicate _ _ _, ⟨?_, ?_⟩, Nat.le_refl _, ?_⟩
  · intro store member
    exact ⟨store, part.subset member, fun byte inside => ⟨inside, likeness.refl byte store⟩⟩
  · intro source member byte inside needed
    rcases kept source member with stays | found
    · exact ⟨source, stays, inside, likeness.refl byte source⟩
    · exact absurd (mayLose source found byte inside) needed
  · intro store member
    exact .inl ⟨store, part.subset member, rfl⟩

end TreeKept

end PmDebugger
