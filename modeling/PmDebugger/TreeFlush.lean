import PmDebugger.SnippetFlush

/-!
# The tree part of a flush

Without reorganisation the tree is ordered by an index that every new node takes from
a counter. A piece that is cut off therefore becomes the last node, and the walk, which
an insertion discards, is resumed at the record that was cut. That record is met a
second time, as flushed, and each piece is met once at the end.
-/

namespace PmDebugger

open OrderedSet OrderedSet.OSet PmemOps

/-- The tree is ordered by an index below the counter. A node with the next number is therefore
inserted behind all others. -/
structure Indexed (pmem : PmemOps) : Prop where
  keyed : Keyed PmemSt.index pmem.pmemStores.toList
  fresh : ∀ store ∈ pmem.pmemStores.toList, store.index < pmem.dbPmemStoreIndex

/-- The parts of a marked tree record outside the flushed range, up to the index. The
part behind the range is a bare one. -/
def treeCutPieces (flush being : PmemSt) : List PmemSt :=
  (if being.addr < flush.addr then [frontSplit flush { being with state := .flushed }] else []) ++
    (if (flushedFront flush being).maxAddr > flush.maxAddr
      then [backNode flush (flushedFront flush being) 0] else [])

/-- The same bytes in the same state. The other fields may differ. -/
structure SameRange (first second : PmemSt) : Prop where
  addr : first.addr = second.addr
  size : first.size = second.size
  state : first.state = second.state

/-- A record has the range and state that it has. -/
theorem SameRange.refl (store : PmemSt) : SameRange store store := ⟨rfl, rfl, rfl⟩

/-- Records with one range cover the same bytes. -/
theorem SameRange.covers {first second : PmemSt} (same : SameRange first second) (byte : Nat) :
    first.Covers byte ↔ second.Covers byte := by
  unfold PmemSt.Covers
  rw [same.addr, same.size]

/-- Records with one range are both proper, or neither is. -/
theorem SameRange.proper {first second : PmemSt} (same : SameRange first second) :
    first.Proper ↔ second.Proper := by
  rw [proper_iff, proper_iff, same.addr, same.size]

/-- Records that differ in their contexts or values only have one range and state. -/
theorem SameRecord.sameRange {first second : PmemSt} (same : SameRecord first second) :
    SameRange first second := by
  rw [same]
  exact ⟨rfl, rfl, rfl⟩

/-- Every element of either list has a partner in the other. The order of the two lists does
not matter. -/
structure Paired (related : PmemSt → PmemSt → Prop) (first second : List PmemSt) : Prop where
  left : ∀ store ∈ first, ∃ partner ∈ second, related store partner
  right : ∀ partner ∈ second, ∃ store ∈ first, related store partner

namespace Paired

variable {related : PmemSt → PmemSt → Prop} {first second first' second' : List PmemSt}

/-- No record is paired with no record. -/
theorem nil : Paired related [] [] := ⟨by simp, by simp⟩

/-- A list is paired with itself. -/
theorem refl (reflexive : ∀ store, related store store) (stores : List PmemSt) :
    Paired related stores stores :=
  ⟨fun store member => ⟨store, member, reflexive store⟩,
    fun store member => ⟨store, member, reflexive store⟩⟩

/-- Only the elements of the lists matter. -/
theorem congr (pairs : Paired related first second)
    (same : ∀ store, store ∈ second ↔ store ∈ second') : Paired related first second' := by
  constructor
  · intro store member
    obtain ⟨partner, isPartner, holds⟩ := pairs.left store member
    exact ⟨partner, (same partner).mp isPartner, holds⟩
  · intro partner member
    exact pairs.right partner ((same partner).mpr member)

/-- Two related records are paired. -/
theorem single {store partner : PmemSt} (holds : related store partner) :
    Paired related [store] [partner] := ⟨by simpa using holds, by simpa using holds⟩

/-- Pairings may be put one behind the other. -/
theorem append (pairs : Paired related first second) (more : Paired related first' second') :
    Paired related (first ++ first') (second ++ second') := by
  constructor
  · intro store member
    rcases List.mem_append.mp member with early | late
    · obtain ⟨partner, isPartner, holds⟩ := pairs.left store early
      exact ⟨partner, List.mem_append_left _ isPartner, holds⟩
    · obtain ⟨partner, isPartner, holds⟩ := more.left store late
      exact ⟨partner, List.mem_append_right _ isPartner, holds⟩
  · intro partner member
    rcases List.mem_append.mp member with early | late
    · obtain ⟨store, isStore, holds⟩ := pairs.right partner early
      exact ⟨store, List.mem_append_left _ isStore, holds⟩
    · obtain ⟨store, isStore, holds⟩ := more.right partner late
      exact ⟨store, List.mem_append_right _ isStore, holds⟩

end Paired

/-- A tree record is cut into the same ranges as a slot. -/
theorem treeCutPieces_ranges (flush being : PmemSt) :
    Paired SameRange (treeCutPieces flush being) (cutPieces flush being) := by
  unfold treeCutPieces cutPieces
  refine Paired.append ?_ ?_
  · split
    · exact Paired.single (SameRange.refl _)
    · exact Paired.nil
  · split
    · exact Paired.single ⟨rfl, rfl, rfl⟩
    · exact Paired.nil

/-- Marking a tree record cuts it exactly along the flushed range. -/
theorem tree_cut_exact {flush being : PmemSt} (proper : flush.Proper) (record : being.Proper)
    (meets : cmpPmemSt flush being = .eq) :
    CutExact flush being (flushedPart flush being) (treeCutPieces flush being) := by
  have cut := cut_exact proper record meets
  have ranges := treeCutPieces_ranges flush being
  refine ⟨cut.kept_covers, ?_, cut.kept_proper, ?_, cut.kept_state, ?_, cut.kept_mark⟩
  · intro byte
    rw [← cut.pieces_cover byte]
    constructor
    · rintro ⟨piece, member, inside⟩
      obtain ⟨other, isOther, same⟩ := ranges.left piece member
      exact ⟨other, isOther, (same.covers byte).mp inside⟩
    · rintro ⟨other, isOther, inside⟩
      obtain ⟨piece, member, same⟩ := ranges.right other isOther
      exact ⟨piece, member, (same.covers byte).mpr inside⟩
  · intro piece member
    obtain ⟨other, isOther, same⟩ := ranges.left piece member
    exact same.proper.mpr (cut.pieces_proper other isOther)
  · intro piece member
    obtain ⟨other, isOther, same⟩ := ranges.left piece member
    exact same.state.trans (cut.pieces_state other isOther)

/-- The flush takes effect on a tree record: it meets the record, and the record is dirty. -/
def marksTree (flush being : PmemSt) : Prop :=
  cmpPmemSt flush being = .eq ∧ being.state = .dirty

instance (flush being : PmemSt) : Decidable (marksTree flush being) :=
  inferInstanceAs (Decidable (_ ∧ _))

/-- What a flush leaves of a tree record in its place: its flushed part, or all of it where the
flush takes no effect. -/
def treatTree (flush being : PmemSt) : PmemSt :=
  if marksTree flush being then flushedPart flush being else being

/-- What it adds for that record: the parts that the flush does not reach. -/
def treatTreePieces (flush being : PmemSt) : List PmemSt :=
  if marksTree flush being then treeCutPieces flush being else []

/-- Cutting keeps the index. -/
theorem flushedFront_index (flush being : PmemSt) :
    (flushedFront flush being).index = being.index := by
  unfold flushedFront cutFront
  simp only
  split <;> rfl

/-- The part that is flushed keeps the index of the record, and with it its place in the tree. -/
theorem flushedPart_index (flush being : PmemSt) :
    (flushedPart flush being).index = being.index := by
  unfold flushedPart cutBack
  simp only
  split <;> exact flushedFront_index flush being

/-- A record under the walk is rewritten and nodes are added behind all others. If there are
any, the walk meets the rewritten record once more. -/
structure Rewritten (done rest : List PmemSt) (kept : PmemSt) (pieces : List PmemSt)
    (before after : PmemOps) : Prop where
  frame : after = { before with
    pmemStores := after.pmemStores
    dbPmemStoreIndex := after.dbPmemStoreIndex }
  listed : ∃ added, after.pmemStores.toList = done ++ kept :: (rest ++ added) ∧
    Paired SameRecord added pieces ∧ added.length = pieces.length
  walk : after.pmemStores.iter = some (if pieces = [] then done.length + 1 else done.length)
  indexed : Indexed after

section Rewriting

variable {pmem : PmemOps} {done rest : List PmemSt} {being : PmemSt}

/-- A node inserted with the next index becomes the last one, and the walk resumes at a
chosen record. -/
theorem insertResume_last {set : OSet PmemSt} (split : PmemSt)
    (listed : set.toList = done ++ being :: rest) (keyed : Keyed PmemSt.index set.toList)
    (fresh : ∀ store ∈ set.toList, store.index < split.index) :
    (insertResume cmpPmemOwnSt split being set).toList = done ++ being :: (rest ++ [split]) ∧
      (insertResume cmpPmemOwnSt split being set).iter = some done.length ∧
      Keyed PmemSt.index (insertResume cmpPmemOwnSt split being set).toList := by
  have inserted : (set.insert (cmpPmemOwnSt split) split).toList = set.toList ++ [split] :=
    (insert_byKey_last split fresh).1
  have whole : (insertResume cmpPmemOwnSt split being set).toList =
      done ++ being :: (rest ++ [split]) := by
    refine inserted.trans ?_
    rw [listed]
    simp
  have ordered : Keyed PmemSt.index (insertResume cmpPmemOwnSt split being set).toList := by
    rw [show (insertResume cmpPmemOwnSt split being set).toList =
      set.toList ++ [split] from inserted]
    exact List.pairwise_append.mpr ⟨keyed, List.pairwise_singleton _ _, by simpa using fresh⟩
  refine ⟨whole, ?_, ordered⟩
  have split' := whole ▸ ordered
  obtain ⟨_, tail, across⟩ := List.pairwise_append.mp split'
  show ((set.insert (cmpPmemOwnSt split) split).resetIterAt (cmpPmemOwnSt being)).iter = _
  refine resetIterAt_split whole ?_ ?_ ?_
  · intro elem member
    exact byKey_gt_iff.mpr (across elem member being List.mem_cons_self)
  · exact ordered.separates being.index
  · intro elem member isAbove
    have below := byKey_gt_iff.mp isAbove
    rcases List.mem_cons.mp member with rfl | later
    · omega
    · have := (List.pairwise_cons.mp tail).1 elem later
      omega

/-- Without reorganisation the tree is ordered by the index. -/
theorem treeCmp_own {opts : Options} (plain : opts.treeReorganization = false) :
    treeCmp opts = cmpPmemOwnSt := by
  simp [treeCmp, plain]

/-- Rewriting a record keeps the order as long as the index stays. -/
theorem keyed_replace {kept : PmemSt} (keyed : Keyed PmemSt.index (done ++ being :: rest))
    (same : kept.index = being.index) : Keyed PmemSt.index (done ++ kept :: rest) := by
  obtain ⟨first, tail, across⟩ := List.pairwise_append.mp keyed
  obtain ⟨below, last⟩ := List.pairwise_cons.mp tail
  refine List.pairwise_append.mpr ⟨first, List.pairwise_cons.mpr ⟨?_, last⟩, ?_⟩
  · intro elem member
    rw [same]
    exact below elem member
  · intro elem member other isOther
    rcases List.mem_cons.mp isOther with rfl | later
    · rw [same]
      exact across elem member being List.mem_cons_self
    · exact across elem member other (List.mem_cons_of_mem _ later)

/-- Rewriting the record under the walk in place. -/
theorem indexed_edit {kept : PmemSt} {set : OSet PmemSt} (indexed : Indexed pmem)
    (listed : pmem.pmemStores.toList = done ++ being :: rest)
    (edited : set.toList = done ++ kept :: rest) (same : kept.index = being.index) :
    Indexed { pmem with pmemStores := set } := by
  have keyed := keyed_replace (listed ▸ indexed.keyed) same
  refine ⟨edited ▸ keyed, ?_⟩
  intro store member
  show store.index < pmem.dbPmemStoreIndex
  have member' : store ∈ done ++ kept :: rest := edited ▸ member
  rw [List.mem_append, List.mem_cons] at member'
  rcases member' with early | rfl | late
  · exact indexed.fresh store (by simp [listed, early])
  · rw [same]
    exact indexed.fresh being (by simp [listed])
  · exact indexed.fresh store (by simp [listed, late])

/-- Rewriting a record and adding a node, the common step of both cuts. -/
theorem rewritten_insert {kept split piece : PmemSt} {set : OSet PmemSt}
    (listed : pmem.pmemStores.toList = done ++ being :: rest) (indexed : Indexed pmem)
    (edited : set.toList = done ++ kept :: rest) (sameIndex : kept.index = being.index)
    (next : split.index = pmem.dbPmemStoreIndex) (same : SameRecord split piece) :
    Rewritten done rest kept [piece] pmem { pmem with
      pmemStores := insertResume cmpPmemOwnSt split kept set
      dbPmemStoreIndex := pmem.dbPmemStoreIndex + 1 } := by
  have keyed : Keyed PmemSt.index set.toList := by
    rw [edited]
    exact keyed_replace (listed ▸ indexed.keyed) sameIndex
  have fresh : ∀ store ∈ set.toList, store.index < split.index := by
    intro store member
    rw [next]
    rw [edited, List.mem_append, List.mem_cons] at member
    rcases member with early | rfl | late
    · exact indexed.fresh store (by simp [listed, early])
    · rw [sameIndex]
      exact indexed.fresh being (by simp [listed])
    · exact indexed.fresh store (by simp [listed, late])
  obtain ⟨inserted, walk, ordered⟩ := insertResume_last split edited keyed fresh
  refine ⟨rfl, ⟨[split], inserted, Paired.single same, rfl⟩, by simpa using walk,
    ordered, ?_⟩
  intro store member
  show store.index < pmem.dbPmemStoreIndex + 1
  have member' : store ∈ set.toList ∨ store = split := by
    rw [edited]
    have := inserted ▸ member
    simp only [List.mem_append, List.mem_cons, List.not_mem_nil, or_false] at this ⊢
    tauto
  rcases member' with old | rfl
  · have := fresh store old
    omega
  · omega

/-- Cutting the front of the record under the walk. -/
theorem splitFrontTree_rewritten (flush : PmemSt) (plain : pmem.opts.treeReorganization = false)
    (listed : pmem.pmemStores.toList = done ++ being :: rest)
    (walk : pmem.pmemStores.iter = some (done.length + 1)) (indexed : Indexed pmem) :
    (pmem.splitFrontTree flush being done.length).2 =
        (if being.addr < flush.addr then cutFront flush being else being) ∧
      Rewritten done rest (if being.addr < flush.addr then cutFront flush being else being)
        (if being.addr < flush.addr then [frontSplit flush being] else []) pmem
        (pmem.splitFrontTree flush being done.length).1 := by
  unfold splitFrontTree
  split
  · refine ⟨rfl, ?_⟩
    simp only [treeCmp_own plain]
    exact rewritten_insert listed indexed (modifyAt_match listed (fun _ => cutFront flush being))
      rfl rfl rfl
  · exact ⟨rfl, rfl, ⟨[], by simpa using listed, Paired.nil, rfl⟩, by simpa using walk, indexed⟩

/-- Cutting the back of the record under the walk. -/
theorem splitBackTree_rewritten (flush : PmemSt) (plain : pmem.opts.treeReorganization = false)
    (listed : pmem.pmemStores.toList = done ++ being :: rest) (indexed : Indexed pmem)
    (sticksOut : being.maxAddr > flush.maxAddr) :
    Rewritten done rest (cutBack flush being) [backNode flush being 0] pmem
      (pmem.splitBackTree flush being) := by
  have keyed := listed ▸ indexed.keyed
  have edited : (pmem.pmemStores.update (cmpPmemOwnSt being)
      (fun _ => cutBack flush being)).toList = done ++ cutBack flush being :: rest := by
    refine (update_byKey indexed.keyed being.index _).trans ?_
    obtain ⟨_, tail, across⟩ := List.pairwise_append.mp keyed
    have below := (List.pairwise_cons.mp tail).1
    have untouched (elems : List PmemSt) (differ : ∀ elem ∈ elems, elem.index ≠ being.index) :
        elems.map (fun elem => if elem.index = being.index then cutBack flush being else elem) =
          elems := by
      refine (List.map_congr_left ?_).trans (List.map_id elems)
      intro elem member
      simp [differ elem member]
    rw [listed, List.map_append, List.map_cons, if_pos rfl]
    congr 1
    · refine untouched done (fun elem member => ?_)
      have := across elem member being List.mem_cons_self
      omega
    · congr 1
      refine untouched rest (fun elem member => ?_)
      have := below elem member
      omega
  unfold splitBackTree
  rw [if_pos sticksOut]
  simp only [treeCmp_own plain]
  exact rewritten_insert listed indexed edited rfl rfl rfl

/-- The two cuts together leave the flushed part and add the pieces. -/
theorem splitsTree_rewritten (flush : PmemSt) (plain : pmem.opts.treeReorganization = false)
    (listed : pmem.pmemStores.toList = done ++ { being with state := .flushed } :: rest)
    (walk : pmem.pmemStores.iter = some (done.length + 1)) (indexed : Indexed pmem) :
    Rewritten done rest (flushedPart flush being) (treeCutPieces flush being) pmem
      ((pmem.splitFrontTree flush { being with state := .flushed } done.length).1.splitBackTree
        flush (pmem.splitFrontTree flush { being with state := .flushed } done.length).2) := by
  obtain ⟨cut, front⟩ := splitFrontTree_rewritten flush plain listed walk indexed
  have isFront : (if being.addr < flush.addr then cutFront flush { being with state := .flushed }
      else { being with state := .flushed }) = flushedFront flush being := rfl
  rw [isFront] at cut front
  rw [cut]
  obtain ⟨added, frontListed, pairs, length⟩ := front.listed
  have frontPlain : (pmem.splitFrontTree flush { being with state := .flushed }
      done.length).1.opts.treeReorganization = false := by
    rw [front.frame]
    exact plain
  unfold flushedPart treeCutPieces
  by_cases sticksOut : (flushedFront flush being).maxAddr > flush.maxAddr
  · have back := splitBackTree_rewritten flush frontPlain frontListed front.indexed sticksOut
    obtain ⟨more, backListed, morePairs, moreLength⟩ := back.listed
    simp only [if_pos sticksOut]
    refine ⟨?_, ⟨added ++ more, ?_, pairs.append morePairs, ?_⟩, ?_, back.indexed⟩
    · rw [back.frame, front.frame]
    · rw [backListed]
      simp
    · simp only [List.length_append, length, moreLength]
    · rw [back.walk]
      simp
  · have same : (pmem.splitFrontTree flush { being with state := .flushed }
        done.length).1.splitBackTree flush (flushedFront flush being) =
        (pmem.splitFrontTree flush { being with state := .flushed } done.length).1 :=
      if_neg sticksOut
    simp only [if_neg sticksOut, List.append_nil, same]
    exact front

end Rewriting

section Unmarked

variable {flush being : PmemSt} {added : List PmemSt}

/-- The record is flushed now. -/
theorem flushedPart_unmarked (range : flush.Proper) (proper : being.Proper)
    (marked : marksTree flush being) : ¬ marksTree flush (flushedPart flush being) := by
  have state := (tree_cut_exact range proper marked.1).kept_state
  exact fun again => absurd again.2 (by simp [state])

/-- The pieces lie outside the flushed range. -/
theorem added_unmarked (range : flush.Proper) (proper : being.Proper)
    (marked : marksTree flush being)
    (pairs : Paired SameRecord added (treeCutPieces flush being)) :
    ∀ store ∈ added, ¬ marksTree flush store := by
  intro store member again
  have cutting := tree_cut_exact range proper marked.1
  obtain ⟨piece, isPiece, sameRecord⟩ := pairs.left store member
  refine sameRecord.misses range (cutting.pieces_proper piece isPiece) ?_ again.1
  exact fun byte inside => ((cutting.pieces_cover byte).mp ⟨piece, isPiece, inside⟩).2

end Unmarked

/-- The effect of the walk over the tree from a point of it. `done` has been passed,
`rest` is still ahead. -/
structure TreeFlushing (flush : PmemSt) (done rest : List PmemSt) (before after : PmemOps) :
    Prop where
  frame : after = { before with
    pmemStores := after.pmemStores
    dbPmemStoreIndex := after.dbPmemStoreIndex
    redundantFlushes := after.redundantFlushes
    exited := after.exited }
  indexed : Indexed after
  passed : ∀ store ∈ done, store ∈ after.pmemStores.toList
  treated : ∀ being ∈ rest, treatTree flush being ∈ after.pmemStores.toList
  toCut : ∀ being ∈ rest, ∀ piece ∈ treatTreePieces flush being,
    ∃ store ∈ after.pmemStores.toList, SameRecord store piece
  origin : ∀ store ∈ after.pmemStores.toList, store ∈ done ∨
    (∃ being ∈ rest, store = treatTree flush being) ∨
    ∃ being ∈ rest, ∃ piece ∈ treatTreePieces flush being, SameRecord store piece

namespace TreeFlushing

variable {flush being : PmemSt} {done rest : List PmemSt} {before middle after : PmemOps}

/-- What the walk does may be told from an earlier state that differs in nothing it reads. -/
theorem of_frame (flushing : TreeFlushing flush done rest middle after)
    (frame : middle = { before with
      pmemStores := middle.pmemStores
      dbPmemStoreIndex := middle.dbPmemStoreIndex
      redundantFlushes := middle.redundantFlushes
      exited := middle.exited }) :
    TreeFlushing flush done rest before after := by
  refine ⟨?_, flushing.indexed, flushing.passed, flushing.treated, flushing.toCut,
    flushing.origin⟩
  rw [flushing.frame, frame]

/-- Nothing is left of the walk. -/
theorem finished (indexed : Indexed before) (listed : before.pmemStores.toList = done) :
    TreeFlushing flush done [] before before := by
  refine ⟨rfl, indexed, ?_, by simp, by simp, ?_⟩
  · intro store member
    rwa [listed]
  · intro store member
    rw [listed] at member
    exact .inl member

/-- A record that the flush does not take effect on might as well be ahead. -/
theorem pass (flushing : TreeFlushing flush (done ++ [being]) rest before after)
    (unmarked : ¬ marksTree flush being) :
    TreeFlushing flush done (being :: rest) before after := by
  have same : treatTree flush being = being := if_neg unmarked
  have none : treatTreePieces flush being = [] := if_neg unmarked
  refine ⟨flushing.frame, flushing.indexed, ?_, ?_, ?_, ?_⟩
  · intro store member
    exact flushing.passed store (List.mem_append_left _ member)
  · intro store member
    rcases List.mem_cons.mp member with rfl | later
    · rw [same]
      exact flushing.passed store (by simp)
    · exact flushing.treated store later
  · intro store member piece isPiece
    rcases List.mem_cons.mp member with rfl | later
    · simp [none] at isPiece
    · exact flushing.toCut store later piece isPiece
  · intro store member
    rcases flushing.origin store member with inDone | ⟨other, isOther, treated⟩ |
      ⟨other, isOther, cut⟩
    · rcases List.mem_append.mp inDone with early | here
      · exact .inl early
      · rw [List.mem_singleton] at here
        exact .inr (.inl ⟨being, List.mem_cons_self, by rw [same, here]⟩)
    · exact .inr (.inl ⟨other, List.mem_cons_of_mem _ isOther, treated⟩)
    · exact .inr (.inr ⟨other, List.mem_cons_of_mem _ isOther, cut⟩)

/-- After a cut the walk meets only records that the flush has no effect on, besides
those that were ahead anyway. -/
theorem cut {added : List PmemSt}
    (flushing : TreeFlushing flush done (flushedPart flush being :: (rest ++ added)) before after)
    (range : flush.Proper) (proper : being.Proper) (marked : marksTree flush being)
    (pairs : Paired SameRecord added (treeCutPieces flush being)) :
    TreeFlushing flush done (being :: rest) before after := by
  have same : treatTree flush being = flushedPart flush being := if_pos marked
  have pieces : treatTreePieces flush being = treeCutPieces flush being := if_pos marked
  have unmarked {store : PmemSt} (member : store = flushedPart flush being ∨ store ∈ added) :
      treatTree flush store = store ∧ treatTreePieces flush store = [] := by
    have no : ¬ marksTree flush store := by
      rcases member with rfl | isAdded
      · exact flushedPart_unmarked range proper marked
      · exact added_unmarked range proper marked pairs store isAdded
    exact ⟨if_neg no, if_neg no⟩
  refine ⟨flushing.frame, flushing.indexed, flushing.passed, ?_, ?_, ?_⟩
  · intro store member
    rcases List.mem_cons.mp member with rfl | later
    · rw [same, ← (unmarked (.inl rfl)).1]
      exact flushing.treated _ List.mem_cons_self
    · exact flushing.treated store (by simp [later])
  · intro store member piece isPiece
    rcases List.mem_cons.mp member with rfl | later
    · rw [pieces] at isPiece
      obtain ⟨node, isNode, sameRecord⟩ := pairs.right piece isPiece
      have held := flushing.treated node (by simp [isNode])
      rw [(unmarked (.inr isNode)).1] at held
      exact ⟨node, held, sameRecord⟩
    · exact flushing.toCut store (by simp [later]) piece isPiece
  · intro store member
    have split (other : PmemSt) (isOther : other ∈ flushedPart flush being :: (rest ++ added)) :
        other ∈ rest ∨ other = flushedPart flush being ∨ other ∈ added := by
      simp only [List.mem_cons, List.mem_append] at isOther
      tauto
    rcases flushing.origin store member with inDone | ⟨other, isOther, treated⟩ |
      ⟨other, isOther, piece, isPiece, sameRecord⟩
    · exact .inl inDone
    · rcases split other isOther with later | rfl | isAdded
      · exact .inr (.inl ⟨other, List.mem_cons_of_mem _ later, treated⟩)
      · rw [(unmarked (.inl rfl)).1, ← same] at treated
        exact .inr (.inl ⟨being, List.mem_cons_self, treated⟩)
      · rw [(unmarked (.inr isAdded)).1] at treated
        obtain ⟨piece, isPiece, sameRecord⟩ := pairs.left other isAdded
        exact .inr (.inr ⟨being, List.mem_cons_self, piece, pieces ▸ isPiece, treated ▸ sameRecord⟩)
    · rcases split other isOther with later | isKept | isAdded
      · exact .inr (.inr ⟨other, List.mem_cons_of_mem _ later, piece, isPiece, sameRecord⟩)
      · simp [(unmarked (.inl isKept)).2] at isPiece
      · simp [(unmarked (.inr isAdded)).2] at isPiece

end TreeFlushing

/-- How often the walk can still meet the records ahead: a record that is cut is met
twice, and so are its two pieces together. -/
def turns (flush : PmemSt) (rest : List PmemSt) : Nat :=
  (rest.map (fun being => if marksTree flush being then 4 else 1)).sum

/-- The turns over two parts of the walk add up. -/
theorem turns_append (flush : PmemSt) (first second : List PmemSt) :
    turns flush (first ++ second) = turns flush first + turns flush second := by
  simp [turns]

/-- A record that is cut is met up to four times, since the walk goes back to what is left of
it, and any other record once. -/
theorem turns_cons (flush being : PmemSt) (rest : List PmemSt) :
    turns flush (being :: rest) = (if marksTree flush being then 4 else 1) + turns flush rest := by
  simp [turns]

/-- No record is met more than four times, which bounds the fuel. -/
theorem turns_le (flush : PmemSt) (rest : List PmemSt) : turns flush rest ≤ 4 * rest.length := by
  induction rest with
  | nil => simp [turns]
  | cons being rest inductionHypothesis =>
    rw [turns_cons, List.length_cons]
    split <;> omega

/-- Where nothing is cut, every record is met once. -/
theorem turns_unmarked {flush : PmemSt} {elems : List PmemSt}
    (unmarked : ∀ elem ∈ elems, ¬ marksTree flush elem) : turns flush elems = elems.length := by
  induction elems with
  | nil => rfl
  | cons elem rest inductionHypothesis =>
    rw [turns_cons, if_neg (unmarked elem List.mem_cons_self), List.length_cons,
      inductionHypothesis (fun other member => unmarked other (List.mem_cons_of_mem _ member))]
    omega

/-- A record of the tree is cut into three parts at most, of which one stays in its place. -/
theorem treeCutPieces_length (flush being : PmemSt) : (treeCutPieces flush being).length ≤ 2 := by
  unfold treeCutPieces
  split <;> split <;> simp

/-- With so much fuel the walk does what it should from any point of the tree. The fuel has to
exceed the turns that are still to be taken. -/
def WalksTree (flush : PmemSt) (fuel : Nat) : Prop :=
  ∀ (pmem : PmemOps) (valid : Bool) (done rest : List PmemSt), turns flush rest < fuel →
    pmem.opts.treeReorganization = false → pmem.pmemStores.toList = done ++ rest →
      pmem.pmemStores.iter = some done.length → Indexed pmem → (∀ being ∈ rest, being.Proper) →
        TreeFlushing flush done rest pmem (flushTree flush fuel pmem valid).1

section Turn

variable {flush being : PmemSt} {fuel : Nat} {pmem : PmemOps} {done rest : List PmemSt}

/-- A record that the flush has no effect on is passed. -/
theorem WalksTree.passes (walks : WalksTree flush fuel) {state : PmemOps} (valid : Bool)
    (enough : turns flush (being :: rest) < fuel + 1)
    (plain : pmem.opts.treeReorganization = false)
    (listed : pmem.pmemStores.toList = done ++ being :: rest) (indexed : Indexed pmem)
    (proper : ∀ store ∈ rest, store.Proper) (unmarked : ¬ marksTree flush being)
    (frame : state = { pmem with
      pmemStores := { pmem.pmemStores with iter := some (done.length + 1) }
      redundantFlushes := state.redundantFlushes
      exited := state.exited }) :
    TreeFlushing flush done (being :: rest) pmem (flushTree flush fuel state valid).1 := by
  rw [turns_cons, if_neg unmarked] at enough
  refine ((walks state valid (done ++ [being]) rest (by omega) ?_ ?_ ?_ ?_
    proper).pass unmarked).of_frame ?_
  · rw [frame]
    exact plain
  · rw [frame]
    simpa using listed
  · rw [frame]
    simp
  · rw [frame]
    exact ⟨indexed.keyed, indexed.fresh⟩
  · rw [frame]

/-- The walk goes on after a cut. It is set back to the record if anything was cut off, and
passes it otherwise. -/
theorem WalksTree.resumes (walks : WalksTree flush fuel) (range : flush.Proper)
    (proper : being.Proper) (marked : marksTree flush being)
    (enough : turns flush (being :: rest) < fuel + 1) {middle state : PmemOps}
    (plain : state.opts.treeReorganization = false)
    (restProper : ∀ store ∈ rest, store.Proper)
    (rewritten : Rewritten done rest (flushedPart flush being) (treeCutPieces flush being)
      middle state) {added : List PmemSt}
    (listed : state.pmemStores.toList = done ++ flushedPart flush being :: (rest ++ added))
    (pairs : Paired SameRecord added (treeCutPieces flush being))
    (length : added.length = (treeCutPieces flush being).length) :
    TreeFlushing flush done (flushedPart flush being :: (rest ++ added)) state
      (flushTree flush fuel state true).1 := by
  rw [turns_cons, if_pos marked] at enough
  have short := treeCutPieces_length flush being
  have unmarked := flushedPart_unmarked range proper marked
  have addedTurns := turns_unmarked (added_unmarked range proper marked pairs)
  have cutting := tree_cut_exact range proper marked.1
  have addedProper : ∀ store ∈ rest ++ added, store.Proper := by
    intro store member
    rcases List.mem_append.mp member with old | isAdded
    · exact restProper store old
    · obtain ⟨piece, isPiece, same⟩ := pairs.left store isAdded
      exact same.proper.mpr (cutting.pieces_proper piece isPiece)
  by_cases whole : treeCutPieces flush being = []
  · have none : added = [] := List.length_eq_zero_iff.mp (by simp [length, whole])
    refine (walks state true (done ++ [flushedPart flush being]) (rest ++ added)
      ?_ plain ?_ ?_ rewritten.indexed addedProper).pass unmarked
    · rw [turns_append, addedTurns, none]
      simp only [List.length_nil]
      omega
    · rw [listed]
      simp
    · rw [rewritten.walk, if_pos whole]
      simp
  · refine walks state true done (flushedPart flush being :: (rest ++ added))
      ?_ plain listed ?_ rewritten.indexed ?_
    · rw [turns_cons, if_neg unmarked, turns_append, addedTurns]
      omega
    · rw [rewritten.walk, if_neg whole]
    · intro store member
      rcases List.mem_cons.mp member with rfl | later
      · exact cutting.kept_proper
      · exact addedProper store later

/-- A marked record is cut, and what the walk does afterwards is as if it had met the whole
record. -/
theorem WalksTree.cuts (walks : WalksTree flush fuel) (range : flush.Proper)
    (enough : turns flush (being :: rest) < fuel + 1)
    (plain : pmem.opts.treeReorganization = false)
    (proper : ∀ store ∈ being :: rest, store.Proper) (marked : marksTree flush being)
    {middle state : PmemOps} (frame : middle = { pmem with pmemStores := middle.pmemStores })
    (rewritten : Rewritten done rest (flushedPart flush being) (treeCutPieces flush being)
      middle state) :
    TreeFlushing flush done (being :: rest) pmem (flushTree flush fuel state true).1 := by
  obtain ⟨added, splitListed, pairs, length⟩ := rewritten.listed
  have properBeing := proper being List.mem_cons_self
  have restProper : ∀ store ∈ rest, store.Proper :=
    fun store member => proper store (List.mem_cons_of_mem _ member)
  have splitPlain : state.opts.treeReorganization = false := by
    rw [rewritten.frame, frame]
    exact plain
  have stateFrame : state = { pmem with
      pmemStores := state.pmemStores
      dbPmemStoreIndex := state.dbPmemStoreIndex
      redundantFlushes := state.redundantFlushes
      exited := state.exited } := by
    rw [rewritten.frame, frame]
  have later := walks.resumes range properBeing marked enough splitPlain restProper rewritten
    splitListed pairs length
  exact (later.cut range properBeing marked pairs).of_frame stateFrame

end Turn

/-- The walk from any point of the tree.

Proof: by induction on the fuel, which bounds the turns still to be taken. A record is passed
if the flush has no effect on it. Otherwise it is cut, and the walk goes on from its place, with
the parts at the end of the tree. -/
theorem flushTree_exact {flush : PmemSt} (range : flush.Proper) (fuel : Nat) (pmem : PmemOps)
    (valid : Bool) (done rest : List PmemSt) (enough : turns flush rest < fuel)
    (plain : pmem.opts.treeReorganization = false)
    (listed : pmem.pmemStores.toList = done ++ rest)
    (walk : pmem.pmemStores.iter = some done.length) (indexed : Indexed pmem)
    (proper : ∀ being ∈ rest, being.Proper) :
    TreeFlushing flush done rest pmem (flushTree flush fuel pmem valid).1 := by
  induction fuel generalizing pmem valid done rest with
  | zero => omega
  | succ fuel inductionHypothesis =>
    have walks : WalksTree flush fuel := inductionHypothesis
    cases rest with
    | nil =>
      rw [List.append_nil] at listed
      have finished : pmem.pmemStores.next = none := next_end (by rw [walk, listed])
      simp only [flushTree, finished]
      exact TreeFlushing.finished indexed listed
    | cons being rest =>
      have restProper : ∀ store ∈ rest, store.Proper :=
        fun store member => proper store (List.mem_cons_of_mem _ member)
      simp only [flushTree, next_some listed walk]
      by_cases meets : cmpPmemSt flush being = .eq
      · rw [if_neg (not_not.mpr meets)]
        by_cases dirty : being.state = .dirty
        · rw [if_neg (not_not.mpr dirty)]
          have edited := modifyAt_match (show ({ pmem.pmemStores with
              iter := some (done.length + 1) } : OSet PmemSt).toList = done ++
                being :: rest from listed)
            (fun _ => { being with state := .flushed })
          exact walks.cuts range enough plain proper ⟨meets, dirty⟩ rfl
            (splitsTree_rewritten flush plain edited rfl (indexed_edit indexed listed edited rfl))
        · rw [if_pos dirty]
          exact walks.passes _ enough plain listed indexed restProper
            (fun marked => dirty marked.2) (warnRedundantFlush_frame _ _)
      · rw [if_pos meets]
        exact walks.passes _ enough plain listed indexed restProper
          (fun marked => meets marked.1) rfl

/-- The tree part of a flush leaves the options and the array alone. -/
theorem flushTree_frame (flush : PmemSt) (fuel : Nat) (pmem : PmemOps) (valid : Bool) :
    (flushTree flush fuel pmem valid).1.opts = pmem.opts ∧
      (flushTree flush fuel pmem valid).1.current = pmem.current := by
  induction fuel generalizing pmem valid with
  | zero => exact ⟨rfl, rfl⟩
  | succ fuel inductionHypothesis =>
    simp only [flushTree]
    split
    · exact ⟨rfl, rfl⟩
    · split
      · exact inductionHypothesis _ _
      · split
        · obtain ⟨opts, current⟩ := inductionHypothesis _ true
          rw [opts, current, warnRedundantFlush_frame]
          exact ⟨rfl, rfl⟩
        · obtain ⟨opts, current⟩ := inductionHypothesis _ true
          rw [opts, current]
          unfold splitBackTree splitFrontTree
          split <;> split <;> exact ⟨rfl, rfl⟩

/-- The walk over the tree leaves the options and the current snippet. -/
theorem flushStores_frame (flush : PmemSt) (pmem : PmemOps) (valid : Bool) :
    (pmem.flushStores flush valid).1.opts = pmem.opts ∧
      (pmem.flushStores flush valid).1.current = pmem.current := by
  unfold flushStores
  split
  · exact ⟨rfl, rfl⟩
  · exact flushTree_frame _ _ _ _

/-- The bounds of the tree enclose its records. A flush outside of them need not walk over it. -/
def Bounded (pmem : PmemOps) : Prop :=
  ∀ store ∈ pmem.pmemStores.toList,
    pmem.minAddPmemStore ≤ store.addr ∧ store.addr + store.size ≤ pmem.maxAddPmemStore

/-- The tree part of a flush. Where the bounds let the flush skip the tree, no record
of it meets the range. -/
theorem flushStores_exact {flush : PmemSt} (range : flush.Proper) {pmem : PmemOps} (valid : Bool)
    (plain : pmem.opts.treeReorganization = false) (indexed : Indexed pmem)
    (proper : ∀ being ∈ pmem.pmemStores.toList, being.Proper) (bounded : Bounded pmem) :
    TreeFlushing flush [] pmem.pmemStores.toList pmem (pmem.flushStores flush valid).1 := by
  unfold flushStores
  split
  · next skipped =>
    have unmarked (being : PmemSt) (member : being ∈ pmem.pmemStores.toList) :
        ¬ marksTree flush being := by
      intro marked
      have fits := (proper being member).nonWrapping
      have meets := (cmpPmemSt_eq_iff range.nonWrapping fits).mp marked.1
      have := bounded being member
      have := range.nonWrapping.maxAddr_eq
      omega
    refine ⟨rfl, indexed, by simp, ?_, ?_, ?_⟩
    · intro being member
      rw [treatTree, if_neg (unmarked being member)]
      exact member
    · intro being member piece isPiece
      simp [treatTreePieces, unmarked being member] at isPiece
    · intro store member
      exact .inr (.inl ⟨store, member, (if_neg (unmarked store member)).symm⟩)
  · refine (flushTree_exact range (4 * pmem.pmemStores.size + 1) { pmem with
      pmemStores := pmem.pmemStores.resetIter } valid [] pmem.pmemStores.toList
      (Nat.lt_succ_of_le (turns_le flush pmem.pmemStores.toList)) plain rfl rfl
      ⟨indexed.keyed, indexed.fresh⟩ proper).of_frame rfl

end PmDebugger
