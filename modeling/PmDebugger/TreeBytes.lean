import Mathlib.Algebra.Order.BigOperators.Group.List
import PmDebugger.Integrity

/-!
# The tree byte by byte

What flushes and fences do to the bytes of the tree, under either order of it. Ordered by
index the tree may hold records that overlap, ordered by range it may not, and the pieces
that a flush cuts off go to its end or to their place. Seen byte by byte there is no
difference: a byte is covered by some record or by none, and by a dirty one or not.

The walk of a flush is set back to the record that it cut, and so meets some records twice.
A count of the turns that are left shows that it meets all of them.
-/

namespace PmDebugger

open OrderedSet OrderedSet.OSet PmemOps Carving

/-- Some dirty record covers the byte. Other records may cover it, too, with other states. -/
def DirtyIn (stores : List PmemSt) (byte : Nat) : Prop :=
  ∃ store ∈ stores, store.state = .dirty ∧ store.Covers byte

instance (stores : List PmemSt) (byte : Nat) : Decidable (DirtyIn stores byte) :=
  inferInstanceAs (Decidable (∃ store ∈ stores, _ ∧ _))

/-! ## The walk of a flush -/

section Walk

variable {flush being : PmemSt} {pmem : PmemOps} {done rest : List PmemSt}

/-- No record is listed twice. -/
theorem TreeSound.nodup {opts : Options} {dbIndex : Nat} {set : OSet PmemSt}
    (sound : TreeSound opts dbIndex set) : set.toList.Nodup := by
  refine List.Pairwise.imp_of_mem (fun {first second} isFirst _ compared same => ?_) sound.ordered
  have reflexive := sound.reflexive isFirst
  rw [← same] at compared
  rw [compared.1] at reflexive
  cases reflexive

/-- What is left of a record compares to the others as the record did. -/
theorem treeCmp_trims (opts : Options) {kept other : PmemSt} (proper : being.Proper)
    (trims : Trims being kept) (sameIndex : kept.index = being.index) (otherProper : other.Proper) :
    (treeCmp opts being other = .gt → treeCmp opts kept other = .gt) ∧
      (treeCmp opts being other = .lt → treeCmp opts kept other = .lt) := by
  cases mode : opts.treeReorganization with
  | false =>
    rw [treeCmp_own mode]
    unfold cmpPmemOwnSt
    rw [sameIndex]
    exact ⟨id, id⟩
  | true =>
    have low := trims.low
    have high := trims.high
    have size := trims.proper.nonempty
    have otherSize := otherProper.nonempty
    rw [treeCmp_ranges mode, cmpPmemSt_gt_iff proper.nonWrapping otherProper.nonWrapping,
      cmpPmemSt_gt_iff trims.proper.nonWrapping otherProper.nonWrapping,
      cmpPmemSt_lt_iff proper.nonWrapping, cmpPmemSt_lt_iff trims.proper.nonWrapping]
    omega

/-- The flushed part of a record of the tree is a part of it. -/
theorem flushedPart_trims (range : flush.Proper) (proper : being.Proper)
    (meets : cmpPmemSt flush being = .eq) : Trims being (flushedPart flush being) := by
  have cutting := tree_cut_exact range proper meets
  have size := cutting.kept_proper.nonempty
  have first := ((cutting.kept_covers (flushedPart flush being).addr).mp
    ⟨Nat.le_refl _, by omega⟩).1
  have last := ((cutting.kept_covers ((flushedPart flush being).addr +
    (flushedPart flush being).size - 1)).mp ⟨by omega, by omega⟩).1
  unfold PmemSt.Covers at first last
  exact ⟨cutting.kept_proper, by omega, by omega⟩

/-- Fewer records take fewer turns. -/
theorem turns_le_of_subset (flush : PmemSt) {elems others : List PmemSt} (distinct : elems.Nodup)
    (part : elems ⊆ others) : turns flush elems ≤ turns flush others := by
  obtain ⟨same, perm, sublist⟩ := List.subperm_of_subset distinct part
  have weights := (sublist.map (fun being => if marksTree flush being then 4 else 1)).sum_le_sum
    (fun _ _ => Nat.zero_le _)
  have equal := (perm.map (fun being => if marksTree flush being then 4 else 1)).sum_eq
  unfold turns
  rw [← equal]
  exact weights

/-- Where the walk stands after the cuts. -/
theorem splitsTree_walk (flush : PmemSt) (listed : pmem.pmemStores.toList = done ++ being :: rest)
    (walk : pmem.pmemStores.iter = some (done.length + 1)) :
    let flushed := { being with state := .flushed }
    let cut := (markAt done.length being pmem).splitFrontTree flush flushed done.length
    let result := (cut.1.splitBackTree flush cut.2).pmemStores
    (treeCutPieces flush being = [] → result.toList = done ++ flushedPart flush being :: rest ∧
      result.iter = some (done.length + 1)) ∧
    (treeCutPieces flush being ≠ [] → ∃ set : OSet PmemSt,
      result = set.resetIterAt (treeCmp pmem.opts (flushedPart flush being))) := by
  have marked := modifyAt_match listed (fun _ => { being with state := .flushed })
  unfold treeCutPieces flushedPart
  by_cases front : being.addr < flush.addr
  · have isFront : flushedFront flush being = cutFront flush { being with state := .flushed } :=
      if_pos front
    by_cases back : (flushedFront flush being).maxAddr > flush.maxAddr
    · rw [isFront] at back ⊢
      simp only [splitFrontTree, if_pos front, splitBackTree, if_pos back, insertResume]
      exact ⟨fun empty => by simp at empty, fun _ => ⟨_, rfl⟩⟩
    · rw [isFront] at back ⊢
      simp only [splitFrontTree, if_pos front, splitBackTree, if_neg back, insertResume]
      exact ⟨fun empty => by simp at empty, fun _ => ⟨_, rfl⟩⟩
  · have isFront : flushedFront flush being = { being with state := .flushed } := if_neg front
    by_cases back : (flushedFront flush being).maxAddr > flush.maxAddr
    · rw [isFront] at back ⊢
      simp only [splitFrontTree, if_neg front, splitBackTree, if_pos back, insertResume]
      exact ⟨fun empty => by simp at empty, fun _ => ⟨_, rfl⟩⟩
    · rw [isFront] at back ⊢
      simp only [splitFrontTree, if_neg front, splitBackTree, if_neg back]
      exact ⟨fun _ => ⟨marked, walk⟩, fun some => absurd rfl some⟩

/-- The walk was set back to a record of the tree. -/
theorem walk_resumed {opts : Options} {dbIndex : Nat} {result set : OSet PmemSt} {kept : PmemSt}
    (sound : TreeSound opts dbIndex result) (member : kept ∈ result.toList)
    (reset : result = set.resetIterAt (treeCmp opts kept)) :
    ∃ before after, result.toList = before ++ kept :: after ∧
      result.iter = some before.length ∧ (∀ store ∈ before, treeCmp opts kept store = .gt) ∧
      ∀ store ∈ after, treeCmp opts kept store = .lt := by
  obtain ⟨before, after, listed⟩ := List.append_of_mem member
  obtain ⟨above, below⟩ := ordered_match (listed ▸ sound.ordered)
  have setListed : set.toList = before ++ kept :: after := by
    rw [← listed, reset]
    rfl
  refine ⟨before, after, listed, ?_, above, below⟩
  rw [reset]
  refine resetIterAt_split setListed above (setListed ▸ separates_match above below) ?_
  intro store isLater
  rcases List.mem_cons.mp isLater with rfl | later
  · rw [sound.reflexive member]
    simp
  · rw [below store later]
    simp

/-- One turn of the loop over the tree, unless its walk is at the end. -/
def treeTurn (flush : PmemSt) (state : PmemOps × Bool) : Option (PmemOps × Bool) :=
  let (pmem, valid) := state
  match pmem.pmemStores.next with
  | none => none
  | some (position, being, walked) =>
      let next := { pmem with pmemStores := walked }
      if cmpPmemSt flush being ≠ .eq then some (next, valid)
      else if being.state ≠ .dirty then some (next.warnRedundantFlush being, true)
      else
        let flushed := { being with state := .flushed }
        let marked := { next with pmemStores := walked.modifyAt position (fun _ => flushed) }
        let (front, cut) := marked.splitFrontTree flush flushed position
        some (front.splitBackTree flush cut, true)

/-- The loop over the tree repeats its turn. -/
theorem flushTree_succ (flush : PmemSt) (fuel : Nat) (pmem : PmemOps) (valid : Bool) :
    flushTree flush (fuel + 1) pmem valid = (treeTurn flush (pmem, valid)).elim (pmem, valid)
      (fun next => flushTree flush fuel next.1 next.2) := by
  simp only [flushTree, treeTurn]
  cases pmem.pmemStores.next with
  | none => rfl
  | some found =>
    by_cases meets : cmpPmemSt flush found.2.1 = .eq
    · by_cases dirty : found.2.1.state = .dirty
      · simp only [meets, dirty, ne_eq, not_true_eq_false, if_false, Option.elim_some]
      · simp only [meets, dirty, ne_eq, not_true_eq_false, not_false_eq_true, if_false, if_true,
          Option.elim_some]
    · simp only [meets, ne_eq, not_false_eq_true, if_true, Option.elim_some]

/-- The walk of a flush stands between the records that it has dealt with and the rest. -/
structure Walking (flush : PmemSt) (done rest : List PmemSt) (pmem : PmemOps) : Prop where
  sound : TreeSound pmem.opts pmem.dbPmemStoreIndex pmem.pmemStores
  listed : pmem.pmemStores.toList = done ++ rest
  walk : pmem.pmemStores.iter = some done.length
  passed : ∀ store ∈ done, ¬ marksTree flush store

/-- The walk starts before the whole tree. -/
theorem walking_start (flush : PmemSt)
    (sound : TreeSound pmem.opts pmem.dbPmemStoreIndex pmem.pmemStores) :
    Walking flush [] pmem.pmemStores.toList
      { pmem with pmemStores := pmem.pmemStores.resetIter } :=
  ⟨sound.congr rfl (Nat.le_refl _), rfl, rfl, by simp⟩

/-- The walk ends when no record is left. -/
theorem Walking.finished (walking : Walking flush done [] pmem) (valid : Bool) :
    treeTurn flush (pmem, valid) = none := by
  have listed := walking.listed
  rw [List.append_nil] at listed
  have finished : pmem.pmemStores.next = none := next_end (by rw [walking.walk, listed])
  simp only [treeTurn, finished]

/-- A record that the flush has no effect on is passed. -/
theorem Walking.pass (walking : Walking flush done (being :: rest) pmem)
    (unmarked : ¬ marksTree flush being) {state : PmemOps} (opts : state.opts = pmem.opts)
    (index : state.dbPmemStoreIndex = pmem.dbPmemStoreIndex)
    (stores : state.pmemStores = { pmem.pmemStores with iter := some (done.length + 1) }) :
    Walking flush (done ++ [being]) rest state where
  sound := by
    rw [opts, index, stores]
    exact walking.sound.congr rfl (Nat.le_refl _)
  listed := by
    rw [stores]
    simpa using walking.listed
  walk := by
    rw [stores]
    simp
  passed store inDone := by
    rcases List.mem_append.mp inDone with early | here
    · exact walking.passed store early
    · rw [List.mem_singleton.mp here]
      exact unmarked

/-- A marked record is cut; the walk is set back to it if anything was cut off. -/
theorem Walking.cut (range : flush.Proper) (walking : Walking flush done (being :: rest) pmem)
    (marked : marksTree flush being) {ahead : OSet PmemSt} {result : PmemOps}
    (aheadListed : ahead.toList = done ++ being :: rest) {added : List PmemSt}
    (opts : result.opts = pmem.opts)
    (pairs : Paired SameRecord added (treeCutPieces flush being)) (few : added.length ≤ 2)
    (exchanged : TreeExchanged pmem.opts being (flushedPart flush being :: added) ahead
      pmem.dbPmemStoreIndex result.pmemStores result.dbPmemStoreIndex)
    (whole : treeCutPieces flush being = [] →
      result.pmemStores.toList = done ++ flushedPart flush being :: rest ∧
        result.pmemStores.iter = some (done.length + 1))
    (resumed : treeCutPieces flush being ≠ [] → ∃ set : OSet PmemSt,
      result.pmemStores = set.resetIterAt (treeCmp pmem.opts (flushedPart flush being))) :
    ∃ done' rest', Walking flush done' rest' result ∧
      turns flush rest' < turns flush (being :: rest) ∧
      (treeCutPieces flush being = [] → rest' = rest) ∧
      (treeCutPieces flush being ≠ [] → flushedPart flush being ∈ rest') := by
  obtain ⟨sound, listed, _, passed⟩ := walking
  have proper := sound.proper being (by simp [listed])
  have keptUnmarked := flushedPart_unmarked range proper marked
  have cutOff := added_unmarked range proper marked pairs
  rw [turns_cons, if_pos marked]
  by_cases nothing : treeCutPieces flush being = []
  · obtain ⟨newListed, newWalk⟩ := whole nothing
    refine ⟨done ++ [flushedPart flush being], rest, ⟨opts ▸ exchanged.sound,
      by simpa using newListed, by simpa using newWalk, fun store inDone => ?_⟩, by omega,
      fun _ => rfl, fun some => absurd nothing some⟩
    rcases List.mem_append.mp inDone with early | here
    · exact passed store early
    · rw [List.mem_singleton.mp here]
      exact keptUnmarked
  · obtain ⟨set, reset⟩ := resumed nothing
    obtain ⟨before, after, newListed, newWalk, above, below⟩ := walk_resumed exchanged.sound
      ((exchanged.members _).mpr (.inl List.mem_cons_self)) reset
    have trims := flushedPart_trims range proper marked.1
    obtain ⟨early, late⟩ := ordered_match (listed ▸ sound.ordered)
    have compares (store : PmemSt) (isOther : store ∈ done ++ being :: rest) :=
      treeCmp_trims pmem.opts proper trims (flushedPart_index flush being)
        (sound.proper store (listed ▸ isOther))
    have origin (store : PmemSt) (isListed : store ∈ before ++ flushedPart flush being :: after) :
        store = flushedPart flush being ∨ store ∈ added ∨ store ∈ done ∨ store ∈ rest := by
      rw [← newListed] at isListed
      rcases (exchanged.members store).mp isListed with isPart | ⟨old, differs⟩
      · rcases List.mem_cons.mp isPart with isKept | isAdded
        · exact .inl isKept
        · exact .inr (.inl isAdded)
      · rw [aheadListed, List.mem_append, List.mem_cons] at old
        tauto
    have distinct : (before ++ flushedPart flush being :: after).Nodup :=
      newListed ▸ exchanged.sound.nodup
    obtain ⟨_, tail, across⟩ := List.nodup_append.mp distinct
    have behind : after ⊆ rest ++ added := by
      intro store isLater
      have compared := below store isLater
      rcases origin store (by simp [isLater]) with rfl | isAdded | isDone | isRest
      · exact absurd isLater (List.nodup_cons.mp tail).1
      · exact List.mem_append_right _ isAdded
      · rw [(compares store (by simp [isDone])).1 (early store isDone)] at compared
        cases compared
      · exact List.mem_append_left _ isRest
    have fewer := turns_le_of_subset flush (List.nodup_cons.mp tail).2 behind
    rw [turns_append, turns_unmarked cutOff] at fewer
    refine ⟨before, flushedPart flush being :: after, ⟨opts ▸ exchanged.sound, newListed, newWalk,
      fun store isEarlier => ?_⟩, ?_, fun none => absurd none nothing, fun _ => List.mem_cons_self⟩
    · have compared := above store isEarlier
      rcases origin store (by simp [isEarlier]) with rfl | isAdded | isDone | isRest
      · exact keptUnmarked
      · exact cutOff store isAdded
      · exact passed store isDone
      · rw [(compares store (by simp [isRest])).2 (late store isRest)] at compared
        cases compared
    · rw [turns_cons, if_neg keptUnmarked]
      omega

/-- A turn of the walk leaves fewer turns. -/
theorem Walking.turn (range : flush.Proper) (walking : Walking flush done (being :: rest) pmem)
    (valid : Bool) : ∃ next, treeTurn flush (pmem, valid) = some next ∧
      ∃ done' rest', Walking flush done' rest' next.1 ∧
        turns flush rest' < turns flush (being :: rest) ∧
        (¬ (marksTree flush being ∧ treeCutPieces flush being ≠ []) → rest' = rest) ∧
        (marksTree flush being ∧ treeCutPieces flush being ≠ [] →
          flushedPart flush being ∈ rest') := by
  have proper := walking.sound.proper being (by simp [walking.listed])
  have fewer (unmarked : ¬ marksTree flush being) :
      turns flush rest < turns flush (being :: rest) := by
    rw [turns_cons, if_neg unmarked]
    omega
  let ahead : PmemOps := { pmem with
    pmemStores := { pmem.pmemStores with iter := some (done.length + 1) } }
  have aheadListed : ahead.pmemStores.toList = done ++ being :: rest := walking.listed
  have aheadSound : TreeSound ahead.opts ahead.dbPmemStoreIndex ahead.pmemStores :=
    walking.sound.congr rfl (Nat.le_refl _)
  simp only [treeTurn, next_some walking.listed walking.walk]
  by_cases meets : cmpPmemSt flush being = .eq
  · rw [if_neg (not_not.mpr meets)]
    by_cases dirty : being.state = .dirty
    · rw [if_neg (not_not.mpr dirty)]
      obtain ⟨opts, added, pairs, few, exchanged⟩ :=
        splitsTree_exchanged range proper meets dirty aheadSound aheadListed
      obtain ⟨whole, resumed⟩ := splitsTree_walk flush aheadListed rfl
      obtain ⟨done', rest', walks, less, kept, again⟩ := walking.cut range ⟨meets, dirty⟩
        aheadListed opts pairs few exchanged whole resumed
      refine ⟨_, rfl, done', rest', walks, less, fun notCut => kept ?_, fun cut => again cut.2⟩
      by_contra cut
      exact notCut ⟨⟨meets, dirty⟩, cut⟩
    · rw [if_pos dirty]
      have unmarked : ¬ marksTree flush being := fun marked => dirty marked.2
      refine ⟨_, rfl, done ++ [being], rest, walking.pass unmarked ?_ ?_ ?_, fewer unmarked,
        fun _ => rfl, fun cut => absurd cut.1 unmarked⟩ <;>
        rw [warnRedundantFlush_frame]
  · rw [if_pos meets]
    have unmarked : ¬ marksTree flush being := fun marked => meets marked.1
    exact ⟨_, rfl, done ++ [being], rest, walking.pass unmarked rfl rfl rfl, fewer unmarked,
      fun _ => rfl, fun cut => absurd cut.1 unmarked⟩

/-- The walk from any point of the tree meets every record that the flush takes effect on. -/
theorem flushTree_reaches (range : flush.Proper) (fuel : Nat) (valid : Bool)
    (enough : turns flush rest < fuel) (walking : Walking flush done rest pmem) :
    ∀ store ∈ (flushTree flush fuel pmem valid).1.pmemStores.toList, ¬ marksTree flush store := by
  induction fuel generalizing pmem valid done rest with
  | zero => omega
  | succ fuel inductionHypothesis =>
    rw [flushTree_succ]
    cases rest with
    | nil =>
      rw [walking.finished valid, Option.elim_none]
      have listed := walking.listed
      rw [List.append_nil] at listed
      rw [listed]
      exact walking.passed
    | cons being rest =>
      obtain ⟨next, turned, done', rest', walks, fewer, _⟩ := walking.turn range valid
      rw [turned, Option.elim_some]
      exact inductionHypothesis next.2 (by omega) walks

end Walk

/-! ## Flushes -/

/-- A written record is dirty or flushed. -/
theorem dirty_iff {store : PmemSt} (written : store.state ≠ .clean) :
    store.state = .dirty ↔ store.state ≠ .flushed := by
  cases state : store.state with
  | clean => exact absurd state written
  | dirty => simp
  | flushed => simp

/-- A dirty record that covers a byte of the flushed range is one that the flush takes
effect on. -/
theorem marksTree_of_covers {flush store : PmemSt} (range : flush.Proper) (proper : store.Proper)
    (dirty : store.state = .dirty) {byte : Nat} (inside : store.Covers byte)
    (flushed : flush.Covers byte) : marksTree flush store :=
  ⟨(cmpPmemSt_eq_iff_shared range proper).mpr ⟨byte, flushed, inside⟩, dirty⟩

/-- What a flush does to the bytes of the tree. No byte is lost, and the bytes in its range are
no longer dirty. -/
structure TreeFlushed (flush : PmemSt) (before after : PmemOps) : Prop where
  bytes : ∀ byte, Tracks after.pmemStores.toList byte ↔ Tracks before.pmemStores.toList byte
  dirty : ∀ byte, DirtyIn after.pmemStores.toList byte ↔
    DirtyIn before.pmemStores.toList byte ∧ ¬ flush.Covers byte
  written : ∀ store ∈ after.pmemStores.toList, store.state ≠ .clean
  bounded : Bounded before → Bounded after

/-- A record whose bytes belong to another one lies within it. -/
theorem Trims.of_covers {being kept : PmemSt} (proper : kept.Proper)
    (covers : ∀ byte, kept.Covers byte → being.Covers byte) : Trims being kept := by
  have size := proper.nonempty
  have first := covers kept.addr ⟨Nat.le_refl _, by omega⟩
  have last := covers (kept.addr + kept.size - 1) ⟨by omega, by omega⟩
  unfold PmemSt.Covers at first last
  exact ⟨proper, by omega, by omega⟩

section Flush

variable {flush : PmemSt} {pmem : PmemOps}

/-- Where the bounds of the tree enclose its records, a flush that skips the tree would take
no effect there. -/
theorem Bounded.reached (bounded : Bounded pmem) (range : flush.Proper)
    (proper : ∀ store ∈ pmem.pmemStores.toList, store.Proper)
    (skipped : flush.addr > pmem.maxAddPmemStore ∨ flush.maxAddr < pmem.minAddPmemStore) :
    ∀ store ∈ pmem.pmemStores.toList, ¬ marksTree flush store := by
  intro store member marked
  have meets := (cmpPmemSt_eq_iff range.nonWrapping (proper store member).nonWrapping).mp marked.1
  have inside := bounded store member
  have maxAddr := range.nonWrapping.maxAddr_eq
  omega

/-- The tree part of a flush, under either order of the tree. -/
theorem flushStores_bytes (range : flush.Proper) (valid : Bool)
    (sound : TreeSound pmem.opts pmem.dbPmemStoreIndex pmem.pmemStores)
    (written : ∀ store ∈ pmem.pmemStores.toList, store.state ≠ .clean)
    (reached : flush.addr > pmem.maxAddPmemStore ∨ flush.maxAddr < pmem.minAddPmemStore →
      ∀ store ∈ pmem.pmemStores.toList, ¬ marksTree flush store) :
    TreeFlushed flush pmem (pmem.flushStores flush valid).1 := by
  simp only [flushStores]
  split
  · next skipped =>
    refine ⟨fun _ => Iff.rfl, fun byte => ?_, written, id⟩
    constructor
    · rintro ⟨store, member, dirty, inside⟩
      refine ⟨⟨store, member, dirty, inside⟩, fun flushed => ?_⟩
      exact reached skipped store member
        (marksTree_of_covers range (sound.proper store member) dirty inside flushed)
    · exact fun both => both.1
  · have reset : TreeSound pmem.opts pmem.dbPmemStoreIndex pmem.pmemStores.resetIter :=
      sound.congr rfl (Nat.le_refl _)
    have kept := flushTree_kept range (4 * pmem.pmemStores.size + 1)
      { pmem with pmemStores := pmem.pmemStores.resetIter } valid reset
    have marked := flushTree_reaches range (4 * pmem.pmemStores.size + 1) valid
      (Nat.lt_succ_of_le (turns_le flush pmem.pmemStores.toList)) (walking_start flush sound)
    have frame := flushTree_unchanged flush (4 * pmem.pmemStores.size + 1)
      { pmem with pmemStores := pmem.pmemStores.resetIter } valid
    generalize (flushTree flush (4 * pmem.pmemStores.size + 1)
      { pmem with pmemStores := pmem.pmemStores.resetIter } valid).1 = after at *
    have origin (store : PmemSt) (member : store ∈ after.pmemStores.toList) :
        ∃ old ∈ pmem.pmemStores.toList, ∀ byte, store.Covers byte →
          old.Covers byte ∧ FlushLike flush byte old store := kept.carved.origin store member
    have isWritten (store : PmemSt) (member : store ∈ after.pmemStores.toList) :
        store.state ≠ .clean := by
      obtain ⟨old, isOld, like⟩ := origin store member
      have size := (kept.sound.proper store member).nonempty
      exact (like store.addr ⟨Nat.le_refl _, by omega⟩).2.written (written old isOld)
    refine ⟨fun byte => ?_, fun byte => ?_, isWritten, fun bounded store member => ?_⟩
    · constructor
      · rintro ⟨store, member, inside⟩
        obtain ⟨old, isOld, like⟩ := origin store member
        exact ⟨old, isOld, (like byte inside).1⟩
      · rintro ⟨store, member, inside⟩
        obtain ⟨part, isPart, covered, _⟩ := kept.carved.kept store member byte inside id
        exact ⟨part, isPart, covered⟩
    · constructor
      · rintro ⟨store, member, dirty, inside⟩
        obtain ⟨old, isOld, like⟩ := origin store member
        refine ⟨⟨old, isOld, ?_, (like byte inside).1⟩, fun flushed => ?_⟩
        · rw [dirty_iff (written old isOld)]
          exact (like byte inside).2.dirty ((dirty_iff (isWritten store member)).mp dirty)
        · exact marked store member
            (marksTree_of_covers range (kept.sound.proper store member) dirty inside flushed)
      · rintro ⟨⟨store, member, dirty, inside⟩, outside⟩
        obtain ⟨part, isPart, covered, like⟩ := kept.carved.kept store member byte inside id
        refine ⟨part, isPart, ?_, covered⟩
        rw [dirty_iff (isWritten part isPart)]
        exact like.outside outside ((dirty_iff (written store member)).mp dirty)
    · obtain ⟨old, isOld, like⟩ := origin store member
      have trims := Trims.of_covers (kept.sound.proper store member)
        (fun byte inside => (like byte inside).1)
      have inside := bounded old isOld
      have low := trims.low
      have high := trims.high
      have lower : after.minAddPmemStore = pmem.minAddPmemStore := by rw [frame]
      have upper : after.maxAddPmemStore = pmem.maxAddPmemStore := by rw [frame]
      exact ⟨by omega, by omega⟩

end Flush

/-! ## Fences -/

/-- Records are moved to the tree, byte by byte. Merging may join them with their neighbours,
but every byte of theirs is there and none is new. -/
structure MovedBytes (records : List PmemSt) (before after : PmemOps) : Prop where
  frame : after = { before with
    pmemStores := after.pmemStores
    minAddPmemStore := after.minAddPmemStore
    maxAddPmemStore := after.maxAddPmemStore
    dbPmemStoreIndex := after.dbPmemStoreIndex }
  sound : TreeSound before.opts after.dbPmemStoreIndex after.pmemStores
  bounded : Bounded after
  bytes : ∀ byte, Tracks after.pmemStores.toList byte ↔
    Tracks before.pmemStores.toList byte ∨ Tracks records byte
  states : ∀ store ∈ after.pmemStores.toList,
    (∃ old ∈ before.pmemStores.toList, store.state = old.state) ∨
      ∃ record ∈ records, store.state = record.state

namespace MovedBytes

variable {records more : List PmemSt} {before middle after : PmemOps}

/-- Nothing is moved. -/
theorem refl (sound : TreeSound before.opts before.dbPmemStoreIndex before.pmemStores)
    (bounded : Bounded before) : MovedBytes [] before before :=
  ⟨rfl, sound, bounded, fun _ => by simp, fun store member => .inl ⟨store, member, rfl⟩⟩

/-- Two moves are one, of the records of both. -/
theorem trans (first : MovedBytes records before middle) (second : MovedBytes more middle after) :
    MovedBytes (records ++ more) before after := by
  have opts : middle.opts = before.opts := by rw [first.frame]
  refine ⟨?_, opts ▸ second.sound, second.bounded, ?_, ?_⟩
  · rw [second.frame, first.frame]
  · intro byte
    rw [second.bytes, first.bytes, tracks_append, or_assoc]
  · intro store member
    rcases second.states store member with ⟨old, isOld, same⟩ | ⟨record, isRecord, same⟩
    · rcases first.states old isOld with ⟨source, isSource, sameSource⟩ | ⟨record, isRecord,
          sameRecord⟩
      · exact .inl ⟨source, isSource, same.trans sameSource⟩
      · exact .inr ⟨record, List.mem_append_left _ isRecord, same.trans sameRecord⟩
    · exact .inr ⟨record, List.mem_append_right _ isRecord, same⟩

end MovedBytes

section Fence

variable {pmem : PmemOps}

/-- The fence moves one slot. -/
theorem fenceSlot_bytes (sound : TreeSound pmem.opts pmem.dbPmemStoreIndex pmem.pmemStores)
    (bounded : Bounded pmem) {slot : Nat} (proper : (pmem.slots slot).Proper) :
    MovedBytes (slotPending (pmem.slots slot)) pmem (pmem.fenceSlot slot) := by
  have frame := fenceSlot_frame pmem slot
  unfold slotPending fenceSlot at *
  simp only at frame ⊢
  split
  · exact MovedBytes.refl sound bounded
  · next pending =>
    rw [if_neg pending] at frame
    have entered := insertNext_entered { pmem.slots slot with index := pmem.dbPmemStoreIndex } sound
      ⟨proper.nonempty, proper.nonWrapping⟩ rfl
    have same := insertStore_frame { pmem.slots slot with index := pmem.dbPmemStoreIndex }
      { pmem with dbPmemStoreIndex := pmem.dbPmemStoreIndex + 1 }
    generalize insertStore { pmem.slots slot with index := pmem.dbPmemStoreIndex }
      { pmem with dbPmemStoreIndex := pmem.dbPmemStoreIndex + 1 } = result at *
    have lower : result.1.minAddPmemStore = pmem.minAddPmemStore := by rw [same]
    have upper : result.1.maxAddPmemStore = pmem.maxAddPmemStore := by rw [same]
    refine ⟨frame, entered.sound, ?_, ?_, ?_⟩
    · intro store member
      rcases entered.members store member with rfl | ⟨old, isOld, _, covers⟩
      · exact widen_encloses entered.proper _ _
      · have storeProper := entered.sound.proper store member
        have trims := Trims.of_covers storeProper covers
        have inside := bounded old isOld
        have low := trims.low
        have high := trims.high
        exact widen_keeps entered.proper storeProper ⟨by omega, by omega⟩
    · intro byte
      rw [show Tracks (result.1.updateOsetPmemStoresMinandmax result.2).pmemStores.toList byte ↔ _
        from entered.bytes byte]
      simp only [tracks_cons, tracks_nil, or_false]
      exact or_comm
    · intro store member
      rcases entered.members store member with rfl | ⟨old, isOld, sameState, _⟩
      · exact .inr ⟨_, List.mem_singleton.mpr rfl, entered.state⟩
      · exact .inl ⟨old, isOld, sameState⟩

/-- The fence moves one snippet. -/
theorem fenceSnippet_bytes (sound : TreeSound pmem.opts pmem.dbPmemStoreIndex pmem.pmemStores)
    (bounded : Bounded pmem) {sIndex : Nat}
    (proper : ∀ slot, InSnippet pmem sIndex slot → (pmem.slots slot).Proper) :
    MovedBytes (snippetPending pmem sIndex) pmem (pmem.fenceSnippet sIndex) := by
  simp only [snippetPending, fenceSnippet]
  split
  · exact MovedBytes.refl sound bounded
  · refine moves_loop (fun passed state => MovedBytes passed pmem state) _
      (MovedBytes.refl sound bounded) (fun slot inside passed state moved => ?_)
    have opts : state.opts = pmem.opts := by rw [moved.frame]
    have slots : state.slots = pmem.slots := by rw [moved.frame]
    have next := fenceSlot_bytes (opts ▸ moved.sound) moved.bounded
      (show (state.slots slot).Proper by rw [slots]; exact proper slot (mem_slotRange.mp inside))
    rw [slots] at next
    exact moved.trans next

/-- The loop over the snippets moves all pending records of the array. -/
theorem fenceSnippets_bytes (sound : TreeSound pmem.opts pmem.dbPmemStoreIndex pmem.pmemStores)
    (bounded : Bounded pmem)
    (proper : ∀ sIndex ≤ pmem.snippetInfoIndex, ∀ slot, InSnippet pmem sIndex slot →
      (pmem.slots slot).Proper) :
    MovedBytes ((List.range (pmem.snippetInfoIndex + 1)).flatMap (snippetPending pmem)) pmem
      ((List.range (pmem.snippetInfoIndex + 1)).foldl fenceSnippet pmem) := by
  refine moves_loop (fun passed state => MovedBytes passed pmem state) _
    (MovedBytes.refl sound bounded) (fun sIndex used passed state moved => ?_)
  have opts : state.opts = pmem.opts := by rw [moved.frame]
  have slots : state.slots = pmem.slots := by rw [moved.frame]
  have snippets : state.snippetInfo = pmem.snippetInfo := by rw [moved.frame]
  have next := fenceSnippet_bytes (opts ▸ moved.sound) moved.bounded (fun slot inside => by
    unfold InSnippet at inside
    rw [snippets] at inside
    rw [slots]
    exact proper sIndex (Nat.le_of_lt_succ (List.mem_range.mp used)) slot inside)
  have same : snippetPending state sIndex = snippetPending pmem sIndex := by
    unfold snippetPending
    rw [slots, snippets]
  rw [same] at next
  exact moved.trans next

/-- What a fence does, byte by byte: of the live records the dirty ones are left, in the
tree. -/
structure FencedBytes (before after : PmemOps) : Prop where
  opts : after.opts = before.opts
  index : after.snippetInfoIndex = 0
  emptied : after.snippetInfo 0 = emptySnippet 0
  sound : TreeSound before.opts after.dbPmemStoreIndex after.pmemStores
  bounded : Bounded after
  bytes : ∀ byte, Tracks after.pmemStores.toList byte ↔
    ∃ store ∈ before.live, store.state ≠ .flushed ∧ store.Covers byte
  states : ∀ store ∈ after.pmemStores.toList, ∃ old ∈ before.live, old.state ≠ .flushed ∧
    store.state = old.state

/-- `do_fence` under either order of the tree. -/
theorem doFence_bytes (sound : Sound pmem) : FencedBytes pmem pmem.doFence := by
  let entered : PmemOps := { pmem.fenceTimes with
    minAddPmemStore := Word64.minusOne
    maxAddPmemStore := Word64.minusOne
    pmemStores := pmem.fenceTimes.pmemStores.resetIter }
  have timed := fenceTimes_frame pmem
  have enteredListed : entered.pmemStores.toList = pmem.pmemStores.toList := by
    simp only [entered, timed]
    rfl
  have enteredSound : TreeSound entered.opts entered.dbPmemStoreIndex entered.pmemStores := by
    simp only [entered, timed]
    exact sound.tree.congr rfl (Nat.le_refl _)
  obtain ⟨fencedListed, fencedFrame, fencedSound, fencedBounded⟩ :=
    fenceTree_exact (pmem.fenceTimes.pmemStores.size + 1) entered [] pmem.pmemStores.toList
      (by rw [timed]; exact Nat.lt_succ_self _) enteredListed rfl enteredSound
      (by simp [BoundedPart])
  have entire : pmem.doFence = (
      let fenced := fenceTree (pmem.fenceTimes.pmemStores.size + 1) entered
      let done := (List.range (fenced.snippetInfoIndex + 1)).foldl fenceSnippet fenced
      if done.clearArray.opts.orderGuarantee
        then { done.clearArray with
          globalTimeStamp := Word64.add done.clearArray.globalTimeStamp 1 }
        else done.clearArray) := rfl
  generalize fenceTree (pmem.fenceTimes.pmemStores.size + 1) entered = fenced at *
  have opts : fenced.opts = pmem.opts := by
    rw [fencedFrame]
    simp only [entered, timed]
  have index : fenced.dbPmemStoreIndex = pmem.dbPmemStoreIndex := by
    rw [fencedFrame]
    simp only [entered, timed]
  have array : fenced.slots = pmem.slots ∧ fenced.snippetInfo = pmem.snippetInfo ∧
      fenced.snippetInfoIndex = pmem.snippetInfoIndex := by
    rw [fencedFrame]
    simp only [entered, timed]
    exact ⟨trivial, trivial, trivial⟩
  have moved := fenceSnippets_bytes (by
      rw [opts, index]
      simp only [entered, timed] at fencedSound
      exact fencedSound) fencedBounded (fun sIndex used slot inside => by
    unfold InSnippet at inside
    rw [array.2.1] at inside
    rw [array.2.2] at used
    rw [array.1]
    exact sound.slots slot (sound.layout.inUse_iff.mpr ⟨sIndex, used, inside⟩))
  have pending (store : PmemSt) :
      store ∈ (List.range (fenced.snippetInfoIndex + 1)).flatMap (snippetPending fenced) ∨
        store ∈ fenced.pmemStores.toList ↔ store ∈ pmem.live ∧ store.state ≠ .flushed := by
    rw [mem_snippetPending, fencedListed, List.nil_append, List.mem_filter, mem_live, array.1,
      array.2.1, array.2.2]
    unfold InSnippet
    rw [array.2.1]
    simp only [decide_eq_true_eq]
    constructor
    · rintro (⟨sIndex, used, slot, inside, undeleted, same, dirty⟩ | ⟨inTree, dirty⟩)
      · exact ⟨.inl ⟨sIndex, used, slot, inside, undeleted, same⟩, dirty⟩
      · exact ⟨.inr inTree, dirty⟩
    · rintro ⟨⟨sIndex, used, slot, inside, undeleted, same⟩ | inTree, dirty⟩
      · exact .inl ⟨sIndex, used, slot, inside, undeleted, same, dirty⟩
      · exact .inr ⟨inTree, dirty⟩
  simp only at entire
  generalize (List.range (fenced.snippetInfoIndex + 1)).foldl fenceSnippet fenced = done at *
  have doneOpts : done.opts = pmem.opts := by rw [moved.frame, opts]
  have cleared : FencedBytes pmem done.clearArray := by
    refine ⟨doneOpts, rfl, rfl, opts ▸ moved.sound, moved.bounded, fun byte => ?_,
      fun store member => ?_⟩
    · refine (moved.bytes byte).trans ?_
      constructor
      · rintro (⟨store, member, inside⟩ | ⟨store, member, inside⟩)
        · obtain ⟨isLive, dirty⟩ := (pending store).mp (.inr member)
          exact ⟨store, isLive, dirty, inside⟩
        · obtain ⟨isLive, dirty⟩ := (pending store).mp (.inl member)
          exact ⟨store, isLive, dirty, inside⟩
      · rintro ⟨store, isLive, dirty, inside⟩
        rcases (pending store).mpr ⟨isLive, dirty⟩ with inArray | inTree
        · exact .inr ⟨store, inArray, inside⟩
        · exact .inl ⟨store, inTree, inside⟩
    · rcases moved.states store member with ⟨old, isOld, same⟩ | ⟨old, isOld, same⟩
      · obtain ⟨isLive, dirty⟩ := (pending old).mp (.inr isOld)
        exact ⟨old, isLive, dirty, same⟩
      · obtain ⟨isLive, dirty⟩ := (pending old).mp (.inl isOld)
        exact ⟨old, isLive, dirty, same⟩
  rw [entire]
  split
  · exact ⟨cleared.opts, cleared.index, cleared.emptied, cleared.sound, cleared.bounded,
      cleared.bytes, cleared.states⟩
  · exact cleared

end Fence

end PmDebugger
