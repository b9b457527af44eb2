import PmDebugger.Insertions
import PmDebugger.Library.Loops
import PmDebugger.OverwriteBytes

/-!
# Rewrites of the same value

With `--indiff` a store that writes again the value of a record that is not older than a number
of superblocks is meant to replace that record without a warning. In the tree
`handle_with_mult_stores` removes the element with the index of the new store, releases the
record that it met and resumes the walk at that index. The two are the same element only if the
slot of the new store happens to hold the index of the old record. Where the indices differ the
released record stays in the tree with an overwritten link, another record may have been removed
in its place, and the tool aborts. The tree may also be skipped by its bounds, which are not
kept up to date when a part of an array record is entered.
-/

namespace PmDebugger

open OrderedSet OrderedSet.OSet PmemOps Carving Loops

/-- `handle_with_mult_stores`, if its walk over the tree ends within the turns. It gives no
state when the bound is reached first, so a result says that the walk has ended. -/
def handleWithMultStoresWithin (fuel : Nat) (store : PmemSt) (pmem : PmemOps) : Option PmemOps :=
  let overwritten := (List.range (pmem.snippetInfoIndex + 1)).foldl (overwriteSnippet store) pmem
  if store.addr > overwritten.maxAddPmemStore ∨ store.maxAddr < overwritten.minAddPmemStore then
    some overwritten
  else
    within (overwriteTurn store) fuel
      { overwritten with pmemStores := overwritten.pmemStores.resetIter }

/-- Those of the records whose value the store does not just write again. Only these are warned
about under `--indiff`. -/
def changedRecords (store : PmemSt) (pmem : PmemOps) (records : List PmemSt) : List PmemSt :=
  records.filter (fun existing => ¬ pmem.isSameWrite store existing)

/-- What the loops overwrite other than by a rewrite of the same value, as the warnings about it
can name it. -/
def warnedRecords (store : PmemSt) (pmem : PmemOps) : List PmemSt :=
  changedRecords store pmem (metRecords store pmem (reachedSlots store pmem)) ++
    if skipsTree store pmem then []
    else (changedRecords store pmem (metStores store pmem.pmemStores.toList)).map (nameable store)

/-- The store replaces a record of the tree. The loops end without the record in the tree, they
warn about the overwritten records other than rewrites of the same value, the process is still
there unless the register has filled up, and the records of the tree that the store misses have
stayed. -/
structure Replaces (store record : PmemSt) (pmem : PmemOps) : Prop where
  ends : ∃ enough, ∀ fuel ≥ enough,
    handleWithMultStoresWithin fuel store pmem = some (pmem.handleWithMultStores store)
  removed : record ∉ (pmem.handleWithMultStores store).pmemStores.toList
  unwarned : Warned store (warnedRecords store pmem) pmem (pmem.handleWithMultStores store)
  others : ∀ other ∈ pmem.pmemStores.toList, cmpPmemSt other store ≠ .eq →
    other ∈ (pmem.handleWithMultStores store).pmemStores.toList

section Changed

variable {store : PmemSt} {pmem next : PmemOps}

/-- Whether a store writes a record again depends on the options only. -/
theorem isSameWrite_congr (opts : next.opts = pmem.opts) (existing : PmemSt) :
    next.isSameWrite store existing = pmem.isSameWrite store existing := by
  unfold isSameWrite
  rw [opts]

/-- So do the records that it changes. -/
theorem changedRecords_congr (opts : next.opts = pmem.opts) (records : List PmemSt) :
    changedRecords store next records = changedRecords store pmem records := by
  unfold changedRecords
  simp only [isSameWrite_congr opts]

/-- The records changed in two lists are those changed in one or the other. -/
theorem changedRecords_append (first second : List PmemSt) :
    changedRecords store pmem (first ++ second) =
      changedRecords store pmem first ++ changedRecords store pmem second :=
  List.filter_append first second

/-- A record written again is not changed. -/
theorem changedRecords_same {existing : PmemSt} (same : pmem.isSameWrite store existing = true) :
    changedRecords store pmem [existing] = [] := by
  simp [changedRecords, same]

/-- A record that is not written again is changed. -/
theorem changedRecords_changed {existing : PmemSt}
    (differs : ¬ pmem.isSameWrite store existing = true) :
    changedRecords store pmem [existing] = [existing] := by
  simp [changedRecords, differs]

/-- A record that is written again is met by the store. -/
theorem isSameWrite_meets {existing : PmemSt} (proper : store.Proper)
    (same : pmem.isSameWrite store existing = true) : cmpPmemSt existing store = .eq := by
  simp only [isSameWrite, decide_eq_true_eq] at same
  obtain ⟨_, addr, size, _⟩ := same
  rw [(cmpPmemSt_congr addr size store).1,
    cmpPmemSt_eq_iff proper.nonWrapping proper.nonWrapping]
  have nonempty := proper.nonempty
  omega

end Changed

/-! ## The array -/

/-- A part of the array loop: the tree grows by parts that are clear of the store, and the
records that are not written again are warned about. -/
structure ArrayCleared (store : PmemSt) (records : List PmemSt) (before after : PmemOps) :
    Prop where
  tree : ∃ pieces, after.pmemStores.toList = before.pmemStores.toList ++ pieces ∧
    ∀ piece ∈ pieces, cmpPmemSt piece store ≠ .eq
  warned : Warned store records before after

section Array

variable {store : PmemSt} {pmem : PmemOps} {index : Nat}

/-- The loop body. -/
theorem overwriteSlot_cleared (proper : store.Proper) (sound : Sound pmem)
    (plain : pmem.opts.treeReorganization = false) (inUse : index < pmem.current.index) :
    ArrayCleared store (changedRecords store pmem
        (if meetsRecord store (pmem.slots index) then [pmem.slots index] else [])) pmem
      (pmem.overwriteSlot store index) := by
  by_cases meets : meetsRecord store (pmem.slots index)
  · rw [if_pos meets]
    by_cases same : pmem.isSameWrite store (pmem.slots index) = true
    · have reached : ¬ ((pmem.slots index).isDelete = true ∨
          cmpPmemSt (pmem.slots index) store ≠ .eq) := by
        simp [meets.1, meets.2]
      rw [changedRecords_same same]
      simp only [overwriteSlot, if_neg reached, if_pos same]
      exact ⟨⟨[], by simp [setSlot], by simp⟩, Warned.silent rfl rfl⟩
    · obtain ⟨result, splits, _, listed, _, warned⟩ :=
        overwriteSlot_split proper sound plain same inUse meets
      rw [changedRecords_changed same]
      refine ⟨⟨result.after.toList, listed, fun piece isPiece => ?_⟩, warned⟩
      exact splits.excised.beside proper piece (List.mem_append_right result.kept.toList isPiece)
  · rw [if_neg meets, overwriteSlot_missed meets]
    exact ⟨⟨[], by simp, by simp⟩, Warned.silent rfl rfl⟩

/-- The loop over distinct slots in use. -/
theorem overwriteSlots_cleared (proper : store.Proper) (slots : List Nat) (pmem : PmemOps)
    (distinct : slots.Nodup) (sound : Sound pmem) (plain : pmem.opts.treeReorganization = false)
    (inUse : ∀ slot ∈ slots, slot < pmem.current.index) :
    ArrayCleared store (changedRecords store pmem (metRecords store pmem slots)) pmem
      (slots.foldl (overwriteSlot store) pmem) := by
  induction slots generalizing pmem with
  | nil => exact ⟨⟨[], by simp, by simp⟩, Warned.silent rfl rfl⟩
  | cons slot rest inductionHypothesis =>
    obtain ⟨fresh, restDistinct⟩ := List.nodup_cons.mp distinct
    have slotUsed := inUse slot List.mem_cons_self
    have one := overwriteSlots_exact proper [slot] pmem (List.pairwise_singleton _ slot) sound
      (fun other member => by
        rw [List.mem_singleton.mp member]
        exact slotUsed)
    obtain ⟨⟨early, isEarly, clearEarly⟩, first⟩ :=
        overwriteSlot_cleared proper sound plain slotUsed
    obtain ⟨frame, others, _, _⟩ := overwriteSlot_frame store pmem slot
    have sameEnd : (pmem.overwriteSlot store slot).current.index = pmem.current.index := by
      rw [frame]
      rfl
    have sameOpts : (pmem.overwriteSlot store slot).opts = pmem.opts := by rw [frame]
    have same : metRecords store (pmem.overwriteSlot store slot) rest =
        metRecords store pmem rest := by
      unfold metRecords
      rw [List.map_congr_left (fun other member =>
        others other (fun isSlot => fresh (isSlot ▸ member)))]
    obtain ⟨⟨late, isLate, clearLate⟩, later⟩ := inductionHypothesis (pmem.overwriteSlot store slot)
      restDistinct one.sound (by rw [sameOpts]; exact plain)
      (fun other member => by
        rw [sameEnd]
        exact inUse other (List.mem_cons_of_mem _ member))
    rw [same, changedRecords_congr sameOpts] at later
    rw [metRecords_cons, changedRecords_append, List.foldl_cons]
    refine ⟨⟨early ++ late, by rw [isLate, isEarly, List.append_assoc], fun piece member => ?_⟩,
      first.trans later⟩
    exact (List.mem_append.mp member).elim (clearEarly piece) (clearLate piece)

end Array

/-! ## The tree -/

section Walk

variable {store existing : PmemSt} {done rest : List PmemSt} {pmem : PmemOps}

/-- What a turn does in front of a record that is written again. -/
theorem MidWalk.turn_same (walking : MidWalk done (existing :: rest) pmem)
    (meets : cmpPmemSt existing store = .eq) (same : pmem.isSameWrite store existing = true) :
    overwriteTurn store pmem =
      some (pmem.dropRewritten store done.length
        { pmem.pmemStores with iter := some (done.length + 1) }) := by
  simp only [overwriteTurn, next_some walking.listed walking.walk]
  rw [if_neg (not_not.mpr meets), if_pos same]

/-- A record with the index of the store that is written again is taken out, and the walk goes
on behind it. -/
theorem MidWalk.rewrite (walking : MidWalk done (existing :: rest) pmem)
    (meets : cmpPmemSt existing store = .eq) (same : pmem.isSameWrite store existing = true)
    (index : existing.index = store.index) :
    ∃ next, TurnedAt store [] done rest done rest pmem next := by
  have turned := walking.turn_same meets same
  obtain ⟨plain, sound, listed, walk⟩ := walking
  have member : existing ∈ pmem.pmemStores.toList := by simp [listed]
  have aheadListed : ({ pmem.pmemStores with iter := some (done.length + 1) } : OSet
      PmemSt).toList = done ++ existing :: rest := listed
  have key : treeCmp pmem.opts store = treeCmp pmem.opts existing := by
    rw [treeCmp_own plain]
    unfold cmpPmemOwnSt
    rw [index]
  obtain ⟨removed, resumed, _⟩ := remove_resume aheadListed sound.ordered (sound.reflexive member)
  obtain ⟨above, below⟩ := ordered_match (listed ▸ sound.ordered)
  have located := locate_match aheadListed above (sound.reflexive member) below
  rw [← key] at removed resumed located
  have dropped : pmem.dropRewritten store done.length
      { pmem.pmemStores with iter := some (done.length + 1) } = { pmem with
        pmemStores := (OSet.remove (treeCmp pmem.opts) (treeCmp pmem.opts store)
          { pmem.pmemStores with iter := some (done.length + 1) }).resetIterAt
            (treeCmp pmem.opts store) } := by
    simp only [dropRewritten, located, Option.map_some, if_true]
  rw [dropped] at turned
  have part : (done ++ rest).Sublist pmem.pmemStores.toList := by
    rw [listed]
    exact List.Sublist.append_left (List.sublist_cons_self existing rest) done
  rw [← removed] at part
  refine ⟨_, turned, ⟨plain, ?_, removed, resumed⟩, rfl, Warned.silent rfl rfl, fun _ => .inl, rfl,
    Nat.le_add_right _ _, fun _ => id⟩
  exact (sound.sublist part).congr rfl (Nat.le_refl _)

/-- The walk was left with a tree that is clear of the store, within the given turns. The
warnings are those about the given records and the records beside the store are all still
there. -/
structure SweptTree (store : PmemSt) (warned : List PmemSt) (fuel : Nat) (before after : PmemOps) :
    Prop where
  left : within (overwriteTurn store) fuel before = some after
  result : overwriteTree store fuel before = after
  warns : Warned store warned before after
  cleared : ∀ elem ∈ after.pmemStores.toList, cmpPmemSt elem store ≠ .eq
  others : ∀ elem ∈ before.pmemStores.toList, cmpPmemSt elem store ≠ .eq →
    elem ∈ after.pmemStores.toList

/-- A turn in front of a walk. -/
theorem SweptTree.turn {warned later : List PmemSt} {fuel : Nat} {before middle after : PmemOps}
    (turned : overwriteTurn store before = some middle) (warns : Warned store warned before middle)
    (others : ∀ elem ∈ before.pmemStores.toList, cmpPmemSt elem store ≠ .eq →
      elem ∈ middle.pmemStores.toList) (swept : SweptTree store later fuel middle after) :
    SweptTree store (warned ++ later) (fuel + 1) before after where
  left := by
    simp only [within, turned]
    exact swept.left
  result := (overwriteTree_turn turned fuel).trans swept.result
  warns := warns.trans swept.warns
  cleared := swept.cleared
  others elem member missed := swept.others elem (others elem member missed) missed

/-- If each record that is written again has the index of the store, the walk ends and clears
the tree of the store. -/
theorem MidWalk.sweep (proper : store.Proper) (fuel : Nat) (enough : sweepTurns store rest < fuel)
    (walking : MidWalk done rest pmem) (clear : ∀ elem ∈ done, cmpPmemSt elem store ≠ .eq)
    (aligned : ∀ elem ∈ metStores store rest, pmem.isSameWrite store elem = true →
      elem.index = store.index) :
    ∃ after, SweptTree store ((changedRecords store pmem (metStores store rest)).map
      (nameable store)) fuel pmem after := by
  induction fuel generalizing done rest pmem with
  | zero => omega
  | succ fuel inductionHypothesis =>
    cases rest with
    | nil =>
      have ended : pmem.pmemStores.next = none :=
        next_end (by simpa [walking.listed] using walking.walk)
      refine ⟨pmem, ?_, ?_, Warned.silent rfl rfl, ?_, fun _ member _ => member⟩
      · simp only [within, overwriteTurn, ended]
      · simp only [overwriteTree, ended]
      · rw [walking.listed, List.append_nil]
        exact clear
    | cons existing rest =>
      unfold sweepTurns at enough
      rw [metStores_cons, List.length_append, List.length_cons] at enough
      rw [metStores_cons, changedRecords_append, List.map_append]
      rw [metStores_cons] at aligned
      by_cases meets : cmpPmemSt existing store = .eq
      · -- Both kinds of turns leave the other records and meet no more than before.
        have goesOn {warned done' rest' : List PmemSt} {next : PmemOps}
            (turn : TurnedAt store warned done rest done' rest' pmem next) : ∃ after,
            SweptTree store (warned ++ (changedRecords store pmem (metStores store rest)).map
              (nameable store)) (fuel + 1) pmem after := by
          rw [if_pos meets, List.length_singleton] at enough
          have longer := turn.longer
          obtain ⟨after, swept⟩ := inductionHypothesis
            (by unfold sweepTurns; rw [turn.met]; omega) turn.goesOn
            (fun elem member => (turn.cleared elem member).elim (clear elem) id)
            (fun elem member same => by
              rw [turn.met] at member
              rw [isSameWrite_congr turn.opts] at same
              exact aligned elem (List.mem_append_right _ member) same)
          rw [turn.met, changedRecords_congr turn.opts] at swept
          refine ⟨after, swept.turn turn.turned turn.warns (fun elem member missed => ?_)⟩
          rw [turn.goesOn.listed]
          apply turn.others
          rw [walking.listed, List.mem_append, List.mem_cons] at member
          rcases member with early | rfl | late
          · exact List.mem_append_left _ early
          · exact absurd meets missed
          · exact List.mem_append_right _ late
        rw [if_pos meets]
        by_cases same : pmem.isSameWrite store existing = true
        · rw [changedRecords_same same]
          have index := aligned existing (by simp [meets]) same
          obtain ⟨next, turn⟩ := walking.rewrite meets same index
          exact goesOn turn
        · rw [changedRecords_changed same]
          obtain ⟨done', rest', next, turn⟩ := walking.split proper meets same
          exact goesOn turn
      · rw [if_neg meets, List.length_nil] at enough
        rw [if_neg meets]
        obtain ⟨next, turned, later, opts, quiet⟩ := walking.pass meets
        obtain ⟨after, swept⟩ := inductionHypothesis
          (by unfold sweepTurns; omega) later
          (fun elem member => by
            rcases List.mem_append.mp member with early | here
            · exact clear elem early
            · rw [List.mem_singleton.mp here]
              exact meets)
          (fun elem member same => by
            rw [isSameWrite_congr opts] at same
            exact aligned elem (List.mem_append_right _ member) same)
        rw [changedRecords_congr opts] at swept
        refine ⟨after, swept.turn turned quiet (fun elem member _ => ?_)⟩
        rw [later.listed, List.append_assoc]
        rw [walking.listed] at member
        exact member

/-- The same-value branch takes the index of the store out of the tree, whichever record it has
met. -/
theorem dropRewritten_listed (plain : pmem.opts.treeReorganization = false)
    (sound : TreeSound pmem.opts pmem.dbPmemStoreIndex pmem.pmemStores) (position : Nat)
    (walk : Option Nat) :
    (pmem.dropRewritten store position { pmem.pmemStores with iter := walk }).pmemStores.toList =
      pmem.pmemStores.toList.filter (fun elem => elem.index ≠ store.index) := by
  have keyed : Keyed PmemSt.index ({ pmem.pmemStores with iter := walk } : OSet PmemSt).toList :=
    sound.keyed plain
  have removed := remove_byKey keyed store.index
  have removedHere : (OSet.remove (treeCmp pmem.opts) (treeCmp pmem.opts store)
      { pmem.pmemStores with iter := walk }).toList =
      pmem.pmemStores.toList.filter (fun elem => elem.index ≠ store.index) := by
    rw [treeCmp_own plain]
    exact removed
  simp only [dropRewritten]
  split
  · exact removedHere
  · exact removedHere

/-- A record with another index than the store stays in the tree when it is written again. -/
theorem overwriteTree_keeps (proper : store.Proper) {record : PmemSt} (fuel : Nat) (pmem : PmemOps)
    (plain : pmem.opts.treeReorganization = false)
    (sound : TreeSound pmem.opts pmem.dbPmemStoreIndex pmem.pmemStores)
    (member : record ∈ pmem.pmemStores.toList) (rewritten : pmem.isSameWrite store record = true)
    (index : record.index ≠ store.index) :
    record ∈ (overwriteTree store fuel pmem).pmemStores.toList := by
  induction fuel generalizing pmem with
  | zero => exact member
  | succ fuel inductionHypothesis =>
    cases found : pmem.pmemStores.next with
    | none =>
      simp only [overwriteTree, found]
      exact member
    | some step =>
      obtain ⟨position, existing, walked⟩ := step
      have walk := next_iter found
      obtain ⟨done, rest, listed, rfl, _⟩ := next_listed found
      have walking : MidWalk done (existing :: rest) pmem := ⟨plain, sound, listed, walk⟩
      by_cases meets : cmpPmemSt existing store = .eq
      · by_cases same : pmem.isSameWrite store existing = true
        · rw [overwriteTree_turn (walking.turn_same meets same)]
          obtain ⟨sameOpts, sameIndex⟩ := dropRewritten_frame store done.length
            { pmem.pmemStores with iter := some (done.length + 1) } pmem
          have remaining : (pmem.dropRewritten store done.length
              { pmem.pmemStores with iter := some (done.length + 1) }).pmemStores.toList = _ :=
            dropRewritten_listed plain sound done.length (some (done.length + 1))
          generalize pmem.dropRewritten store done.length
            { pmem.pmemStores with iter := some (done.length + 1) } = next at *
          apply inductionHypothesis
          · rw [sameOpts]
            exact plain
          · rw [sameOpts, sameIndex]
            apply sound.sublist
            rw [remaining]
            exact List.filter_sublist
          · rw [remaining]
            exact List.mem_filter.mpr ⟨member, by simpa using index⟩
          · rw [isSameWrite_congr sameOpts]
            exact rewritten
        · obtain ⟨done', rest', next, turn⟩ := walking.split proper meets same
          rw [overwriteTree_turn turn.turned]
          apply inductionHypothesis
          · exact turn.goesOn.plain
          · exact turn.goesOn.sound
          · rw [turn.goesOn.listed]
            apply turn.others
            rw [listed, List.mem_append, List.mem_cons] at member
            rcases member with early | rfl | late
            · exact List.mem_append_left _ early
            · exact absurd rewritten same
            · exact List.mem_append_right _ late
          · rw [isSameWrite_congr turn.opts]
            exact rewritten
      · obtain ⟨next, turned, later, opts, _⟩ := walking.pass meets
        rw [overwriteTree_turn turned]
        apply inductionHypothesis
        · exact later.plain
        · exact later.sound
        · rw [later.listed, List.append_assoc]
          exact listed ▸ member
        · rw [isSameWrite_congr opts]
          exact rewritten

end Walk

/-! ## The loops together -/

/-- Every record of the tree that is written again has the index that the slot of the store
holds, and the tree is not skipped. -/
def FindsRewritten (store : PmemSt) (pmem : PmemOps) : Prop :=
  ∀ record ∈ pmem.pmemStores.toList, pmem.isSameWrite store record = true →
    record.index = store.index ∧ ¬ skipsTree store pmem

instance (store : PmemSt) (pmem : PmemOps) : Decidable (FindsRewritten store pmem) :=
  inferInstanceAs (Decidable (∀ record ∈ pmem.pmemStores.toList, _ → _))

section Loops

variable {store : PmemSt} {pmem : PmemOps}

/-- The array loop leaves a sound state whose tree has grown by parts clear of the store. -/
structure ArrayDone (store : PmemSt) (before after : PmemOps) : Prop where
  sound : Sound after
  opts : after.opts = before.opts
  skips : skipsTree store after ↔ skipsTree store before
  cleared : ArrayCleared store
    (changedRecords store before (metRecords store before (reachedSlots store before))) before after

/-- The loop over the snippets comes to every slot that the store meets. -/
theorem overwriteSnippets_done (proper : store.Proper) (sound : Sound pmem)
    (plain : pmem.opts.treeReorganization = false) :
    ArrayDone store pmem
      ((List.range (pmem.snippetInfoIndex + 1)).foldl (overwriteSnippet store) pmem) := by
  obtain ⟨distinct, inUse⟩ := reachedSlots_inUse store sound.layout
  have exactly := overwriteSlots_exact proper (reachedSlots store pmem) pmem distinct sound inUse
  have cleared := overwriteSlots_cleared proper (reachedSlots store pmem) pmem distinct sound
      plain inUse
  rw [← overwriteSnippets_eq] at exactly cleared
  refine ⟨exactly.sound, ?_, ?_, cleared⟩
  · rw [exactly.frame]
  · rw [exactly.frame]
    exact Iff.rfl

/-- A record that is written again stays if its index is another or the tree is skipped. -/
theorem handleWithMultStores_keeps (proper : store.Proper) (sound : Sound pmem)
    (plain : pmem.opts.treeReorganization = false) {record : PmemSt}
    (member : record ∈ pmem.pmemStores.toList) (same : pmem.isSameWrite store record = true)
    (unfound : ¬ (record.index = store.index ∧ ¬ skipsTree store pmem)) :
    record ∈ (pmem.handleWithMultStores store).pmemStores.toList := by
  have array := overwriteSnippets_done proper sound plain
  simp only [handleWithMultStores]
  generalize (List.range (pmem.snippetInfoIndex + 1)).foldl (overwriteSnippet store) pmem =
    overwritten at *
  obtain ⟨pieces, listed, _⟩ := array.cleared.tree
  have still : record ∈ overwritten.pmemStores.toList := by
    rw [listed]
    exact List.mem_append_left _ member
  split
  · exact still
  · next notSkipped =>
    have entered : ¬ skipsTree store pmem := fun skipped => notSkipped (array.skips.mpr skipped)
    apply overwriteTree_keeps proper
    · rw [← array.opts] at plain
      exact plain
    · exact array.sound.tree.congr rfl (Nat.le_refl _)
    · exact still
    · rw [← isSameWrite_congr array.opts] at same
      exact same
    · exact fun sameIndex => unfound ⟨sameIndex, entered⟩

/-- If the rewritten records are found, each of them is replaced. -/
theorem handleWithMultStores_replaces (proper : store.Proper) (sound : Sound pmem)
    (plain : pmem.opts.treeReorganization = false) (finds : FindsRewritten store pmem)
    {record : PmemSt} (member : record ∈ pmem.pmemStores.toList)
    (same : pmem.isSameWrite store record = true) : Replaces store record pmem := by
  have array := overwriteSnippets_done proper sound plain
  have entered : ¬ skipsTree store pmem := (finds record member same).2
  have records : warnedRecords store pmem =
      changedRecords store pmem (metRecords store pmem (reachedSlots store pmem)) ++
        (changedRecords store pmem (metStores store pmem.pmemStores.toList)).map
          (nameable store) := by
    unfold warnedRecords
    rw [if_neg entered]
  suffices swept : ∃ result, pmem.handleWithMultStores store = result ∧
      (∃ enough, ∀ fuel ≥ enough, handleWithMultStoresWithin fuel store pmem = some result) ∧
      (∀ elem ∈ result.pmemStores.toList, cmpPmemSt elem store ≠ .eq) ∧
      Warned store (warnedRecords store pmem) pmem result ∧
      ∀ other ∈ pmem.pmemStores.toList, cmpPmemSt other store ≠ .eq →
        other ∈ result.pmemStores.toList by
    obtain ⟨result, rfl, ends, cleared, unwarned, others⟩ := swept
    exact ⟨ends, fun stays => cleared record stays (isSameWrite_meets proper same),
      unwarned, others⟩
  rw [records]
  simp only [handleWithMultStores, handleWithMultStoresWithin]
  generalize (List.range (pmem.snippetInfoIndex + 1)).foldl (overwriteSnippet store) pmem =
    overwritten at *
  obtain ⟨pieces, listed, clear⟩ := array.cleared.tree
  have sameMet : metStores store overwritten.pmemStores.toList =
      metStores store pmem.pmemStores.toList := by
    have none : metStores store pieces = [] := by
      unfold metStores
      rw [List.filter_eq_nil_iff]
      intro piece isPiece
      simpa using clear piece isPiece
    unfold metStores at none ⊢
    rw [listed, List.filter_append, none, List.append_nil]
  have notSkipped : ¬ (store.addr > overwritten.maxAddPmemStore ∨
      store.maxAddr < overwritten.minAddPmemStore) :=
    fun skipped => entered (array.skips.mp skipped)
  rw [if_neg notSkipped]
  have opts : ({ overwritten with pmemStores := overwritten.pmemStores.resetIter } : PmemOps).opts =
      pmem.opts := array.opts
  have start : MidWalk [] overwritten.pmemStores.toList
      { overwritten with pmemStores := overwritten.pmemStores.resetIter } :=
    ⟨opts ▸ plain, array.sound.tree.congr rfl (Nat.le_refl _), rfl, rfl⟩
  have enough : sweepTurns store overwritten.pmemStores.toList <
      4 * overwritten.pmemStores.size + 1 := by
    have few := List.length_filter_le (fun existing => decide (cmpPmemSt existing store = .eq))
      overwritten.pmemStores.toList
    unfold sweepTurns metStores OSet.size
    omega
  obtain ⟨after, swept⟩ := start.sweep proper _ enough
      (fun _ member => absurd member List.not_mem_nil) (fun elem isMet rewritten => by
      rw [sameMet] at isMet
      rw [isSameWrite_congr opts] at rewritten
      exact (finds elem (List.mem_of_mem_filter isMet) rewritten).1)
  have warned : Warned store
      ((changedRecords store pmem (metStores store pmem.pmemStores.toList)).map (nameable store))
      overwritten after := by
    have warns := swept.warns
    rw [sameMet, changedRecords_congr opts] at warns
    exact ⟨warns.longer, warns.events, warns.running⟩
  refine ⟨after, swept.result, ⟨4 * overwritten.pmemStores.size + 1, fun fuel more => ?_⟩,
    swept.cleared,
    array.cleared.warned.trans warned, fun other isOther missed => swept.others other ?_ missed⟩
  · rw [if_neg notSkipped]
    exact within_mono more swept.left
  · show other ∈ overwritten.pmemStores.toList
    rw [listed]
    exact List.mem_append_left _ isOther

/-- In a tree that is ordered by index, a store replaces each record that it writes again if
and only if each such record has the index that the store's slot holds and the bounds of the
tree do not skip it.

Proof: the code removes what its comparator finds in the store's place, and that comparator
looks at the index alone. A record with another index is therefore still there after the walk.
If every record has the index of the store, each is removed as it is met. -/
theorem rewrites_replace_iff (proper : store.Proper) (sound : Sound pmem)
    (plain : pmem.opts.treeReorganization = false) :
    (∀ record ∈ pmem.pmemStores.toList, pmem.isSameWrite store record = true →
      Replaces store record pmem) ↔ FindsRewritten store pmem := by
  constructor
  · intro replaces record member same
    by_contra unfound
    exact (replaces record member same).removed
      (handleWithMultStores_keeps proper sound plain member same unfound)
  · intro finds record member same
    exact handleWithMultStores_replaces proper sound plain finds member same

end Loops

/-- Two stores that a fence moves to the tree, under `--mult-stores` and `--indiff=10`. Neither
of them was flushed. -/
def movedRun : List ClientRequest :=
  [.access (.registerMapping 64 1024), .access (.store 0 none 100 8 1),
    .access (.store 0 none 200 8 2), .access .fence]

/-- The state after these requests. -/
def movedState : PmemOps :=
  (movedRun.foldl Tool.serve (initTool { defaultOptions (fun _ => false) with
    trackMultipleStores := true, storeSbIndiff := 10 } false false 64 (fun _ => PmemSt.zero))).pmem

/-- The state is reached by requests, and it is sound. -/
theorem movedState_sound : Sound movedState := by
  have kept (tool : Tool) (request : ClientRequest) (sound : Sound tool.pmem)
      (allowed : RecordRequest tool request) : Sound (tool.serve request).pmem :=
    serve_sound sound allowed
  exact Runs.invariant kept _ movedRun (initTool_sound _ false false 64 _) (by decide +kernel)

/-- The first of the two stores is made again. Its record has the index that the unused slot
holds, and the record is replaced. -/
theorem rewrites_replace_first :
    let store := movedState.writeStore 100 8 1 none (movedState.slots movedState.current.index)
    FindsRewritten store movedState ∧ ∃ record ∈ movedState.pmemStores.toList,
      movedState.isSameWrite store record = true ∧ Replaces store record movedState := by
  intro store
  have finds : FindsRewritten store movedState := by decide +kernel
  have proper : store.Proper := by constructor <;> decide +kernel
  have replaces := (rewrites_replace_iff proper movedState_sound (by decide +kernel)).mpr finds
  refine ⟨finds, movedState.pmemStores.toList.head (by decide +kernel), List.head_mem _, ?_, ?_⟩
  · decide +kernel
  · exact replaces _ (List.head_mem _) (by decide +kernel)

/-- The second of the two stores is made again. The record of the first one goes although the
store misses it, the record of the second one is released where it stands in the tree, and the
process is gone although no register is full. -/
theorem rewrites_replace_fails :
    let store := movedState.writeStore 200 8 2 none (movedState.slots movedState.current.index)
    store.Proper ∧ Sound movedState ∧ movedState.opts.treeReorganization = false ∧
      (movedState.handleWithMultStores store).pmemStores.toList.map PmemSt.addr = [200] ∧
      (movedState.handleWithMultStores store).multipleStores = [] ∧
      movedState.exited = false ∧ (movedState.handleWithMultStores store).exited = true ∧
      ∃ record ∈ movedState.pmemStores.toList, movedState.isSameWrite store record = true ∧
        ¬ Replaces store record movedState := by
  intro store
  have proper : store.Proper := by constructor <;> decide +kernel
  refine ⟨proper, movedState_sound, by decide +kernel, by decide +kernel, by decide +kernel,
    by decide +kernel, by decide +kernel,
    movedState.pmemStores.toList.getLast (by decide +kernel), List.getLast_mem _, ?_, ?_⟩
  · decide +kernel
  · intro replaces
    exact replaces.removed (by decide +kernel)

end PmDebugger
