import Mathlib.Data.Set.Card
import Mathlib.Order.Interval.Finset.Nat
import PmDebugger.Client
import PmDebugger.PrintedRecords

/-!
# The total of the detailed report

The report builds a set of disjoint ranges, so the sizes that it adds up are the number of distinct
bytes that are not persistent. They all fit in one address space, and the machine word in
which they are summed up does not overflow.

The total is the last line of the listing. The report comes to it only if every entry has a context
to be printed, and an entry takes its context from the last live record of its bytes.
-/

namespace PmDebugger

open OrderedSet OrderedSet.OSet PmemOps

/-- The sum that the detailed report adds up, in a machine word: the sizes of the entries that
it has built, one after the other. -/
def totalNotPersistent (pmem : PmemOps) : Nat :=
  (reported pmem).foldl (fun total store => Word64.add total store.size) 0

/-- The total that the detailed report prints behind its listing. An empty listing has none, and a
process that dies within the listing does not come to it. -/
def printedTotal (pmem : PmemOps) : Option Nat :=
  if reported pmem = [] ∨ listingDies pmem.opts (reported pmem) = true then none
  else some (totalNotPersistent pmem)

/-- If any byte is live, the detailed report prints the number of the live bytes. -/
def ReportsTotal (pmem : PmemOps) : Prop :=
  (∃ byte, Tracks pmem.live byte) →
    printedTotal pmem.printStoreStatsDetail = some {byte | Tracks pmem.live byte}.ncard

/-- Contexts are not printed, or every entry that the detailed report builds has one. Then the
report gets to its last line, which is the total. -/
def EntriesPrint (pmem : PmemOps) : Prop :=
  pmem.opts.printsContexts = true →
    ∀ entry ∈ reported pmem.printStoreStatsDetail, entry.context ≠ none

section Total

variable {elems : List PmemSt}

/-- The sizes of disjoint ranges add up to less than a word holds. -/
theorem Ranges.total (ranges : Ranges elems) {total : Nat} (fits : total < 2 ^ 64)
    (below : ∀ elem ∈ elems, total ≤ elem.addr) :
    elems.foldl (fun sum store => Word64.add sum store.size) total =
      total + (elems.map PmemSt.size).sum := by
  induction elems generalizing total with
  | nil => simp
  | cons elem rest inductionHypothesis =>
    have first := below elem List.mem_cons_self
    have elemFits := (ranges.proper elem List.mem_cons_self).nonWrapping
    unfold PmemSt.NonWrapping at elemFits
    have added : Word64.add total elem.size = total + elem.size := Word64.add_eq (by omega)
    rw [List.foldl_cons, added, inductionHypothesis
      (ranges.sublist (List.sublist_cons_self elem rest)) (by omega) (fun later member => by
        have := (List.pairwise_cons.mp ranges.disjoint).1 later member
        omega), List.map_cons, List.sum_cons]
    omega

/-- The bytes of a listing are those of its first range and those of the others. -/
theorem setOf_tracks_cons (elem : PmemSt) (rest : List PmemSt) :
    {byte | Tracks (elem :: rest) byte} =
      Set.Ico elem.addr (elem.addr + elem.size) ∪ {byte | Tracks rest byte} := by
  ext byte
  exact tracks_cons elem rest byte

/-- Finitely many records have finitely many bytes. -/
theorem tracks_finite (elems : List PmemSt) : {byte | Tracks elems byte}.Finite := by
  induction elems with
  | nil => simp
  | cons elem rest inductionHypothesis =>
    rw [setOf_tracks_cons]
    exact (Set.finite_Ico _ _).union inductionHypothesis

/-- Disjoint ranges have as many bytes as their sizes add up to. -/
theorem Ranges.ncard (ranges : Ranges elems) :
    {byte | Tracks elems byte}.ncard = (elems.map PmemSt.size).sum := by
  induction elems with
  | nil => simp
  | cons elem rest inductionHypothesis =>
    have disjoint : Disjoint (Set.Ico elem.addr (elem.addr + elem.size))
        {byte | Tracks rest byte} := by
      rw [Set.disjoint_left]
      rintro byte inside ⟨other, member, covered⟩
      have split : Ranges ([] ++ elem :: rest) := ranges
      exact split.apart (by simpa using member) inside covered
    have size : (Set.Ico elem.addr (elem.addr + elem.size)).ncard = elem.size := by
      rw [← Finset.coe_Ico, Set.ncard_coe_finset, Nat.card_Ico]
      omega
    rw [setOf_tracks_cons, Set.ncard_union_eq disjoint (Set.finite_Ico _ _)
      (tracks_finite rest), size,
      inductionHypothesis (ranges.sublist (List.sublist_cons_self elem rest)), List.map_cons,
      List.sum_cons]

end Total

/-- The entries add up to the number of the live bytes.

Proof: the entries are disjoint ranges with the live bytes, and the sizes of disjoint ranges add
up to the number of their bytes without an overflow. -/
theorem totalNotPersistent_exact {pmem : PmemOps}
    (slots : ∀ sIndex ≤ pmem.snippetInfoIndex, ∀ slot, InSnippet pmem sIndex slot →
      (pmem.slots slot).Proper)
    (stores : ∀ store ∈ pmem.pmemStores.toList, store.Proper) :
    totalNotPersistent pmem.printStoreStatsDetail = {byte | Tracks pmem.live byte}.ncard := by
  obtain ⟨ranges, bytes⟩ := printStoreStatsDetail_cover slots stores
  have same : {byte | Tracks pmem.live byte} =
      {byte | Tracks (reported pmem.printStoreStatsDetail) byte} := by
    ext byte
    exact (bytes byte).symm
  rw [same, ranges.ncard, totalNotPersistent,
    ranges.total (by decide) (fun _ _ => Nat.zero_le _), Nat.zero_add]

/-- The detailed report comes to its total iff no entry stops it. -/
theorem reportsTotal_iff {pmem : PmemOps}
    (slots : ∀ sIndex ≤ pmem.snippetInfoIndex, ∀ slot, InSnippet pmem sIndex slot →
      (pmem.slots slot).Proper)
    (stores : ∀ store ∈ pmem.pmemStores.toList, store.Proper) :
    ReportsTotal pmem ↔ EntriesPrint pmem := by
  obtain ⟨ranges, bytes⟩ := printStoreStatsDetail_cover slots stores
  have total := totalNotPersistent_exact slots stores
  have sameOpts : pmem.printStoreStatsDetail.opts = pmem.opts :=
    printStoreStatsDetail_opts pmem
  rw [EntriesPrint, ← sameOpts, ← listingDies_iff]
  constructor
  · intro reports
    by_contra dies
    rw [Bool.not_eq_false] at dies
    -- The entry at which the report dies has bytes, so that the total is missed.
    obtain ⟨entry, member, _⟩ := List.any_eq_true.mp dies
    have nonempty := (ranges.proper entry member).nonempty
    have tracked : Tracks pmem.live entry.addr := by
      rw [← bytes]
      exact ⟨entry, member, Nat.le_refl _, Nat.lt_add_of_pos_right nonempty⟩
    have printed := reports ⟨entry.addr, tracked⟩
    rw [printedTotal, if_pos (.inr dies)] at printed
    cases printed
  · rintro lives ⟨byte, tracked⟩
    have listed : reported pmem.printStoreStatsDetail ≠ [] := by
      intro empty
      rw [← bytes, empty] at tracked
      exact tracks_nil byte tracked
    rw [printedTotal, if_neg, total]
    rw [lives]
    simp [listed]

/-- The set that the detailed report builds is an exact disjoint cover of the live records in
every state. The total behind the listing is the number of their bytes exactly if every entry
has a context where contexts are printed. In a state whose snippets lie one behind the other,
as they always do in a run, that says that the last live record of every byte has one.

Proof: the report inserts one live record after the other, and each insertion overrides the
bytes of its record. The sizes of a disjoint cover add up to the number of its bytes. The loop
that prints comes to the total if and only if it gets past every entry. -/
theorem detailedReport_exact {pmem : PmemOps}
    (slots : ∀ sIndex ≤ pmem.snippetInfoIndex, ∀ slot, InSnippet pmem sIndex slot →
      (pmem.slots slot).Proper)
    (stores : ∀ store ∈ pmem.pmemStores.toList, store.Proper) :
    (Ranges (reported pmem.printStoreStatsDetail) ∧
        ∀ byte, Tracks (reported pmem.printStoreStatsDetail) byte ↔ Tracks pmem.live byte) ∧
      (ReportsTotal pmem ↔ EntriesPrint pmem) ∧
      (Layout pmem → (ReportsTotal pmem ↔
        (pmem.opts.printsContexts = true → LastHaveContexts pmem))) := by
  have reports := reportsTotal_iff slots stores
  constructor
  · exact printStoreStatsDetail_cover slots stores
  · constructor
    · exact reports
    · intro layout
      rw [reports]
      exact imp_congr_right (fun _ => printStoreStatsDetail_contexts layout slots stores)

/-- Three records that overlap or touch, one of them deleted, in two snippets, and one of
the tree across them. All have contexts, which are printed. -/
theorem detailedReport_exact_overlaps :
    let record (addr size : Nat) (state : StoreState) (isDelete : Bool) : PmemSt :=
      { PmemSt.range addr size with
        state := state, isDelete := isDelete, context := some ⟨[7]⟩ }
    let opts := { defaultOptions (fun _ => false) with printBugDetail := true }
    let pmem : PmemOps := { initPmem opts 64 (fun slot =>
        match slot with
        | 0 => record 100 20 .dirty false
        | 1 => record 300 8 .flushed true
        | _ => record 110 20 .dirty false) with
      snippetInfoIndex := 1
      snippetInfo := fun sIndex => if sIndex = 0 then ⟨2, 7, 9, 0, .allFlushed⟩
        else ⟨3, 0, 0, 2, .noFlushed⟩
      pmemStores := ⟨.node .leaf (record 90 15 .dirty false) .leaf 0, none, false⟩ }
    printedTotal pmem.printStoreStatsDetail = some 40 ∧ LastHaveContexts pmem ∧
      ReportsTotal pmem := by
  intro record opts pmem
  have slots (sIndex : Nat) (_ : sIndex ≤ pmem.snippetInfoIndex) (slot : Nat)
      (_ : InSnippet pmem sIndex slot) : (pmem.slots slot).Proper := by
    rw [proper_iff]
    match slot with
    | 0 => decide
    | 1 => decide
    | _ + 2 => exact (show 0 < 20 ∧ 110 + 20 < 2 ^ 64 by decide)
  have stores : ∀ store ∈ pmem.pmemStores.toList, store.Proper := by
    simp only [proper_iff]
    decide
  have layout : Layout pmem := by
    refine ⟨rfl, ?_, ?_⟩
    · intro sIndex less
      obtain rfl : sIndex = 0 := Nat.lt_one_iff.mp less
      rfl
    · intro sIndex used
      cases sIndex with
      | zero => exact (by decide : (0 : Nat) ≤ 2)
      | succ sIndex => exact (by decide : (2 : Nat) ≤ 3)
  have contexts : LastHaveContexts pmem := by decide +kernel
  refine ⟨by decide +kernel, contexts, ?_⟩
  exact ((detailedReport_exact slots stores).2.2 layout).mpr (fun _ => contexts)

/-- A fence moves a store to the tree, and a flush of its front leaves the back without a context.
The report dies there, before its total. -/
theorem detailedReport_exact_fails :
    let opts := { defaultOptions (fun _ => false) with printBugDetail := true }
    let start := initTool opts false false 64 (fun _ => PmemSt.zero)
    let context : Option ExeContext := some ⟨[7]⟩
    let requests : List PmemRequest := [.registerMapping 64 1024,
        .store 0 context 100 100 0, .fence, .flush context 100 50]
    let pmem := (requests.foldl Tool.serveAccess start).pmem
    (∀ sIndex ≤ pmem.snippetInfoIndex, ∀ slot, InSnippet pmem sIndex slot →
        (pmem.slots slot).Proper) ∧
      (∀ store ∈ pmem.pmemStores.toList, store.Proper) ∧
      Tracks pmem.live 150 ∧ printedTotal pmem.printStoreStatsDetail = none ∧
      ¬ ReportsTotal pmem := by
  intro opts start context requests pmem
  have tracked : Tracks pmem.live 150 := by decide +kernel
  have silent : printedTotal pmem.printStoreStatsDetail = none := by decide +kernel
  have one : pmem.snippetInfoIndex = 0 := by decide +kernel
  have empty : (pmem.snippetInfo 0).index = 0 := by decide +kernel
  refine ⟨?_, ?_, tracked, silent, ?_⟩
  · intro sIndex used slot inside
    obtain rfl : sIndex = 0 := Nat.le_zero.mp (one ▸ used)
    have below := inside.2
    rw [empty] at below
    exact absurd below (Nat.not_lt_zero slot)
  · simp only [proper_iff]
    decide +kernel
  · intro reports
    have total := reports ⟨150, tracked⟩
    rw [silent] at total
    cases total

end PmDebugger
