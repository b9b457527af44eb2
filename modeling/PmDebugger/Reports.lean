import PmDebugger.Insertions
import PmDebugger.Strands

/-!
# The two exit reports

`print_store_stats` lists every record of the array and the tree, deleted ones included,
and `print_store_stats_detail` leaves the deleted ones out. They cover the same bytes as
long as everything that is hidden in a deleted record is shown by another one. A store
that deletes a record covers its bytes itself. `SET_CLEAN` deletes what lies within its
range and shows nothing in its place, so from then on the plain report lists bytes that
the detailed one does not.

The detailed report prints the context of each of its entries, and dies at one that has none.
Contexts are recorded under the options that print them, but a flush that cuts a record of the
tree leaves a part without one, and so may a request to clear a range in the middle of a record.
-/

namespace PmDebugger

open OrderedSet OrderedSet.OSet PmemOps Runs

/-- The plain report goes through what the tracker shows and what it hides. -/
theorem plainListing_shown {pmem : PmemOps} (sound : Sound pmem) (byte : Nat) :
    Tracks pmem.plainListing.1 byte ↔ Shown pmem byte ∨ Hidden pmem byte := by
  obtain ⟨slots, same, isListing, _⟩ := plainListing_exact pmem
  have covers (slot : Nat) : (slots slot).Covers byte ↔ (pmem.slots slot).Covers byte := by
    unfold PmemSt.Covers
    rw [(same slot).1, (same slot).2.1]
  rw [isListing, tracks_append, sound.layout.usedSlots_eq]
  constructor
  · rintro (⟨store, member, inside⟩ | inTree)
    · obtain ⟨slot, inUse, rfl⟩ := List.mem_map.mp member
      rw [List.mem_range] at inUse
      rw [covers] at inside
      cases mark : (pmem.slots slot).isDelete with
      | false => exact .inl (.inl ⟨slot, inUse, mark, inside⟩)
      | true => exact .inr ⟨slot, inUse, mark, inside⟩
    · exact .inl (.inr inTree)
  · have listed {slot : Nat} (inUse : slot < pmem.current.index)
        (inside : (pmem.slots slot).Covers byte) :
        Tracks ((List.range pmem.current.index).map slots) byte :=
      ⟨slots slot, List.mem_map_of_mem (List.mem_range.mpr inUse), (covers slot).mpr inside⟩
    rintro ((⟨slot, inUse, _, inside⟩ | inTree) | ⟨slot, inUse, _, inside⟩)
    · exact .inl (listed inUse inside)
    · exact .inr inTree
    · exact .inl (listed inUse inside)

/-- The detailed report covers what the tracker shows. -/
theorem printStoreStatsDetail_shown {pmem : PmemOps} (sound : Sound pmem) (byte : Nat) :
    Tracks (reported pmem.printStoreStatsDetail) byte ↔ Shown pmem byte := by
  rw [← sound.tracks_live]
  refine printStoreStatsDetail_live (fun sIndex used slot inside => ?_)
    sound.tree.proper byte
  exact sound.slots slot (sound.layout.inUse_iff.mpr ⟨sIndex, used, inside⟩)

/-- Either report of a sound tracker that prints through. -/
theorem printPmemStats_shown {pmem : PmemOps} (sound : Sound pmem) (through : PrintsThrough pmem)
    (summary : List (Option ExeContext)) (byte : Nat) :
    Tracks (pmem.printPmemStats summary).1 byte ↔
      Shown pmem byte ∨ pmem.opts.printBugDetail = false ∧ Hidden pmem byte := by
  have proper (sIndex : Nat) (used : sIndex ≤ pmem.snippetInfoIndex) (slot : Nat)
      (inside : InSnippet pmem sIndex slot) : (pmem.slots slot).Proper :=
    sound.slots slot (sound.layout.inUse_iff.mpr ⟨sIndex, used, inside⟩)
  rw [printPmemStats_through sound.layout proper sound.tree.proper through summary]
  unfold statsListing
  split
  · next detail =>
    rw [printStoreStatsDetail_shown sound, detail]
    simp
  · next plain =>
    rw [plainListing_shown sound]
    simp [plain]

/-- The tracker with another choice of the form of its report. The option is read by the report
only, so this compares the two forms in one state. -/
def withBugDetail (detail : Bool) (pmem : PmemOps) : PmemOps :=
  { pmem with opts := { pmem.opts with printBugDetail := detail } }

/-- The form of the report is nothing that the tracker depends on. -/
theorem withBugDetail_sound {pmem : PmemOps} (sound : Sound pmem) (detail : Bool) :
    Sound (withBugDetail detail pmem) where
  layout := ⟨sound.layout.first, sound.layout.chained, sound.layout.ordered⟩
  slots := sound.slots
  tree := ⟨sound.tree.proper, sound.tree.keyed, sound.tree.fresh, sound.tree.disjoint⟩

/-- The pending stores that the report prints in the given form. A report that dies at a record
without a context prints only those before it. -/
def printedStores (detail : Bool) (tool : Tool) : List PmemSt :=
  ((withBugDetail detail tool.pmem).printPmemStats tool.trans.summaryContexts).1

/-- Either form of the report is printed to its end: every record that it lists has a context,
or contexts are not printed. -/
def PrintsEither (tool : Tool) : Prop :=
  PrintsThrough (withBugDetail false tool.pmem) ∧ PrintsThrough (withBugDetail true tool.pmem)

instance (tool : Tool) : Decidable (PrintsEither tool) := inferInstanceAs (Decidable (_ ∧ _))

/-- The two reports list the same bytes. They may list them in different records, since the
detailed form merges. -/
def ReportsAgree (tool : Tool) : Prop :=
  ∀ byte, Tracks (printedStores false tool) byte ↔ Tracks (printedStores true tool) byte

/-- Reports that are printed to their end agree iff all that is hidden is shown as well. -/
theorem reportsAgree_iff {tool : Tool} (sound : Sound tool.pmem) (prints : PrintsEither tool) :
    ReportsAgree tool ↔ ∀ byte, Hidden tool.pmem byte → Shown tool.pmem byte := by
  have listed (detail : Bool) (through : PrintsThrough (withBugDetail detail tool.pmem))
      (byte : Nat) : Tracks (printedStores detail tool) byte ↔
        Shown tool.pmem byte ∨ detail = false ∧ Hidden tool.pmem byte :=
    printPmemStats_shown (withBugDetail_sound sound detail) through tool.trans.summaryContexts byte
  unfold ReportsAgree
  simp only [listed false prints.1, listed true prints.2, Bool.true_eq_false, false_and, or_false,
    true_and, or_iff_left_iff_imp]

/-- A request to clear a range finds no record of the array within it and meets no deleted
one, and what it cuts off goes to slots without the mark of a deletion. A store under
`--mult-stores` fails no insertion and ignores no rewrite in a tree ordered by index. -/
def HidesNothing (tool : Tool) : ClientRequest → Prop
  | .access (.store _ context addr size value) => Traces tool addr size →
      tool.pmem.opts.trackMultipleStores = true →
        (tool.pmem.opts.treeReorganization = true →
          GapFor (PmemSt.range addr size) (reachedSlots (PmemSt.range addr size) tool.pmem)
            tool.pmem) ∧
        ¬ Rewrites (tool.pmem.writeStore addr size value context PmemSt.zero) tool.pmem
  | .setClean base size => tool.exited = false →
      ¬ Hides (PmemSt.range base size) (reachedSlots (PmemSt.range base size) tool.pmem) tool.pmem ∧
        ∀ slot ∈ List.range tool.pmem.current.index, (tool.pmem.slots slot).isDelete = true →
          cmpPmemSt (PmemSt.range base size) (tool.pmem.slots slot) ≠ .eq
  | _ => True

instance (tool : Tool) : (request : ClientRequest) → Decidable (HidesNothing tool request)
  | .access (.store _ _ _ _ _) => inferInstanceAs (Decidable (_ → _ → _ ∧ _))
  | .setClean _ _ => inferInstanceAs (Decidable (_ → _ ∧ ∀ slot ∈ List.range _, _ → _))
  | .access (.flush _ _ _) | .access .fence | .access (.registerMapping _ _)
  | .access (.orderGuarantee _ _ _ _) | .access (.fenceMark _) | .access .epochBegin
  | .access (.epochEnd _) | .access (.newStrand _ _) | .enterBlock
  | .removeMapping _ _ | .checkIsPmemMapping _ _ | .writeStats | .startTx _ _ _ | .endTx _ _ _
  | .addToTx _ _ _ _ _ | .removeFromTx _ _ _ _ | .addThreadToTx _ _ | .removeThreadFromTx _ _
  | .addToGlobalTxIgnore _ _ => .isTrue trivial

/-- A request that hides nothing keeps everything hidden shown. -/
theorem serve_hidden {tool : Tool} {request : ClientRequest} (sound : Sound tool.pmem)
    (allowed : RecordRequest tool request) (condition : HidesNothing tool request)
    (agree : ∀ byte, Hidden tool.pmem byte → Shown tool.pmem byte) (byte : Nat)
    (isHidden : Hidden (tool.serve request).pmem byte) : Shown (tool.serve request).pmem byte := by
  rcases serve_record allowed with ⟨_, context, addr, size, value, rfl, proper, traces, result⟩ |
    ⟨context, base, size, rfl, proper, result⟩ | ⟨rfl, result⟩ |
    ⟨base, size, rfl, proper, running, result⟩ | ⟨same, _⟩
  · rw [result] at isHidden ⊢
    obtain ⟨_, stored, shown, hidden⟩ := (trackStore_tracked value context proper sound).gap
      (fun mult reorganised => by
        rw [gapFor_written sound.layout]
        exact (condition traces mult).1 reorganised)
    -- What the store takes from older records it covers itself.
    have covered (taken : TakenBy (tool.pmem.writeStore addr size value context PmemSt.zero)
        tool.pmem byte) : Shown (tool.pmem.trackStore addr size value context).1 byte := by
      obtain ⟨mult, inside | rewrites⟩ := taken
      · exact stored byte inside
      · exact absurd rewrites (condition traces mult).2
    rcases hidden byte isHidden with before | taken
    · rcases shown byte (agree byte before) with still | taken
      · exact still
      · exact covered taken
    · exact covered taken
  · rw [result] at isHidden ⊢
    have kept := doFlush_kept context tool.strandId proper sound
    have before := (kept.hidden byte isHidden).resolve_right id
    exact (kept.shown byte (agree byte before)).resolve_right id
  · rw [result] at isHidden
    obtain ⟨slot, inUse, _⟩ := isHidden
    rw [doFence_empty] at inUse
    exact absurd inUse (Nat.not_lt_zero slot)
  · rw [result] at isHidden ⊢
    have cleaned := setClean_cleaned proper sound
    obtain ⟨hidesNot, clear⟩ := condition running
    have before := (cleaned.hidden byte isHidden).resolve_right hidesNot
    rcases cleaned.shown byte (agree byte before) with still | inRegion | hides
    · exact still
    · obtain ⟨slot, inUse, deleted, inside⟩ := before
      refine absurd ?_ (clear slot (List.mem_range.mpr inUse) deleted)
      rw [cmpPmemSt_eq_iff proper.nonWrapping (sound.slots slot inUse).nonWrapping]
      unfold PmemSt.Covers at inside inRegion
      omega
    · exact absurd hides hidesNot
  · have kept : Kept (fun _ => False) tool.pmem (tool.serve request).pmem := same.kept sound
    have before := (kept.hidden byte isHidden).resolve_right id
    exact (kept.shown byte (agree byte before)).resolve_right id

/-- A sound tracker whose reports agree: each byte of a deleted record is also a byte of a
record that is not deleted. -/
structure Agreeing (tool : Tool) : Prop where
  sound : Sound tool.pmem
  agree : ∀ byte, Hidden tool.pmem byte → Shown tool.pmem byte

/-- The two exit reports list the same bytes in every state of a run in which nothing is hidden, if
neither of them dies at a record without a context there.

Proof: each step keeps the tracker sound and everything hidden shown, and in such a state both
reports list what is shown. -/
theorem exit_reports_agree (opts : Options) (transactionsOnly redundantLogging : Bool)
    (cacheLineSize : Nat) (slots : Nat → PmemSt) (requests : List ClientRequest)
    (admitted : AllSteps Tool.serve
      (fun tool request => RecordRequest tool request ∧ HidesNothing tool request)
      (initTool opts transactionsOnly redundantLogging cacheLineSize slots) requests) :
    Throughout Tool.serve (fun tool => PrintsEither tool → ReportsAgree tool)
      (initTool opts transactionsOnly redundantLogging cacheLineSize slots) requests := by
  intro made isPrefix prints
  have kept (tool : Tool) (request : ClientRequest) (agreeing : Agreeing tool)
      (condition : RecordRequest tool request ∧ HidesNothing tool request) :
      Agreeing (tool.serve request) :=
    ⟨serve_sound agreeing.sound condition.1,
      serve_hidden agreeing.sound condition.1 condition.2 agreeing.agree⟩
  have initial : Agreeing (initTool opts transactionsOnly redundantLogging cacheLineSize
      slots) := by
    refine ⟨initTool_sound opts transactionsOnly redundantLogging cacheLineSize slots, ?_⟩
    rintro byte ⟨slot, inUse, _⟩
    exact absurd inUse (Nat.not_lt_zero slot)
  have madeSteps := allSteps_of_prefix isPrefix admitted
  have reached := invariant kept _ made initial madeSteps
  exact (reportsAgree_iff reached.sound prints).mpr reached.agree

/-- A store over an older one, which it deletes, and a request that shortens the rest. -/
def overwriteThenTrim : List ClientRequest :=
  [.access (.registerMapping 64 256), storeTo 100 8, storeTo 96 32, .setClean 120 20]

/-- All records of the run have their contexts. -/
theorem exit_reports_agree_trimmed :
    let opts := { defaultOptions (fun _ => false) with
      trackMultipleStores := true
      printBugDetail := true }
    let start := initTool opts false false 64 (fun _ => PmemSt.zero)
    let tool := overwriteThenTrim.foldl Tool.serve start
    AllSteps Tool.serve (fun tool request => RecordRequest tool request ∧ HidesNothing tool request)
        start overwriteThenTrim ∧
      PrintsEither tool ∧ Tracks (printedStores true tool) 100 ∧ ReportsAgree tool := by
  intro opts start tool
  have admitted : AllSteps Tool.serve
      (fun tool request => RecordRequest tool request ∧ HidesNothing tool request) start
      overwriteThenTrim := by
    decide +kernel
  have prints : PrintsEither tool := by decide +kernel
  refine ⟨admitted, prints, by decide +kernel, ?_⟩
  exact exit_reports_agree opts false false 64 (fun _ => PmemSt.zero) overwriteThenTrim admitted
    overwriteThenTrim List.prefix_rfl prints

/-- A store that a request to clear a wider range deletes. The slot stays in use, and only one
form of the report passes over it. -/
def clearedStore : List ClientRequest :=
  [.access (.registerMapping 64 256), storeTo 100 8, .setClean 96 16]

/-- Neither report dies here: the plain one prints no contexts, and the detailed one has no
entries. -/
theorem exit_reports_agree_fails :
    let opts := { defaultOptions (fun _ => false) with printBugDetail := true }
    let start := initTool opts false false 64 (fun _ => PmemSt.zero)
    let tool := clearedStore.foldl Tool.serve start
    AllSteps Tool.serve RecordRequest start clearedStore ∧ PrintsEither tool ∧
      ¬ ReportsAgree tool := by
  intro opts start tool
  have listed : Tracks (printedStores false tool) 104 := by decide +kernel
  have unlisted : ¬ Tracks (printedStores true tool) 104 := by decide +kernel
  refine ⟨by decide +kernel, by decide +kernel, fun agree => ?_⟩
  exact unlisted ((agree 104).mp listed)

end PmDebugger
