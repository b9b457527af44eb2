import PmDebugger.CheckedPrograms

/-!
# The two tools agree

The store array, the snippets and the bounds of the tool are there for speed. Where a program keeps
to what the tool can follow, they are not seen in the results: the tool and the plain checker, run
on the same program, list the same bytes as not made persistent, and know the same of them.

The two need not be started with the same options, as long as they round the addresses of flushes in
the same way.
-/

namespace PmDebugger

open Vex OrderedSet OrderedSet.OSet PmemOps Persistency

section Admission

variable {opts plain : Options} {isa : IsaOptions} {lineSize : Nat} {hardware : Hardware}

/-- The range of a flush depends on one option only. -/
theorem flushInfo_congr (sameAlign : plain.forceFlushAlign = opts.forceFlushAlign)
    (flushAlignSize base size : Nat) :
    flushInfo plain flushAlignSize base size = flushInfo opts flushAlignSize base size := by
  simp only [flushInfo, sameAlign]

/-- The plain checker follows what the tool follows. -/
theorem Shaped.admitted (sameAlign : plain.forceFlushAlign = opts.forceFlushAlign)
    {occurrence : Occurrence} (shaped : Shaped opts lineSize hardware occurrence) :
    Admitted plain lineSize hardware occurrence := by
  match occurrence, shaped with
  | .effect (.wrote [(addr, size)]), ⟨proper, sides⟩ =>
      exact ⟨proper, sides.imp_right And.left⟩
  | .effect (.flushed addr kind), shaped =>
      rw [Admitted, sameAlign]
      exact shaped
  | .effect .entered, _ => trivial
  | .effect (.fenced _), _ => trivial
  | .request (.access .fence), _ => trivial
  | .request (.access (.registerMapping base size)), inner => exact inner
  | .request (.access (.flush context base size)), ⟨proper, _⟩ =>
      rw [Admitted, flushInfo_congr sameAlign]
      exact proper

/-- There the processor does the same in either view. -/
theorem Shaped.advance_eq (sameAlign : plain.forceFlushAlign = opts.forceFlushAlign)
    {occurrence : Occurrence} (shaped : Shaped opts lineSize hardware occurrence) :
    hardware.advance plain isa lineSize occurrence =
      hardware.step opts isa lineSize occurrence := by
  match occurrence, shaped with
  | .effect .entered, _ => rfl
  | .effect (.wrote [(addr, size)]), _ => rfl
  | .effect (.flushed addr kind), _ => rfl
  | .effect (.fenced event), _ => rfl
  | .request (.access .fence), _ => rfl
  | .request (.access (.registerMapping base size)), _ => rfl
  | .request (.access (.flush context base size)), _ =>
      simp only [Hardware.advance, Hardware.step]
      rw [flushInfo_congr sameAlign]

/-- A run that the tool follows is one that the plain checker follows. -/
theorem allSteps_admitted (sameAlign : plain.forceFlushAlign = opts.forceFlushAlign)
    {seen : List Occurrence}
    (shaped : Runs.AllSteps (Hardware.step opts isa lineSize) (Shaped opts lineSize)
      hardware seen) :
    Runs.AllSteps (Hardware.advance plain isa lineSize) (Admitted plain lineSize) hardware seen ∧
      seen.foldl (Hardware.advance plain isa lineSize) hardware =
        seen.foldl (Hardware.step opts isa lineSize) hardware := by
  induction seen generalizing hardware with
  | nil => exact ⟨trivial, rfl⟩
  | cons occurrence rest inductionHypothesis =>
      obtain ⟨first, later⟩ := shaped
      have same : hardware.advance plain isa lineSize occurrence =
          hardware.step opts isa lineSize occurrence := first.advance_eq sameAlign
      obtain ⟨admitted, sameEnd⟩ := inductionHypothesis later
      constructor
      · exact ⟨first.admitted sameAlign, same ▸ admitted⟩
      · rw [List.foldl_cons, List.foldl_cons, same]
        exact sameEnd

end Admission

/-- The reports name the same bytes. A byte is dirty for the one if it is for the other. -/
structure SameReports (tool : Tool) (check : Pmemcheck) : Prop where
  listed : ∀ byte, Tracks tool.fini.2 byte ↔ Tracks check.printStoreStats byte
  dirty : ∀ byte, (∃ store ∈ tool.pmem.live, store.state ≠ .flushed ∧ store.Covers byte) ↔
    MarksAs check.printStoreStats byte .dirty
  flushed : ∀ byte, ((∃ store ∈ tool.pmem.live, store.Covers byte) ∧
    ¬ ∃ store ∈ tool.pmem.live, store.state ≠ .flushed ∧ store.Covers byte) ↔
      MarksAs check.printStoreStats byte .flushed

/-- Two views of the same processor. -/
theorem sameReports_of_exact {opts plain : Options} {lineSize : Nat} {tool : Tool}
    {check : Pmemcheck} {hardware : Hardware} (silent : PlainReports opts)
    (tracking : Tracking opts lineSize tool hardware) (alive : tool.exited = false)
    (checking : Pmemcheck.Checking plain lineSize check hardware) : SameReports tool check := by
  have exact := exact_of_both tracking.exact.missed tracking.exact.invented
  have marks := checking.mirrors.marks
  constructor
  · intro byte
    rw [tracking.listed silent alive]
    exact (checking.mirrors.tracks byte).symm
  · intro byte
    rw [← exact.dirty byte]
    exact ((marks byte .dirty).trans (and_iff_right (by decide))).symm
  · intro byte
    rw [← exact.flushed byte]
    exact ((marks byte .flushed).trans (and_iff_right (by decide))).symm

end PmDebugger
