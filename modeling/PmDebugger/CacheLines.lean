import PmDebugger.WholeFlushes

/-!
# Traces shaped by the hardware

A processor stores within one cache line at a time and flushes whole lines. Along such
a trace a flush either covers a record or does not meet it, so nothing is ever cut, no
record leaves the box of its snippet, and both mistakes of a flush are excluded. The
tracker then agrees with the byte-level machine on every byte at every point.
-/

namespace PmDebugger

open OrderedSet OrderedSet.OSet PmemOps Persistency

/-- The bytes of the record lie in one cache line. The record need not fill it. -/
def InLine (lineSize : Nat) (store : PmemSt) : Prop :=
  store.addr / lineSize = (store.addr + store.size - 1) / lineSize

instance (lineSize : Nat) (store : PmemSt) : Decidable (InLine lineSize store) :=
  inferInstanceAs (Decidable (_ = _))

/-- The range is a whole number of aligned cache lines below the last address. Such a range
contains a line or is apart from it. -/
def WholeLines (lineSize : Nat) (flush : PmemSt) : Prop :=
  flush.addr % lineSize = 0 ∧ flush.size % lineSize = 0 ∧ flush.addr + flush.size < 2 ^ 64 - 1

instance (lineSize : Nat) (flush : PmemSt) : Decidable (WholeLines lineSize flush) :=
  inferInstanceAs (Decidable (_ ∧ _ ∧ _))

/-- A part of a record is in its line. -/
theorem InLine.part {lineSize : Nat} {store part : PmemSt} (line : InLine lineSize store)
    (proper : part.Proper) (covers : ∀ byte, part.Covers byte → store.Covers byte) :
    InLine lineSize part := by
  obtain ⟨low, high⟩ := enclosed proper covers
  have size := proper.nonempty
  have first : store.addr / lineSize ≤ part.addr / lineSize := Nat.div_le_div_right low
  have middle : part.addr / lineSize ≤ (part.addr + part.size - 1) / lineSize :=
    Nat.div_le_div_right (by omega)
  have last : (part.addr + part.size - 1) / lineSize ≤ (store.addr + store.size - 1) / lineSize :=
    Nat.div_le_div_right (by omega)
  unfold InLine at line ⊢
  omega

/-- Whole lines cover every record within a line that they meet. -/
theorem within_of_meets {lineSize : Nat} (positive : 0 < lineSize) {flush store : PmemSt}
    (range : flush.Proper) (proper : store.Proper) (lines : WholeLines lineSize flush)
    (line : InLine lineSize store) (meets : cmpPmemSt flush store = .eq) : Within flush store := by
  obtain ⟨alignedAddr, alignedSize, _⟩ := lines
  obtain ⟨start, isStart⟩ := Nat.dvd_of_mod_eq_zero alignedAddr
  obtain ⟨count, isCount⟩ := Nat.dvd_of_mod_eq_zero alignedSize
  rw [cmpPmemSt_eq_iff range.nonWrapping proper.nonWrapping] at meets
  have size := proper.nonempty
  unfold Within
  rw [range.nonWrapping.maxAddr_eq, proper.nonWrapping.maxAddr_eq, isStart, isCount,
    ← Nat.mul_add]
  rw [isStart, isCount, ← Nat.mul_add] at meets
  have lowest := Nat.div_mul_le_self store.addr lineSize
  have highest : store.addr + store.size - 1 < (store.addr / lineSize + 1) * lineSize := by
    rw [line]
    exact Nat.lt_mul_of_div_lt (Nat.lt_succ_self _) positive
  rw [Nat.mul_comm] at lowest highest
  -- The line of the record is one of the flushed lines.
  have notBefore : start ≤ store.addr / lineSize := by
    by_contra early
    have := Nat.mul_le_mul_left lineSize (show store.addr / lineSize + 1 ≤ start by omega)
    omega
  have notAfter : store.addr / lineSize + 1 ≤ start + count := by
    by_contra late
    have := Nat.mul_le_mul_left lineSize (show start + count ≤ store.addr / lineSize by omega)
    omega
  have := Nat.mul_le_mul_left lineSize notBefore
  have := Nat.mul_le_mul_left lineSize notAfter
  omega

/-- Every live record lies in one cache line. Stores that cross a line would break it. -/
def Lined (lineSize : Nat) (pmem : PmemOps) : Prop := ∀ store ∈ pmem.live, InLine lineSize store

section Flush

variable {lineSize : Nat} {flush : PmemSt} {pmem : PmemOps}

/-- A flush of whole lines takes records whole. -/
theorem takesWhole_of_lines (positive : 0 < lineSize) (well : WellFormed pmem)
    (range : flush.Proper) (lines : WholeLines lineSize flush) (lined : Lined lineSize pmem) :
    TakesWhole flush pmem := by
  intro store member meets
  exact within_of_meets positive range (well.live_pending member).proper lines (lined store member)
    meets

end Flush

/-- The shape of the tracker along a trace of cache lines. Records lie in lines, and those of
the array lie in the boxes of their snippets. -/
structure LineShaped (lineSize : Nat) (pmem : PmemOps) : Prop where
  boxed : Boxed pmem
  lined : Lined lineSize pmem

/-- A store within one cache line, or a flush of whole lines. Other requests are not
restricted. -/
def UsesLines (lineSize : Nat) (tool : Tool) : PmemRequest → Prop
  | .store _ _ addr size _ => InLine lineSize (PmemSt.range addr size)
  | .flush _ base size => WholeLines lineSize (flushRange tool base size)
  | _ => True

instance (lineSize : Nat) (tool : Tool) :
    (request : PmemRequest) → Decidable (UsesLines lineSize tool request)
  | .store _ _ addr size _ => inferInstanceAs (Decidable (InLine lineSize (PmemSt.range addr size)))
  | .flush _ base size =>
      inferInstanceAs (Decidable (WholeLines lineSize (flushRange tool base size)))
  | .fence | .registerMapping _ _ | .orderGuarantee _ _ _ _ | .fenceMark _
  | .epochBegin | .epochEnd _ | .newStrand _ _ => .isTrue trivial

section Step

variable {opts : Options} {flushAlignSize lineSize : Nat} {tool : Tool} {request : PmemRequest}

/-- A flush of a trace of cache lines takes records whole. -/
theorem flushesWhole_of_lines (positive : 0 < lineSize) (admissible : Admissible tool request)
    (ready : Ready opts flushAlignSize tool) (uses : UsesLines lineSize tool request)
    (lined : Lined lineSize tool.pmem) : FlushesWhole tool request := by
  cases request with
  | flush context base size =>
    exact takesWhole_of_lines positive ready.wellFormed admissible.2.2 uses lined
  | _ => exact trivial

/-- One request keeps the records within lines and in their boxes. A flush of whole lines cuts
none, and a fence moves them as they are. -/
theorem step_lineShaped (positive : 0 < lineSize) (admissible : Admissible tool request)
    (ready : Ready opts flushAlignSize tool) (uses : UsesLines lineSize tool request)
    (shaped : LineShaped lineSize tool.pmem) : LineShaped lineSize (tool.step request).pmem := by
  have well := ready.wellFormed
  have nextWell := (step_ready admissible ready).wellFormed
  have whole := flushesWhole_of_lines positive admissible ready uses shaped.lined
  refine ⟨step_boxed admissible ready whole shaped.boxed, ?_⟩
  intro store member
  rcases step_pmem admissible with ⟨_, context, addr, size, value, rfl, proper, stored⟩ |
    ⟨context, base, size, rfl, range, _⟩ | ⟨rfl, fenced⟩ | ⟨_, _, rfl, same, _⟩
  · rw [stored] at member
    rcases (trackStore_live value context well admissible.1 proper store).mp member with rfl | old
    · exact uses
    · exact shaped.lined store old
  · obtain ⟨old, isOld, covers, _⟩ := (flush_effect well range admissible.2.1).origin store member
    exact (shaped.lined old isOld).part (nextWell.live_pending member).proper covers
  · have effect := doFence_effect well
    rw [← fenced] at effect
    obtain ⟨old, isOld, sameRecord⟩ := effect.live.left store member
    exact (shaped.lined old (List.mem_filter.mp isOld).1).part
      (nextWell.live_pending member).proper (fun byte => (sameRecord.covers byte).mp)
  · rw [same.live_eq] at member
    exact shaped.lined store member

end Step

/-- The tracker along a trace of cache lines: it is ready, it has the shape, and it misses and
invents nothing. -/
structure LineExact (opts : Options) (flushAlignSize lineSize : Nat) (tool : Tool)
    (memory : Memory Nat) : Prop where
  ready : Ready opts flushAlignSize tool
  shaped : LineShaped lineSize tool.pmem
  missed : NothingMissed tool.pmem memory
  invented : NothingInvented tool.pmem memory

/-- One request keeps the tracker exact. That the flush tags nothing by mistake and skips
nothing follows from the shape of the records. -/
theorem step_lineExact {opts : Options} {flushAlignSize lineSize : Nat} (positive : 0 < lineSize)
    {tool : Tool} {memory : Memory Nat} {request : PmemRequest}
    (exact : LineExact opts flushAlignSize lineSize tool memory)
    (admissible : Admissible tool request) (uses : UsesLines lineSize tool request) :
    LineExact opts flushAlignSize lineSize (tool.step request)
      (referenceStep opts flushAlignSize memory request) := by
  have well := exact.ready.wellFormed
  have whole := flushesWhole_of_lines positive admissible exact.ready uses exact.shaped.lined
  have safe : FlushesSafely tool request := by
    cases request with
    | flush context base size => exact tagsSafely_of_whole well exact.shaped.boxed whole
    | _ => exact trivial
  have dirty : FlushesDirty tool request := by
    cases request with
    | flush context base size =>
      exact reachesDirty_of_boxed well admissible.2.2 exact.shaped.boxed
    | _ => exact trivial
  exact ⟨step_ready admissible exact.ready,
    step_lineShaped positive admissible exact.ready uses exact.shaped,
    step_missed admissible exact.ready safe exact.missed,
    step_invented admissible exact.ready dirty exact.invented⟩

/-- At every point of a trace of cache lines the tracker agrees with the byte-level machine on
every byte: it is dirty, flushed or clean on both sides.

Proof: simulation along the trace, with the shape of the records as part of the relation. Where
every store lies in one line and every flush is made of whole lines, a flush takes a record
whole or misses it. So no record is ever cut, none is left outside its box, and none is tagged
by mistake, which are the ways in which the tracker could go wrong. -/
theorem cacheLine_traces_exact {opts : Options} (defaults : DefaultTracking opts)
    (transactionsOnly redundantLogging : Bool) (cacheLineSize : Nat) (slots : Nat → PmemSt)
    {lineSize : Nat} (positive : 0 < lineSize) (requests : List PmemRequest)
    (admitted : Runs.AllSteps Tool.step
      (fun tool request => Admissible tool request ∧ UsesLines lineSize tool request)
      (initTool opts transactionsOnly redundantLogging cacheLineSize slots) requests)
    (made : List PmemRequest) (isMade : made <+: requests) :
    Exact (made.foldl Tool.step (initTool opts transactionsOnly redundantLogging cacheLineSize
      slots)).pmem (made.foldl (referenceStep opts cacheLineSize) Memory.clean) := by
  have complete := initTool_complete defaults transactionsOnly redundantLogging cacheLineSize slots
  have faithful := initTool_faithful defaults transactionsOnly redundantLogging cacheLineSize slots
  have shaped : LineShaped lineSize
      (initTool opts transactionsOnly redundantLogging cacheLineSize slots).pmem := by
    refine ⟨fun sIndex _ slot inside => absurd inside.2 (Nat.not_lt.mpr (Nat.zero_le _)), ?_⟩
    intro store member
    exact absurd member (by
      rw [show (initTool opts transactionsOnly redundantLogging cacheLineSize slots).pmem.live = []
        from initPmem_live opts cacheLineSize slots]
      exact List.not_mem_nil)
  have reached := Runs.allSteps_of_prefix isMade admitted
  have final : LineExact opts cacheLineSize lineSize
      (made.foldl Tool.step (initTool opts transactionsOnly redundantLogging cacheLineSize slots))
      (made.foldl (referenceStep opts cacheLineSize) Memory.clean) := by
    refine Runs.simulation ?_ _ _ made
      ⟨complete.ready, shaped, complete.missed, faithful.invented⟩ reached
    exact fun tool memory request exact step => step_lineExact positive exact step.1 step.2
  exact exact_of_both final.missed final.invented

/-- Two stores to different lines; one line is flushed, the other is not. -/
theorem cacheLine_traces_exact_two_lines :
    let opts := defaultOptions (fun _ => false)
    let start := initTool opts false false 64 (fun _ => PmemSt.zero)
    let requests : List PmemRequest := [.registerMapping 64 1024, .store 1 none 100 8 0,
      .store 1 none 200 8 0, .flush none 192 64, .store 1 none 208 4 0, .fence]
    let memory := requests.foldl (referenceStep opts 64) Memory.clean
    Runs.AllSteps Tool.step
        (fun tool request => Admissible tool request ∧ UsesLines 64 tool request) start requests ∧
      (memory 100 = .dirty ∧ memory 200 = .clean ∧ memory 208 = .dirty) ∧
      Exact (requests.foldl Tool.step start).pmem memory := by
  refine ⟨by decide +kernel, by decide +kernel, ?_⟩
  exact cacheLine_traces_exact ⟨rfl, rfl⟩ false false 64 _ (show 0 < 64 by decide) _
    (by decide +kernel) _ (List.prefix_refl _)

end PmDebugger
