import PmDebugger.PmemcheckBytes
import PmDebugger.TrackedPrograms

/-!
# Programs under the plain checker

The plain checker is set beside the processor as the other tool was. Its one set needs no store
array with room and no boxes around cache lines: writes may have any size, and requests to flush may
name any range. Mappings may be removed again, ranges may be declared clean, and transactions may
run. What remains is what the checker cannot see: a write across the edge of registered memory, and
a flush instruction with an address inside its line, unless addresses are rounded.

A range that is declared clean must not lie inside a pending record. The checker then keeps the part
behind it with the state of a new node, which is that of a clean record, and such a record is
neither flushed nor fenced any more. -/

namespace PmDebugger

open Vex OrderedSet OrderedSet.OSet PmemOps Persistency

/-! ## The processor -/

namespace Hardware

/-- Take a range out of the registered ones. Its bytes stay pending if they were. -/
def deregister (base size : Nat) (hardware : Hardware) : Hardware :=
  { hardware with
    regions := hardware.regions.flatMap (fun region =>
      [(region.1, min (region.1 + region.2) base - region.1),
        (max region.1 (base + size), region.1 + region.2 - max region.1 (base + size))]) }

/-- The bytes of the range are registered no more. -/
theorem deregister_registered (base size : Nat) (hardware : Hardware) (byte : Nat) :
    (hardware.deregister base size).Registered byte ↔
      hardware.Registered byte ∧ ¬ (PmemSt.range base size).Covers byte := by
  simp only [Registered, deregister, List.mem_flatMap, List.mem_cons, List.not_mem_nil, or_false,
    PmemSt.range_covers]
  constructor
  · rintro ⟨piece, ⟨region, member, rfl | rfl⟩, low, high⟩
    · exact ⟨⟨region, member, by simp only at low high; omega⟩, by simp only at low high; omega⟩
    · exact ⟨⟨region, member, by simp only at low high; omega⟩, by simp only at low high; omega⟩
  · rintro ⟨⟨region, member, low, high⟩, outside⟩
    by_cases early : byte < base
    · exact ⟨_, ⟨region, member, .inl rfl⟩, by simp only; omega⟩
    · exact ⟨_, ⟨region, member, .inr rfl⟩, by simp only; omega⟩

/-- What becomes of the processor, with the requests that take something back. Everything else
is as for the other tool. -/
def advance (opts : Options) (isa : IsaOptions) (lineSize : Nat) (hardware : Hardware) :
    Occurrence → Hardware
  | .request (.removeMapping base size) => hardware.deregister base size
  | .request (.setClean base size) =>
      { hardware with memory := hardware.memory.release (PmemSt.range base size).Covers }
  | occurrence => hardware.step opts isa lineSize occurrence

end Hardware

/-- An occurrence that the plain checker follows. A write is in registered memory or outside
it, and not half in it, and addresses do not wrap round. -/
def Admitted (opts : Options) (lineSize : Nat) (hardware : Hardware) : Occurrence → Prop
  | .effect (.wrote [(addr, size)]) =>
      (PmemSt.range addr size).Proper ∧
        ((∀ offset < size, ¬ hardware.Registered (addr + offset)) ∨
          ∀ offset < size, hardware.Registered (addr + offset))
  | .effect (.wrote _) => False
  | .effect (.flushed addr _) =>
      (opts.forceFlushAlign = true ∨ addr % lineSize = 0) ∧ addr + 2 * lineSize < 2 ^ 64
  | .effect .entered | .effect (.fenced _) => True
  | .request (.access (.registerMapping base size)) => (PmemSt.range base size).Inner
  | .request (.access (.flush _ base size)) => (flushInfo opts lineSize base size).Proper
  | .request (.access (.store _ _ _ _ _)) => False
  | .request (.removeMapping base size) => (PmemSt.range base size).Proper
  | .request (.setClean base size) =>
      (PmemSt.range base size).Proper ∧ (base = 0 ∨ ¬ hardware.memory.Unpersisted (base - 1) ∨
        ¬ hardware.memory.Unpersisted (base + size))
  | .request _ => True

instance (opts : Options) (lineSize : Nat) (hardware : Hardware) :
    (occurrence : Occurrence) → Decidable (Admitted opts lineSize hardware occurrence)
  | .effect (.wrote [(_, _)]) => inferInstanceAs (Decidable (_ ∧ (_ ∨ _)))
  | .effect (.wrote []) | .effect (.wrote (_ :: _ :: _))
  | .request (.access (.store _ _ _ _ _)) => .isFalse id
  | .effect (.flushed _ _) => inferInstanceAs (Decidable (_ ∧ _))
  | .request (.access (.registerMapping base size)) =>
      inferInstanceAs (Decidable (PmemSt.range base size).Inner)
  | .request (.access (.flush _ base size)) =>
      inferInstanceAs (Decidable (flushInfo opts lineSize base size).Proper)
  | .request (.removeMapping base size) =>
      inferInstanceAs (Decidable (PmemSt.range base size).Proper)
  | .request (.setClean _ _) => inferInstanceAs (Decidable (_ ∧ (_ ∨ ¬ _ ∨ ¬ _)))
  | .effect .entered | .effect (.fenced _) | .request (.access .fence)
  | .request (.access (.orderGuarantee _ _ _ _)) | .request (.access (.fenceMark _))
  | .request (.access .epochBegin) | .request (.access (.epochEnd _))
  | .request (.access (.newStrand _ _)) | .request .enterBlock | .request (.checkIsPmemMapping _ _)
  | .request .writeStats | .request (.startTx _ _ _) | .request (.endTx _ _ _)
  | .request (.addToTx _ _ _ _ _) | .request (.removeFromTx _ _ _ _)
  | .request (.addThreadToTx _ _) | .request (.removeThreadFromTx _ _)
  | .request (.addToGlobalTxIgnore _ _) => .isTrue trivial

/-! ## The set of the checker -/

/-- What the state of a record says about its bytes. The two enumerations have the same three
values. -/
def StoreState.status : StoreState → Status
  | .clean => .clean
  | .dirty => .dirty
  | .flushed => .flushed

namespace Pmemcheck

/-- The set holds every pending byte once, in its state, and nothing else. Its records are
disjoint, so that a byte has one state. -/
structure Mirrors (set : OSet PmemSt) (memory : Memory Nat) : Prop where
  ranges : Ranges set.toList
  marks : ∀ byte state, MarksAs set.toList byte state ↔
    state ≠ .clean ∧ memory byte = state.status
  noDuplicate : set.duplicate = false

section Mirroring

variable {set next : OSet PmemSt} {memory : Memory Nat}

/-- A byte is listed if it is pending. -/
theorem Mirrors.tracks (mirrors : Mirrors set memory) (byte : Nat) :
    Tracks set.toList byte ↔ memory.Unpersisted byte := by
  constructor
  · rintro ⟨store, member, covered⟩
    obtain ⟨notClean, same⟩ := (mirrors.marks byte store.state).mp ⟨store, member, covered, rfl⟩
    unfold Memory.Unpersisted
    rw [same]
    intro clean
    apply notClean
    cases isState : store.state with
    | clean => rfl
    | dirty =>
        rw [isState] at clean
        cases clean
    | flushed =>
        rw [isState] at clean
        cases clean
  · intro pending
    have listed (state : StoreState) (notClean : state ≠ .clean)
        (same : memory byte = state.status) : Tracks set.toList byte := by
      obtain ⟨store, member, covered, _⟩ := (mirrors.marks byte state).mpr ⟨notClean, same⟩
      exact ⟨store, member, covered⟩
    cases status : memory byte with
    | clean => exact absurd status pending
    | dirty => exact listed .dirty (by simp) status
    | flushed => exact listed .flushed (by simp) status

/-- A dirty record enters the set. -/
theorem Mirrors.store {store : PmemSt} (mirrors : Mirrors set memory)
    (entered : Entered store set next)
    (dirty : store.state = .dirty) : Mirrors next (memory.store store.Covers) where
  ranges := entered.ranges
  marks := by
    intro byte state
    rw [entered.marks byte state, mirrors.marks byte state, dirty]
    unfold Memory.store
    by_cases covered : store.Covers byte
    · cases state <;> simp [covered, StoreState.status]
    · simp [covered]
  noDuplicate := entered.duplicate.trans mirrors.noDuplicate

/-- A region is taken out of the set. -/
theorem Mirrors.release {region : PmemSt} (mirrors : Mirrors set memory)
    (cut : CutOut region set next) : Mirrors next (memory.release region.Covers) where
  ranges := cut.ranges
  marks := by
    intro byte state
    rw [cut.marks byte state, mirrors.marks byte state]
    unfold Memory.release
    by_cases covered : region.Covers byte
    · cases state <;> simp [covered, StoreState.status]
    · simp [covered]
  noDuplicate := cut.duplicate.trans mirrors.noDuplicate

/-- The parts of a record say that its dirty bytes in the range are flushed. -/
theorem flushParts_marks {flush being : PmemSt} (range : flush.Proper) (proper : being.Proper)
    (byte : Nat) (state : StoreState) :
    MarksAs (flushParts flush being) byte state ↔ being.Covers byte ∧
      (if being.state = .dirty ∧ flush.Covers byte then .flushed else being.state) = state := by
  by_cases marked : marksTree flush being
  · have cut := cut_exact range proper marked.1
    have dirty := marked.2
    have listed : MarksAs (flushParts flush being) byte state ↔
        MarksAs (flushedPart flush being :: cutPieces flush being) byte state := by
      rw [flushParts, if_pos marked, cutPieces]
      simp only [marksAs_append, marksAs_cons]
      tauto
    have pieces : MarksAs (cutPieces flush being) byte state ↔
        (being.Covers byte ∧ ¬ flush.Covers byte) ∧ .dirty = state := by
      rw [← cut.pieces_cover byte]
      constructor
      · rintro ⟨piece, isPiece, covered, same⟩
        exact ⟨⟨piece, isPiece, covered⟩, (cut.pieces_state piece isPiece).symm.trans same⟩
      · rintro ⟨⟨piece, isPiece, covered⟩, same⟩
        exact ⟨piece, isPiece, covered, (cut.pieces_state piece isPiece).trans same⟩
    rw [listed, marksAs_cons, pieces, cut.kept_covers byte, cut.kept_state, dirty]
    by_cases inside : flush.Covers byte
    · simp [inside]
    · simp [inside]
  · rw [flushParts_other marked]
    simp only [MarksAs, List.mem_singleton, exists_eq_left]
    apply and_congr_right
    intro covered
    have unmarked : ¬ (being.state = .dirty ∧ flush.Covers byte) := by
      rintro ⟨dirty, inside⟩
      exact marked ⟨(cmpPmemSt_eq_iff_shared range proper).mpr ⟨byte, inside, covered⟩, dirty⟩
    rw [if_neg unmarked]

/-- Every record is cut along the range of a flush. -/
theorem Mirrors.flush {flush : PmemSt} (mirrors : Mirrors set memory) (range : flush.Proper)
    (ranges : Ranges next.toList) (listed : next.toList = set.toList.flatMap (flushParts flush))
    (flag : next.duplicate = set.duplicate) : Mirrors next (memory.flush flush.Covers) where
  ranges := ranges
  marks := by
    intro byte state
    have parts : MarksAs next.toList byte state ↔ ∃ old, MarksAs set.toList byte old ∧
        (if old = .dirty ∧ flush.Covers byte then StoreState.flushed else old) = state := by
      rw [listed]
      constructor
      · rintro ⟨piece, isPiece, covered, same⟩
        obtain ⟨being, member, isPart⟩ := List.mem_flatMap.mp isPiece
        obtain ⟨inside, became⟩ := (flushParts_marks range (mirrors.ranges.proper being member) byte
          state).mp ⟨piece, isPart, covered, same⟩
        exact ⟨being.state, ⟨being, member, inside, rfl⟩, became⟩
      · rintro ⟨old, ⟨being, member, covered, rfl⟩, became⟩
        obtain ⟨piece, isPart, inside, same⟩ := (flushParts_marks range
          (mirrors.ranges.proper being member) byte state).mpr ⟨covered, became⟩
        exact ⟨piece, List.mem_flatMap.mpr ⟨being, member, isPart⟩, inside, same⟩
    simp only [parts, mirrors.marks]
    unfold Memory.flush
    by_cases inside : flush.Covers byte
    · constructor
      · rintro ⟨old, ⟨notClean, same⟩, rfl⟩
        cases old <;> simp_all [StoreState.status]
      · rintro ⟨notClean, same⟩
        cases before : memory byte with
        | clean => cases state <;> simp_all [StoreState.status]
        | dirty =>
          refine ⟨.dirty, by simp [StoreState.status], ?_⟩
          cases state <;> simp_all [StoreState.status]
        | flushed =>
          refine ⟨.flushed, by simp [StoreState.status], ?_⟩
          cases state <;> simp_all [StoreState.status]
    · simp [inside]
  noDuplicate := flag.trans mirrors.noDuplicate

/-- What is flushed leaves the set. -/
theorem Mirrors.fence (mirrors : Mirrors set memory)
    (listed : next.toList = set.toList.filter (fun store => store.state ≠ .flushed))
    (flag : next.duplicate = set.duplicate) : Mirrors next memory.fence where
  ranges := by
    rw [listed]
    exact mirrors.ranges.sublist List.filter_sublist
  marks := by
    intro byte state
    have kept : MarksAs next.toList byte state ↔ MarksAs set.toList byte state ∧
        state ≠ .flushed := by
      simp only [MarksAs, listed, List.mem_filter, decide_not, Bool.not_eq_true',
        decide_eq_false_iff_not]
      constructor
      · rintro ⟨store, ⟨member, notFlushed⟩, covered, rfl⟩
        exact ⟨⟨store, member, covered, rfl⟩, notFlushed⟩
      · rintro ⟨⟨store, member, covered, rfl⟩, notFlushed⟩
        exact ⟨store, ⟨member, notFlushed⟩, covered, rfl⟩
    rw [kept, mirrors.marks byte state]
    unfold Memory.fence
    cases before : memory byte <;> cases state <;> simp [StoreState.status]
  noDuplicate := flag.trans mirrors.noDuplicate

end Mirroring

/-! ## The checker beside the processor -/

/-- The checker agrees with the processor on every byte and on what is registered. Its options
and its line size are those of the start. -/
structure Checking (opts : Options) (lineSize : Nat) (check : Pmemcheck) (hardware : Hardware) :
    Prop where
  mirrors : Mirrors check.pmemStores hardware.memory
  regions : RegionSet check.pmemMappings.toList
  registered : ∀ byte, Tracks check.pmemMappings.toList byte ↔ hardware.Registered byte
  noDuplicate : check.pmemMappings.duplicate = false
  opts : check.opts = opts
  align : check.flushAlignSize = lineSize

/-- Or the process is gone. A process that is gone lists nothing, and nothing is said about its
sets. -/
def CheckingOrGone (opts : Options) (lineSize : Nat) (check : Pmemcheck) (hardware : Hardware) :
    Prop :=
  check.exited = true ∨ Checking opts lineSize check hardware

section Steps

variable {opts : Options} {lineSize : Nat} {check next : Pmemcheck} {hardware : Hardware}

/-- A change of the pending stores alone. -/
theorem Checking.stores (checking : Checking opts lineSize check hardware) {memory : Memory Nat}
    (setup : SameSetup check next) (mirrors : Mirrors next.pmemStores memory) :
    Checking opts lineSize next { hardware with memory := memory } where
  mirrors := mirrors
  regions := by
    rw [setup.pmemMappings]
    exact checking.regions
  registered := by
    rw [setup.pmemMappings]
    exact checking.registered
  noDuplicate := by
    rw [setup.pmemMappings]
    exact checking.noDuplicate
  opts := setup.opts.trans checking.opts
  align := setup.flushAlignSize.trans checking.align

/-- A request that leaves the stores and the setup alone. -/
theorem Checking.same (checking : Checking opts lineSize check hardware)
    (setup : SameSetup check next) (stores : next.pmemStores = check.pmemStores) :
    Checking opts lineSize next hardware :=
  checking.stores setup (stores ▸ checking.mirrors)

/-- A request that reaches the checker, or meets a process that is gone. -/
theorem CheckingOrGone.serve {request : ClientRequest} {later : Hardware}
    (known : CheckingOrGone opts lineSize check hardware)
    (kept : Checking opts lineSize check hardware →
      Checking opts lineSize (check.handleClientRequest request).2 later) :
    CheckingOrGone opts lineSize (check.serve request) later := by
  unfold Pmemcheck.serve
  split
  · rename_i gone
    exact .inl gone
  · rename_i running
    rcases known with gone | checking
    · exact absurd gone running
    · exact .inr (kept checking)

/-- The test of `trace_pmem_store`. -/
theorem isPmemAccess_iff (checking : Checking opts lineSize check hardware) {addr size : Nat}
    (proper : (PmemSt.range addr size).Proper) :
    check.isPmemAccess addr size = true ↔
      ∃ byte, (PmemSt.range addr size).Covers byte ∧ hardware.Registered byte := by
  rw [isPmemAccess, contains_iff (checking.regions.guides proper)]
  constructor
  · rintro ⟨elem, member, meets⟩
    obtain ⟨byte, inside, covered⟩ := (cmpPmemSt_eq_iff_shared proper
      (checking.regions.ranges.proper elem member)).mp meets
    exact ⟨byte, inside, (checking.registered byte).mp ⟨elem, member, covered⟩⟩
  · rintro ⟨byte, inside, registered⟩
    obtain ⟨elem, member, covered⟩ := (checking.registered byte).mpr registered
    exact ⟨elem, member, (cmpPmemSt_eq_iff_shared proper
      (checking.regions.ranges.proper elem member)).mpr ⟨byte, inside, covered⟩⟩

/-- A store to registered memory. -/
theorem Checking.tracePmemStore (checking : Checking opts lineSize check hardware)
    (threadId : Nat) (context : Option ExeContext) {addr size : Nat} (value : Nat)
    (proper : (PmemSt.range addr size).Proper)
    (traced : check.isPmemAccess addr size = true) :
    Checking opts lineSize (check.tracePmemStore threadId context addr size value)
      { hardware with memory := hardware.memory.store (PmemSt.range addr size).Covers } := by
  have storeProper : (check.newStore addr size value context).Proper :=
    ⟨proper.nonempty, proper.nonWrapping⟩
  obtain ⟨entered, setup⟩ := trackStore_entered storeProper checking.mirrors.ranges
  have mirrors := checking.mirrors.store entered rfl
  simp only [Pmemcheck.tracePmemStore, traced, if_true]
  exact checking.stores ⟨setup.opts, setup.pmemMappings, setup.flushAlignSize⟩ mirrors

/-- A flush of any range. -/
theorem Checking.doFlush (checking : Checking opts lineSize check hardware) (base size : Nat)
    (context : Option ExeContext) (range : (flushInfo opts lineSize base size).Proper) :
    Checking opts lineSize (check.doFlush base size context)
      { hardware with
        memory := hardware.memory.flush (flushInfo opts lineSize base size).Covers } := by
  have info : flushInfo check.opts check.flushAlignSize base size =
      flushInfo opts lineSize base size := by
    rw [checking.opts, checking.align]
  have flushed := doFlush_flushedInto base size context (info ▸ range) checking.mirrors.ranges
  apply checking.stores flushed.setup
  apply checking.mirrors.flush range flushed.ranges
  · rw [flushed.listed, info]
  · exact flushed.duplicate

/-- A fence. -/
theorem Checking.doFence (checking : Checking opts lineSize check hardware) :
    Checking opts lineSize check.doFence
      { hardware with memory := hardware.memory.fence } := by
  obtain ⟨listed, flag⟩ := doFence_listed checking.mirrors.ranges
  exact checking.stores ⟨rfl, rfl, rfl⟩ (checking.mirrors.fence listed flag)

/-- A new mapping. -/
theorem Checking.registerMapping (checking : Checking opts lineSize check hardware)
    {base size : Nat} (inner : (PmemSt.range base size).Inner) :
    Checking opts lineSize (check.handleClientRequest (.access (.registerMapping base size))).2
      { hardware with regions := (base, size) :: hardware.regions } := by
  obtain ⟨regions, bytes, flag⟩ := addRegion_exact checking.regions inner
  have same := addRegion_eq (PmemSt.range base size) checking.regions
  simp only [handleClientRequest, same]
  constructor
  · exact checking.mirrors
  · exact regions
  · intro byte
    rw [bytes byte, checking.registered byte]
    simp [Hardware.Registered, PmemSt.Covers]
  · exact flag.trans checking.noDuplicate
  · exact checking.opts
  · exact checking.align

/-- A mapping that is taken back. -/
theorem Checking.removeMapping (checking : Checking opts lineSize check hardware) {base size : Nat}
    (proper : (PmemSt.range base size).Proper) :
    Checking opts lineSize (check.handleClientRequest (.removeMapping base size)).2
      (hardware.deregister base size) := by
  obtain ⟨regions, bytes, flag⟩ := removeRegionMapping_exact checking.regions proper
  constructor
  · exact checking.mirrors
  · exact regions
  · intro byte
    rw [Hardware.deregister_registered, ← checking.registered byte]
    exact bytes byte
  · exact flag.trans checking.noDuplicate
  · exact checking.opts
  · exact checking.align

/-- A range that is declared clean and lies inside no pending record. -/
theorem Checking.setClean (checking : Checking opts lineSize check hardware) {base size : Nat}
    (proper : (PmemSt.range base size).Proper)
    (edge : base = 0 ∨ ¬ hardware.memory.Unpersisted (base - 1) ∨
      ¬ hardware.memory.Unpersisted (base + size)) :
    Checking opts lineSize (check.handleClientRequest (.setClean base size)).2
      { hardware with memory := hardware.memory.release (PmemSt.range base size).Covers } := by
  have unsliced : Unsliced (PmemSt.range base size) check.pmemStores.toList := by
    rintro store member ⟨early, late⟩
    simp only [PmemSt.range_addr, PmemSt.range_size] at early late
    have pending (byte : Nat) (covered : store.Covers byte) : hardware.memory.Unpersisted byte :=
      (checking.mirrors.tracks byte).mp ⟨store, member, covered⟩
    rcases edge with zero | front | back
    · omega
    · exact front (pending (base - 1) ⟨by omega, by omega⟩)
    · exact back (pending (base + size) ⟨by omega, by omega⟩)
  exact checking.stores ⟨rfl, rfl, rfl⟩
    (checking.mirrors.release (removeRegion_cutOut proper checking.mirrors.ranges unsliced))

end Steps

/-! ## Writes -/

section Writes

variable {opts : Options} {lineSize : Nat} {check : Pmemcheck} {hardware : Hardware}

/-- A call that reports a piece. -/
theorem receive_call {call : StoreCall} (proper : call.piece.Proper) (threadId : Nat)
    (context : Option ExeContext) :
    check.receive (.helper threadId context call.helper) = check.serve
      (.access (.store threadId context (call.addr % 2 ^ 64) call.size (call.value % 2 ^ 64))) := by
  have small : call.size % 2 ^ 64 = call.size := by
    have bound := proper.nonWrapping
    simp only [PmemSt.NonWrapping, StoreCall.piece, PmemSt.range_addr, PmemSt.range_size] at bound
    exact Nat.mod_eq_of_lt (by omega)
  simp only [StoreCall.helper, receive, small]

/-- All pieces of a write to registered memory. -/
theorem receive_inside {calls : List StoreCall}
    (good : ∀ call ∈ calls, call.piece.Proper ∧
      ∀ byte, call.piece.Covers byte → hardware.Registered byte)
    (threadId : Nat) (contexts : Nat → Option ExeContext)
    (known : CheckingOrGone opts lineSize check hardware) :
    CheckingOrGone opts lineSize
      ((blockSignals threadId contexts (calls.map StoreCall.helper)).foldl receive check)
      { hardware with memory := storePieces calls hardware.memory } := by
  induction calls generalizing check hardware contexts with
  | nil => exact known
  | cons call rest inductionHypothesis =>
      obtain ⟨proper, registered⟩ := good call List.mem_cons_self
      have first : CheckingOrGone opts lineSize
          (check.receive (.helper threadId (contexts 0) call.helper))
          { hardware with memory := hardware.memory.store call.piece.Covers } := by
        rw [receive_call proper]
        apply known.serve
        intro checking
        apply checking.tracePmemStore threadId _ _ proper
        rw [isPmemAccess_iff checking proper]
        have start : call.piece.Covers (call.addr % 2 ^ 64) :=
          ⟨Nat.le_refl _, Nat.lt_add_of_pos_right proper.nonempty⟩
        exact ⟨_, start, registered _ start⟩
      rw [List.map_cons, blockSignals_cons]
      exact @inductionHypothesis _
        { hardware with memory := hardware.memory.store call.piece.Covers }
        (fun other member => good other (List.mem_cons_of_mem _ member)) _ first

/-- All pieces of a write outside of registered memory. -/
theorem receive_beside {calls : List StoreCall}
    (good : ∀ call ∈ calls, call.piece.Proper ∧
      ∀ byte, call.piece.Covers byte → ¬ hardware.Registered byte)
    (threadId : Nat) (contexts : Nat → Option ExeContext)
    (known : CheckingOrGone opts lineSize check hardware) :
    CheckingOrGone opts lineSize
      ((blockSignals threadId contexts (calls.map StoreCall.helper)).foldl receive check)
      hardware := by
  induction calls generalizing check contexts with
  | nil => exact known
  | cons call rest inductionHypothesis =>
      obtain ⟨proper, outside⟩ := good call List.mem_cons_self
      rw [List.map_cons, blockSignals_cons]
      apply inductionHypothesis (fun other member => good other (List.mem_cons_of_mem _ member))
      rw [receive_call proper]
      apply known.serve
      intro checking
      have ignored : check.isPmemAccess (call.addr % 2 ^ 64) call.size = false := by
        rw [← Bool.not_eq_true, isPmemAccess_iff checking proper]
        rintro ⟨byte, inside, registered⟩
        exact outside byte inside registered
      simp only [handleClientRequest, Pmemcheck.tracePmemStore, ignored, Bool.false_eq_true,
        if_false]
      exact checking

/-- A write that the checker follows. -/
theorem receive_write {calls : List StoreCall} {addr size : Nat}
    (partition : Partition 64 (calls.map StoreCall.range) [(addr, size)])
    (nonempty : ∀ call ∈ calls, 0 < call.size)
    (admitted : Admitted opts lineSize hardware (.effect (.wrote [(addr, size)])))
    (threadId : Nat) (contexts : Nat → Option ExeContext)
    (known : CheckingOrGone opts lineSize check hardware) :
    CheckingOrGone opts lineSize
      ((blockSignals threadId contexts (calls.map StoreCall.helper)).foldl receive check)
      { hardware with memory := hardware.memory.store (hardware.Writes [(addr, size)]) } := by
  obtain ⟨proper, sides⟩ := admitted
  have fits : addr + size < 2 ^ 64 := proper.nonWrapping
  have pieceProper (call : StoreCall) (member : call ∈ calls) : call.piece.Proper :=
    piece_proper partition fits nonempty member
  rcases sides with outside | inside
  · obtain ⟨nothing, unregistered⟩ := pieces_outside partition fits nonempty outside
    rw [nothing]
    apply receive_beside _ threadId contexts known
    intro call member
    exact ⟨pieceProper call member, unregistered call member⟩
  · obtain ⟨whole, registered⟩ := pieces_inside partition fits nonempty inside
    rw [whole]
    apply receive_inside _ threadId contexts known
    intro call member
    exact ⟨pieceProper call member, registered call member⟩

end Writes

/-! ## Whole programs -/

section Programs

variable {opts : Options} {isa : IsaOptions} {lineBits : Nat}

/-- A flush instruction. -/
theorem receive_flush {addr : Nat} {kind : IRFlushKind} {check : Pmemcheck} {hardware : Hardware}
    (admitted : Admitted opts (2 ^ lineBits) hardware (.effect (.flushed addr kind)))
      (threadId : Nat)
    (context : Option ExeContext) (known : CheckingOrGone opts (2 ^ lineBits) check hardware) :
    CheckingOrGone opts (2 ^ lineBits)
      (check.receive (.helper threadId context (.tracePmemFlush, [addr])))
      { hardware with
        memory := hardware.memory.flush
          (fun byte => byte / 2 ^ lineBits = addr / 2 ^ lineBits) } := by
  obtain ⟨aligned, fits⟩ := admitted
  have positive : 0 < 2 ^ lineBits := Nat.two_pow_pos lineBits
  have low : addr / 2 ^ lineBits * 2 ^ lineBits ≤ addr := Nat.div_mul_le_self _ _
  have word : addr % 2 ^ 64 = addr := Nat.mod_eq_of_lt (by omega)
  have info := flushInfo_line aligned fits
  have proper : (flushInfo opts (2 ^ lineBits) addr (2 ^ lineBits)).Proper := by
    rw [info]
    constructor
    · exact positive
    · simp only [PmemSt.NonWrapping, PmemSt.range_addr, PmemSt.range_size]
      omega
  have same : hardware.memory.flush (fun byte => byte / 2 ^ lineBits = addr / 2 ^ lineBits) =
      hardware.memory.flush (flushInfo opts (2 ^ lineBits) addr (2 ^ lineBits)).Covers := by
    apply flush_congr
    intro byte
    rw [info, line_covers positive]
  simp only [receive, word]
  apply known.serve
  intro checking
  rw [same, checking.align]
  exact checking.doFlush addr (2 ^ lineBits) context proper

/-- A fence. -/
theorem receive_fence {check : Pmemcheck} {hardware : Hardware} (threadId : Nat)
    (context : Option ExeContext) (known : CheckingOrGone opts (2 ^ lineBits) check hardware) :
    CheckingOrGone opts (2 ^ lineBits) (check.receive (.helper threadId context (.doFence, [])))
      { hardware with memory := hardware.memory.fence } :=
  known.serve (fun checking => checking.doFence)

/-- The effects of a block and the calls that relay them. -/
theorem receive_relayed (automatic : isa.automaticIsaRec = true) {seen : List Effect}
    {told : List HelperCall} (relayed : Relayed isa 64 seen told) (threadId : Nat)
    (contexts : Nat → Option ExeContext) {check : Pmemcheck} {hardware : Hardware}
    (admitted : Runs.AllSteps (Hardware.advance opts isa (2 ^ lineBits))
      (Admitted opts (2 ^ lineBits)) hardware (seen.map .effect))
    (known : CheckingOrGone opts (2 ^ lineBits) check hardware) :
    CheckingOrGone opts (2 ^ lineBits)
      ((blockSignals threadId contexts told).foldl receive check)
      ((seen.map .effect).foldl (Hardware.advance opts isa (2 ^ lineBits)) hardware) := by
  induction relayed generalizing contexts check hardware with
  | nil => exact known
  | entered _ inductionHypothesis =>
      rw [blockSignals_cons]
      apply inductionHypothesis _ admitted.2
      exact known.serve (fun checking => checking.same ⟨rfl, rfl, rfl⟩ rfl)
  | @wrote ranges calls rest told partition nonempty _ inductionHypothesis =>
      rw [blockSignals_append, List.foldl_append]
      obtain ⟨first, later⟩ := admitted
      match ranges, partition, first with
      | [(addr, size)], partition, first =>
          apply inductionHypothesis _ later
          exact receive_write partition nonempty first threadId contexts known
  | @flushed addr kind rest told _ inductionHypothesis =>
      obtain ⟨first, later⟩ := admitted
      by_cases strong : kind = .flush ∧ isa.weakClflush = false
      · have calls : flushCalls isa addr kind ++ told =
            (.tracePmemFlush, [addr]) :: (.doFence, []) :: told := by
          simp [flushCalls, automatic, strong]
        simp only [calls, blockSignals_cons]
        apply inductionHypothesis _ later
        simp only [Hardware.advance, Hardware.step, if_pos strong]
        exact receive_fence threadId _ (receive_flush first threadId _ known)
      · have calls : flushCalls isa addr kind ++ told = (.tracePmemFlush, [addr]) :: told := by
          simp [flushCalls, automatic, strong]
        simp only [calls, blockSignals_cons]
        apply inductionHypothesis _ later
        simp only [Hardware.advance, Hardware.step, if_neg strong]
        exact receive_flush first threadId _ known
  | @fenced event rest told _ inductionHypothesis =>
      obtain ⟨first, later⟩ := admitted
      by_cases orders : event = .fence ∨ event = .sFence
      · have calls : fenceCalls isa event ++ told = (.doFence, []) :: told := by
          simp [fenceCalls, automatic, orders]
        simp only [calls, blockSignals_cons]
        apply inductionHypothesis _ later
        simp only [Hardware.advance, Hardware.step, if_pos orders]
        exact receive_fence threadId _ known
      · have calls : fenceCalls isa event ++ told = told := by
          simp [fenceCalls, orders]
        rw [calls]
        apply inductionHypothesis _ later
        simp only [Hardware.advance, Hardware.step, if_neg orders]
        exact known

/-- A request that the program makes. -/
theorem receive_request {request : ClientRequest} {check : Pmemcheck} {hardware : Hardware}
    (admitted : Admitted opts (2 ^ lineBits) hardware (.request request))
    (known : CheckingOrGone opts (2 ^ lineBits) check hardware) :
    CheckingOrGone opts (2 ^ lineBits) (check.receive (.request request))
      (hardware.advance opts isa (2 ^ lineBits) (.request request)) := by
  apply known.serve
  intro checking
  cases request with
  | access request =>
      cases request with
      | store threadId context addr size value => exact admitted.elim
      | flush context base size => exact checking.doFlush base size context admitted
      | fence => exact checking.doFence
      | registerMapping base size => exact checking.registerMapping admitted
      | orderGuarantee addrA sizeA addrB sizeB => exact checking
      | fenceMark context => exact checking
      | epochBegin => exact checking
      | epochEnd threadId => exact checking
      | newStrand cacheLineSize slots => exact checking
  | removeMapping base size => exact checking.removeMapping admitted
  | setClean base size => exact checking.setClean admitted.1 admitted.2
  | enterBlock => exact checking.same ⟨rfl, rfl, rfl⟩ rfl
  | checkIsPmemMapping base size => exact checking
  | writeStats => exact checking
  | startTx threadId context txId => exact checking.same ⟨rfl, rfl, rfl⟩ rfl
  | endTx threadId context txId => exact checking.same ⟨rfl, rfl, rfl⟩ rfl
  | addToTx threadId context txId base size => exact checking.same ⟨rfl, rfl, rfl⟩ rfl
  | removeFromTx threadId txId base size => exact checking.same ⟨rfl, rfl, rfl⟩ rfl
  | addThreadToTx threadId txId => exact checking.same ⟨rfl, rfl, rfl⟩ rfl
  | removeThreadFromTx threadId txId => exact checking.same ⟨rfl, rfl, rfl⟩ rfl
  | addToGlobalTxIgnore base size => exact checking.same ⟨rfl, rfl, rfl⟩ rfl

/-- Everything that a program does, and everything that the checker is told. -/
theorem receive_relays (automatic : isa.automaticIsaRec = true) {seen : List Occurrence}
    {heard : List Signal} (relays : Relays isa 64 seen heard) {check : Pmemcheck}
    {hardware : Hardware}
    (admitted : Runs.AllSteps (Hardware.advance opts isa (2 ^ lineBits))
      (Admitted opts (2 ^ lineBits)) hardware seen)
    (known : CheckingOrGone opts (2 ^ lineBits) check hardware) :
    CheckingOrGone opts (2 ^ lineBits) (heard.foldl receive check)
      (seen.foldl (Hardware.advance opts isa (2 ^ lineBits)) hardware) := by
  induction relays generalizing check hardware with
  | nil => exact known
  | block threadId contexts relayed _ inductionHypothesis =>
      obtain ⟨first, later⟩ := Runs.allSteps_append.mp admitted
      rw [List.foldl_append, List.foldl_append]
      apply inductionHypothesis later
      exact receive_relayed automatic relayed threadId contexts first known
  | request request _ inductionHypothesis =>
      apply inductionHypothesis admitted.2
      exact receive_request admitted.1 known

/-- A new checker agrees with a processor that has done nothing. -/
theorem init_checking (opts : Options) (transactionsOnly : Bool) (lineSize : Nat) :
    Checking opts lineSize (init opts transactionsOnly lineSize) .initial where
  mirrors := by
    constructor
    · exact ranges_nil
    · intro byte state
      cases state <;> simp [init, MarksAs, Hardware.initial, Memory.clean, StoreState.status]
    · rfl
  regions := regionSet_nil
  registered := by simp [init, Hardware.initial, Hardware.Registered]
  noDuplicate := rfl
  opts := rfl
  align := rfl

/-- What the checker lists at exit is what the processor could still lose, in the state in which it
is, and no insertion met an element that was there. -/
structure ListsPending (check : Pmemcheck) (hardware : Hardware) : Prop where
  listed : ∀ byte, Tracks check.printStoreStats byte ↔ hardware.memory.Unpersisted byte
  states : ∀ byte state, MarksAs check.printStoreStats byte state ↔
    state ≠ .clean ∧ hardware.memory byte = state.status
  disjoint : Ranges check.printStoreStats
  asserted : check.pmemStores.duplicate = false ∧ check.pmemMappings.duplicate = false

/-- A checker that agrees with the processor lists what is pending there. -/
theorem Checking.listsPending {lineSize : Nat} {check : Pmemcheck} {hardware : Hardware}
    (checking : Checking opts lineSize check hardware) : ListsPending check hardware where
  listed := checking.mirrors.tracks
  states := checking.mirrors.marks
  disjoint := checking.mirrors.ranges
  asserted := ⟨checking.mirrors.noDuplicate, checking.noDuplicate⟩

end Programs

end Pmemcheck

open Pmemcheck

/-- A vector is written across two lines and the second one is flushed. Another thread fences. Half
of the rest is declared clean, and the memory is unregistered. -/
def crossingProgram : List Action :=
  [.request (.access (.registerMapping 4096 4096)),
    .block 2 (fun _ => none) (fun _ => 4152) vectorBlock,
    .block 1 (fun _ => none) (fun _ => 4224) persistBlock,
    .request (.setClean 4152 4), .request (.removeMapping 4096 2048)]

/-- What the two threads do. The second flushes what the first has stored. -/
def crossingSeen : List Occurrence :=
  [.request (.access (.registerMapping 4096 4096)), .effect .entered,
    .effect (.wrote [(4152, 16)]), .effect (.flushed 4167 .flushopt), .effect .entered,
    .effect (.wrote [(4224, 8)]), .effect (.flushed 4224 .clwb), .effect (.fenced .sFence),
    .request (.setClean 4152 4), .request (.removeMapping 4096 2048)]

/-- What the checker hears of it. Each helper call comes with the thread that runs. -/
def crossingHeard : List Signal :=
  [.request (.access (.registerMapping 4096 4096)), .helper 2 none (.addOneSBEntered, []),
    .helper 2 none (.tracePmemStore, [4152, 8, 4152]),
      .helper 2 none (.tracePmemStore, [4160, 8, 0]),
    .helper 2 none (.tracePmemFlush, [4167]), .helper 1 none (.addOneSBEntered, []),
    .helper 1 none (.tracePmemStore, [4224, 8, 7]), .helper 1 none (.tracePmemFlush, [4224]),
    .helper 1 none (.doFence, []), .request (.setClean 4152 4), .request (.removeMapping 4096 2048)]

end PmDebugger
