import PmDebugger.CacheLines
import PmDebugger.ClientPrograms
import PmDebugger.FlushAlignment
import PmDebugger.MappingBounds
import PmDebugger.Strands

/-!
# Programs whose memory is tracked

The processor and the tool are set side by side while a program runs. The processor knows which
bytes of registered memory were written, which cache lines were flushed since, and when the flushes
were ordered by a fence. The tool knows what its helpers were told and what was requested of it. At
the end the bytes that the tool lists as not made persistent are those that the processor could
still lose.

The program may write where it likes, as long as no write crosses the edge of registered memory, or
a cache line in it. A flush instruction names any byte of its line: the helper passes the address on
with the size of a line, so unless the tool rounds it down, it must be the first byte. -/

namespace PmDebugger

open Vex OrderedSet OrderedSet.OSet PmemOps Persistency Alignment

/-! ## The processor -/

/-- The memory of the processor, and the ranges that the program registered. It sees all
writes, flushes and fences, and nothing of the tool. -/
structure Hardware where
  memory : Memory Nat
  regions : List (Nat × Nat)

namespace Hardware

/-- A processor that has done nothing: every byte is clean, and no range is registered. -/
def initial : Hardware := ⟨Memory.clean, []⟩

/-- The byte is in registered memory. -/
def Registered (hardware : Hardware) (byte : Nat) : Prop :=
  ∃ region ∈ hardware.regions, region.1 ≤ byte ∧ byte < region.1 + region.2

instance (hardware : Hardware) (byte : Nat) : Decidable (hardware.Registered byte) :=
  inferInstanceAs (Decidable (∃ region ∈ hardware.regions, _))

/-- The byte is in one of the ranges and registered. Writes to other memory are of no concern. -/
def Writes (hardware : Hardware) (ranges : List (Nat × Nat)) (byte : Nat) : Prop :=
  hardware.Registered byte ∧ ∃ range ∈ ranges, range.1 ≤ byte ∧ byte < range.1 + range.2

instance (hardware : Hardware) (ranges : List (Nat × Nat)) :
    DecidablePred (hardware.Writes ranges) := fun _ =>
  inferInstanceAs (Decidable (_ ∧ ∃ range ∈ ranges, _))

/-- What the processor makes of an occurrence. A flush instruction flushes the cache line of its
address, and is a fence as well when it is ordered like a store. Requests to flush name the bytes
that the program has flushed. -/
def step (opts : Options) (isa : IsaOptions) (lineSize : Nat) (hardware : Hardware) :
    Occurrence → Hardware
  | .effect (.wrote ranges) =>
      { hardware with memory := hardware.memory.store (hardware.Writes ranges) }
  | .effect (.flushed addr kind) =>
      let flushed := hardware.memory.flush (fun byte => byte / lineSize = addr / lineSize)
      { hardware with
        memory := if kind = .flush ∧ isa.weakClflush = false then flushed.fence else flushed }
  | .effect (.fenced event) =>
      if event = .fence ∨ event = .sFence then { hardware with memory := hardware.memory.fence }
      else hardware
  | .request (.access (.registerMapping base size)) =>
      { hardware with regions := (base, size) :: hardware.regions }
  | .request (.access (.flush _ base size)) =>
      { hardware with memory := hardware.memory.flush (flushInfo opts lineSize base size).Covers }
  | .request (.access .fence) => { hardware with memory := hardware.memory.fence }
  | _ => hardware

end Hardware

/-- An occurrence that the hardware can produce. A write is a nonempty range outside of registered
memory, or within it and within one cache line. A flush instruction has the address of a line,
unless the tool rounds addresses. -/
def Shaped (opts : Options) (lineSize : Nat) (hardware : Hardware) : Occurrence → Prop
  | .effect (.wrote [(addr, size)]) =>
      (PmemSt.range addr size).Proper ∧
        ((∀ offset < size, ¬ hardware.Registered (addr + offset)) ∨
          (∀ offset < size, hardware.Registered (addr + offset)) ∧
            InLine lineSize (PmemSt.range addr size))
  | .effect (.wrote _) => False
  | .effect (.flushed addr _) =>
      (opts.forceFlushAlign = true ∨ addr % lineSize = 0) ∧ addr + 2 * lineSize < 2 ^ 64
  | .effect .entered | .effect (.fenced _) | .request (.access .fence) => True
  | .request (.access (.registerMapping base size)) => (PmemSt.range base size).Inner
  | .request (.access (.flush _ base size)) =>
      (flushInfo opts lineSize base size).Proper ∧
        WholeLines lineSize (flushInfo opts lineSize base size)
  | .request _ => False

instance (opts : Options) (lineSize : Nat) (hardware : Hardware) :
    (occurrence : Occurrence) → Decidable (Shaped opts lineSize hardware occurrence)
  | .effect (.wrote [(_, _)]) => inferInstanceAs (Decidable (_ ∧ (_ ∨ _ ∧ _)))
  | .effect (.wrote []) | .effect (.wrote (_ :: _ :: _)) => .isFalse id
  | .effect (.flushed _ _) => inferInstanceAs (Decidable (_ ∧ _))
  | .effect .entered | .effect (.fenced _) | .request (.access .fence) => .isTrue trivial
  | .request (.access (.registerMapping base size)) =>
      inferInstanceAs (Decidable (PmemSt.range base size).Inner)
  | .request (.access (.flush _ _ _)) => inferInstanceAs (Decidable (_ ∧ _))
  | .request (.access (.store _ _ _ _ _)) | .request (.access (.orderGuarantee _ _ _ _))
  | .request (.access (.fenceMark _)) | .request (.access .epochBegin)
  | .request (.access (.epochEnd _)) | .request (.access (.newStrand _ _)) | .request .enterBlock
  | .request (.removeMapping _ _) | .request (.checkIsPmemMapping _ _) | .request .writeStats
  | .request (.setClean _ _) | .request (.startTx _ _ _) | .request (.endTx _ _ _)
  | .request (.addToTx _ _ _ _ _) | .request (.removeFromTx _ _ _ _)
  | .request (.addThreadToTx _ _) | .request (.removeThreadFromTx _ _)
  | .request (.addToGlobalTxIgnore _ _) => .isFalse id

/-! ## The tool -/

/-- A signal at the tool. The helpers take their arguments as words, and `trace_pmem_flush` flushes
as many bytes as a cache line has. -/
def Tool.receive (tool : Tool) : Signal → Tool
  | .helper threadId context (.tracePmemStore, [addr, size, value]) =>
      tool.serve (.access (.store threadId context (addr % 2 ^ 64) (size % 2 ^ 64)
        (value % 2 ^ 64)))
  | .helper _ context (.tracePmemFlush, [addr]) =>
      tool.serve (.access (.flush context (addr % 2 ^ 64) tool.pmem.flushAlignSize))
  | .helper _ _ (.doFence, []) => tool.serve (.access .fence)
  | .helper _ _ (.addOneSBEntered, []) => tool.serve .enterBlock
  | .helper _ _ _ => tool
  | .request request => tool.serve request

/-- The store array has room for the signal, before it is handled and after it. -/
def HasRoom (tool : Tool) (signal : Signal) : Prop := NotFull tool ∧ NotFull (tool.receive signal)

instance (tool : Tool) (signal : Signal) : Decidable (HasRoom tool signal) :=
  inferInstanceAs (Decidable (_ ∧ _))

/-- The tool agrees with the processor on every byte and on what is registered. The bounds of
the mappings enclose them, so no access is overlooked. -/
structure Tracking (opts : Options) (lineSize : Nat) (tool : Tool) (hardware : Hardware) :
    Prop where
  exact : LineExact opts lineSize lineSize tool hardware.memory
  maps : MapsExactly tool hardware.Registered
  bounded : MappingsBounded tool.pmem

/-- Or a full register has ended the process. From then on nothing is tracked. -/
def TrackingOrGone (opts : Options) (lineSize : Nat) (tool : Tool) (hardware : Hardware) : Prop :=
  tool.exited = true ∨ Tracking opts lineSize tool hardware

section Steps

variable {opts : Options} {lineSize : Nat} {tool : Tool} {hardware : Hardware}

/-- Two trackers with the same mappings and the same bounds. They answer alike whether an
access is one to persistent memory. -/
structure SameMappings (before after : PmemOps) : Prop where
  pmemMappings : after.pmemMappings = before.pmemMappings
  minAdd : after.minAddPmemMappings = before.minAddPmemMappings
  maxAdd : after.maxAddPmemMappings = before.maxAddPmemMappings

/-- Stores, flushes and fences leave the mappings as they are. -/
theorem step_sameMappings {request : PmemRequest} (well : WellFormed tool.pmem)
    (admissible : Admissible tool request)
    (other : ∀ base size, request ≠ .registerMapping base size) :
    SameMappings tool.pmem (tool.step request).pmem := by
  rcases step_pmem admissible with ⟨_, context, addr, size, value, rfl, proper, stored⟩ |
    ⟨context, base, size, rfl, range, _⟩ | ⟨rfl, fenced⟩ | ⟨base, size, rfl, _⟩
  · have frame := (trackStore_exact addr size value context well.single admissible.1).1.frame
    rw [stored, frame]
    exact ⟨rfl, rfl, rfl⟩
  · rw [(flush_effect well range admissible.2.1).frame]
    exact ⟨rfl, rfl, rfl⟩
  · rw [fenced, (doFence_effect well).frame]
    exact ⟨rfl, rfl, rfl⟩
  · exact absurd rfl (other base size)

/-- The mappings are as before, and so are the bytes in them. -/
theorem SameMappings.maps {next : Tool} {registered : Nat → Prop}
    (same : SameMappings tool.pmem next.pmem) (maps : MapsExactly tool registered) :
    MapsExactly next registered := by
  constructor
  · rw [same.pmemMappings]
    exact maps.regions
  · rw [same.pmemMappings]
    exact maps.bytes
  · rw [same.pmemMappings]
    exact maps.noDuplicate

/-- The bounds of the mappings are as before. -/
theorem SameMappings.bounded {before after : PmemOps} (same : SameMappings before after)
    (bounded : MappingsBounded before) : MappingsBounded after := by
  unfold MappingsBounded
  rw [same.pmemMappings, same.minAdd, same.maxAdd]
  exact bounded

/-- A store within a line, a flush of whole lines or a fence. -/
theorem Tracking.step (tracking : Tracking opts lineSize tool hardware) (positive : 0 < lineSize)
    {request : PmemRequest} (admissible : Admissible tool request)
    (uses : UsesLines lineSize tool request)
    (other : ∀ base size, request ≠ .registerMapping base size) :
    Tracking opts lineSize (tool.step request)
      { hardware with memory := referenceStep opts lineSize hardware.memory request } := by
  have same := step_sameMappings tracking.exact.ready.wellFormed admissible other
  constructor
  · exact step_lineExact positive tracking.exact admissible uses
  · exact same.maps tracking.maps
  · exact same.bounded tracking.bounded

/-- A tool that tracks the same stores is as exact. -/
theorem LineExact.of_same {memory : Memory Nat} {next : Tool}
    (exact : LineExact opts lineSize lineSize tool memory) (same : SameTracking tool.pmem next.pmem)
    (align : next.pmem.flushAlignSize = tool.pmem.flushAlignSize) :
    LineExact opts lineSize lineSize next memory := by
  obtain ⟨ready, shaped, missed, invented⟩ := exact
  constructor
  · exact ⟨ready.wellFormed.of_same same, same.opts.trans ready.opts, align.trans ready.align⟩
  · constructor
    · exact same.boxed shaped.boxed
    · rw [Lined, same.live_eq]
      exact shaped.lined
  · exact missed.of_same same
  · exact invented.of_same same

/-- The entry into a block is counted, and nothing else. -/
theorem Tracking.enterBlock (tracking : Tracking opts lineSize tool hardware) :
    Tracking opts lineSize (tool.respond .enterBlock) hardware := by
  have same : SameTracking tool.pmem (tool.respond .enterBlock).pmem :=
    ⟨rfl, rfl, rfl, rfl, rfl, rfl, rfl, rfl⟩
  have mappings : SameMappings tool.pmem (tool.respond .enterBlock).pmem := ⟨rfl, rfl, rfl⟩
  constructor
  · exact tracking.exact.of_same same rfl
  · exact mappings.maps tracking.maps
  · exact mappings.bounded tracking.bounded

/-- A new mapping. -/
theorem Tracking.registerMapping (tracking : Tracking opts lineSize tool hardware) {base size : Nat}
    (inner : (PmemSt.range base size).Inner) :
    Tracking opts lineSize (tool.registerMapping base size)
      { hardware with regions := (base, size) :: hardware.regions } := by
  have same : SameTracking tool.pmem (tool.registerMapping base size).pmem :=
    ⟨rfl, rfl, rfl, rfl, rfl, rfl, rfl, rfl⟩
  constructor
  · exact tracking.exact.of_same same rfl
  · have maps := @respond_mapsExactly tool hardware.Registered
      (.access (.registerMapping base size)) tracking.maps inner
    constructor
    · exact maps.regions
    · intro byte
      rw [show Tracks (tool.registerMapping base size).pmem.pmemMappings.toList byte ↔ _ from
        maps.bytes byte]
      simp [registeredStep, Hardware.Registered, PmemSt.Covers]
    · exact maps.noDuplicate
  · exact registerMapping_bounded tracking.maps.regions tracking.bounded inner

/-- A request that reaches the tool, or meets a process that is gone. -/
theorem TrackingOrGone.serve {request : ClientRequest} {next : Hardware}
    (known : TrackingOrGone opts lineSize tool hardware)
    (kept : tool.exited = false → Tracking opts lineSize tool hardware →
      Tracking opts lineSize (tool.respond request) next) :
    TrackingOrGone opts lineSize (tool.serve request) next := by
  unfold Tool.serve
  split
  · rename_i gone
    exact .inl gone
  · rename_i running
    rcases known with gone | tracking
    · exact absurd gone running
    · exact .inr (kept (by simpa using running) tracking)

end Steps

/-! ## Writes -/

/-- The piece of a write that a call names, at an address within 64 bits. -/
def StoreCall.piece (call : StoreCall) : PmemSt := PmemSt.range (call.addr % 2 ^ 64) call.size

section Pieces

variable {calls : List StoreCall} {addr size : Nat}
variable (partition : Partition 64 (calls.map StoreCall.range) [(addr, size)])
variable (fits : addr + size < 2 ^ 64)

include partition fits

/-- A byte is in one of the pieces iff it is in the whole, and there no address wraps. -/
theorem pieces_bytes (byte : Nat) :
    (∃ call ∈ calls, byte ∈ rangeBytes 64 call.range) ↔ addr ≤ byte ∧ byte < addr + size := by
  have bytes := partition.2 byte
  simp only [List.mem_map, List.mem_singleton, exists_eq_left, mem_rangeBytes,
    exists_exists_and_eq_and] at bytes
  rw [show (∃ call ∈ calls, byte ∈ rangeBytes 64 call.range) ↔ _ from by
    simpa only [mem_rangeBytes] using bytes]
  constructor
  · rintro ⟨offset, inside, rfl⟩
    rw [Nat.mod_eq_of_lt (by omega)]
    omega
  · rintro ⟨low, high⟩
    exact ⟨byte - addr, by omega, by rw [Nat.mod_eq_of_lt (by omega)]; omega⟩

/-- A nonempty piece lies within the whole. -/
theorem piece_within {call : StoreCall} (member : call ∈ calls) (positive : 0 < call.size) :
    addr ≤ call.addr % 2 ^ 64 ∧ call.addr % 2 ^ 64 + call.size ≤ addr + size := by
  have inside (offset : Nat) (less : offset < call.size) :
      addr ≤ (call.addr + offset) % 2 ^ 64 ∧ (call.addr + offset) % 2 ^ 64 < addr + size :=
    (pieces_bytes partition fits _).mp
      ⟨call, member, mem_rangeBytes.mpr ⟨offset, less, rfl⟩⟩
  have first := inside 0 positive
  have reach : ∀ offset < call.size, call.addr % 2 ^ 64 + offset < addr + size := by
    intro offset less
    induction offset with
    | zero => exact first.2
    | succ offset inductionHypothesis =>
        have before := inductionHypothesis (by omega)
        have here := (inside (offset + 1) less).2
        have same : (call.addr + (offset + 1)) % 2 ^ 64 = call.addr % 2 ^ 64 + (offset + 1) := by
          rw [← Nat.mod_add_mod, Nat.mod_eq_of_lt (by omega)]
        omega
  have last := reach (call.size - 1) (by omega)
  simp only [Nat.add_zero] at first
  omega

/-- The pieces have the bytes of the whole. -/
theorem pieces_cover (positive : ∀ call ∈ calls, 0 < call.size) (byte : Nat) :
    (∃ call ∈ calls, call.piece.Covers byte) ↔ addr ≤ byte ∧ byte < addr + size := by
  rw [← pieces_bytes partition fits byte]
  constructor
  · rintro ⟨call, member, low, high⟩
    have within := piece_within partition fits member (positive call member)
    simp only [StoreCall.piece, PmemSt.range_addr, PmemSt.range_size] at low high
    apply Exists.intro call
    apply And.intro member
    apply mem_rangeBytes.mpr
    apply Exists.intro (byte - call.addr % 2 ^ 64)
    constructor
    · show _ < call.size
      omega
    · show (call.addr + _) % 2 ^ 64 = byte
      rw [← Nat.mod_add_mod, Nat.mod_eq_of_lt (by omega)]
      omega
  · rintro ⟨call, member, inside⟩
    obtain ⟨offset, less, rfl⟩ := mem_rangeBytes.mp inside
    have within := piece_within partition fits member (positive call member)
    have bound : offset < call.size := less
    have same : (call.range.1 + offset) % 2 ^ 64 = call.addr % 2 ^ 64 + offset := by
      show (call.addr + offset) % 2 ^ 64 = _
      rw [← Nat.mod_add_mod, Nat.mod_eq_of_lt (by omega)]
    apply Exists.intro call
    apply And.intro member
    rw [same]
    simp only [StoreCall.piece, PmemSt.range_covers]
    omega

end Pieces

/-- Stores of the same bytes are the same. -/
theorem store_congr {left right : Nat → Prop} [DecidablePred left] [DecidablePred right]
    (same : ∀ byte, left byte ↔ right byte) (memory : Memory Nat) :
    memory.store left = memory.store right := by
  funext byte
  simp only [Memory.store, same]

/-- So are flushes of the same bytes. -/
theorem flush_congr {left right : Nat → Prop} [DecidablePred left] [DecidablePred right]
    (same : ∀ byte, left byte ↔ right byte) (memory : Memory Nat) :
    memory.flush left = memory.flush right := by
  funext byte
  simp only [Memory.flush, same]

/-- Pieces that are stored one after the other. Together they are the write that was taken
apart. -/
def storePieces (calls : List StoreCall) (memory : Memory Nat) : Memory Nat :=
  calls.foldl (fun memory call => memory.store call.piece.Covers) memory

/-- This is a store of all their bytes. -/
theorem storePieces_eq (calls : List StoreCall) (memory : Memory Nat) :
    storePieces calls memory = memory.store (fun byte =>
      ∃ call ∈ calls, call.piece.Covers byte) := by
  induction calls generalizing memory with
  | nil =>
      funext byte
      simp [storePieces, Memory.store]
  | cons call rest inductionHypothesis =>
      have next := inductionHypothesis (memory.store call.piece.Covers)
      funext byte
      simp only [storePieces, List.foldl_cons] at next ⊢
      rw [next]
      simp only [Memory.store, List.mem_cons, exists_eq_or_imp]
      by_cases here : call.piece.Covers byte
      · simp [here]
      · simp [here]

/-- The signals of two lists of calls, the second with the contexts that come after those of
the first. -/
theorem blockSignals_append (threadId : Nat) (contexts : Nat → Option ExeContext)
    (early late : List HelperCall) :
    blockSignals threadId contexts (early ++ late) = blockSignals threadId contexts early ++
      blockSignals threadId (fun index => contexts (index + early.length)) late := by
  simp [blockSignals, List.mapIdx_append]

section Pieces

variable {calls : List StoreCall} {addr size : Nat} {hardware : Hardware}
variable (partition : Partition 64 (calls.map StoreCall.range) [(addr, size)])
variable (fits : addr + size < 2 ^ 64) (positive : ∀ call ∈ calls, 0 < call.size)

include partition fits positive

/-- The pieces are nonempty and do not wrap. -/
theorem piece_proper {call : StoreCall} (member : call ∈ calls) : call.piece.Proper := by
  have within := piece_within partition fits member (positive call member)
  constructor
  · exact positive call member
  · simp only [PmemSt.NonWrapping, StoreCall.piece, PmemSt.range_addr, PmemSt.range_size]
    omega

/-- A write outside of registered memory is nothing to the processor. -/
theorem pieces_outside (outside : ∀ offset < size, ¬ hardware.Registered (addr + offset)) :
    hardware.memory.store (hardware.Writes [(addr, size)]) = hardware.memory ∧
      ∀ call ∈ calls, ∀ byte, call.piece.Covers byte → ¬ hardware.Registered byte := by
  have unregistered (byte : Nat) (low : addr ≤ byte) (high : byte < addr + size) :
      ¬ hardware.Registered byte := by
    have here := outside (byte - addr) (by omega)
    rwa [Nat.add_sub_cancel' low] at here
  constructor
  · funext byte
    have none : ¬ hardware.Writes [(addr, size)] byte := by
      rintro ⟨registered, _, member, low, high⟩
      cases List.mem_singleton.mp member
      exact unregistered byte low high registered
    simp [Memory.store, none]
  · intro call member byte here
    obtain ⟨low, high⟩ := (pieces_cover partition fits positive byte).mp ⟨call, member, here⟩
    exact unregistered byte low high

/-- A write within registered memory is the write of its pieces. -/
theorem pieces_inside (inside : ∀ offset < size, hardware.Registered (addr + offset)) :
    hardware.memory.store (hardware.Writes [(addr, size)]) = storePieces calls hardware.memory ∧
      ∀ call ∈ calls, ∀ byte, call.piece.Covers byte → hardware.Registered byte := by
  have cover := pieces_cover partition fits positive
  have registered (byte : Nat) (low : addr ≤ byte) (high : byte < addr + size) :
      hardware.Registered byte := by
    have here := inside (byte - addr) (by omega)
    rwa [Nat.add_sub_cancel' low] at here
  constructor
  · rw [storePieces_eq]
    apply store_congr
    intro byte
    rw [cover byte]
    simp only [Hardware.Writes, List.mem_singleton, exists_eq_left]
    exact ⟨And.right, fun bounds => ⟨registered byte bounds.1 bounds.2, bounds⟩⟩
  · intro call member byte here
    obtain ⟨low, high⟩ := (cover byte).mp ⟨call, member, here⟩
    exact registered byte low high

end Pieces

section Writes

variable {opts : Options} {lineSize : Nat} {tool : Tool} {hardware : Hardware}

/-- A piece within registered memory and within a line. -/
theorem receive_piece (positive : 0 < lineSize) {call : StoreCall} (proper : call.piece.Proper)
    (registered : ∀ byte, call.piece.Covers byte → hardware.Registered byte)
    (line : InLine lineSize call.piece) (threadId : Nat) (context : Option ExeContext)
    (room : HasRoom tool (.helper threadId context call.helper))
    (known : TrackingOrGone opts lineSize tool hardware) :
    TrackingOrGone opts lineSize (tool.receive (.helper threadId context call.helper))
      { hardware with memory := hardware.memory.store call.piece.Covers } := by
  have small : call.size % 2 ^ 64 = call.size := by
    have bound := proper.nonWrapping
    simp only [PmemSt.NonWrapping, StoreCall.piece, PmemSt.range_addr, PmemSt.range_size] at bound
    exact Nat.mod_eq_of_lt (by omega)
  have served : tool.receive (.helper threadId context call.helper) = tool.serve
      (.access (.store threadId context (call.addr % 2 ^ 64) call.size (call.value % 2 ^ 64))) := by
    simp only [StoreCall.helper, Tool.receive, small]
  obtain ⟨before, after⟩ := room
  rw [served] at after ⊢
  apply known.serve
  intro running tracking
  have traced : tool.pmem.isPmemAccess (call.addr % 2 ^ 64) call.size = true := by
    rw [isPmemAccess_iff tracking.maps.regions tracking.bounded proper]
    have first : call.piece.Covers (call.addr % 2 ^ 64) :=
      ⟨Nat.le_refl _, Nat.lt_add_of_pos_right proper.nonempty⟩
    exact ⟨_, first, (tracking.maps.bytes _).mpr (registered _ first)⟩
  simp only [Tool.serve, running, Bool.false_eq_true, if_false] at after
  exact tracking.step positive ⟨before, after, proper, traced⟩ line
    (fun _ _ clash => by cases clash)

/-- A piece outside of registered memory. -/
theorem receive_outside {call : StoreCall} (proper : call.piece.Proper)
    (outside : ∀ byte, call.piece.Covers byte → ¬ hardware.Registered byte) (threadId : Nat)
    (context : Option ExeContext) (known : TrackingOrGone opts lineSize tool hardware) :
    TrackingOrGone opts lineSize (tool.receive (.helper threadId context call.helper))
      hardware := by
  have small : call.size % 2 ^ 64 = call.size := by
    have bound := proper.nonWrapping
    simp only [PmemSt.NonWrapping, StoreCall.piece, PmemSt.range_addr, PmemSt.range_size] at bound
    exact Nat.mod_eq_of_lt (by omega)
  simp only [StoreCall.helper, Tool.receive, small]
  apply known.serve
  intro running tracking
  have ignored : tool.pmem.isPmemAccess (call.addr % 2 ^ 64) call.size = false := by
    rw [← Bool.not_eq_true, isPmemAccess_iff tracking.maps.regions tracking.bounded proper]
    rintro ⟨byte, inside, tracked⟩
    exact outside byte inside ((tracking.maps.bytes byte).mp tracked)
  have same : tool.respond (.access (.store threadId context (call.addr % 2 ^ 64) call.size
      (call.value % 2 ^ 64))) = tool := by
    simp only [Tool.respond, Tool.handleClientRequest, Tool.step, Tool.tracePmemStore, ignored,
      Bool.false_eq_true, if_false]
  rw [same]
  exact tracking

/-- All pieces of a write within registered memory and within a line. -/
theorem receive_pieces (positive : 0 < lineSize) {calls : List StoreCall}
    (good : ∀ call ∈ calls, call.piece.Proper ∧ InLine lineSize call.piece ∧
      ∀ byte, call.piece.Covers byte → hardware.Registered byte)
    (threadId : Nat) (contexts : Nat → Option ExeContext)
    (room : Runs.AllSteps Tool.receive HasRoom tool
      (blockSignals threadId contexts (calls.map StoreCall.helper)))
    (known : TrackingOrGone opts lineSize tool hardware) :
    TrackingOrGone opts lineSize
      ((blockSignals threadId contexts (calls.map StoreCall.helper)).foldl Tool.receive tool)
      { hardware with memory := storePieces calls hardware.memory } := by
  induction calls generalizing tool hardware contexts with
  | nil => exact known
  | cons call rest inductionHypothesis =>
      obtain ⟨proper, line, registered⟩ := good call List.mem_cons_self
      rw [List.map_cons, blockSignals_cons] at room ⊢
      have first := receive_piece positive proper registered line threadId (contexts 0) room.1 known
      have later := @inductionHypothesis _
        { hardware with memory := hardware.memory.store call.piece.Covers }
        (fun other member => good other (List.mem_cons_of_mem _ member)) _ room.2 first
      exact later

/-- All pieces of a write outside of registered memory. -/
theorem receive_allOutside {calls : List StoreCall}
    (good : ∀ call ∈ calls, call.piece.Proper ∧
      ∀ byte, call.piece.Covers byte → ¬ hardware.Registered byte)
    (threadId : Nat) (contexts : Nat → Option ExeContext)
    (known : TrackingOrGone opts lineSize tool hardware) :
    TrackingOrGone opts lineSize
      ((blockSignals threadId contexts (calls.map StoreCall.helper)).foldl Tool.receive tool)
      hardware := by
  induction calls generalizing tool contexts with
  | nil => exact known
  | cons call rest inductionHypothesis =>
      obtain ⟨proper, outside⟩ := good call List.mem_cons_self
      rw [List.map_cons, blockSignals_cons]
      exact inductionHypothesis (fun other member => good other (List.mem_cons_of_mem _ member)) _
        (receive_outside proper outside threadId (contexts 0) known)

/-- A write that the hardware can make. -/
theorem receive_write (positive : 0 < lineSize) {calls : List StoreCall} {addr size : Nat}
    (partition : Partition 64 (calls.map StoreCall.range) [(addr, size)])
    (nonempty : ∀ call ∈ calls, 0 < call.size)
    (shaped : Shaped opts lineSize hardware (.effect (.wrote [(addr, size)])))
    (threadId : Nat) (contexts : Nat → Option ExeContext)
    (room : Runs.AllSteps Tool.receive HasRoom tool
      (blockSignals threadId contexts (calls.map StoreCall.helper)))
    (known : TrackingOrGone opts lineSize tool hardware) :
    TrackingOrGone opts lineSize
      ((blockSignals threadId contexts (calls.map StoreCall.helper)).foldl Tool.receive tool)
      { hardware with memory := hardware.memory.store (hardware.Writes [(addr, size)]) } := by
  obtain ⟨proper, sides⟩ := shaped
  have fits : addr + size < 2 ^ 64 := proper.nonWrapping
  have pieceProper (call : StoreCall) (member : call ∈ calls) : call.piece.Proper :=
    piece_proper partition fits nonempty member
  rcases sides with outside | ⟨inside, line⟩
  · obtain ⟨nothing, unregistered⟩ := pieces_outside partition fits nonempty outside
    rw [nothing]
    apply receive_allOutside _ threadId contexts known
    intro call member
    exact ⟨pieceProper call member, unregistered call member⟩
  · obtain ⟨whole, registered⟩ := pieces_inside partition fits nonempty inside
    rw [whole]
    apply receive_pieces positive _ threadId contexts room known
    intro call member
    constructor
    · exact pieceProper call member
    · constructor
      · apply line.part (pieceProper call member)
        intro byte here
        exact (pieces_cover partition fits nonempty byte).mp ⟨call, member, here⟩
      · exact registered call member

end Writes

/-! ## Flushes and fences -/

section Flushes

variable {opts : Options} {isa : IsaOptions} {lineBits : Nat} {tool : Tool} {hardware : Hardware}

/-- The range that `do_flush` makes of the address of a flush instruction and the size of a line:
the line, if addresses are rounded or the address is that of the line. -/
theorem flushInfo_line {addr : Nat}
    (aligned : opts.forceFlushAlign = true ∨ addr % 2 ^ lineBits = 0)
    (fits : addr + 2 * 2 ^ lineBits < 2 ^ 64) :
    flushInfo opts (2 ^ lineBits) addr (2 ^ lineBits) =
      PmemSt.range (addr / 2 ^ lineBits * 2 ^ lineBits) (2 ^ lineBits) := by
  have positive : 0 < 2 ^ lineBits := Nat.two_pow_pos lineBits
  cases forced : opts.forceFlushAlign with
  | true =>
      have one : roundUp (2 ^ lineBits) (2 ^ lineBits) = 2 ^ lineBits := by
        unfold roundUp
        rw [lines_needed positive positive]
        rw [Nat.div_eq_of_lt (by omega), Nat.zero_add, Nat.one_mul]
      rw [flushInfo_aligned forced (by omega), one]
      rfl
  | false =>
      rw [forced] at aligned
      have whole : addr / 2 ^ lineBits * 2 ^ lineBits = addr :=
        Nat.div_mul_cancel (Nat.dvd_of_mod_eq_zero (aligned.resolve_left (by decide)))
      simp [flushInfo, forced, whole]

/-- The bytes of a line. -/
theorem line_covers {lineSize addr : Nat} (positive : 0 < lineSize) (byte : Nat) :
    (PmemSt.range (addr / lineSize * lineSize) lineSize).Covers byte ↔
      byte / lineSize = addr / lineSize := by
  rw [PmemSt.range_covers, Nat.div_eq_iff positive]
  omega

/-- A flush instruction. -/
theorem receive_flush {addr : Nat} {kind : IRFlushKind}
    (shaped : Shaped opts (2 ^ lineBits) hardware (.effect (.flushed addr kind))) (threadId : Nat)
    (context : Option ExeContext)
    (room : HasRoom tool (.helper threadId context (.tracePmemFlush, [addr])))
    (known : TrackingOrGone opts (2 ^ lineBits) tool hardware) :
    TrackingOrGone opts (2 ^ lineBits)
      (tool.receive (.helper threadId context (.tracePmemFlush, [addr])))
      { hardware with
        memory := hardware.memory.flush
          (fun byte => byte / 2 ^ lineBits = addr / 2 ^ lineBits) } := by
  obtain ⟨aligned, fits⟩ := shaped
  have positive : 0 < 2 ^ lineBits := Nat.two_pow_pos lineBits
  have low : addr / 2 ^ lineBits * 2 ^ lineBits ≤ addr := Nat.div_mul_le_self _ _
  have word : addr % 2 ^ 64 = addr := Nat.mod_eq_of_lt (by omega)
  have info := flushInfo_line aligned fits
  have proper : (flushInfo opts (2 ^ lineBits) addr (2 ^ lineBits)).Proper := by
    rw [info]
    constructor
    · exact positive
    · simp only [PmemSt.NonWrapping, PmemSt.range_addr, PmemSt.range_size]
      omega
  have lines : WholeLines (2 ^ lineBits) (flushInfo opts (2 ^ lineBits) addr (2 ^ lineBits)) := by
    rw [info]
    constructor
    · exact Nat.mul_mod_left _ _
    · constructor
      · exact Nat.mod_self _
      · simp only [PmemSt.range_addr, PmemSt.range_size]
        omega
  obtain ⟨before, after⟩ := room
  simp only [Tool.receive, word] at after ⊢
  apply known.serve
  intro running tracking
  have align := tracking.exact.ready.align
  have range := tracking.exact.ready.range_eq addr (2 ^ lineBits)
  rw [align] at after ⊢
  simp only [Tool.serve, running, Bool.false_eq_true, if_false] at after
  have stepped := tracking.step positive
    (show Admissible tool (.flush context addr (2 ^ lineBits)) from
      ⟨before, after, by rw [IsAccess, range]; exact proper⟩)
    (by rw [UsesLines, range]; exact lines) (fun _ _ clash => by cases clash)
  have same : hardware.memory.flush (fun byte => byte / 2 ^ lineBits = addr / 2 ^ lineBits) =
      referenceStep opts (2 ^ lineBits) hardware.memory (.flush context addr (2 ^ lineBits)) := by
    simp only [referenceStep]
    apply flush_congr
    intro byte
    rw [info, line_covers positive]
  rw [same]
  exact stepped

/-- A fence. -/
theorem receive_fence (threadId : Nat) (context : Option ExeContext)
    (room : HasRoom tool (.helper threadId context (.doFence, [])))
    (known : TrackingOrGone opts (2 ^ lineBits) tool hardware) :
    TrackingOrGone opts (2 ^ lineBits) (tool.receive (.helper threadId context (.doFence, [])))
      { hardware with memory := hardware.memory.fence } := by
  obtain ⟨before, after⟩ := room
  simp only [Tool.receive] at after ⊢
  apply known.serve
  intro running tracking
  simp only [Tool.serve, running, Bool.false_eq_true, if_false] at after
  exact tracking.step (Nat.two_pow_pos lineBits) ⟨before, after, trivial⟩ trivial
    (fun _ _ clash => by cases clash)

end Flushes

/-! ## Whole programs -/

section Programs

variable {opts : Options} {isa : IsaOptions} {lineBits : Nat}

/-- The effects of a block and the calls that relay them. -/
theorem receive_relayed (automatic : isa.automaticIsaRec = true) {seen : List Effect}
    {told : List HelperCall} (relayed : Relayed isa 64 seen told) (threadId : Nat)
    (contexts : Nat → Option ExeContext) {tool : Tool} {hardware : Hardware}
    (shaped : Runs.AllSteps (Hardware.step opts isa (2 ^ lineBits)) (Shaped opts (2 ^ lineBits))
      hardware (seen.map .effect))
    (room : Runs.AllSteps Tool.receive HasRoom tool (blockSignals threadId contexts told))
    (known : TrackingOrGone opts (2 ^ lineBits) tool hardware) :
    TrackingOrGone opts (2 ^ lineBits)
      ((blockSignals threadId contexts told).foldl Tool.receive tool)
      ((seen.map .effect).foldl (Hardware.step opts isa (2 ^ lineBits)) hardware) := by
  induction relayed generalizing contexts tool hardware with
  | nil => exact known
  | entered _ inductionHypothesis =>
      rw [blockSignals_cons] at room ⊢
      apply inductionHypothesis _ shaped.2 room.2
      exact known.serve (fun _ tracking => tracking.enterBlock)
  | @wrote ranges calls rest told partition nonempty _ inductionHypothesis =>
      rw [blockSignals_append] at room ⊢
      rw [List.foldl_append]
      obtain ⟨firstRoom, restRoom⟩ := Runs.allSteps_append.mp room
      obtain ⟨first, later⟩ := shaped
      match ranges, partition, first with
      | [(addr, size)], partition, first =>
          apply inductionHypothesis _ later restRoom
          exact receive_write (Nat.two_pow_pos lineBits) partition nonempty first threadId contexts
            firstRoom known
  | @flushed addr kind rest told _ inductionHypothesis =>
      obtain ⟨first, later⟩ := shaped
      by_cases strong : kind = .flush ∧ isa.weakClflush = false
      · have calls : flushCalls isa addr kind ++ told =
            (.tracePmemFlush, [addr]) :: (.doFence, []) :: told := by
          simp [flushCalls, automatic, strong]
        simp only [calls, blockSignals_cons, Runs.AllSteps] at room ⊢
        apply inductionHypothesis _ later room.2.2
        simp only [Hardware.step, if_pos strong]
        exact receive_fence threadId _ room.2.1 (receive_flush first threadId _ room.1 known)
      · have calls : flushCalls isa addr kind ++ told = (.tracePmemFlush, [addr]) :: told := by
          simp [flushCalls, automatic, strong]
        simp only [calls, blockSignals_cons, Runs.AllSteps] at room ⊢
        apply inductionHypothesis _ later room.2
        simp only [Hardware.step, if_neg strong]
        exact receive_flush first threadId _ room.1 known
  | @fenced event rest told _ inductionHypothesis =>
      obtain ⟨first, later⟩ := shaped
      by_cases orders : event = .fence ∨ event = .sFence
      · have calls : fenceCalls isa event ++ told = (.doFence, []) :: told := by
          simp [fenceCalls, automatic, orders]
        simp only [calls, blockSignals_cons, Runs.AllSteps] at room ⊢
        apply inductionHypothesis _ later room.2
        simp only [Hardware.step, if_pos orders]
        exact receive_fence threadId _ room.1 known
      · have calls : fenceCalls isa event ++ told = told := by
          simp [fenceCalls, orders]
        rw [calls] at room ⊢
        apply inductionHypothesis _ later room
        simp only [Hardware.step, if_neg orders]
        exact known

/-- A request that the program makes. -/
theorem receive_request {request : ClientRequest} {tool : Tool} {hardware : Hardware}
    (shaped : Shaped opts (2 ^ lineBits) hardware (.request request))
    (room : HasRoom tool (.request request))
    (known : TrackingOrGone opts (2 ^ lineBits) tool hardware) :
    TrackingOrGone opts (2 ^ lineBits) (tool.receive (.request request))
      (hardware.step opts isa (2 ^ lineBits) (.request request)) := by
  obtain ⟨before, after⟩ := room
  have positive : 0 < 2 ^ lineBits := Nat.two_pow_pos lineBits
  simp only [Tool.receive] at after ⊢
  apply known.serve
  intro running tracking
  simp only [Tool.serve, running, Bool.false_eq_true, if_false] at after
  match request, shaped, after with
  | .access (.registerMapping base size), inner, after => exact tracking.registerMapping inner
  | .access (.flush context base size), ⟨proper, lines⟩, after =>
      have range := tracking.exact.ready.range_eq base size
      exact tracking.step positive
        (show Admissible tool (.flush context base size) from
          ⟨before, after, by rw [IsAccess, range]; exact proper⟩)
        (by rw [UsesLines, range]; exact lines) (fun _ _ clash => by cases clash)
  | .access .fence, _, after =>
      exact tracking.step positive ⟨before, after, trivial⟩ trivial
        (fun _ _ clash => by cases clash)

/-- Everything that a program does, and everything that the tool is told. -/
theorem receive_relays (automatic : isa.automaticIsaRec = true) {seen : List Occurrence}
    {heard : List Signal} (relays : Relays isa 64 seen heard) {tool : Tool} {hardware : Hardware}
    (shaped : Runs.AllSteps (Hardware.step opts isa (2 ^ lineBits)) (Shaped opts (2 ^ lineBits))
      hardware seen)
    (room : Runs.AllSteps Tool.receive HasRoom tool heard)
    (known : TrackingOrGone opts (2 ^ lineBits) tool hardware) :
    TrackingOrGone opts (2 ^ lineBits) (heard.foldl Tool.receive tool)
      (seen.foldl (Hardware.step opts isa (2 ^ lineBits)) hardware) := by
  induction relays generalizing tool hardware with
  | nil => exact known
  | block threadId contexts relayed _ inductionHypothesis =>
      obtain ⟨firstShaped, restShaped⟩ := Runs.allSteps_append.mp shaped
      obtain ⟨firstRoom, restRoom⟩ := Runs.allSteps_append.mp room
      rw [List.foldl_append, List.foldl_append]
      apply inductionHypothesis restShaped restRoom
      exact receive_relayed automatic relayed threadId contexts firstShaped firstRoom known
  | request request _ inductionHypothesis =>
      apply inductionHypothesis shaped.2 room.2
      exact receive_request shaped.1 room.1 known

/-- Options under which the tool tracks as at the start and prints no contexts, so that no report
dies. -/
structure PlainReports (opts : Options) : Prop where
  tracking : DefaultTracking opts
  undetailed : opts.printBugDetail = false

/-- Without either option no contexts are printed. -/
theorem PlainReports.silent {opts : Options} (plain : PlainReports opts) :
    opts.printsContexts = false := by
  rw [Options.printsContexts, plain.tracking.plain, plain.undetailed]
  rfl

/-- The report of a tool that is there lists the bytes that its tracker knows as pending. -/
theorem Tracking.listed {opts : Options} {lineSize : Nat} {tool : Tool} {hardware : Hardware}
    (plain : PlainReports opts) (tracking : Tracking opts lineSize tool hardware)
    (alive : tool.exited = false) (byte : Nat) :
    Tracks tool.fini.2 byte ↔ hardware.memory.Unpersisted byte := by
  have silent : tool.pmem.opts.printsContexts = false := by
    rw [tracking.exact.ready.opts]
    exact plain.silent
  rw [fini_live_silent tracking.exact.ready.wellFormed alive silent]
  constructor
  · exact tracking.exact.invented.pending byte
  · exact tracking.exact.missed.pending byte

/-- A new tool agrees with a processor that has done nothing. -/
theorem initTool_tracking (defaults : DefaultTracking opts)
    (transactionsOnly redundantLogging : Bool) (lineSize : Nat) (slots : Nat → PmemSt) :
    Tracking opts lineSize (initTool opts transactionsOnly redundantLogging lineSize slots)
      .initial := by
  have complete := initTool_complete defaults transactionsOnly redundantLogging lineSize slots
  have faithful := initTool_faithful defaults transactionsOnly redundantLogging lineSize slots
  have empty : (initTool opts transactionsOnly redundantLogging lineSize slots).pmem.live = [] :=
    initPmem_live opts lineSize slots
  constructor
  · constructor
    · exact complete.ready
    · constructor
      · intro sIndex _ slot inside
        exact absurd inside.2 (Nat.not_lt.mpr (Nat.zero_le _))
      · rw [Lined, empty]
        simp
    · exact complete.missed
    · exact faithful.invented
  · constructor
    · exact regionSet_nil
    · intro byte
      simp [initTool, initPmem, Hardware.Registered, Hardware.initial]
    · rfl
  · intro mapping member
    simp [initTool, initPmem] at member

/-- What the tool lists at exit is what the processor could still lose. The tracker itself
agrees with the processor on every byte. -/
structure ListsUnpersisted (tool : Tool) (hardware : Hardware) : Prop where
  exact : Exact tool.pmem hardware.memory
  listed : ∀ byte, Tracks tool.fini.2 byte ↔ hardware.memory.Unpersisted byte

end Programs

/-- What the two threads do: the first stores, flushes and fences, and the second stores
sixteen bytes and flushes them. -/
def twoThreadsSeen : List Occurrence :=
  [.request (.access (.registerMapping 4096 4096)), .effect .entered,
    .effect (.wrote [(4096, 8)]), .effect (.flushed 4096 .clwb), .effect (.fenced .sFence),
    .effect .entered, .effect (.wrote [(4160, 16)]), .effect (.flushed 4175 .flushopt)]

/-- What the tool hears of it. The sixteen bytes come as two calls of eight. -/
def twoThreadsHeard : List Signal :=
  [.request (.access (.registerMapping 4096 4096)), .helper 1 none (.addOneSBEntered, []),
    .helper 1 none (.tracePmemStore, [4096, 8, 7]), .helper 1 none (.tracePmemFlush, [4096]),
    .helper 1 none (.doFence, []), .helper 2 none (.addOneSBEntered, []),
    .helper 2 none (.tracePmemStore, [4160, 8, 4160]),
    .helper 2 none (.tracePmemStore, [4168, 8, 0]), .helper 2 none (.tracePmemFlush, [4175])]

end PmDebugger
