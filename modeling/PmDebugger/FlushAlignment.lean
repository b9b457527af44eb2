import PmDebugger.Library.Alignment
import PmDebugger.FlushBytes
import PmDebugger.Tool

/-!
# Flushes rounded to cache lines

With `--flush-align=yes`, `do_flush` rounds the base of a request down to a cache line and its
size up to a multiple of the line size, each on its own. Where the request starts in its first
line is then forgotten: a request that reaches into one line more than its size alone needs
loses its last line.
-/

namespace PmDebugger

open PmemOps Alignment

/-- The range of an aligned flush is the cache lines that meet the request. It contains the
request, so that a flush that makes no other mistake leaves no dirty byte in it. -/
structure CoversRequest (opts : Options) (flushAlignSize base size : Nat) : Prop where
  lines : ∀ byte, (flushInfo opts flushAlignSize base size).Covers byte ↔
    LineMeets flushAlignSize base size byte
  request : ∀ byte, base ≤ byte → byte < base + size →
    (flushInfo opts flushAlignSize base size).Covers byte
  flushed : ∀ pmem : PmemOps, Steady pmem → pmem.opts = opts →
    pmem.flushAlignSize = flushAlignSize →
    TagsCovered (flushInfo opts flushAlignSize base size) pmem →
    MissesNothing (flushInfo opts flushAlignSize base size) pmem →
    ∀ context strandId byte, base ≤ byte → byte < base + size →
      ¬ DirtyIn (pmem.doFlush base size context strandId).live byte

section Rounded

variable {opts : Options} {bits base size : Nat} (aligned : opts.forceFlushAlign = true)
  (nonempty : 1 ≤ size) (fits : base + size + 2 ^ bits < 2 ^ 64)

include aligned fits in
/-- The range of an aligned flush in terms of the two roundings. -/
theorem flushInfo_aligned : flushInfo opts (2 ^ bits) base size =
    PmemSt.range (roundDown (2 ^ bits) base) (roundUp (2 ^ bits) size) := by
  have positive : 0 < 2 ^ bits := Nat.two_pow_pos bits
  have narrow : bits ≤ 64 := by
    by_contra wide
    have := Nat.pow_le_pow_right (show 0 < 2 by decide) (show 64 ≤ bits by omega)
    omega
  unfold flushInfo
  rw [if_pos aligned, mask_eq narrow (by omega), Word64.add_eq (by omega)]
  rfl

include aligned nonempty fits in
/-- The rounded range names a byte and does not leave the word. -/
theorem flushInfo_aligned_proper : (flushInfo opts (2 ^ bits) base size).Proper := by
  have positive : 0 < 2 ^ bits := Nat.two_pow_pos bits
  have start : roundDown (2 ^ bits) base ≤ base := Nat.div_mul_le_self _ _
  have least : 0 < roundUp (2 ^ bits) size := by
    unfold roundUp
    rw [lines_needed positive nonempty]
    exact Nat.mul_pos (Nat.succ_pos _) positive
  have length : roundUp (2 ^ bits) size ≤ size + (2 ^ bits - 1) := Nat.div_mul_le_self _ _
  rw [flushInfo_aligned aligned fits]
  constructor
  · exact least
  · show _ + _ < _
    simp only [PmemSt.range_addr, PmemSt.range_size]
    omega

include aligned nonempty fits in
/-- An aligned flush covers what was asked if and only if the offset of the base in its line
and that of the last byte of the size leave no carry.

Proof: base and size are rounded apart from each other, the base down and the size up. That the
rounded range reaches the line of the last byte is a statement about two remainders. The lines
then cover the request, and the flush persists what it covers. -/
theorem aligned_flush_covers_iff :
    CoversRequest opts (2 ^ bits) base size ↔ FitsLines (2 ^ bits) base size := by
  have positive : 0 < 2 ^ bits := Nat.two_pow_pos bits
  have exact := @rounded_exact_iff (2 ^ bits) base size positive nonempty
  have proper := flushInfo_aligned_proper aligned nonempty fits
  have covers (byte : Nat) : (flushInfo opts (2 ^ bits) base size).Covers byte ↔
      roundDown (2 ^ bits) base ≤ byte ∧
        byte < roundDown (2 ^ bits) base + roundUp (2 ^ bits) size := by
    rw [flushInfo_aligned aligned fits]
    exact PmemSt.range_covers _ _ _
  simp only [← covers] at exact
  constructor
  · intro covered
    exact exact.mp covered.lines
  · intro fitting
    have lines := exact.mpr fitting
    have request (byte : Nat) (low : base ≤ byte) (high : byte < base + size) :
        (flushInfo opts (2 ^ bits) base size).Covers byte :=
      (lines byte).mpr (lineMeets_of_mem low high)
    refine ⟨lines, request, ?_⟩
    rintro pmem steady rfl align tags misses context strandId byte low high dirty
    rw [← align] at proper tags misses request
    have flushed := doFlush_flushedBytes steady context strandId proper
    exact ((flushed.dirty tags misses byte).mp dirty).2 (request byte low high)

end Rounded

/-- A request that ends within the lines its size needs. -/
theorem aligned_flush_covers_iff_fitting :
    let opts := { defaultOptions (fun _ => false) with forceFlushAlign := true }
    FitsLines (2 ^ 6) 70 100 ∧ CoversRequest opts (2 ^ 6) 70 100 := by
  have fitting : FitsLines (2 ^ 6) 70 100 := by decide
  exact ⟨fitting, (aligned_flush_covers_iff rfl (by decide) (by decide)).mpr fitting⟩

/-- Eight bytes across a line boundary: only the first line is flushed, and a store to the
second one stays dirty. -/
theorem aligned_flush_covers_fails :
    let opts := { defaultOptions (fun _ => false) with forceFlushAlign := true }
    let start := initTool opts false false 64 (fun _ => PmemSt.zero)
    let requests : List PmemRequest := [.registerMapping 32 1024, .store 1 none 64 4 0,
      .flush none 60 8]
    60 + 8 + 64 < 2 ^ 64 ∧ flushInfo opts 64 60 8 = PmemSt.range 0 64 ∧
      LineMeets 64 60 8 64 ∧ ¬ (flushInfo opts 64 60 8).Covers 64 ∧
      DirtyIn (requests.foldl Tool.step start).pmem.live 64 := by
  refine ⟨by decide, by decide +kernel, ⟨64, by decide⟩, by decide +kernel, by decide +kernel⟩

end PmDebugger
