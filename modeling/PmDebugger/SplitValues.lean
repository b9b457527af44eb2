import PmDebugger.Library.LittleEndian
import PmDebugger.DetailedReport

/-!
# The values of split stores

`split_stores` adjusts the value of what is left of the old store. It shifts the value of a
front part down by the number of bytes that were cut off, taken as a number of bits, and masks
the value of a back part to one bit more than its size, with a mask that is made in 32 bits.
Neither is the value of the bytes of the part, so that the comparison of values that
`--indiff` makes later goes wrong unless the bits of the old value repeat accordingly.
-/

namespace PmDebugger

open PmemOps LittleEndian

/-- The fragment holds the bytes that the old store wrote there, and a rewrite of the fragment
within the indifference window counts as one exactly when it writes the same bytes. -/
structure KeepsValue (old fragment : PmemSt) : Prop where
  bytes : fragment.value = slice old.value (fragment.addr - old.addr) fragment.size
  rewrites : ∀ (pmem : PmemOps) (store : PmemSt), store.addr = fragment.addr →
    store.size = fragment.size → store.value < 256 ^ store.size →
    Word64.sub store.blockNum fragment.blockNum < pmem.opts.storeSbIndiff →
    (pmem.isSameWrite store fragment = true ↔ ∀ position < store.size,
      byteAt store.value position = byteAt old.value (fragment.addr - old.addr + position))

/-- Holding the right bytes is enough for the comparison. -/
theorem keepsValue_iff (old fragment : PmemSt) :
    KeepsValue old fragment ↔
      fragment.value = slice old.value (fragment.addr - old.addr) fragment.size := by
  constructor
  · intro keeps
    exact keeps.bytes
  · intro bytes
    refine ⟨bytes, fun pmem store sameAddr sameSize fits recent => ?_⟩
    have compared : pmem.isSameWrite store fragment = true ↔ fragment.value = store.value := by
      simp only [isSameWrite, decide_eq_true_eq, recent, sameAddr, sameSize, true_and]
    rw [compared, bytes, sameSize]
    rw [sameSize] at fits
    constructor
    · intro same position inside
      rw [← same, byteAt_slice inside]
    · intro same
      apply eq_of_byteAt (slice_lt _ _ _) fits
      intro position inside
      rw [byteAt_slice inside, same position inside]

/-- The front part of the old store has the right value exactly when the bits of the value
repeat after as many bits as bytes were cut off. -/
theorem front_value_iff (value : Nat) {front cut : Nat} (small : cut ≤ 8) :
    shiftValue value cut = slice value 0 front ↔ Repeats cut (front * 8 + cut) value := by
  have power : 256 ^ front = 2 ^ (front * 8) := by rw [Nat.mul_comm, Nat.pow_mul]
  unfold shiftValue slice
  rw [Nat.mod_eq_of_lt (by omega), Nat.pow_zero, Nat.div_one, power]
  exact shiftRight_eq_mod_iff _ _ _

/-- The back part of the old store has the right value exactly when the bits below its mask
repeat at the start of the part and nothing lies above them. -/
theorem back_value_iff {value offset back : Nat} (fits : value < 256 ^ (offset + back)) :
    value &&& valueMask back = slice value offset back ↔
      Repeats (offset * 8) ((back * 8 + 1) % 32 + offset * 8) value := by
  have power : 256 ^ offset = 2 ^ (offset * 8) := by rw [Nat.mul_comm, Nat.pow_mul]
  have whole : slice value offset back = value >>> (offset * 8) := by
    unfold slice
    rw [Nat.shiftRight_eq_div_pow, ← power]
    apply Nat.mod_eq_of_lt
    apply Nat.div_lt_of_lt_mul
    rwa [← Nat.pow_add]
  unfold valueMask
  rw [Nat.and_two_pow_sub_one_eq_mod, whole, eq_comm]
  exact shiftRight_eq_mod_iff _ _ _

/-- The bits of the old value repeat as the parts around the new store need it: for a front
part after as many bits as bytes are cut off it, for a back part after as many bytes as lie
before it, up to the end of its mask. -/
def ValueRepeats (old new : PmemSt) : Prop :=
  (old.addr < new.addr →
    Repeats (old.addr + old.size - new.addr)
      ((new.addr - old.addr) * 8 + (old.addr + old.size - new.addr)) old.value) ∧
  (new.addr + new.size < old.addr + old.size →
    Repeats ((new.addr + new.size - old.addr) * 8)
      (((old.addr + old.size - (new.addr + new.size)) * 8 + 1) % 32 +
        (new.addr + new.size - old.addr) * 8) old.value)

instance (old new : PmemSt) : Decidable (ValueRepeats old new) :=
  inferInstanceAs (Decidable ((_ → _) ∧ (_ → _)))

section Split

variable {old new : PmemSt} (record : old.Proper) (proper : new.Proper)
  (meets : cmpPmemSt new old = .eq) (small : old.size ≤ 8)
  (fits : old.value < 256 ^ old.size)

include record proper meets small fits in
/-- `split_stores` keeps the values of all fragments exactly when the bits of the old value
repeat as they need it.

Proof: the front fragment is shifted by as many bits as there are bytes behind it, and the back
fragment is masked by a word whose width is taken modulo 32. Each of the two is compared bit by
bit with the slice of the old value that it stands for. The four cases are whether there is a
front and whether there is a back. -/
theorem splitStores_values_iff (dbIndex : Nat) :
    ∃ result, splitStores old new dbIndex = some result ∧
      ((∀ fragment ∈ result.kept.toList ++ result.after.toList, KeepsValue old fragment) ↔
        ValueRepeats old new) := by
  have overlap := (cmpPmemSt_eq_iff proper.nonWrapping record.nonWrapping).mp meets
  have newMax := proper.nonWrapping.maxAddr_eq
  have oldMax := record.nonWrapping.maxAddr_eq
  have front (before : old.addr < new.addr) :
      shiftValue old.value (old.addr + old.size - new.addr) =
          slice old.value (old.addr - old.addr) (new.addr - old.addr) ↔
        Repeats (old.addr + old.size - new.addr)
          ((new.addr - old.addr) * 8 + (old.addr + old.size - new.addr)) old.value := by
    rw [Nat.sub_self]
    exact front_value_iff _ (by omega)
  have back (behind : new.addr + new.size < old.addr + old.size) :
      old.value &&& valueMask (old.addr + old.size - (new.addr + new.size)) =
          slice old.value (new.addr + new.size - old.addr)
            (old.addr + old.size - (new.addr + new.size)) ↔
        Repeats ((new.addr + new.size - old.addr) * 8)
          (((old.addr + old.size - (new.addr + new.size)) * 8 + 1) % 32 +
            (new.addr + new.size - old.addr) * 8) old.value := by
    apply back_value_iff
    have together : new.addr + new.size - old.addr +
        (old.addr + old.size - (new.addr + new.size)) = old.size := by omega
    rwa [together]
  unfold splitStores ValueRepeats
  simp only [newMax, oldMax]
  by_cases inside : old.addr ≥ new.addr ∧ old.addr + old.size ≤ new.addr + new.size
  · rw [if_pos inside]
    refine ⟨_, rfl, ?_⟩
    have noFront : ¬ old.addr < new.addr := by omega
    have noBack : ¬ new.addr + new.size < old.addr + old.size := by omega
    simp [noFront, noBack]
  rw [if_neg inside]
  by_cases before : old.addr < new.addr
  · rw [if_pos before, Word64.sub_eq (by omega), Word64.sub_eq (by omega)]
    by_cases behind : new.addr + new.size < old.addr + old.size
    · rw [if_pos behind, Word64.sub_eq (by omega)]
      refine ⟨_, rfl, ?_⟩
      simp only [Option.toList_some, List.cons_append, List.nil_append, List.mem_cons,
        List.not_mem_nil, or_false, forall_eq_or_imp, forall_eq, keepsValue_iff, before, behind,
        forall_const, front before, back behind]
    · rw [if_neg behind]
      refine ⟨_, rfl, ?_⟩
      simp only [Option.toList_some, Option.toList_none, List.append_nil, List.mem_cons,
        List.not_mem_nil, or_false, forall_eq, keepsValue_iff, before, behind, forall_const,
        front before, IsEmpty.forall_iff, and_true]
  · have behind : new.addr + new.size < old.addr + old.size := by omega
    rw [if_neg before, if_pos behind, Word64.sub_eq (by omega)]
    refine ⟨_, rfl, ?_⟩
    simp only [Option.toList_some, Option.toList_none, List.append_nil, List.mem_cons,
      List.not_mem_nil, or_false, forall_eq, keepsValue_iff, before, behind, forall_const,
      back behind, IsEmpty.forall_iff, true_and]

end Split

/-- A value whose bits repeat every four bits keeps its lower half. -/
theorem splitStores_values_iff_repeating :
    let old := { PmemSt.range 100 8 with value := 0x555555555 }
    let new := PmemSt.range 104 4
    ValueRepeats old new ∧ ∃ result, splitStores old new 0 = some result ∧
      ∀ fragment ∈ result.kept.toList ++ result.after.toList, KeepsValue old fragment := by
  intro old new
  have repeating : ValueRepeats old new := by decide +kernel
  obtain ⟨result, split, kept⟩ := @splitStores_values_iff old new (by decide) (by decide)
    (by decide) (by decide) (by decide) 0
  exact ⟨repeating, result, split, kept.mpr repeating⟩

/-- The lower four of eight different bytes remain. Their value should be `0x04030201`; the
code leaves the upper sixty bits of the old value, and a rewrite of the same four bytes is not
recognised. -/
theorem splitStores_values_fail :
    let old := { PmemSt.range 100 8 with value := 0x0807060504030201 }
    let new := PmemSt.range 104 4
    let front := { PmemSt.range 100 4 with value := 0x0080706050403020 }
    let rewrite := { PmemSt.range 100 4 with value := 0x04030201 }
    let pmem := initPmem { defaultOptions (fun _ => false) with storeSbIndiff := 1 } 64
      (fun _ => PmemSt.zero)
    (splitStores old new 0).map SplitResult.kept = some (some front) ∧
      slice old.value (front.addr - old.addr) front.size = rewrite.value ∧
      ¬ KeepsValue old front ∧ pmem.isSameWrite rewrite front = false := by
  refine ⟨by decide +kernel, by decide +kernel, fun keeps => ?_, by decide +kernel⟩
  exact absurd keeps.bytes (by decide +kernel)

end PmDebugger
