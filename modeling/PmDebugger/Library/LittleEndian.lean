import Mathlib.Data.Nat.Bitwise
import Mathlib.Tactic.Common

/-!
# Bytes of a little-endian value

A value of several bytes holds the byte at the lowest address in its lowest eight bits. A slice
takes the bytes of a part of the value. Shifting a value and cutting off its upper bits agree
only on values whose bits repeat.
-/

namespace LittleEndian

/-- The byte of a value at a position, counted from the lowest address. The lowest address has
the least significant byte. -/
def byteAt (value position : Nat) : Nat := value / 256 ^ position % 256

/-- The value of the bytes from an offset on. Bytes beyond the value are zero. -/
def slice (value offset size : Nat) : Nat := value / 256 ^ offset % 256 ^ size

/-- The value fits its width and every bit is the one a period below it. Such a value does not
change when it is shifted by the period and cut back to the width that is left. -/
def Repeats (period width value : Nat) : Prop :=
  value < 2 ^ width ∧
    ∀ position < width - period, value.testBit (position + period) = value.testBit position

instance (period width value : Nat) : Decidable (Repeats period width value) :=
  inferInstanceAs (Decidable (_ ∧ ∀ position < _, _))

/-- A slice of so many bytes fits into them. -/
theorem slice_lt (value offset size : Nat) : slice value offset size < 256 ^ size :=
  Nat.mod_lt _ (Nat.pow_pos (by decide))

/-- The bytes of a slice are those of the value behind the offset. -/
theorem byteAt_slice {value offset size position : Nat} (inside : position < size) :
    byteAt (slice value offset size) position = byteAt value (offset + position) := by
  have split : 256 ^ size = 256 ^ position * (256 * 256 ^ (size - position - 1)) := by
    rw [← Nat.pow_succ', ← Nat.pow_add]
    congr 1
    omega
  unfold byteAt slice
  rw [split, Nat.mod_mul_right_div_self, Nat.mod_mul_right_mod, Nat.div_div_eq_div_mul,
    ← Nat.pow_add]

/-- A value is determined by its bytes. -/
theorem eq_of_byteAt {size first second : Nat} (firstFits : first < 256 ^ size)
    (secondFits : second < 256 ^ size)
    (same : ∀ position < size, byteAt first position = byteAt second position) :
    first = second := by
  induction size generalizing first second with
  | zero => simp_all
  | succ size inductionHypothesis =>
    rw [Nat.pow_succ'] at firstFits secondFits
    have upper : first / 256 = second / 256 := by
      apply inductionHypothesis
      · exact Nat.div_lt_of_lt_mul firstFits
      · exact Nat.div_lt_of_lt_mul secondFits
      · intro position below
        have higher := same (position + 1) (by omega)
        simpa only [byteAt, Nat.pow_succ', Nat.div_div_eq_div_mul] using higher
    have lowest := same 0 (by omega)
    simp only [byteAt, Nat.pow_zero, Nat.div_one] at lowest
    omega

/-- A shift and a truncation give the same value exactly when the bits repeat. -/
theorem shiftRight_eq_mod_iff (period width value : Nat) :
    value >>> period = value % 2 ^ width ↔ Repeats period (width + period) value := by
  unfold Repeats
  rw [Nat.add_sub_cancel]
  constructor
  · intro same
    constructor
    · have below : value / 2 ^ period < 2 ^ width := by
        rw [← Nat.shiftRight_eq_div_pow, same]
        exact Nat.mod_lt _ (Nat.two_pow_pos width)
      rw [Nat.pow_add, Nat.mul_comm]
      exact Nat.lt_mul_of_div_lt below (Nat.two_pow_pos period) |>.trans_eq (Nat.mul_comm _ _)
    · intro position inside
      have bits := congrArg (Nat.testBit · position) same
      simp only [Nat.testBit_shiftRight, Nat.testBit_mod_two_pow, inside, decide_true,
        Bool.true_and] at bits
      rw [Nat.add_comm, bits]
  · rintro ⟨fits, repeats⟩
    apply Nat.eq_of_testBit_eq
    intro position
    rw [Nat.testBit_shiftRight, Nat.testBit_mod_two_pow, Nat.add_comm]
    by_cases inside : position < width
    · rw [repeats position inside, decide_eq_true inside, Bool.true_and]
    · have absent : value.testBit (position + period) = false :=
        Nat.testBit_lt_two_pow (fits.trans_le (Nat.pow_le_pow_right (by decide) (by omega)))
      rw [absent, decide_eq_false inside, Bool.false_and]

end LittleEndian
