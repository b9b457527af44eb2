import Mathlib.Data.Nat.Bitwise
import Mathlib.Tactic.Common

/-!
# Lines of memory

Memory is divided into lines of a fixed size, and an address belongs to the line that its
quotient by that size numbers. A range of addresses meets a block of consecutive lines.
Rounding the start of a range down and its length up gives a block of as many lines as the
length alone needs, which is one line short when the range crosses one boundary more than its
length does.
-/

namespace Alignment

/-- The start of the line of an address. The address need not be aligned to anything. -/
def roundDown (lineSize address : Nat) : Nat := address / lineSize * lineSize

/-- The least number of whole lines that is at least as long. A range of that length covers as
many lines only if it starts at one. -/
def roundUp (lineSize length : Nat) : Nat := (length + (lineSize - 1)) / lineSize * lineSize

/-- The address lies in a line that meets the range. A flush of the range is meant to reach all
such addresses. -/
def LineMeets (lineSize base size address : Nat) : Prop :=
  ∃ asked, base ≤ asked ∧ asked < base + size ∧ asked / lineSize = address / lineSize

/-- The start and the length of the range leave no carry in their last line. This is when
rounding start and length apart from each other loses nothing. -/
def FitsLines (lineSize base size : Nat) : Prop :=
  base % lineSize + (size - 1) % lineSize < lineSize

instance (lineSize base size : Nat) : Decidable (FitsLines lineSize base size) :=
  inferInstanceAs (Decidable (_ < _))

/-- The bits of a word that its mask keeps: the upper ones. -/
theorem testBit_mask {width bits : Nat} (fits : bits ≤ width) (position : Nat) :
    (2 ^ width - 2 ^ bits).testBit position =
      (decide (bits ≤ position) && decide (position < width)) := by
  have split : 2 ^ width - 2 ^ bits = 2 ^ bits * (2 ^ (width - bits) - 1) := by
    rw [Nat.mul_sub, ← Nat.pow_add, Nat.add_sub_cancel' fits, Nat.mul_one]
  rw [split, Nat.testBit_two_pow_mul, Nat.testBit_two_pow_sub_one]
  by_cases low : bits ≤ position
  · have same : position - bits < width - bits ↔ position < width := by omega
    simp only [low, same]
  · simp only [low, decide_false, Bool.false_and]

/-- Masking a word rounds it down. -/
theorem mask_eq {width bits word : Nat} (fits : bits ≤ width) (inWord : word < 2 ^ width) :
    word &&& (2 ^ width - 2 ^ bits) = roundDown (2 ^ bits) word := by
  apply Nat.eq_of_testBit_eq
  intro position
  rw [roundDown, Nat.mul_comm, Nat.testBit_and, testBit_mask fits, Nat.testBit_two_pow_mul,
    Nat.testBit_div_two_pow]
  by_cases low : bits ≤ position
  · rw [Nat.sub_add_cancel low]
    by_cases high : position < width
    · simp only [low, high, decide_true, Bool.and_true, Bool.true_and]
    · have absent : word.testBit position = false :=
        Nat.testBit_lt_two_pow (inWord.trans_le (Nat.pow_le_pow_right (by decide) (by omega)))
      simp only [absent, Bool.false_and, Bool.and_false]
  · simp only [low, decide_false, Bool.false_and, Bool.and_false]

section Range

variable {lineSize : Nat} {base size address : Nat}

/-- The lines that meet a range are numbered from that of its first address to that of its
last. -/
theorem lineMeets_iff (positive : 0 < lineSize) (nonempty : 0 < size) :
    LineMeets lineSize base size address ↔
      base / lineSize ≤ address / lineSize ∧
        address / lineSize ≤ (base + (size - 1)) / lineSize := by
  constructor
  · rintro ⟨asked, low, high, same⟩
    rw [← same]
    exact ⟨Nat.div_le_div_right low, Nat.div_le_div_right (by omega)⟩
  · rintro ⟨low, high⟩
    by_cases first : address / lineSize = base / lineSize
    · exact ⟨base, le_refl _, by omega, first.symm⟩
    · refine ⟨address / lineSize * lineSize, ?_, ?_, Nat.mul_div_cancel _ positive⟩
      · have later : base / lineSize < address / lineSize := by omega
        exact ((Nat.div_lt_iff_lt_mul positive).mp later).le
      · have bounded := (Nat.le_div_iff_mul_le positive).mp high
        omega

/-- A block of whole lines covers the addresses of these lines. -/
theorem block_covers_iff (positive : 0 < lineSize) (first count : Nat) :
    (first * lineSize ≤ address ∧ address < first * lineSize + count * lineSize) ↔
      first ≤ address / lineSize ∧ address / lineSize < first + count := by
  rw [← Nat.add_mul, ← Nat.le_div_iff_mul_le positive, ← Nat.div_lt_iff_lt_mul positive]

/-- A length of at least one address needs one line more than its predecessor fills. -/
theorem lines_needed (positive : 0 < lineSize) (nonempty : 0 < size) :
    (size + (lineSize - 1)) / lineSize = (size - 1) / lineSize + 1 := by
  have shifted : size + (lineSize - 1) = size - 1 + lineSize := by omega
  rw [shifted, Nat.add_div_right _ positive]

/-- Rounding the start down and the length up covers exactly the lines that the range meets
if and only if no carry is left. -/
theorem rounded_exact_iff (positive : 0 < lineSize) (nonempty : 0 < size) :
    (∀ address, (roundDown lineSize base ≤ address ∧
        address < roundDown lineSize base + roundUp lineSize size) ↔
      LineMeets lineSize base size address) ↔ FitsLines lineSize base size := by
  have last := Nat.add_div (a := base) (b := size - 1) positive
  simp only [roundDown, roundUp, block_covers_iff positive, lines_needed positive nonempty,
    lineMeets_iff positive nonempty]
  constructor
  · intro exact
    by_contra carries
    have carry : lineSize ≤ base % lineSize + (size - 1) % lineSize := Nat.not_lt.mp carries
    rw [if_pos carry] at last
    -- The line behind the block meets the range.
    have missed := exact ((base + (size - 1)) / lineSize * lineSize)
    rw [Nat.mul_div_cancel _ positive, last] at missed
    generalize base / lineSize = first at missed
    generalize (size - 1) / lineSize = whole at missed
    omega
  · intro fits address
    rw [if_neg (Nat.not_le.mpr fits)] at last
    rw [last]
    generalize base / lineSize = first
    generalize (size - 1) / lineSize = whole
    omega

/-- The addresses of a range lie in lines that meet it. -/
theorem lineMeets_of_mem (low : base ≤ address) (high : address < base + size) :
    LineMeets lineSize base size address :=
  ⟨address, low, high, rfl⟩

end Range

end Alignment
