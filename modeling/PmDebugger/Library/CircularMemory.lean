import PmDebugger.Library.LittleEndian
import Mathlib.Data.Nat.ModEq

/-!
# Memory that wraps around

A memory of bytes whose addresses have a fixed number of bits. A write puts the lowest bytes of a
value behind an address, and goes on at the first byte of the memory when it reaches the end.
Writing a value piece by piece is the same as writing it at once.
-/

namespace CircularMemory

open LittleEndian

/-- How far a byte lies behind an address. Addresses wrap round, so that every byte lies behind
every address. -/
def distance (bits addr byte : Nat) : Nat := (byte + (2 ^ bits - addr % 2 ^ bits)) % 2 ^ bits

/-- Write as many bytes of a value. Bytes that lie further behind the address keep what they
hold. -/
def overwrite (bits addr size value : Nat) (memory : Nat → Nat) : Nat → Nat := fun byte =>
  if distance bits addr byte < size then byteAt value (distance bits addr byte) else memory byte

variable {bits addr byte : Nat}

/-- Distances stay within the address space. -/
theorem distance_lt : distance bits addr byte < 2 ^ bits :=
  Nat.mod_lt _ (Nat.two_pow_pos bits)

/-- Addresses count up to multiples of the memory. -/
theorem distance_mod : distance bits (addr % 2 ^ bits) byte = distance bits addr byte := by
  simp only [distance, Nat.mod_mod]

/-- From the address to the byte. -/
theorem distance_reaches : (addr + distance bits addr byte) % 2 ^ bits = byte % 2 ^ bits := by
  have below : addr % 2 ^ bits < 2 ^ bits := Nat.mod_lt _ (Nat.two_pow_pos bits)
  have around : addr % 2 ^ bits + (byte + (2 ^ bits - addr % 2 ^ bits)) = byte + 2 ^ bits := by
    omega
  rw [distance, Nat.add_mod_mod, ← Nat.mod_add_mod, around, Nat.add_mod_right]

/-- The distance is the only number of steps that leads to the byte. -/
theorem distance_unique {steps : Nat} (small : steps < 2 ^ bits)
    (reaches : (addr + steps) % 2 ^ bits = byte % 2 ^ bits) : steps = distance bits addr byte := by
  have congruent : steps ≡ distance bits addr byte [MOD 2 ^ bits] :=
    Nat.ModEq.add_left_cancel' addr (reaches.trans distance_reaches.symm)
  exact Nat.ModEq.eq_of_lt_of_lt congruent small distance_lt

/-- A byte behind a later address. -/
theorem distance_later {offset : Nat} (behind : offset ≤ distance bits addr byte) :
    distance bits (addr + offset) byte = distance bits addr byte - offset := by
  have below := @distance_lt bits addr byte
  symm
  apply distance_unique
  · omega
  · rw [Nat.add_assoc, Nat.add_sub_cancel' behind]
    exact distance_reaches

/-- A byte before a later address. -/
theorem distance_earlier {offset : Nat} (before : distance bits addr byte < offset)
    (fits : offset ≤ 2 ^ bits) :
    distance bits (addr + offset) byte = distance bits addr byte + 2 ^ bits - offset := by
  symm
  apply distance_unique
  · omega
  · have around : addr + offset + (distance bits addr byte + 2 ^ bits - offset) =
        addr + distance bits addr byte + 2 ^ bits := by omega
    rw [around, Nat.add_mod_right]
    exact distance_reaches

variable {size : Nat} {memory : Nat → Nat}

/-- An address is taken modulo the size of the address space. -/
theorem overwrite_mod (bits addr size value : Nat) :
    overwrite bits (addr % 2 ^ bits) size value = overwrite bits addr size value := by
  funext memory byte
  simp only [overwrite, distance_mod]

/-- Only the bytes that are written matter. -/
theorem overwrite_congr {value other : Nat}
    (same : ∀ position < size, byteAt value position = byteAt other position) :
    overwrite bits addr size value memory = overwrite bits addr size other memory := by
  funext byte
  simp only [overwrite]
  split
  · exact same _ ‹_›
  · rfl

/-- A part of a value holds the bytes of the value. -/
theorem overwrite_slice (value : Nat) :
    overwrite bits addr size (slice value 0 size) memory =
      overwrite bits addr size value memory := by
  apply overwrite_congr
  intro position inside
  rw [byteAt_slice inside, Nat.zero_add]

/-- Two pieces that follow each other. -/
theorem overwrite_append {front back value : Nat} (fits : front + back ≤ 2 ^ bits) :
    overwrite bits (addr + front) back (slice value front back)
        (overwrite bits addr front value memory) =
      overwrite bits addr (front + back) value memory := by
  funext byte
  have below := @distance_lt bits addr byte
  simp only [overwrite]
  by_cases early : distance bits addr byte < front
  · rw [distance_earlier early (by omega), if_neg (by omega), if_pos early, if_pos (by omega)]
  · rw [distance_later (by omega), if_neg early]
    by_cases inside : distance bits addr byte < front + back
    · rw [if_pos (by omega), if_pos inside, byteAt_slice (by omega)]
      congr 1
      omega
    · rw [if_neg (by omega), if_neg inside]

/-- Pieces of one size that follow each other. -/
theorem overwrite_pieces {piece value : Nat} (count : Nat) (fits : piece * count ≤ 2 ^ bits) :
    (List.range count).foldl (fun memory index => overwrite bits (addr + piece * index) piece
        (slice value (piece * index) piece) memory) memory =
      overwrite bits addr (piece * count) value memory := by
  induction count with
  | zero =>
      funext byte
      simp [overwrite]
  | succ count inductionHypothesis =>
      have fewer : piece * count + piece ≤ 2 ^ bits := fits
      rw [List.range_succ, List.foldl_append, inductionHypothesis (by omega)]
      exact overwrite_append fewer

end CircularMemory
