import Mathlib.Algebra.Order.Ring.Nat
import Mathlib.Tactic.Common

/-!
# Unsigned 64-bit words as natural numbers

A word is a natural number below `2 ^ 64`; addition and subtraction of two words
wrap at most once. The two laws reduce them to ordinary arithmetic where nothing
wraps, which is the form in which every later range argument uses them.
-/

namespace Word64

/-- Wrapping addition of two words. The carry out of the word is lost. -/
def add (left right : Nat) : Nat :=
  if left + right < 2 ^ 64 then left + right else left + right - 2 ^ 64

/-- Wrapping subtraction of two words. A difference below zero comes out as a great word. -/
def sub (left right : Nat) : Nat :=
  if right ≤ left then left - right else left + 2 ^ 64 - right

/-- The word that a signed minus one converts to. It is the greatest word. -/
def minusOne : Nat := 2 ^ 64 - 1

/-- Addition without a carry out of the word. -/
theorem add_eq {left right : Nat} (fits : left + right < 2 ^ 64) :
    add left right = left + right :=
  if_pos fits

/-- Subtraction without a borrow. -/
theorem sub_eq {left right : Nat} (ordered : right ≤ left) : sub left right = left - right :=
  if_pos ordered

end Word64
