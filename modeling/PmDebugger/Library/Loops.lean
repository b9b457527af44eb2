import Mathlib.Tactic.Common

/-!
# Loops that may not end

A loop of an imperative program, given by its turn: the next state, or nothing once the
loop is left. Run within a number of turns it gives the state in which it was left, or
nothing when the turns did not suffice, so that a loop that never ends has no result
whatever the number is. A rank that every turn lowers shows that it does end.
-/

namespace Loops

universe u
variable {σ : Type u} {turn : σ → Option σ}

/-- The state in which the loop is left, if it is left within that many turns. A loop is said
to end if it does so within some number of turns, and then it does within every greater number. -/
def within (turn : σ → Option σ) : Nat → σ → Option σ
  | 0, _ => none
  | fuel + 1, state =>
      match turn state with
      | none => some state
      | some next => within turn fuel next

/-- A loop that was left is not affected by further turns. -/
theorem within_mono {few many : Nat} (more : few ≤ many) {state result : σ}
    (left : within turn few state = some result) : within turn many state = some result := by
  induction few generalizing many state with
  | zero => cases left
  | succ few inductionHypothesis =>
    cases many with
    | zero => omega
    | succ many =>
      simp only [within] at left ⊢
      cases next : turn state with
      | none => rwa [next] at left
      | some later =>
        rw [next] at left
        exact inductionHypothesis (by omega) left

/-- A loop that was left gives what the same loop with a bound on its turns gives. -/
theorem within_bounded (turn : σ → Option σ) (loop : Nat → σ → σ)
    (unfolds : ∀ fuel state, loop (fuel + 1) state = (turn state).elim state (loop fuel))
    {fuel : Nat} {state result : σ} (left : within turn fuel state = some result) :
    result = loop fuel state := by
  induction fuel generalizing state with
  | zero => cases left
  | succ fuel inductionHypothesis =>
    rw [unfolds]
    simp only [within] at left
    cases next : turn state with
    | none =>
      rw [next] at left
      cases left
      rfl
    | some later =>
      rw [next] at left
      exact inductionHypothesis left

/-- A loop whose turns lower a rank is left after as many turns as the rank allows, in a
state that still has a rank. -/
theorem within_ends (turn : σ → Option σ) (stands : Nat → σ → Prop)
    (lowers : ∀ rank state next, stands rank state → turn state = some next →
      ∃ lower < rank, stands lower next)
    {rank fuel : Nat} (state : σ) (start : stands rank state) (enough : rank < fuel) :
    ∃ result, within turn fuel state = some result ∧ turn result = none ∧
      ∃ last, stands last result := by
  induction fuel generalizing rank state with
  | zero => omega
  | succ fuel inductionHypothesis =>
    simp only [within]
    cases next : turn state with
    | none => exact ⟨state, rfl, next, rank, start⟩
    | some later =>
      obtain ⟨lower, less, stays⟩ := lowers rank state later start next
      exact inductionHypothesis later stays (by omega)

end Loops
