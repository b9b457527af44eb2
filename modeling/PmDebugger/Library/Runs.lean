import Mathlib.Data.List.Basic
import Mathlib.Tactic.Common

/-!
# Runs of a step function

A run folds a step function over a list of inputs. A condition on the steps is
judged in the state that each input meets. One rule carries an invariant along
such a run, and one carries a relation between two machines that consume the
same inputs. A machine that can stop ignores its inputs from then on; as long as
it has not stopped, its run is that of the machine that cannot.
-/

namespace Runs

universe u v w
variable {σ : Type u} {τ : Type v} {ι : Type w}

/-- Every input of the run meets the condition in the state it is applied to. The condition may
be about input and state. -/
def AllSteps (step : σ → ι → σ) (condition : σ → ι → Prop) : σ → List ι → Prop
  | _, [] => True
  | state, input :: rest =>
      condition state input ∧ AllSteps step condition (step state input) rest

/-- A condition on steps is decidable along a given run. -/
instance decidableAllSteps (step : σ → ι → σ) (condition : σ → ι → Prop)
    [∀ state input, Decidable (condition state input)] :
    (state : σ) → (inputs : List ι) → Decidable (AllSteps step condition state inputs)
  | _, [] => .isTrue trivial
  | state, input :: rest =>
      have := decidableAllSteps step condition (step state input) rest
      inferInstanceAs (Decidable (condition state input ∧
        AllSteps step condition (step state input) rest))

/-- A condition on the inputs alone holds along the run from any state. -/
theorem allSteps_of_forall {step : σ → ι → σ} {condition : ι → Prop} (state : σ)
    {inputs : List ι} (each : ∀ input ∈ inputs, condition input) :
    AllSteps step (fun _ => condition) state inputs := by
  induction inputs generalizing state with
  | nil => exact trivial
  | cons input rest inductionHypothesis =>
    exact ⟨each input List.mem_cons_self,
      inductionHypothesis _ (fun later member => each later (List.mem_cons_of_mem _ member))⟩

/-- A run is admitted iff its first part is and, from the state that it ends in, the
second. -/
theorem allSteps_append {step : σ → ι → σ} {condition : σ → ι → Prop} {state : σ}
    {made later : List ι} : AllSteps step condition state (made ++ later) ↔
      AllSteps step condition state made ∧
        AllSteps step condition (made.foldl step state) later := by
  induction made generalizing state with
  | nil => simp [AllSteps]
  | cons input rest inductionHypothesis =>
    exact (and_congr_right (fun _ => inductionHypothesis)).trans and_assoc.symm

/-- A run is admitted up to each of its points. -/
theorem allSteps_of_prefix {step : σ → ι → σ} {condition : σ → ι → Prop} {state : σ}
    {made inputs : List ι} (made_first : made <+: inputs)
    (admitted : AllSteps step condition state inputs) : AllSteps step condition state made := by
  obtain ⟨later, rfl⟩ := made_first
  exact (allSteps_append.mp admitted).1

/-- A property kept by every admitted step holds at the end of every admitted
run. -/
theorem invariant {step : σ → ι → σ} {condition : σ → ι → Prop} {holds : σ → Prop}
    (kept : ∀ state input, holds state → condition state input → holds (step state input))
    (state : σ) (inputs : List ι) (initial : holds state)
    (admitted : AllSteps step condition state inputs) : holds (inputs.foldl step state) := by
  induction inputs generalizing state with
  | nil => exact initial
  | cons input rest inductionHypothesis =>
    exact inductionHypothesis (step state input) (kept state input initial admitted.1) admitted.2

/-- A relation kept by every admitted step of two machines relates their final
states. The condition is judged in the first machine. -/
theorem simulation {step : σ → ι → σ} {other : τ → ι → τ} {condition : σ → ι → Prop}
    {related : σ → τ → Prop}
    (kept : ∀ state mirror input, related state mirror → condition state input →
      related (step state input) (other mirror input))
    (state : σ) (mirror : τ) (inputs : List ι) (initial : related state mirror)
    (admitted : AllSteps step condition state inputs) :
    related (inputs.foldl step state) (inputs.foldl other mirror) := by
  induction inputs generalizing state mirror with
  | nil => exact initial
  | cons input rest inductionHypothesis =>
    exact inductionHypothesis (step state input) (other mirror input)
      (kept state mirror input initial admitted.1) admitted.2

/-- A machine that stands still once it has stopped. It reads its inputs and ignores them. -/
def halting (stopped : σ → Bool) (step : σ → ι → σ) (state : σ) (input : ι) : σ :=
  if stopped state then state else step state input

section Halting

variable {stopped : σ → Bool} {step : σ → ι → σ} {state : σ}

/-- A machine that has stopped takes no more inputs, however many come. -/
theorem foldl_halting_stopped (gone : stopped state = true) (inputs : List ι) :
    inputs.foldl (halting stopped step) state = state := by
  induction inputs with
  | nil => rfl
  | cons input rest inductionHypothesis =>
    rw [List.foldl_cons, halting, if_pos gone, inductionHypothesis]

/-- A machine that runs at the end has run at every earlier point. -/
theorem running_before {made later : List ι}
    (running : stopped ((made ++ later).foldl (halting stopped step) state) = false) :
    stopped (made.foldl (halting stopped step) state) = false := by
  rw [List.foldl_append] at running
  cases gone : stopped (made.foldl (halting stopped step) state) with
  | false => rfl
  | true =>
    rw [foldl_halting_stopped gone, gone] at running
    cases running

/-- The run of a machine that does not stop on the way is the run of the steps alone, and the
conditions on its steps are met in the same states.

Proof: by induction on the inputs. The machine runs before the first of them, so that its step is
the plain one, and the rest of the run starts from the same state. -/
theorem halting_running (inputs : List ι)
    (running : stopped (inputs.foldl (halting stopped step) state) = false) :
    inputs.foldl (halting stopped step) state = inputs.foldl step state ∧
      ∀ condition : σ → ι → Prop, AllSteps (halting stopped step) condition state inputs ↔
        AllSteps step condition state inputs := by
  induction inputs generalizing state with
  | nil => exact ⟨rfl, fun _ => Iff.rfl⟩
  | cons input rest inductionHypothesis =>
    have started : stopped state = false :=
      @running_before _ _ stopped step state [] (input :: rest) running
    have first : halting stopped step state input = step state input := by
      rw [halting, started]
      rfl
    rw [List.foldl_cons, first] at running
    obtain ⟨sameRun, sameSteps⟩ := inductionHypothesis running
    constructor
    · rw [List.foldl_cons, List.foldl_cons, first, sameRun]
    · intro condition
      simp only [AllSteps, first, sameSteps]

end Halting

/-- Two machines that run side by side on the same inputs. Neither sees the other. -/
def both (step : σ → ι → σ) (other : τ → ι → τ) (pair : σ × τ) (input : ι) : σ × τ :=
  (step pair.1 input, other pair.2 input)

/-- Two machines on the same inputs. -/
theorem foldl_both (step : σ → ι → σ) (other : τ → ι → τ) (inputs : List ι) (pair : σ × τ) :
    inputs.foldl (both step other) pair = (inputs.foldl step pair.1,
      inputs.foldl other pair.2) := by
  induction inputs generalizing pair with
  | nil => rfl
  | cons input rest inductionHypothesis => exact inductionHypothesis _

/-- A condition on the first machine reads only the first component. -/
theorem allSteps_both {step : σ → ι → σ} {other : τ → ι → τ} {condition : σ → ι → Prop}
    (inputs : List ι) (pair : σ × τ) :
    AllSteps (both step other) (fun state => condition state.1) pair inputs ↔
      AllSteps step condition pair.1 inputs := by
  induction inputs generalizing pair with
  | nil => exact Iff.rfl
  | cons input rest inductionHypothesis =>
    exact and_congr_right (fun _ => inductionHypothesis (both step other pair input))

/-- The number of inputs of the run that meet the condition in the state they are
applied to. -/
def countSteps (step : σ → ι → σ) (condition : σ → ι → Prop)
    [∀ state input, Decidable (condition state input)] : σ → List ι → Nat
  | _, [] => 0
  | state, input :: rest =>
      (if condition state input then 1 else 0) + countSteps step condition (step state input) rest

/-- The steps of a run are those of its two parts. -/
theorem countSteps_append (step : σ → ι → σ) (condition : σ → ι → Prop)
    [∀ state input, Decidable (condition state input)] (state : σ) (made later : List ι) :
    countSteps step condition state (made ++ later) =
      countSteps step condition state made +
        countSteps step condition (made.foldl step state) later := by
  induction made generalizing state with
  | nil => simp [countSteps]
  | cons input rest inductionHypothesis =>
    simp only [List.cons_append, countSteps, List.foldl_cons, inductionHypothesis]
    omega

/-- A measure that grows by one at the counted steps and by nothing at the others has
grown by their number at the end of the run. -/
theorem measure_eq_countSteps {step : σ → ι → σ} {condition : σ → ι → Prop}
    [∀ state input, Decidable (condition state input)] (measure : σ → Nat)
    (grows : ∀ state input,
      measure (step state input) = measure state + if condition state input then 1 else 0)
    (state : σ) (inputs : List ι) :
    measure (inputs.foldl step state) = measure state + countSteps step condition state inputs := by
  induction inputs generalizing state with
  | nil => rfl
  | cons input rest inductionHypothesis =>
    rw [List.foldl_cons, inductionHypothesis, grows, countSteps]
    omega

/-- The property holds in every state reached, the first and the last included. States are
those after the prefixes of the run. -/
def Throughout (step : σ → ι → σ) (holds : σ → Prop) (state : σ) (inputs : List ι) : Prop :=
  ∀ made, made <+: inputs → holds (made.foldl step state)

/-- What holds throughout a run holds at the start and throughout the rest. -/
theorem throughout_cons {step : σ → ι → σ} {holds : σ → Prop} {state : σ} {input : ι}
    {rest : List ι} :
    Throughout step holds state (input :: rest) ↔
      holds state ∧ Throughout step holds (step state input) rest := by
  constructor
  · intro always
    refine ⟨always [] List.nil_prefix, fun made isPrefix => ?_⟩
    exact always (input :: made) (List.cons_prefix_cons.mpr ⟨rfl, isPrefix⟩)
  · rintro ⟨first, later⟩ made isPrefix
    cases made with
    | nil => exact first
    | cons head tail =>
      obtain ⟨rfl, tailPrefix⟩ := List.cons_prefix_cons.mp isPrefix
      exact later tail tailPrefix

/-- When each allowed step keeps the property exactly under a condition, the
property holds throughout a run exactly when all its steps meet the condition. -/
theorem throughout_iff_allSteps (step : σ → ι → σ) (allowed condition : σ → ι → Prop)
    (holds kept : σ → Prop)
    (keeps : ∀ state input, kept state → allowed state input → kept (step state input))
    (exact : ∀ state input, kept state → allowed state input → holds state →
      (holds (step state input) ↔ condition state input))
    (state : σ) (inputs : List ι) (initial : kept state) (start : holds state)
    (admitted : AllSteps step allowed state inputs) :
    Throughout step holds state inputs ↔ AllSteps step condition state inputs := by
  induction inputs generalizing state with
  | nil =>
    refine iff_of_true (fun made isPrefix => ?_) trivial
    rw [List.prefix_nil.mp isPrefix]
    exact start
  | cons input rest inductionHypothesis =>
    have stepExact := exact state input initial admitted.1 start
    rw [throughout_cons]
    constructor
    · rintro ⟨_, later⟩
      have next : holds (step state input) := later [] List.nil_prefix
      exact ⟨stepExact.mp next, (inductionHypothesis (step state input)
        (keeps state input initial admitted.1) next admitted.2).mp later⟩
    · rintro ⟨first, later⟩
      have next := stepExact.mpr first
      exact ⟨start, (inductionHypothesis (step state input)
        (keeps state input initial admitted.1) next admitted.2).mpr later⟩

end Runs
