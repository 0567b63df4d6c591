import Mathlib.Data.List.Basic

namespace Runs

/-!
# Runs of calls on a machine

A machine answers each call with a value, a refusal, or not at all.  A run logs
the calls that were answered with a value, each with the state it found.  What
one call preserves of the log and the state, every run preserves.
-/

/-- The answer to a call. -/
inductive Answer (σ α : Type) where
  /-- The call returned a value and left this state, unless it used it up. -/
  | done (value : α) (next : Option σ)
  /-- The call was refused and left this state. -/
  | refused (next : σ)
  /-- The call did not come back. -/
  | stopped

variable {σ γ α : Type}

/-- One call that was answered with a value. -/
structure Entry (σ γ α : Type) where
  before : σ
  call : γ
  value : α

/-- Performs the calls in order, as long as there is a state to perform them
on. -/
def run (perform : γ → σ → Answer σ α) :
    List (Entry σ γ α) → Option σ → List γ → List (Entry σ γ α) × Option σ
  | log, none, _ =>
      (log, none)
  | log, some state, [] =>
      (log, some state)
  | log, some state, call :: calls =>
      match perform call state with
      | .done value next =>
          run perform (log ++ [⟨state, call, value⟩]) next calls
      | .refused next =>
          run perform log (some next) calls
      | .stopped =>
          (log, none)

/-- What a call with this answer preserves. -/
def Answer.Preserves (holds : List (Entry σ γ α) → Option σ → Prop)
    (log : List (Entry σ γ α)) (state : σ) (call : γ) : Answer σ α → Prop
  | .done value next => holds (log ++ [⟨state, call, value⟩]) next
  | .refused next => holds log (some next)
  | .stopped => holds log none

/-- What every call preserves holds after every run. -/
theorem run_preserves
    {perform : γ → σ → Answer σ α}
    {holds : List (Entry σ γ α) → Option σ → Prop}
    {log : List (Entry σ γ α)}
    {last : Option σ}
    (step : ∀ log state call, holds log (some state) →
      (perform call state).Preserves holds log state call)
    (initially : holds log last)
    (calls : List γ) :
    holds (run perform log last calls).1 (run perform log last calls).2 := by
  induction calls generalizing log last with
  | nil =>
      cases last with
      | none => exact initially
      | some state => exact initially
  | cons call calls inductionHypothesis =>
      cases last with
      | none => exact initially
      | some state =>
          have preserved := step log state call initially
          unfold run
          cases answer : perform call state with
          | done value next =>
              rw [answer] at preserved
              exact inductionHypothesis preserved
          | refused next =>
              rw [answer] at preserved
              exact inductionHypothesis preserved
          | stopped =>
              rw [answer] at preserved
              exact preserved

/-! ## Machines that always answer -/

/-- The answers of a machine to calls in order. -/
def answers (perform : γ → σ → α × σ) : σ → List γ → List α
  | _, [] =>
      []
  | state, call :: calls =>
      (perform call state).1 :: answers perform (perform call state).2 calls

/-- The state of a machine after calls in order. -/
def after (perform : γ → σ → α × σ) : σ → List γ → σ
  | state, [] =>
      state
  | state, call :: calls =>
      after perform (perform call state).2 calls

/-- States that answer every call alike, and stay so related, answer every
sequence of calls alike. -/
theorem answers_eq
    {perform : γ → σ → α × σ}
    {related : σ → σ → Prop}
    {first second : σ}
    (step : ∀ call first second, related first second →
      (perform call first).1 = (perform call second).1 ∧
        related (perform call first).2 (perform call second).2)
    (initially : related first second)
    (calls : List γ) :
    answers perform first calls = answers perform second calls := by
  induction calls generalizing first second with
  | nil =>
      rfl
  | cons call calls inductionHypothesis =>
      obtain ⟨same, next⟩ := step call first second initially
      rw [answers, answers, same, inductionHypothesis next]

end Runs
