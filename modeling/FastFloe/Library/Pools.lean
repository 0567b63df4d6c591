namespace Pools

/-!
# Pools of independent workers

Calls are sent to the workers of a pool in any order, each worker keeping a
state of its own.  What every call preserves of the state it finds holds of all
workers after every schedule, and whatever a call answers on such a state is
answered in every schedule.
-/

/-- One call, sent to one worker of a pool. -/
structure Sent (γ : Type) where
  worker : Nat
  call : γ

/-- A call that was performed, and its answer. -/
structure Answered (γ α : Type) where
  call : γ
  answer : α

variable {σ γ α : Type}

/-- Performs the calls in order, each on its worker.  A call to a worker that
does not exist is dropped. -/
def run (perform : γ → σ → α × σ) :
    List σ → List (Sent γ) → List (Answered γ α) × List σ
  | pool, [] =>
      ([], pool)
  | pool, sent :: later =>
      match pool[sent.worker]? with
      | none =>
          run perform pool later
      | some state =>
          let outcome := perform sent.call state
          let rest := run perform (pool.set sent.worker outcome.2) later
          (⟨sent.call, outcome.1⟩ :: rest.1, rest.2)

/-- What the calls keep of single states, every schedule keeps of the pool. -/
theorem run_invariant
    {perform : γ → σ → α × σ}
    {holds : σ → Prop}
    {admissible : γ → Prop}
    {meets : γ → α → Prop}
    {pool : List σ}
    {calls : List (Sent γ)}
    (step : ∀ call state, admissible call → holds state →
      meets call (perform call state).1 ∧ holds (perform call state).2)
    (initially : ∀ state ∈ pool, holds state)
    (allowed : ∀ sent ∈ calls, admissible sent.call) :
    (∀ entry ∈ (run perform pool calls).1, meets entry.call entry.answer) ∧
      ∀ state ∈ (run perform pool calls).2, holds state := by
  induction calls generalizing pool with
  | nil =>
      exact ⟨(fun entry member => by cases member), initially⟩
  | cons sent later inductionHypothesis =>
      have allowedLater : ∀ other ∈ later, admissible other.call :=
        fun other member => allowed other (List.mem_cons_of_mem _ member)
      unfold run
      cases found : pool[sent.worker]? with
      | none =>
          exact inductionHypothesis initially allowedLater
      | some state =>
          obtain ⟨answered, kept⟩ :=
            step sent.call state (allowed sent List.mem_cons_self)
              (initially state (List.mem_of_getElem? found))
          have next : ∀ other ∈
              pool.set sent.worker (perform sent.call state).2,
              holds other := by
            intro other member
            rcases List.mem_or_eq_of_mem_set member with old | new
            · exact initially other old
            · rw [new]
              exact kept
          obtain ⟨entries, states⟩ := inductionHypothesis next allowedLater
          refine ⟨fun entry member => ?_, states⟩
          rcases List.mem_cons.mp member with rfl | member
          · exact answered
          · exact entries entry member

end Pools
