import FastFloe.Library.Blocks

namespace Staging

/-!
# Cutting a stream into blocks behind a staging area

Input arrives in offers of any sizes.  A staging area holds back up to one block
of it, so that the last block can be told from the others when the input ends; a
full block that finds the area empty passes it by.
-/

variable {α : Type} {size : Nat} {held input last : List α}
  {blocks : List (List α)}

/-- What one offer does: how many items are taken, which blocks are emitted, and
what is held back afterwards. -/
structure Outcome (α : Type) where
  count : Nat
  blocks : List (List α)
  held : List α

/-- One offer of input. -/
def offer (size : Nat) (held input : List α) : Outcome α :=
  if held = [] ∧ size ≤ input.length then
    ⟨size, [input.take size], []⟩
  else if held.length < size then
    ⟨min input.length (size - held.length), [],
      held ++ input.take (size - held.length)⟩
  else if size ≤ input.length then
    ⟨size, [held, input.take size], []⟩
  else
    ⟨input.length, [held], input⟩

/-- The blocks and what is held back are what was held and what was taken. -/
theorem offer_balance (size : Nat) (held input : List α) :
    (offer size held input).blocks.flatten ++ (offer size held input).held =
      held ++ input.take (offer size held input).count := by
  unfold offer
  split
  next direct =>
    simp [direct.1]
  split
  · have taken : input.take (min input.length (size - held.length)) =
        input.take (size - held.length) := by
      rw [List.take_eq_take_iff]
      omega
    simp [taken]
  split
  · simp
  · simp

/-- Something is taken of every offer, and at most a block. -/
theorem offer_count
    (positive : 0 < size)
    (bounded : held.length ≤ size)
    (some : input ≠ []) :
    0 < (offer size held input).count ∧
      (offer size held input).count ≤ size ∧
      (offer size held input).count ≤ input.length := by
  have nonempty := List.length_pos_iff.mpr some
  unfold offer
  split
  · simp only
    omega
  split
  · simp only
    omega
  split
  · simp only
    omega
  · simp only
    omega

/-- All emitted blocks are full. -/
theorem offer_uniform
    (bounded : held.length ≤ size) :
    Blocks.Uniform size (offer size held input).blocks := by
  unfold offer Blocks.Uniform
  split
  next direct =>
    simp only [List.mem_singleton, forall_eq, List.length_take]
    omega
  split
  · simp
  split
  next more =>
    simp only [List.mem_cons, List.not_mem_nil, or_false, forall_eq_or_imp,
      forall_eq, List.length_take]
    omega
  · simp only [List.mem_singleton, forall_eq]
    omega

/-- At most a block is held back. -/
theorem length_offer_held
    (bounded : held.length ≤ size) :
    (offer size held input).held.length ≤ size := by
  unfold offer
  split
  · exact Nat.zero_le _
  split
  · simp only [List.length_append, List.length_take]
    omega
  split
  · exact Nat.zero_le _
  · simp only
    omega

/-! ## Offering until everything is taken -/

/-- Offering what is left, again and again, until nothing is. -/
inductive Feeds (size : Nat) :
    List α → List α → List (List α) → List α → Prop where
  | done {held : List α} :
      Feeds size held [] [] held
  | more {held input last : List α} {rest : List (List α)}
      (some : input ≠ [])
      (later :
        Feeds size (offer size held input).held
          (input.drop (offer size held input).count) rest last) :
      Feeds size held input ((offer size held input).blocks ++ rest) last

/-- Nothing is lost, repeated or moved. -/
theorem Feeds.balance
    (feeds : Feeds size held input blocks last) :
    blocks.flatten ++ last = held ++ input := by
  induction feeds with
  | done =>
      simp
  | @more held input last rest _ _ inductionHypothesis =>
      rw [List.flatten_append, List.append_assoc, inductionHypothesis,
        ← List.append_assoc, offer_balance, List.append_assoc,
        List.take_append_drop]

/-- All emitted blocks are full, and at most one is held back. -/
theorem Feeds.uniform
    (feeds : Feeds size held input blocks last)
    (bounded : held.length ≤ size) :
    Blocks.Uniform size blocks ∧ last.length ≤ size := by
  induction feeds with
  | done =>
      exact ⟨Blocks.uniform_nil size, bounded⟩
  | more _ _ inductionHypothesis =>
      obtain ⟨later, short⟩ :=
        inductionHypothesis (length_offer_held bounded)
      refine ⟨?_, short⟩
      intro part member
      rcases List.mem_append.mp member with first | second
      · exact offer_uniform bounded part first
      · exact later part second

/-- Every input is taken in the end. -/
theorem exists_feeds
    (positive : 0 < size)
    (bounded : held.length ≤ size)
    (input : List α) :
    ∃ blocks last, Feeds size held input blocks last := by
  induction counted : input.length using Nat.strongRecOn
    generalizing held input with
  | _ length inductionHypothesis =>
      by_cases some : input = []
      · subst some
        exact ⟨[], held, .done⟩
      · obtain ⟨taken, _, within⟩ := offer_count positive bounded some
        obtain ⟨rest, last, later⟩ :=
          inductionHypothesis
            (input.drop (offer size held input).count).length (by
              rw [List.length_drop]
              omega)
            (length_offer_held bounded)
            (input.drop (offer size held input).count) rfl
        exact ⟨_, last, .more some later⟩

/-- An offer to an empty or a full area takes one block and empties it, or takes
everything and holds it back. -/
theorem offer_settled
    (positive : 0 < size)
    (settled : held = [] ∨ held.length = size) :
    (size ≤ input.length ∧ (offer size held input).count = size ∧
        (offer size held input).held = []) ∨
      (input.length < size ∧
        (offer size held input).count = input.length ∧
        (offer size held input).held = input) := by
  rcases settled with rfl | full
  · by_cases enough : size ≤ input.length
    · simp [offer, enough]
    · have whole : input.take size = input :=
        List.take_of_length_le (by omega)
      refine .inr ⟨by omega, ?_, ?_⟩
      · simp only [offer, enough, and_false, ↓reduceIte, List.length_nil,
          positive, Nat.sub_zero]
        omega
      · simp only [offer, enough, and_false, ↓reduceIte, List.length_nil,
          positive, Nat.sub_zero, List.nil_append, whole]
  · have some : held ≠ [] := List.ne_nil_of_length_pos (by omega)
    have filled : ¬ held.length < size := by omega
    by_cases enough : size ≤ input.length
    · simp [offer, some, filled, enough]
    · refine .inr ⟨by omega, ?_, ?_⟩
      · simp only [offer, some, filled, enough, false_and, ↓reduceIte]
      · simp only [offer, some, filled, enough, false_and, ↓reduceIte]

/-- From an empty or a full area on, nothing is held back in the end exactly
when the input is a number of whole blocks. -/
theorem Feeds.last_eq_nil_of_settled
    (feeds : Feeds size held input blocks last)
    (positive : 0 < size)
    (settled : held = [] ∨ held.length = size)
    (some : input ≠ []) :
    last = [] ↔ size ∣ input.length := by
  induction feeds with
  | done => exact (some rfl).elim
  | @more held input last rest _ later inductionHypothesis =>
      have nonempty := List.length_pos_iff.mpr some
      rcases @offer_settled α size held input positive settled with
        ⟨enough, count, emptied⟩ | ⟨short, count, kept⟩
      · rw [count] at later inductionHypothesis
        rw [emptied] at later inductionHypothesis
        by_cases spills : input.drop size = []
        · rw [spills] at later
          cases later with
          | done =>
              have exact := List.drop_eq_nil_iff.mp spills
              have same : input.length = size := by omega
              simp [same]
          | more impossible _ => exact (impossible rfl).elim
        · have whole : input.length = size + (input.drop size).length := by
            rw [List.length_drop]
            omega
          rw [inductionHypothesis (.inl rfl) spills, whole,
            Nat.dvd_add_right (Nat.dvd_refl size)]
      · rw [count, List.drop_length, kept] at later
        cases later with
        | done =>
            refine ⟨fun impossible => (some impossible).elim, fun divides => ?_⟩
            have large := Nat.le_of_dvd nonempty divides
            omega
        | more impossible _ => exact (impossible rfl).elim

/-- Nothing is held back in the end exactly when everything makes up a number of
whole blocks and the last input has at least one of them. -/
theorem Feeds.last_eq_nil_iff
    (feeds : Feeds size held input blocks last)
    (positive : 0 < size)
    (bounded : held.length ≤ size)
    (some : input ≠ []) :
    last = [] ↔
      size ≤ input.length ∧ size ∣ held.length + input.length := by
  have nonempty := List.length_pos_iff.mpr some
  by_cases settled : held = [] ∨ held.length = size
  · rw [feeds.last_eq_nil_of_settled positive settled some]
    have same : size ∣ held.length + input.length ↔ size ∣ input.length := by
      rcases settled with rfl | full
      · rw [List.length_nil, Nat.zero_add]
      · rw [full, Nat.dvd_add_right (Nat.dvd_refl size)]
    rw [same]
    exact ⟨fun divides => ⟨Nat.le_of_dvd nonempty divides, divides⟩,
      fun both => both.2⟩
  · -- The area is partly filled: the first offer tops it up.
    obtain ⟨started, partly⟩ := not_or.mp settled
    have short : held.length < size := by omega
    cases feeds with
    | done => exact (some rfl).elim
    | more _ later =>
        have count : (offer size held input).count =
            min input.length (size - held.length) := by
          simp only [offer, started, short, false_and, ↓reduceIte]
        have topped : (offer size held input).held =
            held ++ input.take (size - held.length) := by
          simp only [offer, started, short, false_and, ↓reduceIte]
        rw [count, topped] at later
        by_cases spills : input.length ≤ size - held.length
        · rw [Nat.min_eq_left spills, List.drop_length] at later
          cases later with
          | done =>
              refine ⟨fun nothing => ?_, fun both => ?_⟩
              · exact (started (List.append_eq_nil_iff.mp nothing).1).elim
              · have filled := List.length_pos_iff.mpr started
                omega
          | more impossible _ => exact (impossible rfl).elim
        · rw [Nat.min_eq_right (by omega)] at later
          have full : (held ++ input.take (size - held.length)).length =
              size := by
            rw [List.length_append, List.length_take]
            omega
          have left : input.drop (size - held.length) ≠ [] := by
            rw [ne_eq, List.drop_eq_nil_iff]
            exact spills
          have total : held.length + input.length =
              size + (input.drop (size - held.length)).length := by
            rw [List.length_drop]
            omega
          rw [later.last_eq_nil_of_settled positive (.inr full) left, total,
            Nat.dvd_add_right (Nat.dvd_refl size)]
          refine ⟨fun divides => ⟨?_, divides⟩, fun both => both.2⟩
          have large := Nat.le_of_dvd (List.length_pos_iff.mpr left) divides
          rw [List.length_drop] at large
          omega

/-! ## Several inputs in turn -/

/-- Feeding inputs one after the other. -/
inductive FeedsAll (size : Nat) :
    List α → List (List α) → List (List α) → List α → Prop where
  | nil {held : List α} :
      FeedsAll size held [] [] held
  | cons {held input middle last : List α}
      {inputs blocks rest : List (List α)}
      (first : Feeds size held input blocks middle)
      (later : FeedsAll size middle inputs rest last) :
      FeedsAll size held (input :: inputs) (blocks ++ rest) last

/-- The last of the inputs that is not empty. -/
def lastInput : List (List α) → List α
  | [] => []
  | input :: inputs =>
      if inputs.flatten = [] then input else lastInput inputs

section Several

variable {inputs : List (List α)}

theorem FeedsAll.balance
    (feeds : FeedsAll size held inputs blocks last) :
    blocks.flatten ++ last = held ++ inputs.flatten := by
  induction feeds with
  | nil =>
      simp
  | cons first _ inductionHypothesis =>
      rw [List.flatten_append, List.append_assoc, inductionHypothesis,
        ← List.append_assoc, first.balance, List.flatten_cons,
        List.append_assoc]

theorem FeedsAll.uniform
    (feeds : FeedsAll size held inputs blocks last)
    (bounded : held.length ≤ size) :
    Blocks.Uniform size blocks ∧ last.length ≤ size := by
  induction feeds with
  | nil =>
      exact ⟨Blocks.uniform_nil size, bounded⟩
  | cons first _ inductionHypothesis =>
      obtain ⟨full, short⟩ := first.uniform bounded
      obtain ⟨later, shortLast⟩ := inductionHypothesis short
      refine ⟨?_, shortLast⟩
      intro part member
      rcases List.mem_append.mp member with early | late
      · exact full part early
      · exact later part late

/-- All inputs are taken in the end. -/
theorem exists_feedsAll
    (positive : 0 < size)
    (bounded : held.length ≤ size)
    (inputs : List (List α)) :
    ∃ blocks last, FeedsAll size held inputs blocks last := by
  induction inputs generalizing held with
  | nil =>
      exact ⟨[], held, .nil⟩
  | cons input inputs inductionHypothesis =>
      obtain ⟨blocks, middle, first⟩ := exists_feeds positive bounded input
      obtain ⟨rest, last, later⟩ :=
        inductionHypothesis (first.uniform bounded).2
      exact ⟨_, last, .cons first later⟩

/-- Empty inputs do nothing. -/
theorem FeedsAll.of_flatten_eq_nil
    (feeds : FeedsAll size held inputs blocks last)
    (nothing : inputs.flatten = []) :
    blocks = [] ∧ last = held := by
  induction feeds with
  | nil =>
      exact ⟨rfl, rfl⟩
  | cons first _ inductionHypothesis =>
      rw [List.flatten_cons, List.append_eq_nil_iff] at nothing
      obtain ⟨rfl, rest⟩ := nothing
      obtain ⟨rfl, rfl⟩ := inductionHypothesis rest
      cases first with
      | done => exact ⟨rfl, rfl⟩
      | more impossible _ => exact (impossible rfl).elim

/-- Nothing is held back in the end exactly when everything makes up a number of
whole blocks and the last input that is not empty has at least one of them. -/
theorem FeedsAll.last_eq_nil_iff
    (feeds : FeedsAll size held inputs blocks last)
    (positive : 0 < size)
    (bounded : held.length ≤ size)
    (some : inputs.flatten ≠ []) :
    last = [] ↔
      size ≤ (lastInput inputs).length ∧
        size ∣ held.length + inputs.flatten.length := by
  induction feeds with
  | nil => exact (some rfl).elim
  | @cons held input middle last inputs blocks rest first later
      inductionHypothesis =>
      obtain ⟨full, short⟩ := first.uniform bounded
      unfold lastInput
      by_cases spills : inputs.flatten = []
      · obtain ⟨_, rfl⟩ := later.of_flatten_eq_nil spills
        rw [List.flatten_cons, spills, List.append_nil] at some ⊢
        rw [if_pos rfl, first.last_eq_nil_iff positive bounded some]
      · have balance := congrArg List.length first.balance
        rw [List.length_append, List.length_append,
          Blocks.length_flatten full] at balance
        have total : held.length + (input :: inputs).flatten.length =
            blocks.length * size +
              (middle.length + inputs.flatten.length) := by
          rw [List.flatten_cons, List.length_append]
          omega
        rw [if_neg spills, inductionHypothesis short spills, total,
          Nat.dvd_add_right (Nat.dvd_mul_left _ _)]

end Several

end Staging
