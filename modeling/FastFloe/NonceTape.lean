import FastFloe.Sealing

namespace FastFloe

open Rust

/-!
# The nonce tape

A `NonceGenerator` draws random bytes in batches and hands out twelve of them
at a time.  Seen from its callers it reads one tape: the bytes that are left of
its batch, followed by the results of the generator's future fills.  While the
random generator does not fail, a draw takes the next twelve bytes of that tape
and nothing else.
-/

/-- The generator will not fail. -/
def ProviderRng.NeverFails (rng : ProviderRng) : Prop :=
  ∀ index, (rng index).succeeds = true

namespace NonceGenerator

/-- How many bytes of the batch have not been served. -/
def left (self : NonceGenerator) : Nat :=
  nonceBatchLength - self.next

/-- The random bytes that a generator has yet to serve. -/
def tape (self : NonceGenerator) (index : Nat) : UInt8 :=
  if index < self.left then
    self.bytes.val.getD (self.next + index) 0
  else
    (self.rng ((index - self.left) / nonceBatchLength)).bytes
      ((index - self.left) % nonceBatchLength)

/-- The nonce that the next bytes of the tape are. -/
def upcoming (self : NonceGenerator) : Octets aeadIvLength :=
  ⟨(List.range aeadIvLength).map self.tape, by simp⟩

/-- One nonce has been drawn: the tape has moved on by its bytes. -/
def DrewOne (before after : NonceGenerator) : Prop :=
  ∀ index, after.tape index = before.tape (index + aeadIvLength)

theorem tape_of_lt
    {nonces : NonceGenerator}
    {index : Nat}
    (inside : index < nonces.left) :
    nonces.tape index = nonces.bytes.val.getD (nonces.next + index) 0 := by
  rw [tape, if_pos inside]

theorem tape_of_le
    {nonces : NonceGenerator}
    {index : Nat}
    (outside : nonces.left ≤ index) :
    nonces.tape index =
      (nonces.rng ((index - nonces.left) / nonceBatchLength)).bytes
        ((index - nonces.left) % nonceBatchLength) := by
  rw [tape, if_neg (Nat.not_lt.mpr outside)]

/-- Serving one nonce moves the tape on by its bytes. -/
theorem drewOne_of_served
    {before after : NonceGenerator}
    (rng : after.rng = before.rng)
    (bytes : after.bytes = before.bytes)
    (position : after.next = before.next + aeadIvLength)
    (room : before.next + aeadIvLength ≤ nonceBatchLength) :
    before.DrewOne after := by
  have shorter : after.left + aeadIvLength = before.left := by
    simp only [left, position]
    omega
  intro index
  by_cases inside : index < after.left
  · rw [tape_of_lt inside, tape_of_lt (by omega), bytes, position,
      Nat.add_assoc, Nat.add_comm aeadIvLength]
  · have same :
        index - after.left = index + aeadIvLength - before.left := by
      omega
    rw [tape_of_le (by omega), tape_of_le (by omega), rng, same]

/-- Serving from a batch that is not used up hands out the next bytes of the
tape. -/
theorem serve_tape
    (nonces : NonceGenerator)
    {served : Nat}
    (more : served < nonceBatchSize)
    (position : nonces.next = aeadIvLength * served) :
    ∃ next,
      nonces.serve = (.ok nonces.upcoming, next) ∧
        next.rng = nonces.rng ∧ next.WellFormed ∧
        nonces.DrewOne next := by
  have total : nonces.bytes.val.length = nonceBatchLength :=
    nonces.bytes.property
  have room : nonces.next + aeadIvLength ≤ nonceBatchLength := by
    rw [position, ← Nat.mul_succ]
    exact Nat.mul_le_mul_left aeadIvLength more
  have sliced :
      (slice nonces.bytes.val nonces.next (nonces.next + aeadIvLength) :
          Result Bytes) = .ok nonces.upcoming.val := by
    rw [slice_eq (Nat.le_add_right _ _) (by rwa [total]),
      Nat.add_sub_cancel_left, Except.ok.injEq]
    refine List.ext_getElem (by
      simp only [List.length_take, List.length_drop, total,
        Octets.length_val]
      omega) ?_
    intro index inside inside'
    rw [Octets.length_val] at inside'
    have unserved : index < nonces.left := by
      rw [left]
      omega
    simp only [upcoming, List.getElem_take, List.getElem_drop,
      List.getElem_map, List.getElem_range, tape_of_lt unserved]
    rw [List.getD_eq_getElem?_getD, List.getElem?_eq_getElem (by
      rw [total]
      omega), Option.getD_some]
  refine ⟨{ nonces with next := nonces.next + aeadIvLength }, ?_, rfl, ?_,
    ?_⟩
  · simp only [serve, sliced, Octets.ofSlice?_eq_some.mpr rfl,
      Outcome.expect]
  · refine ⟨served + 1, more, ?_⟩
    simp only [position, Nat.mul_succ]
  · exact drewOne_of_served rfl rfl rfl room

/-- Filling the batch of a used up generator leaves the tape as it is. -/
theorem refill_tape
    {nonces : NonceGenerator}
    (healthy : nonces.rng.NeverFails)
    (used : nonces.next = nonceBatchLength) :
    ∃ refilled,
      nonces.refill = (.ok (), refilled) ∧
        refilled.rng.NeverFails ∧
        ∀ index,
          ({ refilled with next := 0 } : NonceGenerator).tape index =
            nonces.tape index := by
  have later (count : Nat) :
      nonces.refill.2.rng count = nonces.rng (count + 1) := by
    simp [refill, ProviderRng.fill, healthy 0]
  refine ⟨nonces.refill.2, ?_, ?_, ?_⟩
  · refine Prod.ext ?_ rfl
    simp [refill, ProviderRng.fill, healthy 0]
  · intro index
    rw [later]
    exact healthy (index + 1)
  · intro index
    have empty : nonces.left = 0 := by
      rw [left, used, Nat.sub_self]
    have full :
        ({ nonces.refill.2 with next := 0 } : NonceGenerator).left =
          nonceBatchLength :=
      rfl
    have bytes :
        nonces.refill.2.bytes.val =
          (List.range nonceBatchLength).map (nonces.rng 0).bytes := by
      simp [refill, ProviderRng.fill, healthy 0]
    rw [@tape_of_le nonces _ (by omega), empty, Nat.sub_zero]
    by_cases inside : index < nonceBatchLength
    · rw [tape_of_lt (by rwa [full]), Nat.div_eq_of_lt inside,
        Nat.mod_eq_of_lt inside, bytes, List.getD_eq_getElem?_getD,
        List.getElem?_map, Nat.zero_add,
        List.getElem?_range inside, Option.map_some, Option.getD_some]
    · have positive : 0 < nonceBatchLength := by decide
      have more : index = index - nonceBatchLength + nonceBatchLength := by
        omega
      rw [tape_of_le (by rw [full]; omega), full, later]
      conv_rhs => rw [more]
      rw [Nat.add_div_right _ positive, Nat.add_mod_right]

/-- While the random generator does not fail, a draw takes the next bytes of
the tape. -/
theorem draw_tape
    {nonces : NonceGenerator}
    (wellFormed : nonces.WellFormed)
    (healthy : nonces.rng.NeverFails) :
    ∃ next,
      nonces.draw = (.ok nonces.upcoming, next) ∧
        next.rng.NeverFails ∧ next.WellFormed ∧ nonces.DrewOne next := by
  obtain ⟨served, bound, position⟩ := wellFormed
  unfold draw
  by_cases used : nonces.next = nonceBatchLength
  · simp only [used, ↓reduceIte]
    obtain ⟨refilled, result, refilledHealthy, same⟩ :=
      refill_tape healthy used
    obtain ⟨next, drawn, kept, wellFormed, drew⟩ :=
      @serve_tape { refilled with next := 0 } 0 (by decide) rfl
    have first :
        ({ refilled with next := 0 } : NonceGenerator).upcoming =
          nonces.upcoming := by
      apply Subtype.ext
      simp only [upcoming, funext same]
    simp only [result]
    rw [first] at drawn
    refine ⟨next, drawn, ?_, wellFormed, ?_⟩
    · rw [kept]
      exact refilledHealthy
    · intro index
      rw [drew index, same]
  · have more : served < nonceBatchSize := by
      have different : served ≠ nonceBatchSize := by
        rintro rfl
        exact used position
      omega
    obtain ⟨next, drawn, kept, wellFormed, drew⟩ :=
      serve_tape nonces more position
    rw [if_neg used]
    exact ⟨next, drawn, by rw [kept]; exact healthy, wellFormed, drew⟩

end NonceGenerator

end FastFloe
