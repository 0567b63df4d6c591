namespace Blocks

/-!
# Lists cut into blocks of one size

A list is cut into consecutive blocks of `size` items, the last of which may be
shorter.  Cutting and concatenating are inverse to each other.
-/

variable {α : Type} {size index count : Nat} {items rest : List α}
  {parts : List (List α)}

/-- The block at an index. -/
def block (size index : Nat) (items : List α) : List α :=
  (items.drop (index * size)).take size

/-- All parts have one size. -/
def Uniform (size : Nat) (parts : List (List α)) : Prop :=
  ∀ part ∈ parts, part.length = size

theorem length_block (size index : Nat) (items : List α) :
    (block size index items).length =
      min size (items.length - index * size) := by
  rw [block, List.length_take, List.length_drop]

/-- A block ends where the next one starts, or with the list. -/
theorem block_eq_part (size index : Nat) (items : List α) :
    block size index items =
      (items.drop (index * size)).take
        (min ((index + 1) * size) items.length - index * size) := by
  rw [block, List.take_eq_take_iff, List.length_drop, Nat.succ_mul]
  omega

theorem uniform_nil (size : Nat) : Uniform size ([] : List (List α)) := by
  intro part member
  cases member

theorem uniform_cons {part : List α} :
    Uniform size (part :: parts) ↔
      part.length = size ∧ Uniform size parts := by
  simp [Uniform]

theorem length_flatten (uniform : Uniform size parts) :
    parts.flatten.length = parts.length * size := by
  induction parts with
  | nil =>
      simp
  | cons part parts inductionHypothesis =>
      obtain ⟨exact, uniform⟩ := uniform_cons.mp uniform
      rw [List.flatten_cons, List.length_append, exact,
        inductionHypothesis uniform, List.length_cons, Nat.succ_mul,
        Nat.add_comm]

/-- Concatenating the first blocks gives the head of the list. -/
theorem flatten_blocks (size count : Nat) (items : List α) :
    ((List.range count).map fun index => block size index items).flatten =
      items.take (count * size) := by
  induction count with
  | zero =>
      simp
  | succ count inductionHypothesis =>
      rw [List.range_succ, List.map_append, List.flatten_append,
        inductionHypothesis, Nat.succ_mul, List.take_add]
      simp [block]

/-- Enough blocks make up the whole list. -/
theorem flatten_blocks_of_le (reaches : items.length ≤ count * size) :
    ((List.range count).map fun index => block size index items).flatten =
      items := by
  rw [flatten_blocks, List.take_of_length_le reaches]

/-- The blocks of a concatenation of full parts are the parts. -/
theorem block_flatten
    (uniform : Uniform size parts)
    (inside : index < parts.length)
    (rest : List α) :
    block size index (parts.flatten ++ rest) = parts[index] := by
  induction parts generalizing index with
  | nil =>
      cases inside
  | cons part parts inductionHypothesis =>
      obtain ⟨exact, uniform⟩ := uniform_cons.mp uniform
      cases index with
      | zero =>
          rw [block, Nat.zero_mul, List.drop_zero, List.flatten_cons,
            List.append_assoc, List.take_left' exact]
          rfl
      | succ index =>
          have inside' : index < parts.length := by
            rw [List.length_cons] at inside
            omega
          have later := inductionHypothesis uniform inside'
          rw [block] at later
          rw [block, Nat.succ_mul, Nat.add_comm, ← List.drop_drop,
            List.flatten_cons, List.append_assoc, List.drop_left' exact,
            later]
          rfl

/-- What follows the full parts is the last block. -/
theorem block_flatten_last
    (uniform : Uniform size parts)
    (short : rest.length ≤ size) :
    block size parts.length (parts.flatten ++ rest) = rest := by
  rw [block, List.drop_left' (length_flatten uniform),
    List.take_of_length_le short]

end Blocks
