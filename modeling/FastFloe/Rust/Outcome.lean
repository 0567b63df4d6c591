import Mathlib.Algebra.Order.Ring.Nat

namespace Rust

/-!
# Outcomes of Rust calls

A call either returns a value, returns an `Err`, panics, or never comes back.
`Outcome` keeps the four apart, so that "does not panic" and "terminates" are
statements about the modelled code.  The slice and integer operations below
panic exactly where the language does: an index out of range, an unchecked
subtraction below zero, an unchecked sum or product above the type's maximum.
-/

/-- Why a call did not return an `Ok` value. -/
inductive Stop (ε : Type) where
  | err (error : ε)
  | panic
  | diverge
  deriving Repr, DecidableEq

/-- The result of a call whose `Err` values have type `ε`. -/
abbrev Outcome (ε α : Type) := Except (Stop ε) α

namespace Outcome

variable {ε ε' α β : Type}

/-- The call came back, with a value or with an `Err`. -/
def Returns : Outcome ε α → Prop
  | .ok _ => True
  | .error (.err _) => True
  | .error .panic => False
  | .error .diverge => False

/-- `Result::map_err`. -/
def mapErr (change : ε → ε') : Outcome ε α → Outcome ε' α
  | .ok value => .ok value
  | .error (.err error) => .error (.err (change error))
  | .error .panic => .error .panic
  | .error .diverge => .error .diverge

/-- `Option::ok_or`. -/
def okOr (error : ε) : Option α → Outcome ε α
  | some value => .ok value
  | none => .error (.err error)

/-- `Option::expect`. -/
def expect : Option α → Outcome ε α
  | some value => .ok value
  | none => .error .panic

/-- `debug_assert!`. -/
def debugAssert (condition : Bool) : Outcome ε Unit :=
  if condition then .ok () else .error .panic

@[simp] theorem returns_ok (value : α) :
    Returns (.ok value : Outcome ε α) :=
  trivial

@[simp] theorem returns_err (error : ε) :
    Returns (.error (.err error) : Outcome ε α) :=
  trivial

@[simp] theorem not_returns_panic :
    ¬ Returns (.error .panic : Outcome ε α) :=
  id

@[simp] theorem not_returns_diverge :
    ¬ Returns (.error .diverge : Outcome ε α) :=
  id

/-- A call that comes back without a value comes back with an `Err`. -/
theorem Returns.exists_err
    {outcome : Outcome ε α}
    (returns : outcome.Returns)
    (notOk : ∀ value, outcome ≠ .ok value) :
    ∃ error, outcome = .error (.err error) := by
  match outcome, returns, notOk with
  | .ok value, _, notOk => exact (notOk value rfl).elim
  | .error (.err error), _, _ => exact ⟨error, rfl⟩

/-- A call that comes back stops with an `Err` only. -/
theorem Returns.stop_eq_err
    {stop : Stop ε}
    (returns : Returns (.error stop : Outcome ε α)) :
    ∃ error, stop = .err error := by
  cases stop with
  | err error => exact ⟨error, rfl⟩
  | panic => exact (not_returns_panic returns).elim
  | diverge => exact (not_returns_diverge returns).elim

/-- A stop that one call comes back with, another one may come back with. -/
theorem Returns.of_error
    {stop : Stop ε}
    (returns : Returns (.error stop : Outcome ε α)) :
    Returns (.error stop : Outcome ε β) := by
  obtain ⟨error, rfl⟩ := returns.stop_eq_err
  exact returns_err error

@[simp] theorem ok_bind (value : α) (next : α → Outcome ε β) :
    ((.ok value : Outcome ε α) >>= next) = next value :=
  rfl

@[simp] theorem error_bind (stop : Stop ε) (next : α → Outcome ε β) :
    ((.error stop : Outcome ε α) >>= next) = .error stop :=
  rfl

/-- A chained call succeeds exactly when both of its halves do. -/
theorem bind_eq_ok
    {first : Outcome ε α}
    {next : α → Outcome ε β}
    {value : β} :
    first >>= next = .ok value ↔
      ∃ middle, first = .ok middle ∧ next middle = .ok value := by
  cases first with
  | ok middle =>
      simp
  | error stop =>
      simp

/-- A chained call comes back when both of its halves do. -/
theorem Returns.bind
    {first : Outcome ε α}
    {next : α → Outcome ε β}
    (firstReturns : first.Returns)
    (nextReturns : ∀ middle, first = .ok middle → (next middle).Returns) :
    Returns (first >>= next) := by
  match first, firstReturns, nextReturns with
  | .ok middle, _, nextReturns => exact nextReturns middle rfl
  | .error (.err error), _, _ => trivial

@[simp] theorem mapErr_eq_ok
    {change : ε → ε'}
    {outcome : Outcome ε α}
    {value : α} :
    outcome.mapErr change = .ok value ↔ outcome = .ok value := by
  match outcome with
  | .ok _ => simp [mapErr]
  | .error (.err _) => simp [mapErr]
  | .error .panic => simp [mapErr]
  | .error .diverge => simp [mapErr]

@[simp] theorem returns_mapErr
    {change : ε → ε'}
    {outcome : Outcome ε α} :
    (outcome.mapErr change).Returns ↔ outcome.Returns := by
  match outcome with
  | .ok _ => simp [mapErr]
  | .error (.err _) => simp [mapErr]
  | .error .panic => simp [mapErr]
  | .error .diverge => simp [mapErr]

end Outcome

/-! ## Slices -/

section Slices

variable {ε α : Type}

/-- `items[start..stop]`. -/
def slice (items : List α) (start stop : Nat) : Outcome ε (List α) :=
  if start ≤ stop ∧ stop ≤ items.length then
    .ok ((items.drop start).take (stop - start))
  else
    .error .panic

/-- The contents of `items` after a mutable borrow of the part at `start` has
left `chunk` there. -/
def writeBack (items : List α) (start : Nat) (chunk : List α) : List α :=
  items.take start ++ chunk ++ items.drop (start + chunk.length)

/-- `items[start..stop].copy_from_slice(chunk)`. -/
def copyRange (items : List α) (start stop : Nat) (chunk : List α) :
    Outcome ε (List α) :=
  if start ≤ stop ∧ stop ≤ items.length ∧ chunk.length = stop - start then
    .ok (writeBack items start chunk)
  else
    .error .panic

/-- `items.split_at(middle)`. -/
def splitAt (items : List α) (middle : Nat) :
    Outcome ε (List α × List α) :=
  if middle ≤ items.length then
    .ok (items.take middle, items.drop middle)
  else
    .error .panic

theorem slice_eq
    {items : List α}
    {start stop : Nat}
    (ordered : start ≤ stop)
    (inside : stop ≤ items.length) :
    (slice items start stop : Outcome ε (List α)) =
      .ok ((items.drop start).take (stop - start)) := by
  simp [slice, ordered, inside]

theorem slice_zero
    {items : List α}
    {stop : Nat}
    (inside : stop ≤ items.length) :
    (slice items 0 stop : Outcome ε (List α)) = .ok (items.take stop) := by
  simp [slice, inside]

theorem copyRange_eq
    {items chunk : List α}
    {start stop : Nat}
    (ordered : start ≤ stop)
    (inside : stop ≤ items.length)
    (exact : chunk.length = stop - start) :
    (copyRange items start stop chunk : Outcome ε (List α)) =
      .ok (writeBack items start chunk) := by
  simp [copyRange, ordered, inside, exact]

/-- A copy that does not panic fills its range. -/
theorem copyRange_eq_ok
    {items chunk result : List α}
    {start stop : Nat}
    (copied : (copyRange items start stop chunk : Outcome ε (List α)) =
      .ok result) :
    start ≤ stop ∧ stop ≤ items.length ∧ chunk.length = stop - start ∧
      result = writeBack items start chunk := by
  unfold copyRange at copied
  split at copied
  next inside =>
    cases copied
    exact ⟨inside.1, inside.2.1, inside.2.2, rfl⟩
  · cases copied

theorem length_writeBack
    {items chunk : List α}
    {start : Nat}
    (inside : start + chunk.length ≤ items.length) :
    (writeBack items start chunk).length = items.length := by
  simp only [writeBack, List.length_append, List.length_take,
    List.length_drop]
  omega

/-- What a write leaves at its place. -/
theorem read_writeBack
    {items chunk : List α}
    {start : Nat}
    (inside : start ≤ items.length) :
    ((writeBack items start chunk).drop start).take chunk.length = chunk := by
  rw [writeBack, List.append_assoc, List.drop_left' (by
    rw [List.length_take]
    omega), List.take_left]

/-- A write right after a part leaves that part and appends to it. -/
theorem writeBack_append
    {before rest chunk : List α}
    {start : Nat}
    (exact : start = before.length) :
    writeBack (before ++ rest) start chunk =
      before ++ (chunk ++ rest.drop chunk.length) := by
  subst exact
  rw [writeBack, List.take_left, ← List.drop_drop, List.drop_left,
    List.append_assoc]

/-- A write leaves what precedes it alone. -/
theorem take_writeBack
    {items chunk : List α}
    {start count : Nat}
    (inside : start ≤ items.length)
    (before : count ≤ start) :
    (writeBack items start chunk).take count = items.take count := by
  rw [writeBack, List.append_assoc, List.take_append_of_le_length (by
    rw [List.length_take]
    omega), List.take_take, Nat.min_eq_left before]

/-- A write leaves what follows it alone. -/
theorem drop_writeBack
    {items chunk : List α}
    {start count : Nat}
    (inside : start ≤ items.length)
    (after : start + chunk.length ≤ count) :
    (writeBack items start chunk).drop count = items.drop count := by
  obtain ⟨more, rfl⟩ := Nat.exists_eq_add_of_le after
  rw [writeBack, ← List.drop_drop, List.drop_left' (by
    rw [List.length_append, List.length_take]
    omega), List.drop_drop]

/-- A write leaves every part apart from its place alone. -/
theorem drop_take_writeBack
    {items chunk : List α}
    {start offset count : Nat}
    (inside : start ≤ items.length)
    (apart :
      offset + count ≤ start ∨ start + chunk.length ≤ offset) :
    ((writeBack items start chunk).drop offset).take count =
      (items.drop offset).take count := by
  rcases apart with before | after
  · rw [List.take_drop, List.take_drop, take_writeBack inside before]
  · rw [drop_writeBack inside after]

@[simp] theorem writeBack_zero (items chunk : List α) :
    writeBack items 0 chunk = chunk ++ items.drop chunk.length := by
  simp [writeBack]

theorem splitAt_eq
    {items : List α}
    {middle : Nat}
    (inside : middle ≤ items.length) :
    (splitAt items middle : Outcome ε (List α × List α)) =
      .ok (items.take middle, items.drop middle) := by
  simp [splitAt, inside]

end Slices

/-! ## Integers -/

/-- The largest `u32`. -/
def u32Max : Nat := 4294967295

/-- The largest `u64`. -/
def u64Max : Nat := 18446744073709551615

/-- The two pointer widths the crate supports. -/
inductive Target where
  | bits32
  | bits64
  deriving Repr, DecidableEq

namespace Target

/-- The largest `usize`. -/
def usizeMax : Target → Nat
  | .bits32 => u32Max
  | .bits64 => u64Max

/-- `usize::try_from` on a `u64`. -/
def tryFromU64 (target : Target) (value : Nat) : Option Nat :=
  if value ≤ target.usizeMax then some value else none

theorem u32Max_le_usizeMax (target : Target) :
    u32Max ≤ target.usizeMax := by
  cases target <;> decide

end Target

/-- `a.checked_add(b)` on an unsigned type with the given maximum. -/
def checkedAdd (maximum a b : Nat) : Option Nat :=
  if a + b ≤ maximum then some (a + b) else none

/-- `a.checked_mul(b)` on an unsigned type with the given maximum. -/
def checkedMul (maximum a b : Nat) : Option Nat :=
  if a * b ≤ maximum then some (a * b) else none

/-- `a.checked_sub(b)`. -/
def checkedSub (a b : Nat) : Option Nat :=
  if b ≤ a then some (a - b) else none

/-- `a.checked_add_signed(b)` on an unsigned type with the given maximum. -/
def checkedAddSigned (maximum a : Nat) (b : Int) : Option Nat :=
  if 0 ≤ a + b ∧ a + b ≤ maximum then some (a + b).toNat else none

/-- `a.div_ceil(b)`. -/
def divCeil (a b : Nat) : Nat :=
  (a + b - 1) / b

section Arithmetic

variable {ε : Type}

/-- `a + b`, which must not exceed the type's maximum. -/
def add (maximum a b : Nat) : Outcome ε Nat :=
  Outcome.expect (checkedAdd maximum a b)

/-- `a * b`, which must not exceed the type's maximum. -/
def mul (maximum a b : Nat) : Outcome ε Nat :=
  Outcome.expect (checkedMul maximum a b)

/-- `a - b`, which must not fall below zero. -/
def sub (a b : Nat) : Outcome ε Nat :=
  Outcome.expect (checkedSub a b)

theorem add_eq
    {maximum a b : Nat}
    (fits : a + b ≤ maximum) :
    (add maximum a b : Outcome ε Nat) = .ok (a + b) := by
  simp [add, checkedAdd, fits, Outcome.expect]

theorem mul_eq
    {maximum a b : Nat}
    (fits : a * b ≤ maximum) :
    (mul maximum a b : Outcome ε Nat) = .ok (a * b) := by
  simp [mul, checkedMul, fits, Outcome.expect]

theorem sub_eq
    {a b : Nat}
    (ordered : b ≤ a) :
    (sub a b : Outcome ε Nat) = .ok (a - b) := by
  simp [sub, checkedSub, ordered, Outcome.expect]

end Arithmetic

end Rust
