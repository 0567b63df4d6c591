import FastFloe.Rust.Bytes

namespace Rust

/-!
# Vectors and their allocations

A vector that outgrows its capacity moves to a larger allocation, and gives the
old one back with everything that it held.
-/

/-- A growable vector: its items, the capacity of its allocation, and what the
allocations held that it gave back. -/
structure Vec (α : Type) where
  items : List α
  capacity : Nat
  released : List (List α)
  deriving Repr, DecidableEq

namespace Vec

variable {α : Type}

/-- `Vec::with_capacity`. -/
def withCapacity (capacity : Nat) : Vec α :=
  ⟨[], capacity, []⟩

/-- `Vec::resize`. -/
def resize (self : Vec α) (length : Nat) (value : α) : Vec α :=
  let items := self.items.take length ++
    List.replicate (length - self.items.length) value
  if length ≤ self.capacity then
    { self with items }
  else
    { items
      capacity := max (2 * self.capacity) length
      released := self.released ++ [self.items] }

/-- The vector after a mutable borrow of `items[start..]` has left `chunk`
there. -/
def writeBack (self : Vec α) (start : Nat) (chunk : List α) : Vec α :=
  { self with items := Rust.writeBack self.items start chunk }

/-- What the vector's allocations hold after a `Zeroizing` guard has dropped it:
the guard zeroes the allocation that the vector still has. -/
def zeroized (self : Vec UInt8) : List Bytes :=
  self.released ++ [zeros self.capacity]

variable {self : Vec α} {length : Nat} {value : α}

/-- Growing within the capacity appends and moves nothing. -/
theorem resize_of_le
    (grows : self.items.length ≤ length)
    (fits : length ≤ self.capacity) :
    self.resize length value =
      { self with
        items := self.items ++
          List.replicate (length - self.items.length) value } := by
  rw [resize, if_pos fits, List.take_of_length_le grows]

/-- Growing appends, whether or not the vector moves. -/
theorem items_resize
    (grows : self.items.length ≤ length) :
    (self.resize length value).items =
      self.items ++ List.replicate (length - self.items.length) value := by
  unfold resize
  split
  · rw [List.take_of_length_le grows]
  · rw [List.take_of_length_le grows]

end Vec

end Rust
