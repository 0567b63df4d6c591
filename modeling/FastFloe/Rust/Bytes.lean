import FastFloe.Rust.Outcome

namespace Rust

/-!
# Byte strings, byte arrays and big-endian integers

`Octets n` is the array type `[u8; n]`: a byte string that carries its length.
`beBytes` and `beValue` are `to_be_bytes` and `from_be_bytes` at every width.
-/

/-- A byte string: the contents of a `&[u8]` or a `Vec<u8>`. -/
abbrev Bytes := List UInt8

/-- `vec![0; length]`. -/
def zeros (length : Nat) : Bytes :=
  List.replicate length 0

@[simp] theorem length_zeros (length : Nat) :
    (zeros length).length = length := by
  simp [zeros]

/-! ## Fixed-size arrays -/

/-- The array type `[u8; n]`. -/
abbrev Octets (n : Nat) := { bytes : Bytes // bytes.length = n }

namespace Octets

variable {n : Nat}

@[simp] theorem length_val (octets : Octets n) : octets.val.length = n :=
  octets.property

/-- `[u8; N]::try_from` on a slice. -/
def ofSlice? (n : Nat) (bytes : Bytes) : Option (Octets n) :=
  if exact : bytes.length = n then some ⟨bytes, exact⟩ else none

/-- `[0; N]`. -/
def zero (n : Nat) : Octets n :=
  ⟨zeros n, length_zeros n⟩

@[simp] theorem ofSlice?_eq_some {bytes : Bytes} {octets : Octets n} :
    ofSlice? n bytes = some octets ↔ bytes = octets.val := by
  constructor
  · intro converted
    unfold ofSlice? at converted
    split at converted
    · cases converted
      rfl
    · cases converted
  · rintro rfl
    simp [ofSlice?]

theorem ofSlice?_of_length {bytes : Bytes} (exact : bytes.length = n) :
    ofSlice? n bytes = some ⟨bytes, exact⟩ := by
  simp [ofSlice?, exact]

end Octets

/-! ## Big-endian integers -/

/-- The low `8 * width` bits of `value`, most significant byte first. -/
def beBytes : (width value : Nat) → Bytes
  | 0, _ => []
  | width + 1, value =>
      UInt8.ofNat (value / 256 ^ width) :: beBytes width value

/-- The integer whose big-endian digits are `bytes`. -/
def beValue : Bytes → Nat
  | [] => 0
  | byte :: rest => byte.toNat * 256 ^ rest.length + beValue rest

@[simp] theorem length_beBytes (width value : Nat) :
    (beBytes width value).length = width := by
  induction width with
  | zero =>
      rfl
  | succ width inductionHypothesis =>
      simp [beBytes, inductionHypothesis]

/-- Big-endian digits of a value are below the next power of the radix. -/
theorem beValue_lt (bytes : Bytes) :
    beValue bytes < 256 ^ bytes.length := by
  induction bytes with
  | nil =>
      simp [beValue]
  | cons byte rest inductionHypothesis =>
      have digit : byte.toNat + 1 ≤ 256 := byte.toNat_lt
      have scaled := Nat.mul_le_mul_right (256 ^ rest.length) digit
      simp only [beValue, List.length_cons, Nat.pow_succ]
      rw [Nat.add_mul] at scaled
      omega

/-- Decoding an encoding reduces the value to the encoded width. -/
theorem beValue_beBytes (width value : Nat) :
    beValue (beBytes width value) = value % 256 ^ width := by
  induction width with
  | zero =>
      simp [beBytes, beValue, Nat.mod_one]
  | succ width inductionHypothesis =>
      simp only [beBytes, beValue, length_beBytes, inductionHypothesis,
        UInt8.toNat_ofNat', Nat.reducePow]
      rw [Nat.mod_pow_succ, Nat.mul_comm (256 ^ width), Nat.add_comm]

theorem beValue_beBytes_of_lt
    {width value : Nat}
    (fits : value < 256 ^ width) :
    beValue (beBytes width value) = value := by
  rw [beValue_beBytes, Nat.mod_eq_of_lt fits]

/-- Values that fit the width have different encodings. -/
theorem beBytes_injective
    {width first second : Nat}
    (firstFits : first < 256 ^ width)
    (secondFits : second < 256 ^ width)
    (same : beBytes width first = beBytes width second) :
    first = second := by
  have decoded := congrArg beValue same
  rwa [beValue_beBytes_of_lt firstFits, beValue_beBytes_of_lt secondFits]
    at decoded

/-- Encoding only looks at the value's residue. -/
theorem beBytes_mod (width value : Nat) {larger : Nat} (room : width ≤ larger) :
    beBytes width (value % 256 ^ larger) = beBytes width value := by
  induction width with
  | zero =>
      rfl
  | succ width inductionHypothesis =>
      obtain ⟨extra, rfl⟩ := Nat.exists_eq_add_of_le room
      have digit :
          UInt8.ofNat (value % 256 ^ (width + 1 + extra) / 256 ^ width) =
            UInt8.ofNat (value / 256 ^ width) := by
        apply UInt8.toNat.inj
        simp only [UInt8.toNat_ofNat']
        rw [Nat.add_right_comm, Nat.pow_succ, Nat.pow_add, Nat.mul_assoc,
          Nat.mod_mul_right_div_self, Nat.mul_comm (256 ^ extra),
          Nat.mod_mul_right_mod]
      simp only [beBytes, digit]
      rw [inductionHypothesis (by omega)]

/-- Encoding a decoded value gives the digits back. -/
theorem beBytes_beValue (bytes : Bytes) :
    beBytes bytes.length (beValue bytes) = bytes := by
  induction bytes with
  | nil =>
      rfl
  | cons byte rest inductionHypothesis =>
      have below := beValue_lt rest
      have positive : 0 < 256 ^ rest.length := Nat.pow_pos (by decide)
      have head :
          (byte.toNat * 256 ^ rest.length + beValue rest) /
              256 ^ rest.length = byte.toNat := by
        rw [Nat.mul_comm, Nat.mul_add_div positive,
          Nat.div_eq_of_lt below, Nat.add_zero]
      have tail :
          beBytes rest.length
              (byte.toNat * 256 ^ rest.length + beValue rest) = rest := by
        rw [← beBytes_mod rest.length _ (Nat.le_refl _), Nat.mul_comm,
          Nat.mul_add_mod, Nat.mod_eq_of_lt below]
        exact inductionHypothesis
      simp only [List.length_cons, beBytes, beValue, head, tail,
        UInt8.ofNat_toNat]

/-- Bytes decode to a value exactly when they are its encoding. -/
theorem beValue_eq_iff
    {bytes : Bytes}
    {width value : Nat}
    (exact : bytes.length = width)
    (fits : value < 256 ^ width) :
    beValue bytes = value ↔ bytes = beBytes width value := by
  constructor
  · rintro rfl
    rw [← exact, beBytes_beValue]
  · rintro rfl
    exact beValue_beBytes_of_lt fits

end Rust
