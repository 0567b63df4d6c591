import FastFloe.Parameters

namespace FastFloe

open Rust

/-!
# Reusable segment storage

A `SegmentBuffer` is one encrypted-segment-sized allocation with a three-valued
preparation state.  The methods that hand out a mutable slice return its current
contents; what the caller leaves in the slice is put back with
`SegmentBuffer.withRaw`.
-/

/-- `BufferState`. -/
inductive BufferState where
  | empty
  | plaintext (length : Nat)
  | ciphertext (length : Nat)
  deriving Repr, DecidableEq

/-- Reusable storage for allocation-free segment encryption and decryption. -/
structure SegmentBuffer where
  parameters : Parameters
  bytes : Bytes
  state : BufferState
  deriving DecidableEq

namespace SegmentBuffer

/-- `SegmentBuffer::new`. -/
def new (parameters : Parameters) : SegmentBuffer where
  parameters := parameters
  bytes := zeros parameters.ciphertextSegmentLength
  state := .empty

/-- The buffer after a caller has changed the storage behind `raw_mut`. -/
def withRaw (self : SegmentBuffer) (bytes : Bytes) : SegmentBuffer :=
  { self with bytes }

/-- `SegmentBuffer::prepare_plaintext`; returns the payload slice. -/
def preparePlaintext (self : SegmentBuffer) (length : Nat) :
    Result Bytes × SegmentBuffer :=
  let maximum := self.parameters.plaintextSegmentLength
  if length > maximum then
    (.error (.err (.invalidPlaintextLength length (.atMost maximum))), self)
  else
    let self := { self with state := .plaintext length }
    (slice self.bytes segmentPayloadOffset (segmentPayloadOffset + length),
      self)

/-- `SegmentBuffer::prepare_ciphertext`; returns the segment slice. -/
def prepareCiphertext (self : SegmentBuffer) (length : Nat) :
    Result Bytes × SegmentBuffer :=
  match self.parameters.validateCiphertextSegmentLength length with
  | .error stop =>
      (.error stop, self)
  | .ok () =>
      let self := { self with state := .ciphertext length }
      (slice self.bytes 0 length, self)

/-- `SegmentBuffer::plaintext`. -/
def plaintext (self : SegmentBuffer) : Result Bytes :=
  match self.state with
  | .plaintext length =>
      slice self.bytes segmentPayloadOffset (segmentPayloadOffset + length)
  | .empty => .error (.err .invalidBufferState)
  | .ciphertext _ => .error (.err .invalidBufferState)

/-- `SegmentBuffer::ciphertext`. -/
def ciphertext (self : SegmentBuffer) : Result Bytes :=
  match self.state with
  | .ciphertext length => slice self.bytes 0 length
  | .empty => .error (.err .invalidBufferState)
  | .plaintext _ => .error (.err .invalidBufferState)

/-- `SegmentBuffer::clear`. -/
def clear (self : SegmentBuffer) : SegmentBuffer :=
  { self with bytes := zeros self.bytes.length, state := .empty }

/-- `SegmentBuffer::plaintext_length`. -/
def plaintextLength (self : SegmentBuffer) : Result Nat :=
  match self.state with
  | .plaintext length => .ok length
  | .empty => .error (.err .invalidBufferState)
  | .ciphertext _ => .error (.err .invalidBufferState)

/-- `SegmentBuffer::ciphertext_length`. -/
def ciphertextLength (self : SegmentBuffer) : Result Nat :=
  match self.state with
  | .ciphertext length => .ok length
  | .empty => .error (.err .invalidBufferState)
  | .plaintext _ => .error (.err .invalidBufferState)

/-- `SegmentBuffer::extend_plaintext`; returns how many bytes were copied. -/
def extendPlaintext (self : SegmentBuffer) (input : Bytes) :
    Result Nat × SegmentBuffer :=
  -- A buffer holding no plaintext starts a fresh payload.
  let length :=
    match self.state with
    | .plaintext length => length
    | .empty => 0
    | .ciphertext _ => 0
  match (sub self.parameters.plaintextSegmentLength length : Result Nat) with
  | .error stop =>
      (.error stop, self)
  | .ok room =>
      let copied := min input.length room
      let start := segmentPayloadOffset + length
      match (copyRange self.bytes start (start + copied)
          (input.take copied) : Result Bytes) with
      | .error stop =>
          (.error stop, self)
      | .ok bytes =>
          (.ok copied,
            { self with bytes, state := .plaintext (length + copied) })

/-- `SegmentBuffer::truncate_plaintext`. -/
def truncatePlaintext (self : SegmentBuffer) (length : Nat) :
    Result Unit × SegmentBuffer :=
  match self.plaintextLength with
  | .error stop =>
      (.error stop, self)
  | .ok current =>
      if length > current then
        (.error (.err (.invalidPlaintextLength length (.atMost current))),
          self)
      else
        (.ok (), { self with state := .plaintext length })

/-- `SegmentBuffer::matches`. -/
def hasParameters (self : SegmentBuffer) (parameters : Parameters) : Bool :=
  self.parameters = parameters

/-- `SegmentBuffer::mark_ciphertext`. -/
def markCiphertext (self : SegmentBuffer) (length : Nat) : SegmentBuffer :=
  { self with state := .ciphertext length }

/-- `SegmentBuffer::decrypt_with`: the operation also works on the state `σ`
its closure borrows.  Every error wipes the entire allocation. -/
def decryptWith {σ : Type} (self : SegmentBuffer) (state : σ)
    (operation : SegmentBuffer → σ → Result Nat × SegmentBuffer × σ) :
    Result Bytes × SegmentBuffer × σ :=
  match operation self state with
  | (.ok length, self, state) =>
      let self := { self with state := .plaintext length }
      (slice self.bytes segmentPayloadOffset (segmentPayloadOffset + length),
        self, state)
  | (.error (.err error), self, state) =>
      (.error (.err error), self.clear, state)
  | (.error .panic, self, state) =>
      (.error .panic, self, state)
  | (.error .diverge, self, state) =>
      (.error .diverge, self, state)

/-! ## What a buffer holds -/

/-- The storage is one segment long. -/
def Sized (self : SegmentBuffer) : Prop :=
  self.bytes.length = self.parameters.ciphertextSegmentLength

/-- The buffer is prepared with a plaintext. -/
structure HoldsPlaintext (buffer : SegmentBuffer) (plaintext : Bytes) :
    Prop where
  sized : buffer.Sized
  state : buffer.state = .plaintext plaintext.length
  content :
    (buffer.bytes.drop segmentPayloadOffset).take plaintext.length = plaintext
  fits : plaintext.length ≤ buffer.parameters.plaintextSegmentLength

/-- The buffer is prepared with a complete encrypted segment. -/
structure HoldsCiphertext (buffer : SegmentBuffer) (segment : Bytes) :
    Prop where
  sized : buffer.Sized
  state : buffer.state = .ciphertext segment.length
  content : buffer.bytes.take segment.length = segment

theorem sized_new (parameters : Parameters) :
    (SegmentBuffer.new parameters).Sized := by
  simp [Sized, SegmentBuffer.new]

theorem sized_clear
    {buffer : SegmentBuffer}
    (sized : buffer.Sized) :
    buffer.clear.Sized := by
  simpa [Sized, clear] using sized

theorem HoldsPlaintext.plaintext_eq
    {buffer : SegmentBuffer}
    {plaintext : Bytes}
    (holds : buffer.HoldsPlaintext plaintext) :
    buffer.plaintext = .ok plaintext := by
  have sized := holds.sized
  have fits := holds.fits
  have full := buffer.parameters.plaintextSegmentLength_add
  unfold Sized at sized
  have inside :
      segmentPayloadOffset + plaintext.length ≤ buffer.bytes.length := by
    rw [segmentPayloadOffset_eq]
    omega
  simp only [SegmentBuffer.plaintext, holds.state]
  rw [slice_eq (Nat.le_add_right _ _) inside, Nat.add_sub_cancel_left,
    holds.content]

theorem HoldsPlaintext.plaintextLength_eq
    {buffer : SegmentBuffer}
    {plaintext : Bytes}
    (holds : buffer.HoldsPlaintext plaintext) :
    buffer.plaintextLength = .ok plaintext.length := by
  simp [SegmentBuffer.plaintextLength, holds.state]

theorem HoldsCiphertext.length_le
    {buffer : SegmentBuffer}
    {segment : Bytes}
    (holds : buffer.HoldsCiphertext segment) :
    segment.length ≤ buffer.bytes.length := by
  have content := congrArg List.length holds.content
  rw [List.length_take] at content
  omega

theorem HoldsCiphertext.ciphertext_eq
    {buffer : SegmentBuffer}
    {segment : Bytes}
    (holds : buffer.HoldsCiphertext segment) :
    buffer.ciphertext = .ok segment := by
  simp only [SegmentBuffer.ciphertext, holds.state]
  rw [slice_zero holds.length_le, holds.content]

theorem HoldsCiphertext.ciphertextLength_eq
    {buffer : SegmentBuffer}
    {segment : Bytes}
    (holds : buffer.HoldsCiphertext segment) :
    buffer.ciphertextLength = .ok segment.length := by
  simp [SegmentBuffer.ciphertextLength, holds.state]

/-- A buffer whose segment was opened where it stands holds its plaintext. -/
theorem HoldsCiphertext.opened
    {buffer : SegmentBuffer}
    {segment plaintext : Bytes}
    (holds : buffer.HoldsCiphertext segment)
    (size : plaintext.length + 32 = segment.length) :
    { buffer.withRaw (writeBack buffer.bytes 0
        (writeBack segment segmentPayloadOffset plaintext)) with
      state := .plaintext plaintext.length }.HoldsPlaintext plaintext := by
  have sized := holds.sized
  have room := holds.length_le
  have full := buffer.parameters.plaintextSegmentLength_add
  unfold Sized at sized
  have inner :
      (writeBack segment segmentPayloadOffset plaintext).length =
        segment.length :=
    length_writeBack (by rw [segmentPayloadOffset_eq]; omega)
  have outer :
      (writeBack buffer.bytes 0
          (writeBack segment segmentPayloadOffset plaintext)).length =
        buffer.bytes.length :=
    length_writeBack (by omega)
  refine ⟨?_, rfl, ?_, ?_⟩
  · exact outer.trans sized
  · have inside : segmentPayloadOffset ≤ segment.length := by
      rw [segmentPayloadOffset_eq]
      omega
    simp only [withRaw, writeBack_zero]
    rw [List.drop_append_of_le_length (by rw [inner]; exact inside),
      List.take_append_of_le_length (by
        rw [List.length_drop, inner, segmentPayloadOffset_eq]
        omega),
      read_writeBack inside]
  · change plaintext.length ≤ buffer.parameters.plaintextSegmentLength
    omega

/-- A buffer stays sized when a part of its storage is replaced. -/
theorem Sized.withRaw
    {buffer : SegmentBuffer}
    {bytes : Bytes}
    (sized : buffer.Sized)
    (length : bytes.length = buffer.bytes.length) :
    (buffer.withRaw bytes).Sized := by
  unfold Sized at sized ⊢
  exact length.trans sized

/-- `prepare_plaintext` makes room for a payload that fits. -/
theorem Sized.preparePlaintext
    {buffer : SegmentBuffer}
    {length : Nat}
    (sized : buffer.Sized)
    (fits : length ≤ buffer.parameters.plaintextSegmentLength) :
    ∃ region,
      buffer.preparePlaintext length =
          (.ok region, { buffer with state := .plaintext length }) ∧
        region.length = length := by
  have size := buffer.parameters.plaintextSegmentLength_add
  unfold Sized at sized
  refine ⟨(buffer.bytes.drop segmentPayloadOffset).take length, ?_, ?_⟩
  · simp only [SegmentBuffer.preparePlaintext, gt_iff_lt,
      Nat.not_lt.mpr fits, ↓reduceIte]
    rw [slice_eq (Nat.le_add_right _ _) (by
      rw [segmentPayloadOffset_eq]
      omega), Nat.add_sub_cancel_left]
  · simp only [List.length_take, List.length_drop, segmentPayloadOffset_eq]
    omega

/-- A buffer whose payload was written, of which a beginning is declared to be
the plaintext. -/
theorem Sized.filled
    {buffer : SegmentBuffer}
    {chunk : Bytes}
    {count : Nat}
    (sized : buffer.Sized)
    (fits : chunk.length ≤ buffer.parameters.plaintextSegmentLength)
    (within : count ≤ chunk.length) :
    { buffer.withRaw (writeBack buffer.bytes segmentPayloadOffset chunk) with
      state := .plaintext count }.HoldsPlaintext (chunk.take count) := by
  have full := buffer.parameters.plaintextSegmentLength_add
  have counted : (chunk.take count).length = count := by
    rw [List.length_take, Nat.min_eq_left within]
  unfold Sized at sized
  have inside : segmentPayloadOffset + chunk.length ≤ buffer.bytes.length := by
    rw [segmentPayloadOffset_eq]
    omega
  refine ⟨(length_writeBack inside).trans sized, ?_, ?_, ?_⟩
  · rw [counted]
  · have written :
        ((writeBack buffer.bytes segmentPayloadOffset chunk).drop
          segmentPayloadOffset).take chunk.length = chunk :=
      read_writeBack (by omega)
    rw [counted]
    conv_rhs => rw [← written]
    rw [List.take_take, Nat.min_eq_left within]
    rfl
  · rw [counted]
    exact Nat.le_trans within fits

/-- `prepare_ciphertext` makes room for a segment of an allowed length. -/
theorem Sized.prepareCiphertext
    {buffer : SegmentBuffer}
    {length : Nat}
    (sized : buffer.Sized)
    (least : segmentOverhead ≤ length)
    (most : length ≤ buffer.parameters.ciphertextSegmentLength) :
    buffer.prepareCiphertext length =
        (.ok (buffer.bytes.take length), buffer.markCiphertext length) ∧
      length ≤ buffer.bytes.length := by
  unfold Sized at sized
  have fits : length ≤ buffer.bytes.length := by
    omega
  have validated :
      buffer.parameters.validateCiphertextSegmentLength length = .ok () :=
    if_pos ⟨least, most⟩
  simp only [SegmentBuffer.prepareCiphertext, validated, slice_zero fits,
    markCiphertext, fits, and_self]

/-- A buffer whose storage was overwritten with a segment holds it. -/
theorem Sized.holdsCiphertext
    {buffer : SegmentBuffer}
    {segment : Bytes}
    (sized : buffer.Sized)
    (room : segment.length ≤ buffer.bytes.length) :
    ((buffer.markCiphertext segment.length).withRaw
        (writeBack buffer.bytes 0 segment)).HoldsCiphertext segment := by
  refine ⟨(length_writeBack (by omega)).trans sized, rfl, ?_⟩
  change (writeBack buffer.bytes 0 segment).take segment.length = segment
  rw [writeBack_zero, List.take_left]

end SegmentBuffer

end FastFloe
