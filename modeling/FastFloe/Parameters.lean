import FastFloe.Error

namespace FastFloe

open Rust

/-!
# Parameters, message layouts and segment framing

The segment length is the only varying parameter.  A `Parameters` value carries
the proof that it lies in the supported range, as every value built outside the
crate's own tests does.
-/

def aeadIvLength : Nat := 12
def aeadTagLength : Nat := 16
def aeadMaxSegments : Nat := 2 ^ 40

def floeIvLength : Nat := 32
def encodedParametersLength : Nat := 10
def headerTagLength : Nat := 32
def headerLength : Nat :=
  encodedParametersLength + floeIvLength + headerTagLength

/-- Segment length prefix size in bytes. -/
def segmentPrefixLength : Nat := 4

/-- Offset at which payload bytes begin in a segment. -/
def segmentPayloadOffset : Nat := segmentPrefixLength + aeadIvLength

/-- Bytes of a segment that are not payload. -/
def segmentOverhead : Nat := segmentPayloadOffset + aeadTagLength

theorem segmentPrefixLength_eq : segmentPrefixLength = 4 := rfl
theorem segmentPayloadOffset_eq : segmentPayloadOffset = 16 := rfl
theorem segmentOverhead_eq : segmentOverhead = 32 := rfl
theorem aeadIvLength_eq : aeadIvLength = 12 := rfl
theorem aeadTagLength_eq : aeadTagLength = 16 := rfl
theorem headerLength_eq : headerLength = 74 := rfl

def rotationBits : Nat := 20

/-- `!((1_u64 << ROTATION_BITS) - 1)`. -/
def rotationMask : Nat := u64Max - (2 ^ rotationBits - 1)

/-- `length_u64_to_usize_saturating`. -/
def lengthU64ToUsizeSaturating (target : Target) (value : Nat) : Nat :=
  (target.tryFromU64 value).getD target.usizeMax

/-- A FLOE parameter set: a segment length in `64..u32::MAX`. -/
structure Parameters where
  ciphertextSegmentLength : Nat
  minimum_le : 64 ≤ ciphertextSegmentLength
  lt_maximum : ciphertextSegmentLength < u32Max
  deriving DecidableEq

/-- Whether a segment is an internal or final segment. -/
inductive SegmentKind where
  | nonFinal
  | final
  deriving Repr, DecidableEq

namespace SegmentKind

def isFinal : SegmentKind → Bool
  | .nonFinal => false
  | .final => true

/-- The last byte of the segment AAD. -/
def indicator : SegmentKind → UInt8
  | .nonFinal => 0
  | .final => 1

end SegmentKind

/-- Complete length and segment layout for one FLOE message. -/
structure MessageLayout where
  parameters : Parameters
  plaintextLength : Nat
  ciphertextLength : Nat
  segmentCount : Nat
  deriving DecidableEq

/-- Offsets and lengths for one segment in a `MessageLayout`. -/
structure SegmentLayout where
  parameters : Parameters
  position : Nat
  plaintextOffset : Nat
  plaintextLength : Nat
  ciphertextOffset : Nat
  ciphertextLength : Nat
  kind : SegmentKind
  deriving DecidableEq

namespace Parameters

/-- Plaintext length of every non-final segment and the maximum plaintext
length of a final one. -/
def plaintextSegmentLength (self : Parameters) : Nat :=
  self.ciphertextSegmentLength - segmentOverhead

/-- A full payload and the overhead make a full segment. -/
theorem plaintextSegmentLength_add (self : Parameters) :
    self.plaintextSegmentLength + 32 = self.ciphertextSegmentLength := by
  have minimum := self.minimum_le
  simp only [plaintextSegmentLength, segmentOverhead_eq]
  omega

/-- A full payload is not empty, and a full segment fits every target. -/
theorem segmentLength_bounds (self : Parameters) :
    32 ≤ self.plaintextSegmentLength ∧
      self.ciphertextSegmentLength < u32Max := by
  have minimum := self.minimum_le
  have total := self.plaintextSegmentLength_add
  exact ⟨by omega, self.lt_maximum⟩

/-- `Parameters::with_segment_length`. -/
def withSegmentLength (segmentLen : Nat) : Result Parameters :=
  if valid : 64 ≤ segmentLen ∧ segmentLen < u32Max then
    .ok ⟨segmentLen, valid.1, valid.2⟩
  else
    .error (.err (.invalidSegmentLength segmentLen))

/-- Checks that `actual` can be the length of a ciphertext segment. -/
def validateCiphertextSegmentLength (self : Parameters) (actual : Nat) :
    Result Unit :=
  let maximum := self.ciphertextSegmentLength
  if segmentOverhead ≤ actual ∧ actual ≤ maximum then
    .ok ()
  else
    .error (.err (.invalidCiphertextLength actual
      (.between segmentOverhead maximum)))

/-- Calculates the complete FLOE layout for a plaintext length. -/
def plaintextLayout (self : Parameters) (plaintextLength : Nat) :
    Result MessageLayout := do
  -- An empty message still occupies one (final) segment.
  let segmentCount :=
    max (divCeil plaintextLength self.plaintextSegmentLength) 1
  if segmentCount > aeadMaxSegments then
    .error (.err .segmentLimit)
  else
    let framingLength ← Outcome.okOr .lengthOverflow
      (checkedMul u64Max segmentCount segmentOverhead)
    let ciphertextLength ← Outcome.okOr .lengthOverflow
      ((checkedAdd u64Max headerLength plaintextLength).bind fun length =>
        checkedAdd u64Max length framingLength)
    .ok { parameters := self, plaintextLength, ciphertextLength, segmentCount }

/-- Calculates the complete FLOE layout for a ciphertext length. -/
def ciphertextLayout (target : Target) (self : Parameters)
    (ciphertextLength : Nat) : Result MessageLayout := do
  let bodyLength ← Outcome.okOr
    (.invalidHeaderLength (lengthU64ToUsizeSaturating target ciphertextLength))
    (checkedSub ciphertextLength headerLength)
  if bodyLength = 0 then
    .error (.err .truncated)
  else
    let segmentCount := divCeil bodyLength self.ciphertextSegmentLength
    if segmentCount > aeadMaxSegments then
      .error (.err .segmentLimit)
    else
      let preceding ← sub segmentCount 1
      let precedingLength ←
        mul u64Max preceding self.ciphertextSegmentLength
      let finalLength ← sub bodyLength precedingLength
      if finalLength < segmentOverhead then
        .error (.err (.invalidCiphertextLength
          (lengthU64ToUsizeSaturating target finalLength)
          (.between segmentOverhead self.ciphertextSegmentLength)))
      else
        let framingLength ← Outcome.okOr .lengthOverflow
          (checkedMul u64Max segmentCount segmentOverhead)
        let plaintextLength ← Outcome.okOr .lengthOverflow
          (checkedSub bodyLength framingLength)
        .ok { parameters := self, plaintextLength, ciphertextLength,
              segmentCount }

/-- Encodes the parameters as
`AEAD_ID || KDF_ID || ENC_SEG_LEN || FLOE_IV_LEN`. -/
def encode (self : Parameters) : Octets encodedParametersLength :=
  ⟨[0, 0] ++ beBytes 4 self.ciphertextSegmentLength ++
      beBytes 4 floeIvLength, by
    simp [encodedParametersLength]⟩

/-- `Parameters::decode`. -/
def decode (encoded : Octets encodedParametersLength) : Result Parameters := do
  let segmentLength := beValue ((encoded.val.drop 2).take 4)
  let parameters ← Outcome.mapErr (fun _ => .invalidHeaderParameters)
    (withSegmentLength segmentLength)
  if parameters.encode = encoded then
    .ok parameters
  else
    .error (.err .invalidHeaderParameters)

/-- The position with its low rotation bits cleared. -/
def maskedPosition (_self : Parameters) (position : Nat) : Nat :=
  position &&& rotationMask

end Parameters

namespace MessageLayout

/-- Returns the layout of the segment at `position`, or `none` if it is
outside this message. -/
def segmentForPosition (target : Target) (self : MessageLayout)
    (position : Nat) : Result (Option SegmentLayout) := do
  if position ≥ self.segmentCount then
    .ok none
  else
    let plaintextSegmentLength := self.parameters.plaintextSegmentLength
    let ciphertextSegmentLength := self.parameters.ciphertextSegmentLength
    let plaintextOffset ← mul u64Max position plaintextSegmentLength
    let following ← add u64Max position 1
    let kind : SegmentKind :=
      if following = self.segmentCount then .final else .nonFinal
    let lengths ← match kind with
      | .nonFinal =>
          .ok (some (plaintextSegmentLength, ciphertextSegmentLength))
      | .final => do
          let plaintextLength ← sub self.plaintextLength plaintextOffset
          match target.tryFromU64 plaintextLength with
          | none =>
              .ok none
          | some plaintextLength => do
              let ciphertextLength ←
                add target.usizeMax segmentOverhead plaintextLength
              .ok (some (plaintextLength, ciphertextLength))
    match lengths with
    | none =>
        .ok none
    | some (plaintextLength, ciphertextLength) =>
        let bodyOffset ← mul u64Max position ciphertextSegmentLength
        let ciphertextOffset ← add u64Max headerLength bodyOffset
        .ok (some
          { parameters := self.parameters, position, plaintextOffset,
            plaintextLength, ciphertextOffset, ciphertextLength, kind })

/-- `MessageLayout::final_segment`. -/
def finalSegment (target : Target) (self : MessageLayout) :
    Result SegmentLayout := do
  let position ← sub self.segmentCount 1
  let segment ← self.segmentForPosition target position
  Outcome.expect segment

/-- `Segments::segment_at`, the item a `Segments` iterator yields. -/
def segmentAt (target : Target) (self : MessageLayout) (position : Nat) :
    Result SegmentLayout := do
  let segment ← self.segmentForPosition target position
  Outcome.expect segment

/-- `MessageLayout::segments`, all of whose items are taken. -/
def segments (target : Target) (self : MessageLayout) :
    Result (List SegmentLayout) :=
  (List.range self.segmentCount).mapM (self.segmentAt target)

/-- The position of the segment containing `offset` in the plaintext. -/
def positionForPlaintextOffset (self : MessageLayout) (offset : Nat) : Nat :=
  offset / self.parameters.plaintextSegmentLength

end MessageLayout

/-- Segment framing information decoded from a segment prefix. -/
structure SegmentFraming where
  ciphertextLength : Nat
  plaintextLength : Nat
  kind : SegmentKind
  deriving Repr, DecidableEq

namespace SegmentFraming

/-- Decodes the unauthenticated framing declared by a segment prefix. -/
def decode (parameters : Parameters) (pre : Octets segmentPrefixLength) :
    Result SegmentFraming := do
  let encoded := beValue pre.val
  let (ciphertextLength, kind) ←
    if encoded = u32Max then
      (.ok (parameters.ciphertextSegmentLength, SegmentKind.nonFinal) :
        Result (Nat × SegmentKind))
    else
      let maximum := parameters.ciphertextSegmentLength
      if segmentOverhead ≤ encoded ∧ encoded ≤ maximum then
        .ok (encoded, SegmentKind.final)
      else
        .error (.err (.invalidCiphertextLength encoded
          (.between segmentOverhead maximum)))
  let plaintextLength ← sub ciphertextLength segmentOverhead
  .ok { ciphertextLength, plaintextLength, kind }

end SegmentFraming

end FastFloe
