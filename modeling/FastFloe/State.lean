import FastFloe.Backends
import FastFloe.Buffer

namespace FastFloe

open Rust

/-!
# Random-access encryption and decryption states

Headers, the key schedule with its one-entry cache, the nonce batches, and the
segment operations of `EncryptionState` and `DecryptionState`.  Arguments the
source borrows mutably are returned next to the result, in argument order.
-/

/-- `b"HEADER_TAG:"`. -/
def headerTagPurpose : Bytes :=
  [72, 69, 65, 68, 69, 82, 95, 84, 65, 71, 58]

/-- `b"MESSAGE_KEY:"`. -/
def messageKeyPurpose : Bytes :=
  [77, 69, 83, 83, 65, 71, 69, 95, 75, 69, 89, 58]

/-- `b"DEK:"`. -/
def segmentKeyPurpose : Bytes :=
  [68, 69, 75, 58]

def nonceBatchSize : Nat := 256
def nonceBatchLength : Nat := aeadIvLength * nonceBatchSize

/-- `segment_aad`: the position and the finality indicator. -/
def segmentAad (position : Nat) (kind : SegmentKind) : Bytes :=
  beBytes 8 position ++ [kind.indicator]

/-! ## Headers -/

/-- A complete fixed-size FLOE header. -/
abbrev Header := Octets headerLength

namespace Header

def floeIvOffset : Nat := encodedParametersLength
def tagOffset : Nat := floeIvOffset + floeIvLength

/-- `Header::from_fields`. -/
def fromFields (encoded : Octets encodedParametersLength)
    (floeIv : Octets floeIvLength) (tag : Octets headerTagLength) : Header :=
  ⟨encoded.val ++ floeIv.val ++ tag.val, by
    simp [headerLength, Nat.add_assoc]⟩

/-- `Header::encoded_parameters`. -/
def encodedParameters (self : Header) : Octets encodedParametersLength :=
  ⟨self.val.take floeIvOffset, by
    simp [headerLength, floeIvOffset, encodedParametersLength,
      floeIvLength, headerTagLength]⟩

/-- `Header::floe_iv`. -/
def floeIv (self : Header) : Octets floeIvLength :=
  ⟨(self.val.drop floeIvOffset).take (tagOffset - floeIvOffset), by
    simp [headerLength, floeIvOffset, tagOffset, encodedParametersLength,
      floeIvLength, headerTagLength]⟩

/-- `Header::tag`. -/
def tag (self : Header) : Octets headerTagLength :=
  ⟨self.val.drop tagOffset, by
    simp [headerLength, floeIvOffset, tagOffset, encodedParametersLength,
      floeIvLength, headerTagLength]⟩

/-- `Header::unverified_parameters`. -/
def unverifiedParameters (self : Header) : Result Parameters :=
  Parameters.decode self.encodedParameters

end Header

/-! ## Key schedule -/

def deriveHeaderTag (platform : Platform) (provider : Provider) (key : Key)
    (encoded : Octets encodedParametersLength) (floeIv : Octets floeIvLength)
    (aad : Bytes) : Result (Octets headerTagLength) :=
  platform.expand provider headerTagLength key.bytes.val
    [encoded.val, floeIv.val, headerTagPurpose, aad]

def deriveMessageKey (platform : Platform) (provider : Provider) (key : Key)
    (encoded : Octets encodedParametersLength) (floeIv : Octets floeIvLength)
    (aad : Bytes) : Result (Octets 48) :=
  platform.expand provider 48 key.bytes.val
    [encoded.val, floeIv.val, messageKeyPurpose, aad]

def deriveSegmentKey (platform : Platform) (provider : Provider)
    (parameters : Parameters) (messageKey : Octets 48)
    (floeIv : Octets floeIvLength) (aad : Bytes) (maskedPosition : Nat) :
    Result AeadKey := do
  let material ← platform.expand provider 32 messageKey.val
    [parameters.encode.val, floeIv.val, segmentKeyPurpose,
      beBytes 8 maskedPosition, aad]
  AeadKey.new platform provider material

/-- Everything the segments of one message share. -/
structure MessageContext where
  provider : Provider
  parameters : Parameters
  messageKey : Octets 48
  floeIv : Octets floeIvLength
  aad : Bytes
  deriving DecidableEq

/-- `CachedKey`. -/
structure CachedKey where
  maskedPosition : Nat
  key : AeadKey
  deriving DecidableEq

/-- `CachedKey::derive`. -/
def CachedKey.derive (platform : Platform) (context : MessageContext)
    (maskedPosition : Nat) : Result CachedKey := do
  let key ← deriveSegmentKey platform context.provider context.parameters
    context.messageKey context.floeIv context.aad maskedPosition
  .ok { maskedPosition, key }

/-- The one-entry segment key cache. -/
structure KeyCache where
  cachedKey : Option CachedKey
  deriving DecidableEq

namespace KeyCache

/-- `KeyCache::new`. -/
def new (platform : Platform) (context : MessageContext) : Result KeyCache := do
  let cached ← CachedKey.derive platform context 0
  .ok ⟨some cached⟩

/-- `KeyCache::empty`. -/
def empty : KeyCache := ⟨none⟩

/-- `KeyCache::key_for_position`. -/
def keyForPosition (platform : Platform) (context : MessageContext)
    (self : KeyCache) (position : Nat) : Result AeadKey × KeyCache :=
  if position ≥ aeadMaxSegments then
    (.error (.err .segmentLimit), self)
  else
    let maskedPosition := context.parameters.maskedPosition position
    let stale :=
      match self.cachedKey with
      | none => true
      | some cached => cached.maskedPosition ≠ maskedPosition
    if stale then
      match CachedKey.derive platform context maskedPosition with
      | .error stop => (.error stop, self)
      | .ok cached => (.ok cached.key, ⟨some cached⟩)
    else
      (Outcome.expect (self.cachedKey.map CachedKey.key), self)

end KeyCache

/-! ## Nonces -/

/-- Random nonces, drawn from the generator one batch at a time. -/
structure NonceGenerator where
  rng : ProviderRng
  bytes : Octets nonceBatchLength
  next : Nat

namespace NonceGenerator

/-- `NonceGenerator::new`. -/
def new (rng : ProviderRng) : NonceGenerator where
  rng := rng
  bytes := Octets.zero nonceBatchLength
  next := nonceBatchLength

/-- The part of `NonceGenerator::next` that serves from the current batch. -/
def serve (self : NonceGenerator) :
    Result (Octets aeadIvLength) × NonceGenerator :=
  match (slice self.bytes.val self.next (self.next + aeadIvLength) :
      Result Bytes) with
  | .error stop =>
      (.error stop, self)
  | .ok bytes =>
      -- `copy_from_slice` into the nonce requires equal lengths.
      (Outcome.expect (Octets.ofSlice? aeadIvLength bytes),
        { self with next := self.next + aeadIvLength })

/-- The part of `NonceGenerator::next` that fills a new batch. -/
def refill (self : NonceGenerator) : Result Unit × NonceGenerator :=
  let outcome := self.rng.fill nonceBatchLength
  (outcome.1,
    { self with rng := outcome.2.2, bytes := ⟨outcome.2.1, by
        simp only [outcome, ProviderRng.fill]
        split <;> simp⟩ })

/-- `NonceGenerator::next`. -/
def draw (self : NonceGenerator) :
    Result (Octets aeadIvLength) × NonceGenerator :=
  if self.next = nonceBatchLength then
    match self.refill with
    | (.error stop, self) => (.error stop, self)
    | (.ok (), self) => { self with next := 0 }.serve
  else
    self.serve

end NonceGenerator

/-! ## Segment encryption -/

/-- `ciphertext_segment_size`. -/
def ciphertextSegmentSize (platform : Platform) (context : MessageContext)
    (plaintextLength : Nat) (kind : SegmentKind) : Result Nat :=
  let maximum := context.parameters.plaintextSegmentLength
  match kind with
  | .final =>
      if plaintextLength ≤ maximum then
        Outcome.okOr .lengthOverflow (checkedAdd platform.target.usizeMax
          segmentOverhead plaintextLength)
      else
        .error (.err (.invalidPlaintextLength plaintextLength
          (.atMost maximum)))
  | .nonFinal =>
      if plaintextLength = maximum then
        .ok context.parameters.ciphertextSegmentLength
      else
        .error (.err (.invalidPlaintextLength plaintextLength
          (.exactly maximum)))

/-- The length prefix that `write_segment_framing` chooses. -/
def framingPrefix (kind : SegmentKind) (required : Nat) : Result Nat :=
  match kind with
  | .nonFinal => .ok u32Max
  | .final =>
      if required ≤ u32Max then
        .ok required
      else
        .error (.err .lengthOverflow)

/-- `write_segment_framing`: the length prefix and a fresh nonce. -/
def writeSegmentFraming (nonces : NonceGenerator) (output : Bytes)
    (kind : SegmentKind) (required : Nat) :
    Result (Octets aeadIvLength) × NonceGenerator × Bytes :=
  match framingPrefix kind required with
  | .error stop =>
      (.error stop, nonces, output)
  | .ok lengthPrefix =>
      match (copyRange output 0 segmentPrefixLength
          (beBytes 4 lengthPrefix) : Result Bytes) with
      | .error stop =>
          (.error stop, nonces, output)
      | .ok output =>
          match nonces.draw with
          | (.error stop, nonces) =>
              (.error stop, nonces, output)
          | (.ok nonce, nonces) =>
              match (copyRange output segmentPrefixLength segmentPayloadOffset
                  nonce.val : Result Bytes) with
              | .error stop =>
                  (.error stop, nonces, output)
              | .ok output =>
                  (.ok nonce, nonces, output)

/-- What the caller's seal needs: the complete segment length, the fresh nonce,
the key and the segment AAD. -/
structure SealInputs where
  required : Nat
  nonce : Octets aeadIvLength
  key : AeadKey
  aad : Bytes
  deriving DecidableEq

/-- `begin_segment_encryption`. -/
def beginSegmentEncryption (platform : Platform) (context : MessageContext)
    (keys : KeyCache) (nonces : NonceGenerator) (output : Bytes)
    (plaintextLength position : Nat) (kind : SegmentKind) :
    Result SealInputs × KeyCache × NonceGenerator × Bytes :=
  match ciphertextSegmentSize platform context plaintextLength kind with
  | .error stop =>
      (.error stop, keys, nonces, output)
  | .ok required =>
      if output.length < required then
        (.error (.err (.outputTooSmall output.length required)),
          keys, nonces, output)
      else
        match writeSegmentFraming nonces output kind required with
        | (.error stop, nonces, output) =>
            (.error stop, keys, nonces, output)
        | (.ok nonce, nonces, output) =>
            match keys.keyForPosition platform context position with
            | (.error stop, keys) =>
                (.error stop, keys, nonces, output)
            | (.ok key, keys) =>
                (.ok { required, nonce, key, aad := segmentAad position kind },
                  keys, nonces, output)

/-- `encrypt_segment_into_inner`. -/
def encryptSegmentIntoInner (platform : Platform) (context : MessageContext)
    (keys : KeyCache) (nonces : NonceGenerator) (plaintext : Bytes)
    (position : Nat) (kind : SegmentKind) (output : Bytes) :
    Result Nat × KeyCache × NonceGenerator × Bytes :=
  match beginSegmentEncryption platform context keys nonces output
      plaintext.length position kind with
  | (.error stop, keys, nonces, output) =>
      (.error stop, keys, nonces, output)
  | (.ok inputs, keys, nonces, output) =>
      match (slice output segmentPayloadOffset inputs.required :
          Result Bytes) with
      | .error stop =>
          (.error stop, keys, nonces, output)
      | .ok region =>
          match inputs.key.sealInto platform inputs.nonce inputs.aad plaintext
              region with
          | (.error stop, region) =>
              (.error stop, keys, nonces,
                writeBack output segmentPayloadOffset region)
          | (.ok (), region) =>
              (.ok inputs.required, keys, nonces,
                writeBack output segmentPayloadOffset region)

/-- `encrypt_segment_in_place_inner`. -/
def encryptSegmentInPlaceInner (platform : Platform) (context : MessageContext)
    (keys : KeyCache) (nonces : NonceGenerator) (buffer : Bytes)
    (plaintextLength position : Nat) (kind : SegmentKind) :
    Result Nat × KeyCache × NonceGenerator × Bytes :=
  match beginSegmentEncryption platform context keys nonces buffer
      plaintextLength position kind with
  | (.error stop, keys, nonces, buffer) =>
      (.error stop, keys, nonces, buffer)
  | (.ok inputs, keys, nonces, buffer) =>
      let tagStart := segmentPayloadOffset + plaintextLength
      match (slice buffer segmentPayloadOffset tagStart : Result Bytes) with
      | .error stop =>
          (.error stop, keys, nonces, buffer)
      | .ok region =>
          match inputs.key.sealInPlace platform inputs.nonce inputs.aad
              region with
          | (.error stop, region) =>
              (.error stop, keys, nonces,
                writeBack buffer segmentPayloadOffset region)
          | (.ok tag, region) =>
              let buffer := writeBack buffer segmentPayloadOffset region
              match (copyRange buffer tagStart inputs.required tag.val :
                  Result Bytes) with
              | .error stop =>
                  (.error stop, keys, nonces, buffer)
              | .ok buffer =>
                  (.ok inputs.required, keys, nonces, buffer)

/-! ## Segment decryption -/

/-- `validate_segment`; returns the plaintext length. -/
def validateSegment (context : MessageContext) (ciphertextSegment : Bytes)
    (kind : SegmentKind) : Result Nat := do
  let maximum := context.parameters.ciphertextSegmentLength
  match kind with
  | .final =>
      context.parameters.validateCiphertextSegmentLength
        ciphertextSegment.length
  | .nonFinal =>
      if ciphertextSegment.length ≠ maximum then
        .error (.err (.invalidCiphertextLength ciphertextSegment.length
          (.exactly maximum)))
      else
        .ok ()
  let prefixSlice ← slice ciphertextSegment 0 segmentPrefixLength
  let prefixBytes ← Outcome.okOr .invalidSegmentPrefix
    (Octets.ofSlice? segmentPrefixLength prefixSlice)
  let lengthPrefix := beValue prefixBytes.val
  match kind with
  | .final =>
      if lengthPrefix ≠ ciphertextSegment.length then
        .error (.err (.invalidCiphertextLength ciphertextSegment.length
          (.exactly lengthPrefix)))
      else
        .ok ()
  | .nonFinal =>
      if lengthPrefix ≠ u32Max then
        .error (.err .invalidSegmentPrefix)
      else
        .ok ()
  sub ciphertextSegment.length segmentOverhead

/-- `validate_framed_length`. -/
def validateFramedLength (actual : Nat) (framing : SegmentFraming) :
    Result Nat :=
  let expected := framing.ciphertextLength
  if actual ≠ expected then
    .error (.err (.invalidCiphertextLength actual (.exactly expected)))
  else
    .ok framing.plaintextLength

/-- The nonce, ciphertext and tag that `decrypt_segment_into_inner` slices out
of a segment. -/
def splitForOpen (ciphertextSegment : Bytes) :
    Result (Octets aeadIvLength × Bytes × Octets aeadTagLength) := do
  let tagStart ← sub ciphertextSegment.length aeadTagLength
  let nonceSlice ←
    slice ciphertextSegment segmentPrefixLength segmentPayloadOffset
  let nonce ← Outcome.okOr .cryptoFailure
    (Octets.ofSlice? aeadIvLength nonceSlice)
  let tagSlice ← slice ciphertextSegment tagStart ciphertextSegment.length
  let tag ← Outcome.okOr .cryptoFailure
    (Octets.ofSlice? aeadTagLength tagSlice)
  let ciphertext ← slice ciphertextSegment segmentPayloadOffset tagStart
  .ok (nonce, ciphertext, tag)

/-- `decrypt_segment_into_inner`. -/
def decryptSegmentIntoInner (platform : Platform) (context : MessageContext)
    (keys : KeyCache) (ciphertextSegment : Bytes) (position : Nat)
    (kind : SegmentKind) (plaintextLength : Nat) (output : Bytes) :
    Result Nat × KeyCache × Bytes :=
  if output.length < plaintextLength then
    (.error (.err (.outputTooSmall output.length plaintextLength)),
      keys, output)
  else
    match keys.keyForPosition platform context position with
    | (.error stop, keys) =>
        (.error stop, keys, output)
    | (.ok key, keys) =>
        match splitForOpen ciphertextSegment with
        | .error stop =>
            (.error stop, keys, output)
        | .ok (nonce, ciphertext, tag) =>
            match (slice output 0 plaintextLength : Result Bytes) with
            | .error stop =>
                (.error stop, keys, output)
            | .ok region =>
                match key.openInto platform nonce (segmentAad position kind)
                    ciphertext tag region with
                | (.error stop, region) =>
                    (.error stop, keys, writeBack output 0 region)
                | (.ok (), region) =>
                    (.ok plaintextLength, keys, writeBack output 0 region)

/-- The nonce, ciphertext and tag that `open_segment_in_place` splits off a
segment. -/
def splitForOpenInPlace (ciphertextSegment : Bytes) (plaintextLength : Nat) :
    Result (Octets aeadIvLength × Bytes × Octets aeadTagLength) := do
  let (framing, ciphertextAndTag) ←
    splitAt ciphertextSegment segmentPayloadOffset
  let nonceSlice ← slice framing segmentPrefixLength framing.length
  let nonce ← Outcome.okOr .cryptoFailure
    (Octets.ofSlice? aeadIvLength nonceSlice)
  let (ciphertext, tagBytes) ← splitAt ciphertextAndTag plaintextLength
  let tag ← Outcome.okOr .cryptoFailure
    (Octets.ofSlice? aeadTagLength tagBytes)
  .ok (nonce, ciphertext, tag)

/-- `open_segment_in_place`; returns the plaintext slice. -/
def openSegmentInPlace (platform : Platform) (context : MessageContext)
    (keys : KeyCache) (ciphertextSegment : Bytes) (position : Nat)
    (kind : SegmentKind) (plaintextLength : Nat) :
    Result Bytes × KeyCache × Bytes :=
  match keys.keyForPosition platform context position with
  | (.error stop, keys) =>
      (.error stop, keys, ciphertextSegment)
  | (.ok key, keys) =>
      match splitForOpenInPlace ciphertextSegment plaintextLength with
      | .error stop =>
          (.error stop, keys, ciphertextSegment)
      | .ok (nonce, ciphertext, tag) =>
          match key.openInPlace platform nonce (segmentAad position kind) tag
              ciphertext with
          | (.error stop, ciphertext) =>
              (.error stop, keys, writeBack ciphertextSegment
                segmentPayloadOffset ciphertext)
          | (.ok (), ciphertext) =>
              (.ok ciphertext, keys, writeBack ciphertextSegment
                segmentPayloadOffset ciphertext)

/-- `decrypt_segment_in_place_inner`. -/
def decryptSegmentInPlaceInner (platform : Platform) (context : MessageContext)
    (keys : KeyCache) (ciphertextSegment : Bytes) (position : Nat)
    (kind : SegmentKind) : Result Bytes × KeyCache × Bytes :=
  match validateSegment context ciphertextSegment kind with
  | .error stop =>
      (.error stop, keys, ciphertextSegment)
  | .ok plaintextLength =>
      openSegmentInPlace platform context keys ciphertextSegment position kind
        plaintextLength

/-- `validate_layout`. -/
def validateLayout (context : MessageContext) (segment : SegmentLayout) :
    Result Unit :=
  if segment.parameters = context.parameters then
    .ok ()
  else
    .error (.err .invalidParameters)

/-! ## Encryption states -/

/-- State for the random-access encryption functions. -/
structure EncryptionState where
  context : MessageContext
  keys : KeyCache
  nonces : NonceGenerator

/-- Shareable message context for parallel random-access encryption. -/
structure SharedEncryptionContext where
  context : MessageContext

namespace EncryptionState

def parameters (self : EncryptionState) : Parameters :=
  self.context.parameters

/-- `EncryptionState::into_shared`. -/
def intoShared (self : EncryptionState) : SharedEncryptionContext :=
  ⟨self.context⟩

/-- `EncryptionState::encrypt_segment_into_at`. -/
def encryptSegmentIntoAt (platform : Platform) (self : EncryptionState)
    (plaintext : Bytes) (position : Nat) (kind : SegmentKind)
    (output : Bytes) : Result Nat × EncryptionState × Bytes :=
  match encryptSegmentIntoInner platform self.context self.keys self.nonces
      plaintext position kind output with
  | (result, keys, nonces, output) =>
      (result, { self with keys, nonces }, output)

/-- `EncryptionState::encrypt_segment_in_place_raw_at`. -/
def encryptSegmentInPlaceRawAt (platform : Platform) (self : EncryptionState)
    (buffer : Bytes) (plaintextLength position : Nat) (kind : SegmentKind) :
    Result Nat × EncryptionState × Bytes :=
  match encryptSegmentInPlaceInner platform self.context self.keys self.nonces
      buffer plaintextLength position kind with
  | (result, keys, nonces, buffer) =>
      (result, { self with keys, nonces }, buffer)

/-- `EncryptionState::encrypt_segment_at`. -/
def encryptSegmentAt (platform : Platform) (self : EncryptionState)
    (plaintext : Bytes) (position : Nat) (kind : SegmentKind) :
    Result Bytes × EncryptionState :=
  match ciphertextSegmentSize platform self.context plaintext.length kind with
  | .error stop =>
      (.error stop, self)
  | .ok required =>
      match self.encryptSegmentIntoAt platform plaintext position kind
          (zeros required) with
      | (.error stop, self, _) => (.error stop, self)
      | (.ok _, self, output) => (.ok output, self)

/-- `EncryptionState::encrypt_segment_in_place_at`. -/
def encryptSegmentInPlaceAt (platform : Platform) (self : EncryptionState)
    (buffer : SegmentBuffer) (position : Nat) (kind : SegmentKind) :
    Result Bytes × EncryptionState × SegmentBuffer :=
  if ¬ buffer.hasParameters self.parameters then
    (.error (.err .invalidParameters), self, buffer)
  else
    match buffer.plaintextLength with
    | .error stop =>
        (.error stop, self, buffer)
    | .ok plaintextLength =>
        match self.encryptSegmentInPlaceRawAt platform buffer.bytes
            plaintextLength position kind with
        | (.ok written, self, bytes) =>
            let buffer := (buffer.withRaw bytes).markCiphertext written
            (buffer.ciphertext, self, buffer)
        | (.error (.err error), self, bytes) =>
            -- The buffer still holds the plaintext that failed to encrypt.
            (.error (.err error), self, (buffer.withRaw bytes).clear)
        | (.error .panic, self, bytes) =>
            (.error .panic, self, buffer.withRaw bytes)
        | (.error .diverge, self, bytes) =>
            (.error .diverge, self, buffer.withRaw bytes)

/-- `EncryptionState::validate_plaintext_layout`. -/
def validatePlaintextLayout (self : EncryptionState) (actual : Nat)
    (segment : SegmentLayout) : Result Unit := do
  validateLayout self.context segment
  let expected := segment.plaintextLength
  if actual = expected then
    .ok ()
  else
    .error (.err (.invalidPlaintextLength actual (.exactly expected)))

/-- `EncryptionState::encrypt_segment`. -/
def encryptSegment (platform : Platform) (self : EncryptionState)
    (plaintext : Bytes) (segment : SegmentLayout) :
    Result Bytes × EncryptionState :=
  match self.validatePlaintextLayout plaintext.length segment with
  | .error stop =>
      (.error stop, self)
  | .ok () =>
      self.encryptSegmentAt platform plaintext segment.position segment.kind

/-- `EncryptionState::encrypt_segment_into`. -/
def encryptSegmentInto (platform : Platform) (self : EncryptionState)
    (plaintext : Bytes) (segment : SegmentLayout) (output : Bytes) :
    Result Nat × EncryptionState × Bytes :=
  match self.validatePlaintextLayout plaintext.length segment with
  | .error stop =>
      (.error stop, self, output)
  | .ok () =>
      self.encryptSegmentIntoAt platform plaintext segment.position
        segment.kind output

/-- `EncryptionState::encrypt_segment_in_place`. -/
def encryptSegmentInPlace (platform : Platform) (self : EncryptionState)
    (buffer : SegmentBuffer) (segment : SegmentLayout) :
    Result Bytes × EncryptionState × SegmentBuffer :=
  match buffer.plaintextLength with
  | .error stop =>
      (.error stop, self, buffer)
  | .ok plaintextLength =>
      match self.validatePlaintextLayout plaintextLength segment with
      | .error stop =>
          (.error stop, self, buffer)
      | .ok () =>
          self.encryptSegmentInPlaceAt platform buffer segment.position
            segment.kind

/-- `EncryptionState::encrypt_segment_in_place_raw`. -/
def encryptSegmentInPlaceRaw (platform : Platform) (self : EncryptionState)
    (buffer : Bytes) (segment : SegmentLayout) :
    Result Nat × EncryptionState × Bytes :=
  match validateLayout self.context segment with
  | .error stop =>
      (.error stop, self, buffer)
  | .ok () =>
      self.encryptSegmentInPlaceRawAt platform buffer segment.plaintextLength
        segment.position segment.kind

end EncryptionState

/-- `SharedEncryptionContext::fork`; `rng` is the forked state's generator. -/
def SharedEncryptionContext.fork (self : SharedEncryptionContext)
    (rng : ProviderRng) : EncryptionState where
  context := self.context
  keys := KeyCache.empty
  nonces := NonceGenerator.new rng

/-! ## Decryption states -/

/-- State for the random-access decryption functions. -/
structure DecryptionState where
  context : MessageContext
  keys : KeyCache
  deriving DecidableEq

/-- Shareable message context for parallel random-access decryption. -/
structure SharedDecryptionContext where
  context : MessageContext
  deriving DecidableEq

namespace DecryptionState

def parameters (self : DecryptionState) : Parameters :=
  self.context.parameters

/-- `DecryptionState::into_shared`. -/
def intoShared (self : DecryptionState) : SharedDecryptionContext :=
  ⟨self.context⟩

/-- `decrypt_segment_into_inner` on this state's context and key cache. -/
def openInto (platform : Platform) (self : DecryptionState)
    (ciphertextSegment : Bytes) (position : Nat) (kind : SegmentKind)
    (plaintextLength : Nat) (output : Bytes) :
    Result Nat × DecryptionState × Bytes :=
  match decryptSegmentIntoInner platform self.context self.keys
      ciphertextSegment position kind plaintextLength output with
  | (result, keys, output) =>
      (result, { self with keys }, output)

/-- `DecryptionState::decrypt_segment_into_at`. -/
def decryptSegmentIntoAt (platform : Platform) (self : DecryptionState)
    (ciphertextSegment : Bytes) (position : Nat) (kind : SegmentKind)
    (output : Bytes) : Result Nat × DecryptionState × Bytes :=
  match validateSegment self.context ciphertextSegment kind with
  | .error stop =>
      (.error stop, self, output)
  | .ok plaintextLength =>
      self.openInto platform ciphertextSegment position kind plaintextLength
        output

/-- `DecryptionState::decrypt_segment_into_at_framed`. -/
def decryptSegmentIntoAtFramed (platform : Platform) (self : DecryptionState)
    (ciphertextSegment : Bytes) (position : Nat) (framing : SegmentFraming)
    (output : Bytes) : Result Nat × DecryptionState × Bytes :=
  match validateFramedLength ciphertextSegment.length framing with
  | .error stop =>
      (.error stop, self, output)
  | .ok plaintextLength =>
      self.openInto platform ciphertextSegment position framing.kind
        plaintextLength output

/-- Opening into a fresh vector, as the allocating variants do. -/
def openVec (platform : Platform) (self : DecryptionState)
    (ciphertextSegment : Bytes) (position : Nat) (kind : SegmentKind)
    (plaintextLength : Nat) : Result Bytes × DecryptionState :=
  match self.openInto platform ciphertextSegment position kind plaintextLength
      (zeros plaintextLength) with
  | (.error stop, self, _) => (.error stop, self)
  | (.ok _, self, output) => (.ok output, self)

/-- `DecryptionState::decrypt_segment_at`. -/
def decryptSegmentAt (platform : Platform) (self : DecryptionState)
    (ciphertextSegment : Bytes) (position : Nat) (kind : SegmentKind) :
    Result Bytes × DecryptionState :=
  match validateSegment self.context ciphertextSegment kind with
  | .error stop =>
      (.error stop, self)
  | .ok plaintextLength =>
      self.openVec platform ciphertextSegment position kind plaintextLength

/-- `DecryptionState::decrypt_segment_at_framed`. -/
def decryptSegmentAtFramed (platform : Platform) (self : DecryptionState)
    (ciphertextSegment : Bytes) (position : Nat) (framing : SegmentFraming) :
    Result Bytes × DecryptionState :=
  match validateFramedLength ciphertextSegment.length framing with
  | .error stop =>
      (.error stop, self)
  | .ok plaintextLength =>
      self.openVec platform ciphertextSegment position framing.kind
        plaintextLength

/-- `DecryptionState::decrypt_segment_in_place_raw_at`; returns the plaintext
slice. -/
def decryptSegmentInPlaceRawAt (platform : Platform) (self : DecryptionState)
    (ciphertextSegment : Bytes) (position : Nat) (kind : SegmentKind) :
    Result Bytes × DecryptionState × Bytes :=
  match decryptSegmentInPlaceInner platform self.context self.keys
      ciphertextSegment position kind with
  | (result, keys, ciphertextSegment) =>
      (result, { self with keys }, ciphertextSegment)

/-- `DecryptionState::decrypt_segment_in_place_at_framed`. -/
def decryptSegmentInPlaceAtFramed (platform : Platform)
    (self : DecryptionState) (buffer : SegmentBuffer) (position : Nat)
    (framing : SegmentFraming) :
    Result Nat × DecryptionState × SegmentBuffer :=
  if ¬ buffer.hasParameters self.parameters then
    (.error (.err .invalidParameters), self, buffer)
  else
    match (do
        let ciphertextLength ← buffer.ciphertextLength
        let plaintextLength ← validateFramedLength ciphertextLength framing
        let segment ← slice buffer.bytes 0 ciphertextLength
        .ok (segment, plaintextLength) : Result (Bytes × Nat)) with
    | .error stop =>
        (.error stop, self, buffer)
    | .ok (segment, plaintextLength) =>
        match openSegmentInPlace platform self.context self.keys segment
            position framing.kind plaintextLength with
        | (result, keys, segment) =>
            (result.map List.length, { self with keys },
              buffer.withRaw (writeBack buffer.bytes 0 segment))

/-- `DecryptionState::validate_ciphertext_layout`. -/
def validateCiphertextLayout (self : DecryptionState) (actual : Nat)
    (segment : SegmentLayout) : Result Unit := do
  validateLayout self.context segment
  let expected := segment.ciphertextLength
  if actual = expected then
    .ok ()
  else
    .error (.err (.invalidCiphertextLength actual (.exactly expected)))

/-- `DecryptionState::decrypt_segment`. -/
def decryptSegment (platform : Platform) (self : DecryptionState)
    (ciphertextSegment : Bytes) (segment : SegmentLayout) :
    Result Bytes × DecryptionState :=
  match self.validateCiphertextLayout ciphertextSegment.length segment with
  | .error stop =>
      (.error stop, self)
  | .ok () =>
      self.decryptSegmentAt platform ciphertextSegment segment.position
        segment.kind

/-- `DecryptionState::decrypt_segment_into`. -/
def decryptSegmentInto (platform : Platform) (self : DecryptionState)
    (ciphertextSegment : Bytes) (segment : SegmentLayout) (output : Bytes) :
    Result Nat × DecryptionState × Bytes :=
  match self.validateCiphertextLayout ciphertextSegment.length segment with
  | .error stop =>
      (.error stop, self, output)
  | .ok () =>
      self.decryptSegmentIntoAt platform ciphertextSegment segment.position
        segment.kind output

/-- `DecryptionState::decrypt_segment_in_place`. -/
def decryptSegmentInPlace (platform : Platform) (self : DecryptionState)
    (buffer : SegmentBuffer) (segment : SegmentLayout) :
    Result Bytes × SegmentBuffer × DecryptionState :=
  buffer.decryptWith self fun buffer self =>
    match (do
        let ciphertextLength ← buffer.ciphertextLength
        self.validateCiphertextLayout ciphertextLength segment
        if ¬ buffer.hasParameters self.parameters then
          .error (.err .invalidParameters)
        else
          slice buffer.bytes 0 ciphertextLength : Result Bytes) with
    | .error stop =>
        (.error stop, buffer, self)
    | .ok ciphertextSegment =>
        match self.decryptSegmentInPlaceRawAt platform ciphertextSegment
            segment.position segment.kind with
        | (result, self, ciphertextSegment) =>
            (result.map List.length,
              buffer.withRaw (writeBack buffer.bytes 0 ciphertextSegment),
              self)

/-- `DecryptionState::decrypt_segment_in_place_raw`. -/
def decryptSegmentInPlaceRaw (platform : Platform) (self : DecryptionState)
    (ciphertextSegment : Bytes) (segment : SegmentLayout) :
    Result Bytes × DecryptionState × Bytes :=
  match validateLayout self.context segment with
  | .error stop =>
      (.error stop, self, ciphertextSegment)
  | .ok () =>
      let required := segment.ciphertextLength
      if ciphertextSegment.length < required then
        (.error (.err (.invalidCiphertextLength ciphertextSegment.length
          (.atLeast required))), self, ciphertextSegment)
      else
        match (slice ciphertextSegment 0 required : Result Bytes) with
        | .error stop =>
            (.error stop, self, ciphertextSegment)
        | .ok region =>
            match self.decryptSegmentInPlaceRawAt platform region
                segment.position segment.kind with
            | (result, self, region) =>
                (result, self, writeBack ciphertextSegment 0 region)

end DecryptionState

/-- `SharedDecryptionContext::fork`. -/
def SharedDecryptionContext.fork (self : SharedDecryptionContext) :
    DecryptionState where
  context := self.context
  keys := KeyCache.empty

/-! ## Starting a message -/

/-- `start_encryption`; `rng` is the fresh generator of the key's provider. -/
def startEncryption (platform : Platform) (key : Key) (aad : Bytes)
    (parameters : Parameters) (rng : ProviderRng) :
    Result (EncryptionState × Header) := do
  let provider ← key.resolveProvider platform
  let drawn := rng.fill floeIvLength
  drawn.1
  let floeIv ← Outcome.expect (Octets.ofSlice? floeIvLength drawn.2.1)
  let encoded := parameters.encode
  let headerTag ← deriveHeaderTag platform provider key encoded floeIv aad
  let messageKey ← deriveMessageKey platform provider key encoded floeIv aad
  let header := Header.fromFields encoded floeIv headerTag
  let context : MessageContext :=
    { provider, parameters, messageKey, floeIv, aad }
  let keys ← KeyCache.new platform context
  .ok ({ context, keys, nonces := NonceGenerator.new drawn.2.2 }, header)

/-- `start_decryption_with_provider`. -/
def startDecryptionWithProvider (platform : Platform) (key : Key)
    (provider : Provider) (aad : Bytes) (parameters : Parameters)
    (header : Header) : Result DecryptionState := do
  let encoded := parameters.encode
  if header.encodedParameters ≠ encoded then
    .error (.err .invalidHeaderParameters)
  else
    let floeIv := header.floeIv
    let expectedTag ← deriveHeaderTag platform provider key encoded floeIv aad
    if expectedTag ≠ header.tag then
      .error (.err .invalidHeaderTag)
    else
      let messageKey ←
        deriveMessageKey platform provider key encoded floeIv aad
      let context : MessageContext :=
        { provider, parameters, messageKey, floeIv, aad }
      let keys ← KeyCache.new platform context
      .ok { context, keys }

/-- `start_decryption`. -/
def startDecryption (platform : Platform) (key : Key) (aad : Bytes)
    (parameters : Parameters) (header : Header) : Result DecryptionState := do
  let provider ← key.resolveProvider platform
  startDecryptionWithProvider platform key provider aad parameters header

/-- `start_decryption_inferred`. -/
def startDecryptionInferred (platform : Platform) (key : Key) (aad : Bytes)
    (header : Header) : Result DecryptionState := do
  let provider ← key.resolveProvider platform
  let parameters ← header.unverifiedParameters
  startDecryptionWithProvider platform key provider aad parameters header

end FastFloe
