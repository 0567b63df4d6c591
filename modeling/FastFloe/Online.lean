import FastFloe.Wire

namespace FastFloe

open Rust

/-!
# Sequential segment processing

The online `Encryptor` and `Decryptor`, and the one-shot `encrypt` and
`decrypt`.
-/

/-- The next segment position and whether the final segment was processed. -/
structure SegmentCounter where
  next : Nat
  closed : Bool
  deriving Repr, DecidableEq

namespace SegmentCounter

def new : SegmentCounter := ⟨0, false⟩

/-- `SegmentCounter::position_for`. -/
def positionFor (self : SegmentCounter) (kind : SegmentKind) : Result Nat :=
  if self.closed then
    .error (.err .closed)
  else
    match kind with
    | .nonFinal =>
        if self.next = aeadMaxSegments - 1 then
          .error (.err .segmentLimit)
        else
          .ok self.next
    | .final =>
        if self.next ≥ aeadMaxSegments then
          .error (.err .segmentLimit)
        else
          .ok self.next

/-- `SegmentCounter::complete`. -/
def complete (self : SegmentCounter) : SegmentKind → SegmentCounter
  | .nonFinal => { self with next := self.next + 1 }
  | .final => { self with closed := true }

/-- `SegmentCounter::finish`. -/
def finish (self : SegmentCounter) : Result Unit :=
  if self.closed then .ok () else .error (.err .truncated)

end SegmentCounter

/-! ## Encryption -/

/-- Misuse-resistant sequential FLOE encryptor. -/
structure Encryptor where
  state : EncryptionState
  header : Header
  counter : SegmentCounter

/-- Error returned when final-segment encryption fails; it keeps the
encryptor. -/
structure FinalEncryptError where
  encryptor : Encryptor
  error : Error

namespace FinalEncryptError

def intoEncryptor (self : FinalEncryptError) : Encryptor := self.encryptor

def intoError (self : FinalEncryptError) : Error := self.error

end FinalEncryptError

namespace Encryptor

/-- `Encryptor::new`; `rng` is the fresh generator of the key's provider. -/
def new (platform : Platform) (key : Key) (aad : Bytes)
    (parameters : Parameters) (rng : ProviderRng) : Result Encryptor := do
  let (state, header) ← startEncryption platform key aad parameters rng
  .ok { state, header, counter := SegmentCounter.new }

def parameters (self : Encryptor) : Parameters := self.state.parameters

def nextPosition (self : Encryptor) : Nat := self.counter.next

/-- `Encryptor::advance`: runs one non-final operation at the reserved
position and advances the counter only on success.  `borrowed` is what the
operation's closure borrows. -/
def advance {α ω : Type} (self : Encryptor) (borrowed : ω)
    (op : EncryptionState → ω → Nat → Result α × EncryptionState × ω) :
    Result α × Encryptor × ω :=
  match self.counter.positionFor .nonFinal with
  | .error stop =>
      (.error stop, self, borrowed)
  | .ok position =>
      match op self.state borrowed position with
      | (.error stop, state, borrowed) =>
          (.error stop, { self with state }, borrowed)
      | (.ok value, state, borrowed) =>
          (.ok value,
            { self with state, counter := self.counter.complete .nonFinal },
            borrowed)

/-- `Encryptor::finalize`: runs the final operation, consuming the encryptor
on success and preserving it in the error on failure. -/
def finalize {α ω : Type} (self : Encryptor) (borrowed : ω)
    (op : EncryptionState → ω → Nat → Result α × EncryptionState × ω) :
    Outcome FinalEncryptError α × ω :=
  match self.counter.positionFor .final with
  | .error stop =>
      (Outcome.mapErr (FinalEncryptError.mk self) (.error stop), borrowed)
  | .ok position =>
      match op self.state borrowed position with
      | (result, state, borrowed) =>
          (result.mapErr (FinalEncryptError.mk { self with state }), borrowed)

/-- `Encryptor::encrypt_non_final_segment`. -/
def encryptNonFinalSegment (platform : Platform) (self : Encryptor)
    (plaintext : Bytes) : Result Bytes × Encryptor :=
  match self.advance () (fun state _ position =>
      match state.encryptSegmentAt platform plaintext position .nonFinal with
      | (result, state) => (result, state, ())) with
  | (result, self, ()) => (result, self)

/-- `Encryptor::encrypt_non_final_segment_into`. -/
def encryptNonFinalSegmentInto (platform : Platform) (self : Encryptor)
    (plaintext output : Bytes) : Result Nat × Encryptor × Bytes :=
  self.advance output fun state output position =>
    state.encryptSegmentIntoAt platform plaintext position .nonFinal output

/-- `Encryptor::encrypt_non_final_segment_in_place`. -/
def encryptNonFinalSegmentInPlace (platform : Platform) (self : Encryptor)
    (buffer : SegmentBuffer) : Result Bytes × Encryptor × SegmentBuffer :=
  self.advance buffer fun state buffer position =>
    state.encryptSegmentInPlaceAt platform buffer position .nonFinal

/-- `Encryptor::encrypt_final_segment`. -/
def encryptFinalSegment (platform : Platform) (self : Encryptor)
    (plaintext : Bytes) : Outcome FinalEncryptError Bytes :=
  (self.finalize () (fun state _ position =>
    match state.encryptSegmentAt platform plaintext position .final with
    | (result, state) => (result, state, ()))).1

/-- `Encryptor::encrypt_final_segment_into`. -/
def encryptFinalSegmentInto (platform : Platform) (self : Encryptor)
    (plaintext output : Bytes) : Outcome FinalEncryptError Nat × Bytes :=
  self.finalize output fun state output position =>
    state.encryptSegmentIntoAt platform plaintext position .final output

/-- `Encryptor::encrypt_final_segment_in_place`. -/
def encryptFinalSegmentInPlace (platform : Platform) (self : Encryptor)
    (buffer : SegmentBuffer) :
    Outcome FinalEncryptError Bytes × SegmentBuffer :=
  self.finalize buffer fun state buffer position =>
    state.encryptSegmentInPlaceAt platform buffer position .final

end Encryptor

/-- `segment_prefix`. -/
def segmentPrefix (ciphertextSegment : Bytes) (parameters : Parameters) :
    Result (Octets segmentPrefixLength) := do
  if ciphertextSegment.length < segmentPrefixLength then
    .error (.err (.invalidCiphertextLength ciphertextSegment.length
      (.between segmentPrefixLength parameters.ciphertextSegmentLength)))
  else
    let prefixSlice ← slice ciphertextSegment 0 segmentPrefixLength
    Outcome.okOr .invalidSegmentPrefix
      (Octets.ofSlice? segmentPrefixLength prefixSlice)

/-! ## Decryption -/

/-- Misuse-resistant sequential FLOE decryptor. -/
structure Decryptor where
  state : DecryptionState
  counter : SegmentCounter
  deriving DecidableEq

namespace Decryptor

/-- `Decryptor::new`. -/
def new (platform : Platform) (key : Key) (aad : Bytes) (header : Header) :
    Result Decryptor := do
  let state ← startDecryptionInferred platform key aad header
  .ok { state, counter := SegmentCounter.new }

/-- `Decryptor::new_with_parameters`. -/
def newWithParameters (platform : Platform) (key : Key) (aad : Bytes)
    (parameters : Parameters) (header : Header) : Result Decryptor := do
  let state ← startDecryption platform key aad parameters header
  .ok { state, counter := SegmentCounter.new }

def parameters (self : Decryptor) : Parameters := self.state.parameters

/-- `Decryptor::advance`: runs one operation at the reserved position and
advances the counter only on success. -/
def advance {α ω : Type} (self : Decryptor) (kind : SegmentKind)
    (borrowed : ω)
    (op : DecryptionState → ω → Nat → Result α × DecryptionState × ω) :
    Result α × Decryptor × ω :=
  match self.counter.positionFor kind with
  | .error stop =>
      (.error stop, self, borrowed)
  | .ok position =>
      match op self.state borrowed position with
      | (.error stop, state, borrowed) =>
          (.error stop, { self with state }, borrowed)
      | (.ok value, state, borrowed) =>
          (.ok value, { state, counter := self.counter.complete kind },
            borrowed)

/-- `Decryptor::framing`. -/
def framing (self : Decryptor) (ciphertextSegment : Bytes) :
    Result SegmentFraming := do
  let lengthPrefix ← segmentPrefix ciphertextSegment self.parameters
  SegmentFraming.decode self.parameters lengthPrefix

/-- `Decryptor::decrypt_segment`. -/
def decryptSegment (platform : Platform) (self : Decryptor)
    (ciphertextSegment : Bytes) : Result Bytes × Decryptor :=
  match self.framing ciphertextSegment with
  | .error stop =>
      (.error stop, self)
  | .ok framing =>
      match self.advance framing.kind () (fun state _ position =>
          match state.decryptSegmentAtFramed platform ciphertextSegment
              position framing with
          | (result, state) => (result, state, ())) with
      | (result, self, ()) => (result, self)

/-- `Decryptor::decrypt_segment_into_framed`. -/
def decryptSegmentIntoFramed (platform : Platform) (self : Decryptor)
    (ciphertextSegment : Bytes) (framing : SegmentFraming) (output : Bytes) :
    Result Nat × Decryptor × Bytes :=
  self.advance framing.kind output fun state output position =>
    state.decryptSegmentIntoAtFramed platform ciphertextSegment position
      framing output

/-- `Decryptor::decrypt_segment_into`. -/
def decryptSegmentInto (platform : Platform) (self : Decryptor)
    (ciphertextSegment output : Bytes) : Result Nat × Decryptor × Bytes :=
  match self.framing ciphertextSegment with
  | .error stop =>
      (.error stop, self, output)
  | .ok framing =>
      self.decryptSegmentIntoFramed platform ciphertextSegment framing output

/-- `Decryptor::decrypt_segment_in_place`. -/
def decryptSegmentInPlace (platform : Platform) (self : Decryptor)
    (buffer : SegmentBuffer) : Result Bytes × SegmentBuffer × Decryptor :=
  buffer.decryptWith self fun buffer self =>
    match (do
        let ciphertext ← buffer.ciphertext
        self.framing ciphertext : Result SegmentFraming) with
    | .error stop =>
        (.error stop, buffer, self)
    | .ok framing =>
        match self.advance framing.kind buffer (fun state buffer position =>
            state.decryptSegmentInPlaceAtFramed platform buffer position
              framing) with
        | (result, self, buffer) => (result, buffer, self)

/-- `Decryptor::finish`. -/
def finish (self : Decryptor) : Result Unit := self.counter.finish

end Decryptor

/-! ## Whole messages -/

/-- The loop of `encrypt_body` over the last `remaining` segments of the
layout. -/
def encryptBodyLoop (platform : Platform) (layout : MessageLayout)
    (plaintext : Bytes) :
    (remaining position : Nat) → Option Encryptor → (ciphertext : Bytes) →
      Result Bytes
  | 0, _, _, ciphertext =>
      .ok ciphertext
  | remaining + 1, position, encryptor, ciphertext => do
      let segment ← layout.segmentAt platform.target position
      let plaintextStart ← Outcome.okOr .lengthOverflow
        (platform.target.tryFromU64 segment.plaintextOffset)
      let plaintextEnd ← Outcome.okOr .lengthOverflow
        (checkedAdd platform.target.usizeMax plaintextStart
          segment.plaintextLength)
      let outputStart := ciphertext.length
      let outputEnd ← Outcome.okOr .lengthOverflow
        (checkedAdd platform.target.usizeMax outputStart
          segment.ciphertextLength)
      let ciphertext := ciphertext ++ zeros (outputEnd - outputStart)
      let chunk ← slice plaintext plaintextStart plaintextEnd
      let output ← slice ciphertext outputStart ciphertext.length
      let encryptor ← Outcome.expect encryptor
      match segment.kind with
      | .nonFinal =>
          match encryptor.encryptNonFinalSegmentInto platform chunk output with
          | (.error stop, _, _) =>
              .error stop
          | (.ok _, encryptor, output) =>
              encryptBodyLoop platform layout plaintext remaining
                (position + 1) (some encryptor)
                (writeBack ciphertext outputStart output)
      | .final =>
          match encryptor.encryptFinalSegmentInto platform chunk output with
          | (.error stop, _) =>
              Outcome.mapErr FinalEncryptError.intoError (.error stop)
          | (.ok _, output) =>
              encryptBodyLoop platform layout plaintext remaining
                (position + 1) none (writeBack ciphertext outputStart output)

/-- `encrypt_body`. -/
def encryptBody (platform : Platform) (encryptor : Encryptor)
    (plaintext : Bytes) : Result Bytes := do
  let layout ← encryptor.parameters.plaintextLayout plaintext.length
  let _capacity ← Outcome.okOr .lengthOverflow
    (platform.target.tryFromU64 layout.ciphertextLength)
  encryptBodyLoop platform layout plaintext layout.segmentCount 0
    (some encryptor) encryptor.header.val

/-- `encrypt`: a complete plaintext, including its header and final
segment. -/
def encrypt (platform : Platform) (key : Key) (aad : Bytes)
    (parameters : Parameters) (rng : ProviderRng) (plaintext : Bytes) :
    Result Bytes := do
  let encryptor ← Encryptor.new platform key aad parameters rng
  encryptBody platform encryptor plaintext

/-- The loop of `decrypt_body`. -/
def decryptBodyLoop (platform : Platform) (parameters : Parameters) :
    Nat → Decryptor → (body plaintext : Bytes) → Result (Decryptor × Bytes)
  | 0, _, _, _ =>
      .error .diverge
  | fuel + 1, decryptor, body, plaintext =>
      if body = [] then
        .ok (decryptor, plaintext)
      else do
        let lengthPrefix ← segmentPrefix body parameters
        let framing ← SegmentFraming.decode parameters lengthPrefix
        let segmentLength := framing.ciphertextLength
        if body.length < segmentLength then
          .error (.err (.invalidCiphertextLength body.length
            (.atLeast segmentLength)))
        else if framing.kind.isFinal ∧ segmentLength ≠ body.length then
          .error (.err (.invalidCiphertextLength body.length
            (.exactly segmentLength)))
        else
          let (segment, rest) ← splitAt body segmentLength
          let start := plaintext.length
          let plaintext := plaintext ++ zeros framing.plaintextLength
          let output ← slice plaintext start plaintext.length
          match decryptor.decryptSegmentIntoFramed platform segment framing
              output with
          | (.error stop, _, _) =>
              .error stop
          | (.ok _, decryptor, output) =>
              decryptBodyLoop platform parameters fuel decryptor rest
                (writeBack plaintext start output)

/-- `decrypt_body`.  Every turn of the loop removes a segment, so the body's
length bounds the number of turns. -/
def decryptBody (platform : Platform) (decryptor : Decryptor)
    (body : Bytes) : Result Bytes := do
  let (decryptor, plaintext) ← decryptBodyLoop platform decryptor.parameters
    (body.length + 1) decryptor body []
  decryptor.finish
  .ok plaintext

/-- `decrypt`. -/
def decrypt (platform : Platform) (key : Key) (aad ciphertext : Bytes) :
    Result Bytes := do
  let (header, body) ← splitHeader ciphertext
  let decryptor ← Decryptor.new platform key aad header
  decryptBody platform decryptor body

/-- `decrypt_with_parameters`. -/
def decryptWithParameters (platform : Platform) (key : Key) (aad : Bytes)
    (parameters : Parameters) (ciphertext : Bytes) : Result Bytes := do
  let (header, body) ← splitHeader ciphertext
  let decryptor ←
    Decryptor.newWithParameters platform key aad parameters header
  decryptBody platform decryptor body

end FastFloe
