import FastFloe.BufferInvariant

namespace FastFloe

open Rust

/-!
# Reachable segment buffers

The buffers that any sequence of calls can leave behind: the methods of the
buffer, in-place operations of states of any parameter set, and the direct
writes of the encrypting writer.  All of them keep the invariant, and with it no
operation on a buffer can panic.
-/

/-! ## The sequential encryptor and decryptor -/

section Sequential

variable {buffer : SegmentBuffer}

/-- What `EncryptWriter::write_segment_direct` leaves in its buffer: the segment
is written to the storage first and marked afterwards. -/
def SegmentBuffer.sealDirectly (platform : Platform) (encryptor : Encryptor)
    (chunk : Bytes) (buffer : SegmentBuffer) : SegmentBuffer :=
  match encryptor.encryptNonFinalSegmentInto platform chunk buffer.bytes with
  | (.error _, _, bytes) => buffer.withRaw bytes
  | (.ok written, _, bytes) => (buffer.withRaw bytes).markCiphertext written

theorem SegmentBuffer.Invariant.sealDirectly
    (platform : Platform)
    {encryptor : Encryptor}
    (invariant : buffer.Invariant)
    (served : encryptor.state.nonces.WellFormed)
    (chunk : Bytes) :
    (buffer.sealDirectly platform encryptor chunk).Invariant := by
  unfold SegmentBuffer.sealDirectly Encryptor.encryptNonFinalSegmentInto
    Encryptor.advance
  cases encryptor.counter.positionFor .nonFinal with
  | error stop =>
      exact invariant.withRaw rfl
  | ok position =>
      have effect := EncryptionState.encryptSegmentIntoAt_effect platform
        position .nonFinal chunk buffer.bytes served
      simp only
      rcases sealed : encryptor.state.encryptSegmentIntoAt platform chunk
          position .nonFinal buffer.bytes with
        ⟨stop | written, next, bytes⟩
      · rw [sealed] at effect
        exact invariant.withRaw effect.kept
      · rw [sealed] at effect
        obtain ⟨exact, small, _⟩ := effect.written written rfl
        refine invariant.withCiphertext effect.kept ⟨?_, ?_⟩
        · rw [segmentOverhead_eq]
          omega
        · rw [← invariant.sized]
          exact small

theorem Encryptor.encryptNonFinalSegmentInPlace_invariant
    (platform : Platform)
    {encryptor : Encryptor}
    (invariant : buffer.Invariant)
    (served : encryptor.state.nonces.WellFormed) :
    (encryptor.encryptNonFinalSegmentInPlace platform
      buffer).2.2.Invariant := by
  unfold encryptNonFinalSegmentInPlace advance
  cases encryptor.counter.positionFor .nonFinal with
  | error stop =>
      exact invariant
  | ok position =>
      obtain ⟨_, kept⟩ := EncryptionState.encryptSegmentInPlaceAt_effect
        platform position .nonFinal invariant served
      simp only
      rcases sealed : encryptor.state.encryptSegmentInPlaceAt platform buffer
          position .nonFinal with
        ⟨stop | segment, next, left⟩
      · rw [sealed] at kept
        exact kept
      · rw [sealed] at kept
        exact kept

theorem Encryptor.encryptFinalSegmentInPlace_invariant
    (platform : Platform)
    {encryptor : Encryptor}
    (invariant : buffer.Invariant)
    (served : encryptor.state.nonces.WellFormed) :
    (encryptor.encryptFinalSegmentInPlace platform buffer).2.Invariant := by
  unfold encryptFinalSegmentInPlace finalize
  cases encryptor.counter.positionFor .final with
  | error stop =>
      exact invariant
  | ok position =>
      exact (EncryptionState.encryptSegmentInPlaceAt_effect platform position
        .final invariant served).2

/-- A decoded framing is valid. -/
theorem SegmentFraming.valid_of_decode
    {parameters : Parameters}
    {lengthPrefix : Octets segmentPrefixLength}
    {framing : SegmentFraming}
    (decoded :
      SegmentFraming.decode parameters lengthPrefix = .ok framing) :
    framing.Valid parameters := by
  rcases SegmentFraming.decode_spec parameters lengthPrefix with
    ⟨other, same, valid, _⟩ | ⟨⟨error, failed⟩, _⟩
  · rw [decoded] at same
    cases same
    exact valid
  · rw [decoded] at failed
    cases failed

/-- The framing that a decryptor reads from a buffer is a decoded one. -/
theorem Decryptor.preparedFraming_cases
    (invariant : buffer.Invariant)
    (decryptor : Decryptor) :
    (∃ framing,
        preparedFraming buffer decryptor = .ok framing ∧
          framing.Valid decryptor.parameters) ∨
      ∃ error,
        preparedFraming buffer decryptor = .error (.err error) := by
  have holds := invariant.ciphertext_returns
  unfold preparedFraming Decryptor.framing
  cases held : buffer.ciphertext with
  | error stop =>
      rw [held] at holds
      obtain ⟨error, rfl⟩ := holds.stop_eq_err
      exact .inr ⟨error, Outcome.error_bind _ _⟩
  | ok segment =>
      simp only [Outcome.ok_bind]
      rcases decodePrefix_spec decryptor.parameters segment with
        ⟨lengthPrefix, framing, cut, decoded, _⟩ |
          ⟨_, ⟨error, failed⟩ | ⟨lengthPrefix, error, cut, failed⟩⟩
      · refine .inl ⟨framing, ?_, SegmentFraming.valid_of_decode decoded⟩
        simp only [cut, Outcome.ok_bind, decoded]
      · exact .inr ⟨error, by simp only [failed, Outcome.error_bind]⟩
      · exact .inr ⟨error, by simp only [cut, Outcome.ok_bind, failed]⟩

theorem SegmentCounter.positionFor_cases
    (counter : SegmentCounter)
    (kind : SegmentKind) :
    (∃ position, counter.positionFor kind = .ok position) ∨
      ∃ error, counter.positionFor kind = .error (.err error) := by
  unfold positionFor
  split
  · exact .inr ⟨_, rfl⟩
  · cases kind with
    | nonFinal =>
        simp only
        split
        · exact .inr ⟨_, rfl⟩
        · exact .inl ⟨_, rfl⟩
    | final =>
        simp only
        split
        · exact .inr ⟨_, rfl⟩
        · exact .inl ⟨_, rfl⟩

theorem Decryptor.openBuffer_effect
    (platform : Platform)
    (invariant : buffer.Invariant)
    (decryptor : Decryptor) :
    buffer.OpenEffect (openBuffer platform buffer decryptor).1
      (openBuffer platform buffer decryptor).2.1 := by
  unfold openBuffer
  rcases decryptor.preparedFraming_cases invariant with
    ⟨framing, prepared, valid⟩ | ⟨error, refused⟩
  · simp only [prepared, advance]
    rcases decryptor.counter.positionFor_cases framing.kind with
      ⟨position, reserved⟩ | ⟨error, refused⟩
    · have effect :=
        decryptor.state.decryptSegmentInPlaceAtFramed_effect platform position
          invariant valid
      simp only [reserved]
      rcases opened : decryptor.state.decryptSegmentInPlaceAtFramed platform
          buffer position framing with
        ⟨stop | length, next, left⟩
      · rw [opened] at effect
        exact effect
      · rw [opened] at effect
        exact effect
    · simp only [refused]
      exact SegmentBuffer.OpenEffect.of_error
  · simp only [refused]
    exact SegmentBuffer.OpenEffect.of_error

/-- Decrypting a buffer's segment in sequence keeps the buffer's invariant. -/
theorem Decryptor.decryptSegmentInPlace_effect
    (platform : Platform)
    (invariant : buffer.Invariant)
    (decryptor : Decryptor) :
    (decryptor.decryptSegmentInPlace platform buffer).1.Returns ∧
      (decryptor.decryptSegmentInPlace platform buffer).2.1.Invariant := by
  rw [decryptSegmentInPlace_eq, SegmentBuffer.decryptWith_eq]
  exact (decryptor.openBuffer_effect platform invariant).settle invariant

end Sequential

/-! ## Reachable buffers -/

/-- The buffers that a sequence of calls can leave behind.  The states and
their providers are arbitrary at each call: a state may be of another parameter
set, the provider may misbehave, and a call may fail. -/
inductive SegmentBuffer.Reachable : SegmentBuffer → Prop where
  | new (parameters : Parameters) :
      Reachable (SegmentBuffer.new parameters)
  /-- Bytes are written through a slice of the storage. -/
  | written
      {buffer : SegmentBuffer} {bytes : Bytes}
      (reachable : Reachable buffer)
      (kept : bytes.length = buffer.bytes.length) :
      Reachable (buffer.withRaw bytes)
  | preparedPlaintext
      {buffer : SegmentBuffer}
      (reachable : Reachable buffer)
      (length : Nat) :
      Reachable (buffer.preparePlaintext length).2
  | preparedCiphertext
      {buffer : SegmentBuffer}
      (reachable : Reachable buffer)
      (length : Nat) :
      Reachable (buffer.prepareCiphertext length).2
  | extended
      {buffer : SegmentBuffer}
      (reachable : Reachable buffer)
      (input : Bytes) :
      Reachable (buffer.extendPlaintext input).2
  | truncated
      {buffer : SegmentBuffer}
      (reachable : Reachable buffer)
      (length : Nat) :
      Reachable (buffer.truncatePlaintext length).2
  | cleared
      {buffer : SegmentBuffer}
      (reachable : Reachable buffer) :
      Reachable buffer.clear
  | encrypted
      {buffer : SegmentBuffer} {state : EncryptionState}
      (platform : Platform)
      (reachable : Reachable buffer)
      (live : state.Live)
      (layout : SegmentLayout) :
      Reachable (state.encryptSegmentInPlace platform buffer layout).2.2
  | encryptedNonFinal
      {buffer : SegmentBuffer} {encryptor : Encryptor}
      (platform : Platform)
      (reachable : Reachable buffer)
      (live : encryptor.state.Live) :
      Reachable
        (encryptor.encryptNonFinalSegmentInPlace platform buffer).2.2
  | encryptedFinal
      {buffer : SegmentBuffer} {encryptor : Encryptor}
      (platform : Platform)
      (reachable : Reachable buffer)
      (live : encryptor.state.Live) :
      Reachable (encryptor.encryptFinalSegmentInPlace platform buffer).2
  | sealedDirectly
      {buffer : SegmentBuffer} {encryptor : Encryptor}
      (platform : Platform)
      (reachable : Reachable buffer)
      (live : encryptor.state.Live)
      (chunk : Bytes) :
      Reachable (buffer.sealDirectly platform encryptor chunk)
  | decrypted
      {buffer : SegmentBuffer}
      (platform : Platform)
      (reachable : Reachable buffer)
      (state : DecryptionState)
      (layout : SegmentLayout) :
      Reachable (state.decryptSegmentInPlace platform buffer layout).2.1
  | decryptedInSequence
      {buffer : SegmentBuffer}
      (platform : Platform)
      (reachable : Reachable buffer)
      (decryptor : Decryptor) :
      Reachable (decryptor.decryptSegmentInPlace platform buffer).2.1

/-- Every reachable buffer keeps the invariant. -/
theorem SegmentBuffer.Reachable.invariant
    {buffer : SegmentBuffer}
    (reachable : buffer.Reachable) :
    buffer.Invariant := by
  induction reachable with
  | new parameters =>
      exact SegmentBuffer.invariant_new parameters
  | written _ kept inductionHypothesis =>
      exact inductionHypothesis.withRaw kept
  | preparedPlaintext _ length inductionHypothesis =>
      exact (inductionHypothesis.preparePlaintext length).invariant
  | preparedCiphertext _ length inductionHypothesis =>
      exact (inductionHypothesis.prepareCiphertext length).invariant
  | extended _ input inductionHypothesis =>
      exact (inductionHypothesis.extendPlaintext input).invariant
  | truncated _ length inductionHypothesis =>
      exact (inductionHypothesis.truncatePlaintext length).invariant
  | cleared _ inductionHypothesis =>
      exact inductionHypothesis.clear
  | encrypted platform _ live layout inductionHypothesis =>
      exact (EncryptionState.encryptSegmentInPlace_effect platform layout
        inductionHypothesis live.served).2
  | encryptedNonFinal platform _ live inductionHypothesis =>
      exact Encryptor.encryptNonFinalSegmentInPlace_invariant platform
        inductionHypothesis live.served
  | encryptedFinal platform _ live inductionHypothesis =>
      exact Encryptor.encryptFinalSegmentInPlace_invariant platform
        inductionHypothesis live.served
  | sealedDirectly platform _ live chunk inductionHypothesis =>
      exact inductionHypothesis.sealDirectly platform live.served chunk
  | decrypted platform _ state layout inductionHypothesis =>
      exact (state.decryptSegmentInPlace_effect platform layout
        inductionHypothesis).2
  | decryptedInSequence platform _ decryptor inductionHypothesis =>
      exact (decryptor.decryptSegmentInPlace_effect platform
        inductionHypothesis).2

/-! ## Absence of panics -/

/-- The methods of a buffer come back, and a rejected preparation, truncation or
extension leaves the buffer as it was. -/
structure SegmentBuffer.MethodsReturn (buffer : SegmentBuffer) : Prop where
  preparePlaintext :
    ∀ length, buffer.MethodEffect (buffer.preparePlaintext length)
  prepareCiphertext :
    ∀ length, buffer.MethodEffect (buffer.prepareCiphertext length)
  extendPlaintext :
    ∀ input, buffer.MethodEffect (buffer.extendPlaintext input)
  truncatePlaintext :
    ∀ length, buffer.MethodEffect (buffer.truncatePlaintext length)
  plaintext : buffer.plaintext.Returns
  ciphertext : buffer.ciphertext.Returns

/-- No operation of an encryption state panics, on a buffer or on slices of any
length, for any layout, position and kind. -/
structure EncryptionState.NeverPanics (platform : Platform)
    (state : EncryptionState) (buffer : SegmentBuffer) : Prop where
  encryptSegment :
    ∀ plaintext layout,
      (state.encryptSegment platform plaintext layout).1.Returns
  encryptSegmentInto :
    ∀ plaintext layout output,
      (state.encryptSegmentInto platform plaintext layout output).1.Returns
  encryptSegmentInPlace :
    ∀ layout, (state.encryptSegmentInPlace platform buffer layout).1.Returns
  encryptSegmentInPlaceRaw :
    ∀ storage layout,
      (state.encryptSegmentInPlaceRaw platform storage layout).1.Returns
  encryptSegmentAt :
    ∀ plaintext position kind,
      (state.encryptSegmentAt platform plaintext position kind).1.Returns
  encryptSegmentIntoAt :
    ∀ plaintext position kind output,
      (state.encryptSegmentIntoAt platform plaintext position kind
        output).1.Returns
  encryptSegmentInPlaceAt :
    ∀ position kind,
      (state.encryptSegmentInPlaceAt platform buffer position kind).1.Returns
  encryptSegmentInPlaceRawAt :
    ∀ storage plaintextLength position kind,
      (state.encryptSegmentInPlaceRawAt platform storage plaintextLength
        position kind).1.Returns

/-- No operation of a decryption state panics, on a buffer or on slices of any
length, for any layout, position, kind and decoded framing. -/
structure DecryptionState.NeverPanics (platform : Platform)
    (state : DecryptionState) (buffer : SegmentBuffer) : Prop where
  decryptSegment :
    ∀ segment layout,
      (state.decryptSegment platform segment layout).1.Returns
  decryptSegmentInto :
    ∀ segment layout output,
      (state.decryptSegmentInto platform segment layout output).1.Returns
  decryptSegmentInPlace :
    ∀ layout, (state.decryptSegmentInPlace platform buffer layout).1.Returns
  decryptSegmentInPlaceRaw :
    ∀ segment layout,
      (state.decryptSegmentInPlaceRaw platform segment layout).1.Returns
  decryptSegmentAt :
    ∀ segment position kind,
      (state.decryptSegmentAt platform segment position kind).1.Returns
  decryptSegmentIntoAt :
    ∀ segment position kind output,
      (state.decryptSegmentIntoAt platform segment position kind
        output).1.Returns
  decryptSegmentInPlaceRawAt :
    ∀ segment position kind,
      (state.decryptSegmentInPlaceRawAt platform segment position
        kind).1.Returns
  decryptSegmentAtFramed :
    ∀ segment position parameters lengthPrefix framing,
      SegmentFraming.decode parameters lengthPrefix = .ok framing →
        (state.decryptSegmentAtFramed platform segment position
          framing).1.Returns
  decryptSegmentIntoAtFramed :
    ∀ segment position parameters lengthPrefix framing output,
      SegmentFraming.decode parameters lengthPrefix = .ok framing →
        (state.decryptSegmentIntoAtFramed platform segment position framing
          output).1.Returns
  decryptSegmentInPlaceAtFramed :
    ∀ position parameters lengthPrefix framing,
      SegmentFraming.decode parameters lengthPrefix = .ok framing →
        (state.decryptSegmentInPlaceAtFramed platform buffer position
          framing).1.Returns

namespace SegmentBuffer.Invariant

variable {buffer : SegmentBuffer}

theorem methodsReturn
    (invariant : buffer.Invariant) :
    buffer.MethodsReturn :=
  ⟨invariant.preparePlaintext, invariant.prepareCiphertext,
    invariant.extendPlaintext, invariant.truncatePlaintext,
    invariant.plaintext_returns, invariant.ciphertext_returns⟩

theorem encryptionNeverPanics
    (platform : Platform)
    {state : EncryptionState}
    (invariant : buffer.Invariant)
    (served : state.nonces.WellFormed) :
    state.NeverPanics platform buffer where
  encryptSegment := fun plaintext layout =>
    EncryptionState.encryptSegment_returns platform layout plaintext served
  encryptSegmentInto := fun plaintext layout output =>
    EncryptionState.encryptSegmentInto_returns platform layout plaintext
      output served
  encryptSegmentInPlace := fun layout =>
    (EncryptionState.encryptSegmentInPlace_effect platform layout invariant
      served).1
  encryptSegmentInPlaceRaw := fun storage layout =>
    EncryptionState.encryptSegmentInPlaceRaw_returns platform layout storage
      served
  encryptSegmentAt := fun plaintext position kind =>
    (EncryptionState.encryptSegmentAt_effect platform position kind plaintext
      served).1
  encryptSegmentIntoAt := fun plaintext position kind output =>
    (EncryptionState.encryptSegmentIntoAt_effect platform position kind
      plaintext output served).returns
  encryptSegmentInPlaceAt := fun position kind =>
    (EncryptionState.encryptSegmentInPlaceAt_effect platform position kind
      invariant served).1
  encryptSegmentInPlaceRawAt := fun storage plaintextLength position kind =>
    (EncryptionState.encryptSegmentInPlaceRawAt_effect platform position kind
      storage plaintextLength served).returns

theorem decryptionNeverPanics
    (platform : Platform)
    (invariant : buffer.Invariant)
    (state : DecryptionState) :
    state.NeverPanics platform buffer where
  decryptSegment := fun segment layout =>
    state.decryptSegment_returns platform layout segment
  decryptSegmentInto := fun segment layout output =>
    state.decryptSegmentInto_returns platform layout segment output
  decryptSegmentInPlace := fun layout =>
    (state.decryptSegmentInPlace_effect platform layout invariant).1
  decryptSegmentInPlaceRaw := fun segment layout =>
    state.decryptSegmentInPlaceRaw_returns platform layout segment
  decryptSegmentAt := fun segment position kind =>
    state.decryptSegmentAt_returns platform segment position kind
  decryptSegmentIntoAt := fun segment position kind output =>
    state.decryptSegmentIntoAt_returns platform segment position kind output
  decryptSegmentInPlaceRawAt := fun segment position kind =>
    (state.decryptSegmentInPlaceRawAt_effect platform segment position
      kind).returns
  decryptSegmentAtFramed := by
    intro segment position parameters lengthPrefix framing decoded
    exact state.decryptSegmentAtFramed_returns platform segment position
      (SegmentFraming.valid_of_decode decoded)
  decryptSegmentIntoAtFramed := by
    intro segment position parameters lengthPrefix framing output decoded
    exact state.decryptSegmentIntoAtFramed_returns platform segment position
      output (SegmentFraming.valid_of_decode decoded)
  decryptSegmentInPlaceAtFramed := by
    intro position parameters lengthPrefix framing decoded
    exact (state.decryptSegmentInPlaceAtFramed_effect platform position
      invariant (SegmentFraming.valid_of_decode decoded)).returns

end SegmentBuffer.Invariant

/-- Every reachable buffer keeps its representation invariant, and so neither
its own methods nor any operation of an encryption or decryption state, of its
own or another parameter set, panics on it. -/
theorem reachableBuffers_neverPanic
    {buffer : SegmentBuffer}
    (reachable : buffer.Reachable) :
    buffer.Invariant ∧ buffer.MethodsReturn ∧
      (∀ platform (state : EncryptionState), state.Live →
        state.NeverPanics platform buffer) ∧
      ∀ platform (state : DecryptionState),
        state.NeverPanics platform buffer := by
  have invariant := reachable.invariant
  refine ⟨invariant, invariant.methodsReturn, ?_, ?_⟩
  · intro platform state live
    exact invariant.encryptionNeverPanics platform live.served
  · intro platform state
    exact invariant.decryptionNeverPanics platform state

/-- A buffer that was filled, encrypted in place and handed to a decryption that
refuses its segment. -/
theorem reachableBuffers_neverPanic_example :
    let sealing := (SharedEncryptionContext.mk transparentContext).fork zeroRng
    let opening := (SharedDecryptionContext.mk transparentContext).fork
    let filled := ((SegmentBuffer.new shortestSegments).extendPlaintext [7]).2
    let encrypted :=
      (sealing.encryptSegmentInPlace openPlatform filled oneByteLayout).2.2
    let left :=
      (opening.decryptSegmentInPlace refusingPlatform encrypted
        oneByteLayout).2.1
    encrypted.Invariant ∧ encrypted.MethodsReturn ∧
      sealing.NeverPanics openPlatform encrypted ∧ left.Invariant ∧
        opening.NeverPanics refusingPlatform left := by
  intro sealing opening filled encrypted left
  have started : filled.Reachable :=
    SegmentBuffer.Reachable.extended (.new shortestSegments) [7]
  have live : sealing.Live :=
    EncryptionState.Live.forked ⟨transparentContext⟩ zeroRng
  have reachable : encrypted.Reachable :=
    SegmentBuffer.Reachable.encrypted openPlatform started live oneByteLayout
  have opened : left.Reachable :=
    SegmentBuffer.Reachable.decrypted refusingPlatform reachable opening
      oneByteLayout
  have before := reachableBuffers_neverPanic reachable
  have after := reachableBuffers_neverPanic opened
  exact ⟨before.1, before.2.1, before.2.2.1 openPlatform sealing live,
    after.1, after.2.2.2 refusingPlatform opening⟩

end FastFloe
