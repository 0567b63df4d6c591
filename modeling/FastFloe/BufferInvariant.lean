import FastFloe.SegmentEffects

namespace FastFloe

open Rust

/-!
# The representation of a segment buffer

A `SegmentBuffer` is filled, marked and wiped by a dozen call sites, some of
which write to its storage first and mark its state afterwards.  Every buffer
that they can produce is one segment long and claims no more than it holds;
that is what keeps the unchecked slices of the segment operations in range.
-/

/-! ## The invariant -/

/-- The storage is one segment long, and the prepared length fits it. -/
structure SegmentBuffer.Invariant (buffer : SegmentBuffer) : Prop where
  sized :
    buffer.bytes.length = buffer.parameters.ciphertextSegmentLength
  plaintext :
    ∀ length, buffer.state = .plaintext length →
      length ≤ buffer.parameters.ciphertextSegmentLength - segmentOverhead
  ciphertext :
    ∀ length, buffer.state = .ciphertext length →
      segmentOverhead ≤ length ∧
        length ≤ buffer.parameters.ciphertextSegmentLength

/-- What a method of the buffer does: it comes back, keeps the invariant, and
leaves the buffer as it was if it refuses. -/
structure SegmentBuffer.MethodEffect {α : Type} (buffer : SegmentBuffer)
    (outcome : Result α × SegmentBuffer) : Prop where
  returns : outcome.1.Returns
  invariant : outcome.2.Invariant
  refused : ∀ error, outcome.1 = .error (.err error) → outcome.2 = buffer

namespace SegmentBuffer

section Methods

variable {buffer : SegmentBuffer}

theorem invariant_new (parameters : Parameters) :
    (SegmentBuffer.new parameters).Invariant := by
  refine ⟨length_zeros _, ?_, ?_⟩
  · intro length impossible
    cases impossible
  · intro length impossible
    cases impossible

/-- A payload that fits is inside the storage. -/
theorem Invariant.slice_payload
    (invariant : buffer.Invariant)
    {length : Nat}
    (fits :
      length ≤ buffer.parameters.ciphertextSegmentLength - segmentOverhead) :
    (slice buffer.bytes segmentPayloadOffset (segmentPayloadOffset + length) :
        Result Bytes) =
      .ok ((buffer.bytes.drop segmentPayloadOffset).take length) := by
  have sized := invariant.sized
  have minimum := buffer.parameters.minimum_le
  rw [segmentOverhead_eq] at fits
  rw [slice_eq (Nat.le_add_right _ _) (by
    rw [segmentPayloadOffset_eq]
    omega), Nat.add_sub_cancel_left]

/-- Preparing a payload of an allowed length keeps the invariant. -/
theorem Invariant.withPlaintext
    (invariant : buffer.Invariant)
    {bytes : Bytes}
    {length : Nat}
    (kept : bytes.length = buffer.bytes.length)
    (fits :
      length ≤ buffer.parameters.ciphertextSegmentLength - segmentOverhead) :
    SegmentBuffer.Invariant
      { buffer with bytes, state := .plaintext length } := by
  refine ⟨kept.trans invariant.sized, ?_, ?_⟩
  · intro other same
    cases same
    exact fits
  · intro other impossible
    cases impossible

/-- Marking a segment of an allowed length keeps the invariant. -/
theorem Invariant.withCiphertext
    (invariant : buffer.Invariant)
    {bytes : Bytes}
    {length : Nat}
    (kept : bytes.length = buffer.bytes.length)
    (fits :
      segmentOverhead ≤ length ∧
        length ≤ buffer.parameters.ciphertextSegmentLength) :
    SegmentBuffer.Invariant
      { buffer with bytes, state := .ciphertext length } := by
  refine ⟨kept.trans invariant.sized, ?_, ?_⟩
  · intro other impossible
    cases impossible
  · intro other same
    cases same
    exact fits

/-- Wiping keeps the invariant. -/
theorem Invariant.clear
    (invariant : buffer.Invariant) :
    buffer.clear.Invariant := by
  refine ⟨(length_zeros _).trans invariant.sized, ?_, ?_⟩
  · intro length impossible
    cases impossible
  · intro length impossible
    cases impossible

/-- Writing to the storage without changing its length keeps the invariant. -/
theorem Invariant.withRaw
    (invariant : buffer.Invariant)
    {bytes : Bytes}
    (kept : bytes.length = buffer.bytes.length) :
    (buffer.withRaw bytes).Invariant :=
  ⟨kept.trans invariant.sized, invariant.plaintext, invariant.ciphertext⟩

theorem Invariant.preparePlaintext
    (invariant : buffer.Invariant)
    (length : Nat) :
    buffer.MethodEffect (buffer.preparePlaintext length) := by
  have total := buffer.parameters.plaintextSegmentLength_add
  by_cases large : length > buffer.parameters.plaintextSegmentLength
  · simp only [SegmentBuffer.preparePlaintext, large, ↓reduceIte]
    exact ⟨Outcome.returns_err _, invariant, fun _ _ => rfl⟩
  · have fits : length ≤
        buffer.parameters.ciphertextSegmentLength - segmentOverhead := by
      rw [segmentOverhead_eq]
      omega
    simp only [SegmentBuffer.preparePlaintext, large, ↓reduceIte,
      invariant.slice_payload fits]
    exact ⟨Outcome.returns_ok _, invariant.withPlaintext rfl fits,
      fun _ impossible => by cases impossible⟩

theorem Invariant.prepareCiphertext
    (invariant : buffer.Invariant)
    (length : Nat) :
    buffer.MethodEffect (buffer.prepareCiphertext length) := by
  by_cases fits : segmentOverhead ≤ length ∧
      length ≤ buffer.parameters.ciphertextSegmentLength
  · have validated :
        buffer.parameters.validateCiphertextSegmentLength length =
          .ok () := by
      simp only [Parameters.validateCiphertextSegmentLength, fits, and_self,
        ↓reduceIte]
    have inside : length ≤ buffer.bytes.length := by
      rw [invariant.sized]
      exact fits.2
    simp only [SegmentBuffer.prepareCiphertext, validated,
      slice_zero inside]
    exact ⟨Outcome.returns_ok _, invariant.withCiphertext rfl fits,
      fun _ impossible => by cases impossible⟩
  · simp only [SegmentBuffer.prepareCiphertext,
      Parameters.validateCiphertextSegmentLength, fits, ↓reduceIte]
    exact ⟨Outcome.returns_err _, invariant, fun _ _ => rfl⟩

/-- The copy of `extend_plaintext` behind a payload that fits. -/
theorem Invariant.extend_payload
    (invariant : buffer.Invariant)
    (input : Bytes)
    {length : Nat}
    (fits : length ≤ buffer.parameters.plaintextSegmentLength) :
    ∃ room bytes,
      (sub buffer.parameters.plaintextSegmentLength length : Result Nat) =
          .ok room ∧
        (copyRange buffer.bytes (segmentPayloadOffset + length)
            (segmentPayloadOffset + length + min input.length room)
            (input.take (min input.length room)) : Result Bytes) =
          .ok bytes ∧
        bytes.length = buffer.bytes.length ∧
        length + min input.length room ≤
          buffer.parameters.ciphertextSegmentLength - segmentOverhead := by
  have total := buffer.parameters.plaintextSegmentLength_add
  have sized := invariant.sized
  have copied :
      (input.take (min input.length
        (buffer.parameters.plaintextSegmentLength - length))).length =
        min input.length
          (buffer.parameters.plaintextSegmentLength - length) := by
    rw [List.length_take]
    omega
  refine ⟨_, _, sub_eq fits, copyRange_eq (Nat.le_add_right _ _) ?_ ?_,
    length_writeBack ?_, ?_⟩
  · rw [segmentPayloadOffset_eq]
    omega
  · rw [copied, Nat.add_sub_cancel_left]
  · rw [copied, segmentPayloadOffset_eq]
    omega
  · rw [segmentOverhead_eq]
    omega

theorem Invariant.extendPlaintext
    (invariant : buffer.Invariant)
    (input : Bytes) :
    buffer.MethodEffect (buffer.extendPlaintext input) := by
  have total := buffer.parameters.plaintextSegmentLength_add
  cases state : buffer.state with
  | plaintext length =>
      have fits := invariant.plaintext length state
      rw [segmentOverhead_eq] at fits
      obtain ⟨room, bytes, left, written, kept, small⟩ :=
        invariant.extend_payload input (show length ≤ _ by omega)
      simp only [SegmentBuffer.extendPlaintext, state, left, written]
      exact ⟨Outcome.returns_ok _, invariant.withPlaintext kept small,
        fun _ impossible => by cases impossible⟩
  | empty =>
      obtain ⟨room, bytes, left, written, kept, small⟩ :=
        invariant.extend_payload input (Nat.zero_le _)
      simp only [SegmentBuffer.extendPlaintext, state, left, written]
      exact ⟨Outcome.returns_ok _, invariant.withPlaintext kept small,
        fun _ impossible => by cases impossible⟩
  | ciphertext length =>
      obtain ⟨room, bytes, left, written, kept, small⟩ :=
        invariant.extend_payload input (Nat.zero_le _)
      simp only [SegmentBuffer.extendPlaintext, state, left, written]
      exact ⟨Outcome.returns_ok _, invariant.withPlaintext kept small,
        fun _ impossible => by cases impossible⟩

theorem Invariant.truncatePlaintext
    (invariant : buffer.Invariant)
    (length : Nat) :
    buffer.MethodEffect (buffer.truncatePlaintext length) := by
  cases state : buffer.state with
  | plaintext current =>
      have held : buffer.plaintextLength = .ok current := by
        simp only [SegmentBuffer.plaintextLength, state]
      have fits := invariant.plaintext current state
      by_cases longer : length > current
      · simp only [SegmentBuffer.truncatePlaintext, held, longer, ↓reduceIte]
        exact ⟨Outcome.returns_err _, invariant, fun _ _ => rfl⟩
      · simp only [SegmentBuffer.truncatePlaintext, held, longer, ↓reduceIte]
        exact ⟨Outcome.returns_ok _, invariant.withPlaintext rfl (by omega),
          fun _ impossible => by cases impossible⟩
  | empty =>
      simp only [SegmentBuffer.truncatePlaintext,
        SegmentBuffer.plaintextLength, state]
      exact ⟨Outcome.returns_err _, invariant, fun _ _ => rfl⟩
  | ciphertext current =>
      simp only [SegmentBuffer.truncatePlaintext,
        SegmentBuffer.plaintextLength, state]
      exact ⟨Outcome.returns_err _, invariant, fun _ _ => rfl⟩

theorem plaintextLength_returns (buffer : SegmentBuffer) :
    buffer.plaintextLength.Returns := by
  unfold SegmentBuffer.plaintextLength
  split
  · exact Outcome.returns_ok _
  · exact Outcome.returns_err _
  · exact Outcome.returns_err _

/-- The segment that a buffer holds is inside its storage. -/
theorem Invariant.ciphertextLength_cases
    (invariant : buffer.Invariant) :
    (∃ length, buffer.ciphertextLength = .ok length ∧
        length ≤ buffer.bytes.length) ∨
      ∃ error, buffer.ciphertextLength = .error (.err error) := by
  unfold SegmentBuffer.ciphertextLength
  cases state : buffer.state with
  | ciphertext length =>
      refine .inl ⟨length, rfl, ?_⟩
      rw [invariant.sized]
      exact (invariant.ciphertext length state).2
  | empty => exact .inr ⟨_, rfl⟩
  | plaintext length => exact .inr ⟨_, rfl⟩

theorem Invariant.plaintext_returns
    (invariant : buffer.Invariant) :
    buffer.plaintext.Returns := by
  unfold SegmentBuffer.plaintext
  cases state : buffer.state with
  | plaintext length =>
      simp only [invariant.slice_payload (invariant.plaintext length state)]
      exact Outcome.returns_ok _
  | empty => exact Outcome.returns_err _
  | ciphertext length => exact Outcome.returns_err _

theorem Invariant.ciphertext_returns
    (invariant : buffer.Invariant) :
    buffer.ciphertext.Returns := by
  unfold SegmentBuffer.ciphertext
  cases state : buffer.state with
  | ciphertext length =>
      have inside : length ≤ buffer.bytes.length := by
        rw [invariant.sized]
        exact (invariant.ciphertext length state).2
      simp only [slice_zero inside]
      exact Outcome.returns_ok _
  | empty => exact Outcome.returns_err _
  | plaintext length => exact Outcome.returns_err _

end Methods

end SegmentBuffer

/-! ## Encryption -/

/-- The encryption states that the crate hands out: started or forked, and then
used by any calls on any provider. -/
inductive EncryptionState.Live : EncryptionState → Prop where
  | started
      {platform : Platform} {key : Key} {aad : Bytes}
      {parameters : Parameters} {rng : ProviderRng} {state : EncryptionState}
      {header : Header}
      (started :
        startEncryption platform key aad parameters rng =
          .ok (state, header)) :
      Live state
  | forked (shared : SharedEncryptionContext) (rng : ProviderRng) :
      Live (shared.fork rng)
  | called
      {state : EncryptionState}
      (platform : Platform)
      (live : Live state)
      (call : EncryptionCall) :
      Live (call.stateAfter platform state)

namespace EncryptionState

section Effects

variable (platform : Platform) {state : EncryptionState} (position : Nat)
  (kind : SegmentKind)

/-- The effect of an encryption operation on a state and its storage. -/
structure CallEffect (kind : SegmentKind) (plaintextLength size : Nat)
    (state : EncryptionState)
    (outcome : Result Nat × EncryptionState × Bytes) : Prop where
  returns : outcome.1.Returns
  served : outcome.2.1.nonces.WellFormed
  kept : outcome.2.2.length = size
  written :
    ∀ length, outcome.1 = .ok length →
      length = plaintextLength + 32 ∧ length ≤ size ∧
        FitsKind state.parameters kind plaintextLength

theorem encryptSegmentIntoAt_effect
    (plaintext output : Bytes)
    (served : state.nonces.WellFormed) :
    CallEffect kind plaintext.length output.length state
      (state.encryptSegmentIntoAt platform plaintext position kind
        output) := by
  obtain ⟨returns, served, kept, written⟩ :=
    encryptSegmentIntoInner_effect platform state.context state.keys position
      kind plaintext output served
  exact ⟨returns, served, kept, written⟩

theorem encryptSegmentInPlaceRawAt_effect
    (buffer : Bytes)
    (plaintextLength : Nat)
    (served : state.nonces.WellFormed) :
    CallEffect kind plaintextLength buffer.length state
      (state.encryptSegmentInPlaceRawAt platform buffer plaintextLength
        position kind) := by
  obtain ⟨returns, served, kept, written⟩ :=
    encryptSegmentInPlaceInner_effect platform state.context state.keys
      position kind buffer plaintextLength served
  exact ⟨returns, served, kept, written⟩

theorem encryptSegmentAt_effect
    (plaintext : Bytes)
    (served : state.nonces.WellFormed) :
    (state.encryptSegmentAt platform plaintext position kind).1.Returns ∧
      (state.encryptSegmentAt platform plaintext position
        kind).2.nonces.WellFormed := by
  rcases ciphertextSegmentSize_spec platform state.context plaintext.length
      kind with
    ⟨_, size⟩ | ⟨_, error, size⟩
  · have effect := state.encryptSegmentIntoAt_effect platform position kind
      plaintext (zeros (plaintext.length + 32)) served
    simp only [encryptSegmentAt, size]
    rcases sealed : state.encryptSegmentIntoAt platform plaintext position
        kind (zeros (plaintext.length + 32)) with
      ⟨stop | written, next, left⟩
    · rw [sealed] at effect
      exact ⟨effect.returns.of_error, effect.served⟩
    · rw [sealed] at effect
      exact ⟨Outcome.returns_ok _, effect.served⟩
  · simp only [encryptSegmentAt, size]
    exact ⟨Outcome.returns_err _, served⟩

theorem encryptSegmentInPlaceAt_served
    (buffer : SegmentBuffer)
    (served : state.nonces.WellFormed) :
    (state.encryptSegmentInPlaceAt platform buffer position
      kind).2.1.nonces.WellFormed := by
  unfold encryptSegmentInPlaceAt
  split
  · exact served
  · split
    · exact served
    next plaintextLength _ =>
      have effect := state.encryptSegmentInPlaceRawAt_effect platform
        position kind buffer.bytes plaintextLength served
      rcases sealed : state.encryptSegmentInPlaceRawAt platform
          buffer.bytes plaintextLength position kind with
        ⟨stop | written, next, bytes⟩
      · rw [sealed] at effect
        obtain ⟨error, rfl⟩ := effect.returns.stop_eq_err
        exact effect.served
      · rw [sealed] at effect
        exact effect.served

/-- Encrypting where a buffer's plaintext stands keeps the buffer's
invariant. -/
theorem encryptSegmentInPlaceAt_effect
    {buffer : SegmentBuffer}
    (invariant : buffer.Invariant)
    (served : state.nonces.WellFormed) :
    (state.encryptSegmentInPlaceAt platform buffer position
        kind).1.Returns ∧
      (state.encryptSegmentInPlaceAt platform buffer position
        kind).2.2.Invariant := by
  unfold encryptSegmentInPlaceAt
  by_cases matching : buffer.hasParameters state.parameters = true
  · simp only [matching, not_true_eq_false, ↓reduceIte]
    cases prepared : buffer.plaintextLength with
    | error stop =>
        have holds := buffer.plaintextLength_returns
        rw [prepared] at holds
        exact ⟨holds.of_error, invariant⟩
    | ok plaintextLength =>
        have effect := state.encryptSegmentInPlaceRawAt_effect platform
          position kind buffer.bytes plaintextLength served
        simp only
        rcases sealed : state.encryptSegmentInPlaceRawAt platform
            buffer.bytes plaintextLength position kind with
          ⟨stop | written, next, bytes⟩
        · rw [sealed] at effect
          obtain ⟨error, rfl⟩ := effect.returns.stop_eq_err
          exact ⟨Outcome.returns_err _,
            (invariant.withRaw effect.kept).clear⟩
        · rw [sealed] at effect
          obtain ⟨exact, small, _⟩ := effect.written written rfl
          have marked :
              ((buffer.withRaw bytes).markCiphertext written).Invariant := by
            refine invariant.withCiphertext effect.kept ⟨?_, ?_⟩
            · rw [segmentOverhead_eq]
              omega
            · rw [← invariant.sized]
              exact small
          exact ⟨marked.ciphertext_returns, marked⟩
  · simp only [matching, Bool.false_eq_true, not_false_eq_true, ↓reduceIte]
    exact ⟨Outcome.returns_err _, invariant⟩

end Effects

/-- The nonces of every state that the crate hands out are well formed. -/
theorem Live.served
    {state : EncryptionState}
    (live : state.Live) :
    state.nonces.WellFormed := by
  induction live with
  | @started platform key aad parameters rng state header started =>
      obtain ⟨_, _, _, _, later, nonces⟩ :=
        startEncryption_eq_ok (Kdf.FaultOf.refl platform.kdfExpand) started
      rw [nonces]
      exact NonceGenerator.wellFormed_new later
  | forked shared rng =>
      exact NonceGenerator.wellFormed_new rng
  | called platform _ call inductionHypothesis =>
      cases call with
      | allocating plaintext position kind =>
          exact (encryptSegmentAt_effect platform position kind plaintext
            inductionHypothesis).2
      | into plaintext position kind output =>
          exact (encryptSegmentIntoAt_effect platform position kind plaintext
            output inductionHypothesis).served
      | inPlace buffer position kind =>
          exact encryptSegmentInPlaceAt_served platform position kind buffer
            inductionHypothesis
      | inPlaceRaw buffer plaintextLength position kind =>
          exact (encryptSegmentInPlaceRawAt_effect platform position kind
            buffer plaintextLength inductionHypothesis).served

/-! ### Operations on a layout -/

section Layouts

variable (platform : Platform) {state : EncryptionState}
  (layout : SegmentLayout)

theorem validatePlaintextLayout_returns
    (state : EncryptionState)
    (actual : Nat)
    (layout : SegmentLayout) :
    (state.validatePlaintextLayout actual layout).Returns := by
  unfold validatePlaintextLayout validateLayout
  split
  · simp only [Outcome.ok_bind]
    split
    · exact Outcome.returns_ok _
    · exact Outcome.returns_err _
  · exact Outcome.returns_err _

theorem encryptSegment_returns
    (plaintext : Bytes)
    (served : state.nonces.WellFormed) :
    (state.encryptSegment platform plaintext layout).1.Returns := by
  have validates :=
    state.validatePlaintextLayout_returns plaintext.length layout
  unfold encryptSegment
  cases validated : state.validatePlaintextLayout plaintext.length layout with
  | error stop =>
      rw [validated] at validates
      exact validates.of_error
  | ok _ =>
      exact (encryptSegmentAt_effect platform layout.position layout.kind
        plaintext served).1

theorem encryptSegmentInto_returns
    (plaintext output : Bytes)
    (served : state.nonces.WellFormed) :
    (state.encryptSegmentInto platform plaintext layout output).1.Returns := by
  have validates :=
    state.validatePlaintextLayout_returns plaintext.length layout
  unfold encryptSegmentInto
  cases validated : state.validatePlaintextLayout plaintext.length layout with
  | error stop =>
      rw [validated] at validates
      exact validates.of_error
  | ok _ =>
      exact (encryptSegmentIntoAt_effect platform layout.position layout.kind
        plaintext output served).returns

theorem encryptSegmentInPlace_effect
    {buffer : SegmentBuffer}
    (invariant : buffer.Invariant)
    (served : state.nonces.WellFormed) :
    (state.encryptSegmentInPlace platform buffer layout).1.Returns ∧
      (state.encryptSegmentInPlace platform buffer layout).2.2.Invariant := by
  have holds := buffer.plaintextLength_returns
  unfold encryptSegmentInPlace
  cases prepared : buffer.plaintextLength with
  | error stop =>
      rw [prepared] at holds
      exact ⟨holds.of_error, invariant⟩
  | ok length =>
      have validates := state.validatePlaintextLayout_returns length layout
      simp only
      cases validated : state.validatePlaintextLayout length layout with
      | error stop =>
          rw [validated] at validates
          exact ⟨validates.of_error, invariant⟩
      | ok _ =>
          exact encryptSegmentInPlaceAt_effect platform layout.position
            layout.kind invariant served

theorem encryptSegmentInPlaceRaw_returns
    (buffer : Bytes)
    (served : state.nonces.WellFormed) :
    (state.encryptSegmentInPlaceRaw platform buffer layout).1.Returns := by
  unfold encryptSegmentInPlaceRaw validateLayout
  split
  next stop refused =>
    split at refused
    · cases refused
    · cases refused
      exact Outcome.returns_err _
  · exact (encryptSegmentInPlaceRawAt_effect platform layout.position
      layout.kind buffer layout.plaintextLength served).returns

end Layouts

end EncryptionState

/-! ## Decryption -/

/-- The effect of an in-place decryption on its storage, before the cleanup
boundary. -/
structure SegmentBuffer.OpenEffect (buffer : SegmentBuffer)
    (outcome : Result Nat) (left : SegmentBuffer) : Prop where
  returns : outcome.Returns
  kept : left.bytes.length = buffer.bytes.length
  parameters : left.parameters = buffer.parameters
  fits :
    ∀ length, outcome = .ok length →
      length + segmentOverhead ≤ buffer.bytes.length

/-- A refusal that leaves the storage alone has the effect of opening. -/
theorem SegmentBuffer.OpenEffect.of_error
    {buffer : SegmentBuffer}
    {error : Error} :
    buffer.OpenEffect (.error (.err error)) buffer := by
  refine ⟨Outcome.returns_err _, rfl, rfl, ?_⟩
  intro length impossible
  cases impossible

/-- The cleanup boundary keeps the invariant. -/
theorem SegmentBuffer.OpenEffect.settle
    {buffer left : SegmentBuffer}
    {outcome : Result Nat}
    (invariant : buffer.Invariant)
    (effect : buffer.OpenEffect outcome left) :
    (left.settle outcome).1.Returns ∧ (left.settle outcome).2.Invariant := by
  have sized : left.bytes.length =
      left.parameters.ciphertextSegmentLength := by
    rw [effect.kept, effect.parameters, invariant.sized]
  cases outcome with
  | ok length =>
      have fits := effect.fits length rfl
      have inside : length ≤
          left.parameters.ciphertextSegmentLength - segmentOverhead := by
        rw [← sized, effect.kept]
        omega
      have settled : SegmentBuffer.Invariant
          { left with state := .plaintext length } := by
        refine ⟨sized, ?_, ?_⟩
        · intro other same
          cases same
          exact inside
        · intro other impossible
          cases impossible
      exact ⟨settled.plaintext_returns, settled⟩
  | error stop =>
      obtain ⟨error, rfl⟩ := effect.returns.stop_eq_err
      refine ⟨Outcome.returns_err _, (length_zeros _).trans sized, ?_, ?_⟩
      · intro length impossible
        cases impossible
      · intro length impossible
        cases impossible

namespace DecryptionState

section Effects

variable (platform : Platform) (state : DecryptionState)
  (layout : SegmentLayout)

theorem validateCiphertextLayout_returns
    (actual : Nat) :
    (state.validateCiphertextLayout actual layout).Returns := by
  unfold validateCiphertextLayout validateLayout
  split
  · simp only [Outcome.ok_bind]
    split
    · exact Outcome.returns_ok _
    · exact Outcome.returns_err _
  · exact Outcome.returns_err _

theorem decryptSegment_returns
    (segment : Bytes) :
    (state.decryptSegment platform segment layout).1.Returns := by
  have validates :=
    state.validateCiphertextLayout_returns layout segment.length
  unfold decryptSegment
  cases validated : state.validateCiphertextLayout segment.length layout with
  | error stop =>
      rw [validated] at validates
      exact validates.of_error
  | ok _ =>
      exact state.decryptSegmentAt_returns platform segment layout.position
        layout.kind

theorem decryptSegmentInto_returns
    (segment output : Bytes) :
    (state.decryptSegmentInto platform segment layout output).1.Returns := by
  have validates :=
    state.validateCiphertextLayout_returns layout segment.length
  unfold decryptSegmentInto
  cases validated : state.validateCiphertextLayout segment.length layout with
  | error stop =>
      rw [validated] at validates
      exact validates.of_error
  | ok _ =>
      exact state.decryptSegmentIntoAt_returns platform segment
        layout.position layout.kind output

theorem decryptSegmentInPlaceRaw_returns
    (segment : Bytes) :
    (state.decryptSegmentInPlaceRaw platform segment layout).1.Returns := by
  unfold decryptSegmentInPlaceRaw validateLayout
  by_cases same : layout.parameters = state.context.parameters
  · by_cases short : segment.length < layout.ciphertextLength
    · simp only [same, ↓reduceIte, short]
      exact Outcome.returns_err _
    · have region :
          (slice segment 0 layout.ciphertextLength : Result Bytes) =
            .ok (segment.take layout.ciphertextLength) :=
        slice_zero (Nat.le_of_not_lt short)
      simp only [same, ↓reduceIte, short, region]
      exact (state.decryptSegmentInPlaceRawAt_effect platform
        (segment.take layout.ciphertextLength) layout.position
        layout.kind).returns
  · simp only [same, ↓reduceIte]
    exact Outcome.returns_err _

/-- The segment that a buffer holds is inside its storage. -/
theorem preparedSegment_effect
    {buffer : SegmentBuffer}
    (invariant : buffer.Invariant) :
    (preparedSegment layout buffer state).Returns ∧
      ∀ segment, preparedSegment layout buffer state = .ok segment →
        segment.length ≤ buffer.bytes.length := by
  unfold preparedSegment
  rcases invariant.ciphertextLength_cases with
    ⟨length, prepared, inside⟩ | ⟨error, refused⟩
  · have validates := state.validateCiphertextLayout_returns layout length
    simp only [prepared, Outcome.ok_bind]
    cases validated : state.validateCiphertextLayout length layout with
    | error stop =>
        rw [validated] at validates
        exact ⟨validates.of_error, fun _ impossible => by cases impossible⟩
    | ok _ =>
        simp only [Outcome.ok_bind, slice_zero inside]
        split
        · exact ⟨Outcome.returns_err _, fun _ impossible => by
            cases impossible⟩
        · refine ⟨Outcome.returns_ok _, ?_⟩
          intro segment same
          cases same
          rw [List.length_take]
          omega
  · simp only [refused, Outcome.error_bind]
    exact ⟨Outcome.returns_err _, fun _ impossible => by cases impossible⟩

theorem openBuffer_effect
    {buffer : SegmentBuffer}
    (invariant : buffer.Invariant) :
    buffer.OpenEffect (openBuffer platform layout buffer state).1
      (openBuffer platform layout buffer state).2.1 := by
  obtain ⟨kept, parameters⟩ :=
    length_openBuffer platform layout buffer state
  refine ⟨?_, kept, parameters, ?_⟩
  · obtain ⟨returns, _⟩ := state.preparedSegment_effect layout invariant
    unfold openBuffer
    cases prepared : preparedSegment layout buffer state with
    | error stop =>
        rw [prepared] at returns
        exact returns.of_error
    | ok segment =>
        have effect := state.decryptSegmentInPlaceRawAt_effect platform
          segment layout.position layout.kind
        simp only
        rcases opened : state.decryptSegmentInPlaceRawAt platform segment
            layout.position layout.kind with
          ⟨stop | plaintext, next, left⟩
        · rw [opened] at effect
          exact effect.returns.of_error
        · exact Outcome.returns_ok _
  · intro length opened
    obtain ⟨_, inside⟩ := state.preparedSegment_effect layout invariant
    unfold openBuffer at opened
    cases prepared : preparedSegment layout buffer state with
    | error stop =>
        rw [prepared] at opened
        cases opened
    | ok segment =>
        have effect := state.decryptSegmentInPlaceRawAt_effect platform
          segment layout.position layout.kind
        have room := inside segment prepared
        rw [prepared] at opened
        simp only at opened
        cases result : (state.decryptSegmentInPlaceRawAt platform segment
            layout.position layout.kind).1 with
        | error stop =>
            rw [result] at opened
            cases opened
        | ok plaintext =>
            rw [result] at opened
            cases opened
            have exact := effect.opened plaintext result
            rw [segmentOverhead_eq]
            omega

/-- Decrypting where a buffer's segment stands keeps the buffer's invariant. -/
theorem decryptSegmentInPlace_effect
    {buffer : SegmentBuffer}
    (invariant : buffer.Invariant) :
    (state.decryptSegmentInPlace platform buffer layout).1.Returns ∧
      (state.decryptSegmentInPlace platform buffer layout).2.1.Invariant := by
  rw [decryptSegmentInPlace_eq, SegmentBuffer.decryptWith_eq]
  exact (state.openBuffer_effect platform layout invariant).settle invariant

/-- Opening a framed segment in a buffer stays inside its storage. -/
theorem decryptSegmentInPlaceAtFramed_effect
    {buffer : SegmentBuffer}
    {parameters : Parameters}
    {framing : SegmentFraming}
    (position : Nat)
    (invariant : buffer.Invariant)
    (valid : framing.Valid parameters) :
    buffer.OpenEffect
      (state.decryptSegmentInPlaceAtFramed platform buffer position
        framing).1
      (state.decryptSegmentInPlaceAtFramed platform buffer position
        framing).2.2 := by
  obtain ⟨kept, same⟩ :=
    state.decryptSegmentInPlaceAtFramed_keeps platform buffer position framing
  suffices outcome :
      (state.decryptSegmentInPlaceAtFramed platform buffer position
          framing).1.Returns ∧
        ∀ length,
          (state.decryptSegmentInPlaceAtFramed platform buffer position
              framing).1 = .ok length →
            length + segmentOverhead ≤ buffer.bytes.length by
    exact ⟨outcome.1, kept, same, outcome.2⟩
  unfold decryptSegmentInPlaceAtFramed
  by_cases matching : buffer.hasParameters state.parameters = true
  · simp only [matching, not_true_eq_false, ↓reduceIte]
    rcases invariant.ciphertextLength_cases with
      ⟨length, held, inside⟩ | ⟨error, refused⟩
    · rcases validateFramedLength_cases valid length with
        ⟨plaintextLength, validated, size⟩ | ⟨error, refused⟩
      · have exact :
            (buffer.bytes.take length).length = plaintextLength + 32 := by
          rw [List.length_take]
          omega
        have effect := openSegmentInPlace_effect platform state
          (buffer.bytes.take length) position framing.kind exact
        simp only [held, validated, slice_zero inside, Outcome.ok_bind]
        rcases opened : openSegmentInPlace platform state.context state.keys
            (buffer.bytes.take length) position framing.kind
            plaintextLength with
          ⟨stop | plaintext, next, left⟩
        · rw [opened] at effect
          exact ⟨effect.returns.of_error, fun _ impossible => by
            cases impossible⟩
        · rw [opened] at effect
          refine ⟨Outcome.returns_ok _, ?_⟩
          intro written result
          cases result
          have opens := effect.opened plaintext rfl
          rw [segmentOverhead_eq]
          omega
      · simp only [held, refused, Outcome.ok_bind, Outcome.error_bind]
        exact ⟨Outcome.returns_err _, fun _ impossible => by
          cases impossible⟩
    · simp only [refused, Outcome.error_bind]
      exact ⟨Outcome.returns_err _, fun _ impossible => by
        cases impossible⟩
  · simp only [matching, Bool.false_eq_true, not_false_eq_true, ↓reduceIte]
    exact ⟨Outcome.returns_err _, fun _ impossible => by cases impossible⟩

end Effects

end DecryptionState

end FastFloe
