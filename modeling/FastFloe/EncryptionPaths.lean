import FastFloe.NonceTape
import FastFloe.Headers
import FastFloe.Transparent

namespace FastFloe

open Rust

/-!
# The paths to an encrypted segment

An `EncryptionState` has four ways to encrypt one segment: into a fresh vector,
into the caller's output, where a segment buffer's plaintext stands, and where
the payload of a raw slice stands.  On every state that the crate can reach
they compute one function, which is read off the specification.
-/

/-- The key derivation and the AEAD do not fail on lengths that a segment can
have. -/
structure Platform.NeverFails (platform : Platform) : Prop where
  derives :
    ∀ provider length key info, length ≤ 48 →
      ∃ output, platform.kdfExpand provider length key info = .ok output
  accepts :
    ∀ provider material,
      (platform.aead provider).acceptsKey material = true
  seals :
    ∀ provider material nonce aad plaintext, plaintext.length ≤ u32Max →
      ∃ tag ciphertext,
        (platform.aead provider).sealInPlace material nonce aad plaintext =
          (.ok tag, ciphertext)

/-! ## The specification -/

/-- `encryptSegment` of the specification on a payload that the kind of segment
allows, with the nonce it is given. -/
def specifiedSegment (platform : Platform) (context : MessageContext)
    (position : Nat) (kind : SegmentKind) (nonce : Octets aeadIvLength)
    (plaintext : Bytes) : Option Bytes :=
  match platform.kdfExpand context.provider 32 context.messageKey.val
      [context.parameters.encode.val, context.floeIv.val, segmentKeyPurpose,
        beBytes 8 (position / 2 ^ 20 * 2 ^ 20), context.aad] with
  | .error _ => none
  | .ok material =>
      let aadTail : UInt8 := if kind = .final then 1 else 0
      let segmentHeader : Bytes :=
        if kind = .final then beBytes 4 (plaintext.length + 32)
        else [255, 255, 255, 255]
      match (platform.aead context.provider).sealInPlace material nonce
          (beBytes 8 position ++ [aadTail]) plaintext with
      | (.error _, _) => none
      | (.ok tag, ciphertext) =>
          some (segmentHeader ++ nonce.val ++ ciphertext ++ tag.val)

/-- Masking a position clears its low twenty bits. -/
theorem Parameters.maskedPosition_eq
    (parameters : Parameters)
    {position : Nat}
    (inside : position < aeadMaxSegments) :
    parameters.maskedPosition position = position / 2 ^ 20 * 2 ^ 20 := by
  have mask : rotationMask = (2 ^ 44 - 1) <<< 20 := by decide
  have cleared :
      position / 2 ^ 20 * 2 ^ 20 = (position >>> 20) <<< 20 := by
    rw [Nat.shiftLeft_eq, Nat.shiftRight_eq_div_pow]
  rw [maskedPosition, mask, cleared]
  apply Nat.eq_of_testBit_eq
  intro bit
  simp only [Nat.testBit_and, Nat.testBit_shiftLeft, Nat.testBit_shiftRight,
    Nat.testBit_two_pow_sub_one]
  by_cases low : bit ≥ 20
  · have restored : 20 + (bit - 20) = bit := by omega
    by_cases high : bit - 20 < 44
    · simp [low, high, restored]
    · have zero : position.testBit bit = false := by
        refine Nat.testBit_lt_two_pow (Nat.lt_of_lt_of_le inside ?_)
        exact Nat.pow_le_pow_right (by decide) (by omega)
      simp [low, high, restored, zero]
  · simp [low]

/-- The code's segment is the specification's. -/
theorem specifiedSegment_eq
    (platform : Platform)
    {context : MessageContext}
    {position : Nat}
    {kind : SegmentKind}
    {nonce : Octets aeadIvLength}
    {plaintext : Bytes}
    {key : AeadKey}
    (inside : position < aeadMaxSegments)
    (scheduled : context.segmentKey platform position = some key)
    (provider : key.provider = context.provider) :
    specifiedSegment platform context position kind nonce plaintext =
      (key.sealed platform nonce (segmentAad position kind) plaintext).map
        (assembleSegment kind plaintext.length nonce) := by
  have material := MessageContext.material_of_segmentKey scheduled
  rw [context.parameters.maskedPosition_eq inside] at material
  have tail : (if kind = .final then 1 else 0 : UInt8) = kind.indicator := by
    cases kind <;> rfl
  have header :
      (if kind = .final then beBytes 4 (plaintext.length + 32)
        else [255, 255, 255, 255]) =
        lengthPrefixOf kind (plaintext.length + segmentOverhead) := by
    cases kind <;> rfl
  unfold specifiedSegment
  simp only [material, tail, header]
  unfold AeadKey.sealed AeadKey.sealInPlace segmentAad
  rw [provider]
  cases sealed : (platform.aead context.provider).sealInPlace key.material
      nonce (beBytes 8 position ++ [kind.indicator]) plaintext with
  | mk outcome ciphertext =>
      cases outcome with
      | ok tag => rfl
      | error error => rfl

/-- A key derivation that does not fail schedules a key of the message's
provider at every position inside the limit. -/
theorem MessageContext.exists_segmentKey
    {platform : Platform}
    (context : MessageContext)
    {position : Nat}
    (healthy : platform.NeverFails)
    (inside : position < aeadMaxSegments) :
    ∃ key,
      context.segmentKey platform position = some key ∧
        key.provider = context.provider := by
  obtain ⟨material, expanded⟩ :=
    healthy.derives context.provider 32 context.messageKey.val
      [context.parameters.encode.val, context.floeIv.val, segmentKeyPurpose,
        beBytes 8 (context.parameters.maskedPosition position), context.aad]
      (by decide)
  refine ⟨⟨context.provider, material⟩, ?_, rfl⟩
  have derived :
      CachedKey.derive platform context
          (context.parameters.maskedPosition position) =
        .ok ⟨context.parameters.maskedPosition position,
          ⟨context.provider, material⟩⟩ := by
    simp only [CachedKey.derive, deriveSegmentKey, Platform.expand, expanded,
      liftBackend, Outcome.ok_bind, AeadKey.new,
      healthy.accepts context.provider material, ↓reduceIte]
  simp only [segmentKey, inside, ↓reduceIte, derived]

/-- An AEAD that does not fail seals every payload of a segment. -/
theorem AeadKey.exists_sealed
    {platform : Platform}
    {plaintext : Bytes}
    (key : AeadKey)
    (nonce : Octets aeadIvLength)
    (aad : Bytes)
    (healthy : platform.NeverFails)
    (small : plaintext.length ≤ u32Max) :
    ∃ payload, key.sealed platform nonce aad plaintext = some payload := by
  obtain ⟨tag, ciphertext, sealed⟩ :=
    healthy.seals key.provider key.material nonce aad plaintext small
  refine ⟨(ciphertext, tag), ?_⟩
  simp only [AeadKey.sealed, AeadKey.sealInPlace, sealed, liftBackend]

/-! ## One step -/

section Steps

variable {platform : Platform} {context : MessageContext}
  {state : EncryptionState} {plaintext : Bytes} {position : Nat}
  {kind : SegmentKind}

/-- A step on an allowed payload seals the specification's segment under the
next nonce of the tape. -/
theorem EncryptionState.sealNext_specified
    (healthy : platform.NeverFails)
    (ready : state.Ready platform context)
    (random : state.nonces.rng.NeverFails)
    (inside : position < aeadMaxSegments)
    (fits : FitsKind context.parameters kind plaintext.length) :
    ∃ segment next,
      state.sealNext platform plaintext position kind =
          (some segment, next) ∧
        specifiedSegment platform context position kind
            state.nonces.upcoming plaintext = some segment ∧
        state.nonces.DrewOne next.nonces := by
  obtain ⟨rfl, coherent, served⟩ := ready
  have total := state.context.parameters.plaintextSegmentLength_add
  have maximum := state.context.parameters.lt_maximum
  have small := fits.le
  obtain ⟨nonces, drawn, _, _, drew⟩ :=
    NonceGenerator.draw_tape served random
  obtain ⟨scheduledKey, scheduled, provider⟩ :=
    state.context.exists_segmentKey healthy inside
  obtain ⟨keys, _, ⟨key, given, found⟩ | ⟨error, missing, _⟩⟩ :=
    KeyCache.keyForPosition_spec (Kdf.FaultOf.refl platform.kdfExpand)
      coherent position
  · rw [scheduled, Option.some.injEq] at given
    subst given
    have found' :
        state.keys.keyForPosition platform state.context position =
          (.ok scheduledKey, keys) :=
      found
    obtain ⟨payload, sealed⟩ :=
      scheduledKey.exists_sealed state.nonces.upcoming
        (segmentAad position kind) healthy
        (show plaintext.length ≤ u32Max by omega)
    refine ⟨assembleSegment kind plaintext.length state.nonces.upcoming
      payload, { state with keys, nonces }, ?_, ?_, drew⟩
    · simp only [sealNext, fits, ↓reduceIte, drawn, found', sealed,
        Option.map_some]
    · rw [specifiedSegment_eq platform inside scheduled provider, sealed,
        Option.map_some]
  · have missing' :
        state.context.segmentKey platform position = none :=
      missing
    rw [scheduled] at missing'
    cases missing'

end Steps

/-! ## The states of a message -/

/-- A call of one of the four ways to encrypt a segment. -/
inductive EncryptionCall where
  | allocating (plaintext : Bytes) (position : Nat) (kind : SegmentKind)
  | into (plaintext : Bytes) (position : Nat) (kind : SegmentKind)
      (output : Bytes)
  | inPlace (buffer : SegmentBuffer) (position : Nat) (kind : SegmentKind)
  | inPlaceRaw (buffer : Bytes) (plaintextLength position : Nat)
      (kind : SegmentKind)

/-- The state that a call leaves. -/
def EncryptionCall.stateAfter (platform : Platform)
    (state : EncryptionState) : EncryptionCall → EncryptionState
  | .allocating plaintext position kind =>
      (state.encryptSegmentAt platform plaintext position kind).2
  | .into plaintext position kind output =>
      (state.encryptSegmentIntoAt platform plaintext position kind output).2.1
  | .inPlace buffer position kind =>
      (state.encryptSegmentInPlaceAt platform buffer position kind).2.1
  | .inPlaceRaw buffer plaintextLength position kind =>
      (state.encryptSegmentInPlaceRawAt platform buffer plaintextLength
        position kind).2.1

/-- The encryption states of a message: started or forked, and then used by any
calls, which succeed or fail.  At each call the key derivation may fail in a
way of its own. -/
inductive EncryptionState.Reached (platform : Platform)
    (context : MessageContext) : EncryptionState → Prop where
  | started
      {faulty : Kdf} {key : Key} {aad : Bytes} {parameters : Parameters}
      {rng : ProviderRng} {state : EncryptionState} {header : Header}
      (sound : faulty.FaultOf platform.kdfExpand)
      (started :
        startEncryption (platform.withKdf faulty) key aad parameters rng =
          .ok (state, header))
      (ofMessage : state.context = context) :
      Reached platform context state
  | forked (rng : ProviderRng) :
      Reached platform context
        ((SharedEncryptionContext.mk context).fork rng)
  | called
      {faulty : Kdf} {state : EncryptionState}
      (sound : faulty.FaultOf platform.kdfExpand)
      (reached : Reached platform context state)
      (call : EncryptionCall) :
      Reached platform context
        (call.stateAfter (platform.withKdf faulty) state)

/-- Every call leaves a coherent state. -/
theorem EncryptionCall.stateAfter_ready
    {platform : Platform}
    {faulty : Kdf}
    {context : MessageContext}
    {state : EncryptionState}
    (call : EncryptionCall)
    (sound : faulty.FaultOf platform.kdfExpand)
    (agree : platform.SealsAgree)
    (ready : state.Ready platform context) :
    (call.stateAfter (platform.withKdf faulty) state).Ready platform
      context := by
  cases call with
  | allocating plaintext position kind =>
      obtain ⟨next, nextReady, ⟨_, _, result⟩ | ⟨_, _, result⟩⟩ :=
        EncryptionState.encryptSegmentAt_spec plaintext position kind sound
          agree ready
      · simpa only [stateAfter, result] using nextReady
      · simpa only [stateAfter, result] using nextReady
  | into plaintext position kind output =>
      obtain ⟨next, nextReady, ⟨_, _, _, _, result⟩ |
          ⟨_, _, _, result, _⟩⟩ :=
        EncryptionState.encryptSegmentIntoAt_spec plaintext position kind
          output sound agree ready
      · simpa only [stateAfter, result] using nextReady
      · simpa only [stateAfter, result] using nextReady
  | inPlace buffer position kind =>
      obtain ⟨next, nextReady, ⟨_, _, _, _, _, result, _, _⟩ |
          ⟨_, _, _, result, _, _⟩⟩ :=
        EncryptionState.encryptSegmentInPlaceAt_spec buffer position kind
          sound ready
      · simpa only [stateAfter, result] using nextReady
      · simpa only [stateAfter, result] using nextReady
  | inPlaceRaw buffer plaintextLength position kind =>
      obtain ⟨next, nextReady, ⟨_, _, _, _, _, result⟩ |
          ⟨_, _, _, result, _⟩⟩ :=
        EncryptionState.encryptSegmentInPlaceRawAt_spec buffer
          plaintextLength position kind sound ready
      · simpa only [stateAfter, result] using nextReady
      · simpa only [stateAfter, result] using nextReady

/-- Every state of a message is coherent. -/
theorem EncryptionState.Reached.ready
    {platform : Platform}
    {context : MessageContext}
    {state : EncryptionState}
    (agree : platform.SealsAgree)
    (reached : state.Reached platform context) :
    state.Ready platform context := by
  induction reached with
  | started sound started ofMessage =>
      obtain ⟨_, _, coherent, _, later, nonces⟩ :=
        startEncryption_eq_ok sound started
      subst ofMessage
      refine ⟨rfl, coherent, ?_⟩
      rw [nonces]
      exact NonceGenerator.wellFormed_new later
  | forked rng =>
      exact SharedEncryptionContext.fork_ready platform ⟨context⟩ rng
  | called sound _ call inductionHypothesis =>
      exact call.stateAfter_ready sound agree inductionHypothesis

/-! ## Agreement -/

/-- Every path to the encryption of a plaintext returns the segment, and draws
one nonce. -/
structure EncryptionState.PathsSeal (platform : Platform)
    (state : EncryptionState) (position : Nat) (kind : SegmentKind)
    (plaintext segment : Bytes) : Prop where
  allocating :
    ∃ next,
      state.encryptSegmentAt platform plaintext position kind =
          (.ok segment, next) ∧
        state.nonces.DrewOne next.nonces
  into :
    ∀ output : Bytes, plaintext.length + segmentOverhead ≤ output.length →
      ∃ next,
        state.encryptSegmentIntoAt platform plaintext position kind output =
            (.ok segment.length, next,
              segment ++ output.drop segment.length) ∧
          state.nonces.DrewOne next.nonces
  inPlace :
    ∀ buffer : SegmentBuffer, buffer.parameters = state.parameters →
      buffer.HoldsPlaintext plaintext →
        ∃ next sealedBuffer,
          state.encryptSegmentInPlaceAt platform buffer position kind =
              (.ok segment, next, sealedBuffer) ∧
            sealedBuffer.HoldsCiphertext segment ∧
            state.nonces.DrewOne next.nonces
  inPlaceRaw :
    ∀ buffer : Bytes, plaintext.length + segmentOverhead ≤ buffer.length →
      (buffer.drop segmentPayloadOffset).take plaintext.length =
          plaintext →
        ∃ next,
          state.encryptSegmentInPlaceRawAt platform buffer plaintext.length
                position kind =
              (.ok segment.length, next,
                segment ++ buffer.drop segment.length) ∧
            state.nonces.DrewOne next.nonces

/-- Every path to the encryption of a plaintext fails and draws no nonce. -/
structure EncryptionState.PathsRefuse (platform : Platform)
    (state : EncryptionState) (position : Nat) (kind : SegmentKind)
    (plaintext : Bytes) : Prop where
  allocating :
    ∃ error,
      state.encryptSegmentAt platform plaintext position kind =
        (.error (.err error), state)
  into :
    ∀ output : Bytes, ∃ error,
      state.encryptSegmentIntoAt platform plaintext position kind output =
        (.error (.err error), state, output)
  inPlace :
    ∀ buffer : SegmentBuffer, buffer.parameters = state.parameters →
      buffer.HoldsPlaintext plaintext →
        ∃ error,
          state.encryptSegmentInPlaceAt platform buffer position kind =
            (.error (.err error), state, buffer.clear)
  inPlaceRaw :
    ∀ buffer : Bytes, ∃ error,
      state.encryptSegmentInPlaceRawAt platform buffer plaintext.length
          position kind =
        (.error (.err error), state, buffer)

section Agreement

variable {platform : Platform} {context : MessageContext}
  {state : EncryptionState} {plaintext : Bytes} {position : Nat}
  {kind : SegmentKind}

/-- When the step succeeds, every path returns its segment. -/
theorem EncryptionState.pathsSeal_of_sealNext
    {segment : Bytes}
    {next : EncryptionState}
    (agree : platform.SealsAgree)
    (ready : state.Ready platform context)
    (step :
      state.sealNext platform plaintext position kind = (some segment, next))
    (drew : state.nonces.DrewOne next.nonces) :
    state.PathsSeal platform position kind plaintext segment := by
  have sound := Kdf.FaultOf.refl platform.kdfExpand
  constructor
  case allocating =>
    obtain ⟨after, _, ⟨written, taken, result⟩ | ⟨error, failed, _⟩⟩ :=
      EncryptionState.encryptSegmentAt_spec plaintext position kind sound
        agree ready
    · cases step.symm.trans taken
      exact ⟨next, result, drew⟩
    · cases step.symm.trans failed
  case into =>
    intro output room
    rw [segmentOverhead_eq] at room
    obtain ⟨after, _, ⟨written, taken, _, _, result⟩ |
        ⟨error, failed, fails, _⟩⟩ :=
      EncryptionState.encryptSegmentIntoAt_spec plaintext position kind
        output sound agree ready
    · cases step.symm.trans taken
      exact ⟨next, result, drew⟩
    · rcases fails with failed | ⟨_, impossible⟩
      · cases step.symm.trans failed
      · omega
  case inPlace =>
    intro buffer parameters holds
    have held := holds.plaintext_eq
    have same : buffer.parameters = context.parameters := by
      rw [parameters, EncryptionState.parameters, ready.context_eq]
    obtain ⟨after, _, ⟨payload, written, sealedBuffer, read, taken, result,
        _, sealed⟩ | ⟨error, left, failed, _⟩⟩ :=
      EncryptionState.encryptSegmentInPlaceAt_spec buffer position kind
        sound ready
    · rw [held, Except.ok.injEq] at read
      subst read
      cases step.symm.trans taken
      exact ⟨next, sealedBuffer, result, sealed holds.sized, drew⟩
    · cases step.symm.trans (failed plaintext holds same)
  case inPlaceRaw =>
    intro buffer room payload
    rw [segmentOverhead_eq] at room
    rw [segmentPayloadOffset_eq] at payload
    obtain ⟨after, _, ⟨written, _, taken, _, _, result⟩ |
        ⟨error, left, fails, _⟩⟩ :=
      EncryptionState.encryptSegmentInPlaceRawAt_spec buffer
        plaintext.length position kind sound ready
    · rw [payload] at taken
      cases step.symm.trans taken
      exact ⟨next, result, drew⟩
    · have failed := fails (by omega)
      rw [payload] at failed
      rcases failed with failed | ⟨_, impossible⟩
      · cases step.symm.trans failed
      · omega

/-- A payload length that the kind does not allow is refused by every path
before a nonce is drawn. -/
theorem EncryptionState.pathsRefuse_of_misfit
    (platform : Platform)
    (position : Nat)
    (misfit :
      ¬ FitsKind state.context.parameters kind plaintext.length) :
    state.PathsRefuse platform position kind plaintext := by
  obtain ⟨error, size⟩ : ∃ error,
      ciphertextSegmentSize platform state.context plaintext.length kind =
        .error (.err error) := by
    rcases ciphertextSegmentSize_spec platform state.context
        plaintext.length kind with
      ⟨fits, _⟩ | ⟨_, refused⟩
    · exact (misfit fits).elim
    · exact refused
  have raw (buffer : Bytes) :
      state.encryptSegmentInPlaceRawAt platform buffer plaintext.length
          position kind =
        (.error (.err error), state, buffer) := by
    simp only [encryptSegmentInPlaceRawAt, encryptSegmentInPlaceInner,
      beginSegmentEncryption, size]
  constructor
  case allocating =>
    exact ⟨error, by simp only [encryptSegmentAt, size]⟩
  case into =>
    intro output
    exact ⟨error, by
      simp only [encryptSegmentIntoAt, encryptSegmentIntoInner,
        beginSegmentEncryption, size]⟩
  case inPlace =>
    intro buffer parameters holds
    have same : buffer.hasParameters state.parameters = true := by
      simp [SegmentBuffer.hasParameters, parameters]
    refine ⟨error, ?_⟩
    simp only [encryptSegmentInPlaceAt, same, not_true_eq_false, ↓reduceIte,
      holds.plaintextLength_eq, raw]
    rfl
  case inPlaceRaw =>
    intro buffer
    exact ⟨error, raw buffer⟩

/-- Every path to the encryption of a plaintext refines the specification: on
an allowed payload length all of them return the specification's segment under
the next nonce of the tape and draw that nonce, and on any other length all of
them refuse and draw none. -/
theorem encryptionPaths_refineSpecification
    (agree : platform.SealsAgree)
    (healthy : platform.NeverFails)
    (reached : state.Reached platform context)
    (random : state.nonces.rng.NeverFails)
    (inside : position < aeadMaxSegments)
    (kind : SegmentKind)
    (plaintext : Bytes) :
    (FitsKind context.parameters kind plaintext.length →
      ∃ segment,
        specifiedSegment platform context position kind
            state.nonces.upcoming plaintext = some segment ∧
          state.PathsSeal platform position kind plaintext segment) ∧
      (¬ FitsKind context.parameters kind plaintext.length →
        state.PathsRefuse platform position kind plaintext) := by
  have ready := reached.ready agree
  constructor
  · intro fits
    obtain ⟨segment, next, step, specified, drew⟩ :=
      EncryptionState.sealNext_specified healthy ready random inside fits
    exact ⟨segment, specified,
      EncryptionState.pathsSeal_of_sealNext agree ready step drew⟩
  · intro misfit
    rw [← ready.context_eq] at misfit
    exact EncryptionState.pathsRefuse_of_misfit platform position misfit

end Agreement

/-- The transparent provider does not fail. -/
theorem transparent_neverFails
    {admits : Octets aeadIvLength → Bytes → Bytes → Bool} :
    (transparentPlatform admits).NeverFails where
  derives _ length _ _ _ := ⟨Octets.zero length, rfl⟩
  accepts _ _ := rfl
  seals _ _ _ _ plaintext _ := ⟨Octets.zero aeadTagLength, plaintext, rfl⟩

/-- A forked state encrypts one byte to the same segment on every path. -/
theorem encryptionPaths_refineSpecification_example :
    ((SharedEncryptionContext.mk transparentContext).fork zeroRng).PathsSeal
      openPlatform 5 .final [7]
      (beBytes 4 33 ++ zeros 12 ++ [7] ++ zeros 16) := by
  have fits :
      FitsKind transparentContext.parameters .final ([7] : Bytes).length := by
    decide
  obtain ⟨segment, specified, paths⟩ :=
    (encryptionPaths_refineSpecification transparent_sealsAgree
      transparent_neverFails
      (@EncryptionState.Reached.forked openPlatform transparentContext
        zeroRng)
      (fun _ => rfl) (show 5 < aeadMaxSegments by decide) .final [7]).1 fits
  cases specified
  exact paths

end FastFloe
