import FastFloe.DecryptionStates

namespace FastFloe

open Rust

/-!
# Headers and the start of a message

`HeaderAuthenticates` says which message context a header stands for under a key
and an AAD.  Starting an encryption produces such a header, and starting a
decryption accepts exactly these.
-/

namespace Parameters

/-- The encoded segment length is at bytes two to five. -/
theorem beValue_encode (self : Parameters) :
    beValue ((self.encode.val.drop 2).take 4) =
      self.ciphertextSegmentLength := by
  have maximum := self.lt_maximum
  have field :
      (self.encode.val.drop 2).take 4 =
        beBytes 4 self.ciphertextSegmentLength := by
    have lead : ([0, 0] : Bytes).length = 2 := rfl
    simp only [encode, List.append_assoc]
    rw [List.drop_left' lead, List.take_left' (length_beBytes 4 _)]
  rw [field]
  exact beValue_beBytes_of_lt
    (Nat.lt_of_lt_of_le maximum (by decide))

theorem withSegmentLength_eq (self : Parameters) :
    withSegmentLength self.ciphertextSegmentLength = .ok self := by
  simp [withSegmentLength, self.minimum_le, self.lt_maximum]

/-- Decoding accepts exactly the encodings. -/
theorem decode_eq_ok
    {encoded : Octets encodedParametersLength}
    {parameters : Parameters} :
    decode encoded = .ok parameters ↔ encoded = parameters.encode := by
  constructor
  · intro decoded
    unfold decode at decoded
    obtain ⟨other, _, decoded⟩ := Outcome.bind_eq_ok.mp decoded
    split at decoded
    next same =>
      cases decoded
      exact same.symm
    · cases decoded
  · rintro rfl
    have declared :
        Outcome.mapErr (fun _ => Error.invalidHeaderParameters)
            (withSegmentLength
              (beValue ((parameters.encode.val.drop 2).take 4))) =
          .ok parameters := by
      rw [beValue_encode, withSegmentLength_eq]
      rfl
    exact Outcome.bind_eq_ok.mpr ⟨parameters, declared, if_pos rfl⟩

theorem decode_returns (encoded : Octets encodedParametersLength) :
    (decode encoded).Returns := by
  unfold decode
  refine Outcome.Returns.bind ?_ ?_
  · rw [Outcome.returns_mapErr]
    unfold withSegmentLength
    split
    · exact Outcome.returns_ok _
    · exact Outcome.returns_err _
  · intro parameters _
    split
    · exact Outcome.returns_ok _
    · exact Outcome.returns_err _

/-- Different parameter sets have different encodings. -/
theorem encode_injective
    {first second : Parameters}
    (same : first.encode = second.encode) :
    first = second := by
  have decoded := decode_eq_ok.mpr same
  rw [decode_eq_ok.mpr rfl] at decoded
  exact Except.ok.inj decoded

end Parameters

namespace Header

section Fields

variable (encoded : Octets encodedParametersLength)
  (iv : Octets floeIvLength) (authentication : Octets headerTagLength)

@[simp] theorem encodedParameters_fromFields :
    (fromFields encoded iv authentication).encodedParameters = encoded := by
  apply Subtype.ext
  simp only [encodedParameters, fromFields, List.append_assoc]
  exact List.take_left' encoded.length_val

@[simp] theorem floeIv_fromFields :
    (fromFields encoded iv authentication).floeIv = iv := by
  apply Subtype.ext
  simp only [floeIv, fromFields, List.append_assoc]
  rw [floeIvOffset, List.drop_left' encoded.length_val]
  exact List.take_left' iv.length_val

@[simp] theorem tag_fromFields :
    (fromFields encoded iv authentication).tag = authentication := by
  apply Subtype.ext
  simp only [tag, fromFields]
  refine List.drop_left' ?_
  rw [List.length_append, encoded.length_val, iv.length_val]
  rfl

end Fields

end Header

/-- The header stands for this message context under the key and the AAD: its
first bytes encode the parameters, and its tag is the derived one. -/
structure HeaderAuthenticates (platform : Platform) (key : Key) (aad : Bytes)
    (header : Header) (context : MessageContext) : Prop where
  provider : key.resolveProvider platform = .ok context.provider
  parameters : header.encodedParameters = context.parameters.encode
  floeIv : context.floeIv = header.floeIv
  associated : context.aad = aad
  tag :
    platform.kdfExpand context.provider headerTagLength key.bytes.val
      [header.encodedParameters.val, header.floeIv.val, headerTagPurpose,
        aad] = .ok header.tag
  messageKey :
    platform.kdfExpand context.provider 48 key.bytes.val
      [header.encodedParameters.val, header.floeIv.val, messageKeyPurpose,
        aad] = .ok context.messageKey

/-- A header stands for one message context. -/
theorem HeaderAuthenticates.unique
    {platform : Platform}
    {key : Key}
    {aad : Bytes}
    {header : Header}
    {first second : MessageContext}
    (isFirst : HeaderAuthenticates platform key aad header first)
    (isSecond : HeaderAuthenticates platform key aad header second) :
    first = second := by
  have provider : first.provider = second.provider := by
    have resolved := isFirst.provider
    rw [isSecond.provider] at resolved
    exact (Except.ok.inj resolved).symm
  have parameters : first.parameters = second.parameters :=
    Parameters.encode_injective
      (isFirst.parameters.symm.trans isSecond.parameters)
  have messageKey : first.messageKey = second.messageKey := by
    have derived := isFirst.messageKey
    rw [provider, isSecond.messageKey] at derived
    exact (Except.ok.inj derived).symm
  have floeIv : first.floeIv = second.floeIv :=
    isFirst.floeIv.trans isSecond.floeIv.symm
  have aadEq : first.aad = second.aad :=
    isFirst.associated.trans isSecond.associated.symm
  cases first
  cases second
  simp_all

/-! ## Starting a decryption -/

/-- Creating a key cache always comes back, and fails only where position zero
has no key. -/
theorem KeyCache.new_spec
    (platform : Platform)
    (context : MessageContext) :
    (∃ keys,
        KeyCache.new platform context = .ok keys ∧
          keys.Coherent platform context ∧
          ∃ key, context.segmentKey platform 0 = some key) ∨
      ((∃ error, KeyCache.new platform context = .error (.err error)) ∧
        context.segmentKey platform 0 = none) := by
  cases created : KeyCache.new platform context with
  | ok keys =>
      exact .inl ⟨keys, rfl, KeyCache.new_eq_ok created⟩
  | error stop =>
      right
      have masked : context.parameters.maskedPosition 0 = 0 := by
        simp [Parameters.maskedPosition]
      unfold KeyCache.new at created
      cases derived : CachedKey.derive platform context 0 with
      | ok cached =>
          rw [derived] at created
          cases created
      | error reason =>
          obtain ⟨error, shape⟩ :=
            (CachedKey.derive_returns platform context 0).exists_err
              (by simp [derived])
          rw [derived] at created shape
          cases shape
          cases created
          refine ⟨⟨error, rfl⟩, ?_⟩
          simp [MessageContext.segmentKey, aeadMaxSegments, masked, derived]

section Start

variable {platform : Platform} {key : Key} {aad : Bytes}
  {parameters : Parameters} {header : Header} {provider : Provider}

/-- Starting with a resolved provider and the header's own parameters accepts
exactly the header that stands for a context with a key at position zero. -/
theorem startDecryptionWithProvider_spec
    (resolved : key.resolveProvider platform = .ok provider)
    (encoded : header.encodedParameters = parameters.encode) :
    (∃ context state,
        HeaderAuthenticates platform key aad header context ∧
          startDecryptionWithProvider platform key provider aad parameters
            header = .ok state ∧
          state.Ready platform context ∧
          ∃ segmentKey, context.segmentKey platform 0 = some segmentKey) ∨
      ((∃ error,
          startDecryptionWithProvider platform key provider aad parameters
            header = .error (.err error)) ∧
        ∀ context,
          HeaderAuthenticates platform key aad header context →
            context.segmentKey platform 0 = none) := by
  have sameProvider (context : MessageContext)
      (authentic : HeaderAuthenticates platform key aad header context) :
      context.provider = provider := by
    have other := authentic.provider
    rw [resolved] at other
    exact (Except.ok.inj other).symm
  simp only [startDecryptionWithProvider, encoded, ne_eq, not_true_eq_false,
    ↓reduceIte, deriveHeaderTag, deriveMessageKey, Platform.expand]
  rw [← encoded]
  cases tagged : platform.kdfExpand provider headerTagLength key.bytes.val
      [header.encodedParameters.val, header.floeIv.val, headerTagPurpose,
        aad] with
  | error error =>
      right
      refine ⟨⟨error, rfl⟩, ?_⟩
      intro context authentic
      have tag := authentic.tag
      rw [sameProvider context authentic, tagged] at tag
      cases tag
  | ok expectedTag =>
      simp only [liftBackend, Outcome.ok_bind]
      by_cases same : expectedTag = header.tag
      · subst same
        simp only [not_true_eq_false, ↓reduceIte]
        cases derived : platform.kdfExpand provider 48 key.bytes.val
            [header.encodedParameters.val, header.floeIv.val,
              messageKeyPurpose, aad] with
        | error error =>
            right
            refine ⟨⟨error, rfl⟩, ?_⟩
            intro context authentic
            have messageKey := authentic.messageKey
            rw [sameProvider context authentic, derived] at messageKey
            cases messageKey
        | ok messageKey =>
            have authentic : HeaderAuthenticates platform key aad header
                ⟨provider, parameters, messageKey, header.floeIv, aad⟩ :=
              ⟨resolved, encoded, rfl, rfl, tagged, derived⟩
            simp only [Outcome.ok_bind]
            rcases KeyCache.new_spec platform
                ⟨provider, parameters, messageKey, header.floeIv, aad⟩ with
              ⟨keys, created, coherent, scheduled⟩ |
                ⟨⟨error, failed⟩, unscheduled⟩
            · left
              refine ⟨_, ⟨_, keys⟩, authentic, ?_, ⟨rfl, coherent⟩, scheduled⟩
              simp only [created, Outcome.ok_bind]
            · right
              refine ⟨⟨error, ?_⟩, ?_⟩
              · simp only [failed, Outcome.error_bind]
              · intro context other
                rw [other.unique authentic]
                exact unscheduled
      · right
        simp only [same, not_false_eq_true, ↓reduceIte]
        refine ⟨⟨.invalidHeaderTag, rfl⟩, ?_⟩
        intro context authentic
        have tag := authentic.tag
        rw [sameProvider context authentic, tagged] at tag
        exact (same (Except.ok.inj tag)).elim

theorem resolveProvider_returns (platform : Platform) (key : Key) :
    (key.resolveProvider platform).Returns := by
  unfold Key.resolveProvider
  split
  · exact Outcome.returns_ok _
  · split
    · exact Outcome.returns_ok _
    · exact Outcome.returns_err _

/-- `start_decryption` comes back. -/
theorem startDecryption_returns
    (platform : Platform)
    (key : Key)
    (aad : Bytes)
    (parameters : Parameters)
    (header : Header) :
    (startDecryption platform key aad parameters header).Returns := by
  refine (resolveProvider_returns platform key).bind ?_
  intro provider resolved
  by_cases encoded : header.encodedParameters = parameters.encode
  · rcases @startDecryptionWithProvider_spec platform key aad parameters header
        provider resolved encoded with
      ⟨context, state, _, started, _⟩ | ⟨⟨error, failed⟩, _⟩
    · rw [started]
      exact Outcome.returns_ok _
    · rw [failed]
      exact Outcome.returns_err _
  · simp only [startDecryptionWithProvider, ne_eq, encoded, not_false_eq_true,
      ↓reduceIte]
    exact Outcome.returns_err _

/-- `start_decryption_inferred` accepts exactly the headers that stand for a
message context with a key at position zero. -/
theorem startDecryptionInferred_spec
    (platform : Platform)
    (key : Key)
    (aad : Bytes)
    (header : Header) :
    (∃ context state,
        HeaderAuthenticates platform key aad header context ∧
          startDecryptionInferred platform key aad header = .ok state ∧
          state.Ready platform context ∧
          ∃ segmentKey, context.segmentKey platform 0 = some segmentKey) ∨
      ((∃ error,
          startDecryptionInferred platform key aad header =
            .error (.err error)) ∧
        ∀ context,
          HeaderAuthenticates platform key aad header context →
            context.segmentKey platform 0 = none) := by
  unfold startDecryptionInferred
  cases resolved : key.resolveProvider platform with
  | error stop =>
      right
      constructor
      · have returns := resolveProvider_returns platform key
        rw [resolved] at returns
        obtain ⟨error, rfl⟩ := returns.stop_eq_err
        exact ⟨error, rfl⟩
      · intro context authentic
        have provider := authentic.provider
        rw [resolved] at provider
        cases provider
  | ok provider =>
      simp only [Outcome.ok_bind, Header.unverifiedParameters]
      cases decoded : Parameters.decode header.encodedParameters with
      | ok parameters =>
          exact startDecryptionWithProvider_spec resolved
            (Parameters.decode_eq_ok.mp decoded)
      | error stop =>
          right
          constructor
          · obtain ⟨error, shape⟩ :=
              (Parameters.decode_returns header.encodedParameters).exists_err
                (by simp [decoded])
            rw [decoded] at shape
            cases shape
            exact ⟨error, rfl⟩
          · intro context authentic
            have success := Parameters.decode_eq_ok.mpr authentic.parameters
            rw [decoded] at success
            cases success

end Start

/-! ## Started states -/

/-- A started decryption state is ready. -/
theorem startDecryptionWithProvider_ready
    {platform : Platform}
    {key : Key}
    {provider : Provider}
    {aad : Bytes}
    {parameters : Parameters}
    {header : Header}
    {state : DecryptionState}
    (started :
      startDecryptionWithProvider platform key provider aad parameters
        header = .ok state) :
    state.Ready platform state.context := by
  unfold startDecryptionWithProvider at started
  dsimp only at started
  split at started
  · cases started
  · obtain ⟨tag, _, started⟩ := Outcome.bind_eq_ok.mp started
    split at started
    · cases started
    · obtain ⟨messageKey, _, started⟩ := Outcome.bind_eq_ok.mp started
      obtain ⟨keys, created, shape⟩ := Outcome.bind_eq_ok.mp started
      cases shape
      exact ⟨rfl, (KeyCache.new_eq_ok created).1⟩

theorem startDecryption_ready
    {platform : Platform}
    {key : Key}
    {aad : Bytes}
    {parameters : Parameters}
    {header : Header}
    {state : DecryptionState}
    (started :
      startDecryption platform key aad parameters header = .ok state) :
    state.Ready platform state.context := by
  obtain ⟨provider, _, started⟩ := Outcome.bind_eq_ok.mp started
  exact startDecryptionWithProvider_ready started

theorem startDecryptionInferred_ready
    {platform : Platform}
    {key : Key}
    {aad : Bytes}
    {header : Header}
    {state : DecryptionState}
    (started :
      startDecryptionInferred platform key aad header = .ok state) :
    state.Ready platform state.context := by
  obtain ⟨provider, _, started⟩ := Outcome.bind_eq_ok.mp started
  obtain ⟨parameters, _, started⟩ := Outcome.bind_eq_ok.mp started
  exact startDecryptionWithProvider_ready started

/-- A cache that is coherent at a faulty moment is coherent always. -/
theorem DecryptionState.Ready.of_fault
    {platform : Platform}
    {faulty : Kdf}
    {context : MessageContext}
    {state : DecryptionState}
    (sound : faulty.FaultOf platform.kdfExpand)
    (ready : state.Ready (platform.withKdf faulty) context) :
    state.Ready platform context := by
  obtain ⟨sameContext, coherent⟩ := ready
  refine ⟨sameContext, fun cached member => ?_⟩
  exact CachedKey.derive_of_fault sound (coherent cached member)

/-! ## Starting an encryption -/

/-- `start_encryption` produces a header that stands for the context it
returns, also at a moment when derivations may fail. -/
theorem startEncryption_eq_ok
    {platform : Platform}
    {faulty : Kdf}
    {key : Key}
    {aad : Bytes}
    {parameters : Parameters}
    {rng : ProviderRng}
    {state : EncryptionState}
    {header : Header}
    (sound : faulty.FaultOf platform.kdfExpand)
    (started :
      startEncryption (platform.withKdf faulty) key aad parameters rng =
        .ok (state, header)) :
    HeaderAuthenticates platform key aad header state.context ∧
      state.context.parameters = parameters ∧
      state.keys.Coherent platform state.context ∧
      (∃ segmentKey,
        state.context.segmentKey platform 0 = some segmentKey) ∧
      ∃ later, state.nonces = NonceGenerator.new later := by
  unfold startEncryption at started
  simp only [Outcome.bind_eq_ok] at started
  obtain ⟨provider, resolved, _, _, floeIv, _, tag, tagged, messageKey,
    derived, keys, created, shape⟩ := started
  simp only [Except.ok.injEq, Prod.mk.injEq] at shape
  obtain ⟨rfl, rfl⟩ := shape
  simp only [deriveHeaderTag, deriveMessageKey, Platform.expand,
    liftBackend_eq_ok] at tagged derived
  unfold KeyCache.new at created
  obtain ⟨cached, first, shape⟩ := Outcome.bind_eq_ok.mp created
  cases shape
  have scheduled := CachedKey.derive_of_fault sound first
  have masked : parameters.maskedPosition 0 = 0 := by
    simp [Parameters.maskedPosition]
  refine ⟨⟨resolved, ?_, ?_, rfl, ?_, ?_⟩, rfl, ?_, ⟨cached.key, ?_⟩, _,
    rfl⟩
  · simp
  · simp
  · simp only [Header.encodedParameters_fromFields, Header.floeIv_fromFields,
      Header.tag_fromFields]
    exact sound _ _ _ _ _ tagged
  · simp only [Header.encodedParameters_fromFields, Header.floeIv_fromFields]
    exact sound _ _ _ _ _ derived
  · intro other member
    cases member
    rwa [CachedKey.derive_maskedPosition scheduled]
  · simp [MessageContext.segmentKey, aeadMaxSegments, masked, scheduled]

end FastFloe
