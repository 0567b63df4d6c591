import FastFloe.Decryptors
import FastFloe.Transparent

namespace FastFloe

open Rust

/-!
# Chosen and inferred parameters

A decryption starts with parameters that the caller chose or with those that the
header declares.  Either way it accepts the same headers, because the chosen
parameters are compared in their encoded form and the declared ones are decoded
by an exact inverse of the encoder.
-/

namespace Parameters

/-- `decode` accepts the encodings of supported segment lengths, and refuses
everything else with one error. -/
theorem decode_cases (encoded : Octets encodedParametersLength) :
    (∃ parameters : Parameters,
        decode encoded = .ok parameters ∧ parameters.encode = encoded) ∨
      (decode encoded = .error (.err .invalidHeaderParameters) ∧
        ∀ parameters : Parameters, parameters.encode ≠ encoded) := by
  by_cases encodes : ∃ parameters : Parameters, parameters.encode = encoded
  · obtain ⟨parameters, same⟩ := encodes
    exact .inl ⟨parameters, decode_eq_ok.mpr same.symm, same⟩
  · refine .inr ⟨?_, fun parameters same => encodes ⟨parameters, same⟩⟩
    unfold decode
    generalize beValue ((encoded.val.drop 2).take 4) = segmentLength
    dsimp only
    by_cases supported : 64 ≤ segmentLength ∧ segmentLength < u32Max
    · have declared : withSegmentLength segmentLength =
          .ok ⟨segmentLength, supported.1, supported.2⟩ :=
        dif_pos supported
      rw [declared]
      exact if_neg fun same => encodes ⟨_, same⟩
    · have refused : withSegmentLength segmentLength =
          .error (.err (.invalidSegmentLength segmentLength)) :=
        dif_neg supported
      rw [refused]
      rfl

end Parameters

section Start

variable {platform : Platform} {key : Key} {aad : Bytes}
  {parameters : Parameters} {header : Header} {state : DecryptionState}

/-- A decryption starts only with the parameters that the header encodes. -/
theorem startDecryptionWithProvider_parameters
    {provider : Provider}
    (started :
      startDecryptionWithProvider platform key provider aad parameters
        header = .ok state) :
    header.encodedParameters = parameters.encode ∧
      state.context.parameters = parameters := by
  unfold startDecryptionWithProvider at started
  by_cases same : header.encodedParameters = parameters.encode
  · refine ⟨same, ?_⟩
    simp only [same, ne_eq, not_true_eq_false, ↓reduceIte] at started
    obtain ⟨tag, _, started⟩ := Outcome.bind_eq_ok.mp started
    by_cases authentic : tag = header.tag
    · simp only [authentic, not_true_eq_false, ↓reduceIte] at started
      obtain ⟨messageKey, _, started⟩ := Outcome.bind_eq_ok.mp started
      obtain ⟨keys, _, started⟩ := Outcome.bind_eq_ok.mp started
      cases started
      rfl
    · simp only [authentic, not_false_eq_true, ↓reduceIte] at started
      cases started
  · simp only [same, ne_eq, not_false_eq_true, ↓reduceIte] at started
    cases started

/-- With the parameters that the header encodes, choosing them and inferring
them is the same. -/
theorem startDecryption_eq_inferred
    (platform : Platform)
    (key : Key)
    (aad : Bytes)
    (same : header.encodedParameters = parameters.encode) :
    startDecryption platform key aad parameters header =
      startDecryptionInferred platform key aad header := by
  have decoded : header.unverifiedParameters = .ok parameters :=
    Parameters.decode_eq_ok.mpr same
  simp only [startDecryption, startDecryptionInferred, decoded,
    Outcome.ok_bind]

/-- Starting with chosen parameters is starting with inferred ones that turn
out to be these. -/
theorem startDecryption_eq_ok_iff :
    startDecryption platform key aad parameters header = .ok state ↔
      startDecryptionInferred platform key aad header = .ok state ∧
        state.context.parameters = parameters := by
  constructor
  · intro started
    obtain ⟨provider, _, begun⟩ := Outcome.bind_eq_ok.mp started
    obtain ⟨same, own⟩ := startDecryptionWithProvider_parameters begun
    rw [startDecryption_eq_inferred platform key aad same] at started
    exact ⟨started, own⟩
  · rintro ⟨started, own⟩
    obtain ⟨provider, _, inferred⟩ := Outcome.bind_eq_ok.mp started
    obtain ⟨declared, _, begun⟩ := Outcome.bind_eq_ok.mp inferred
    obtain ⟨same, other⟩ := startDecryptionWithProvider_parameters begun
    rw [startDecryption_eq_inferred platform key aad
      (by rw [same, ← own, other])]
    exact started

/-- A state that was started belongs to the context that its header stands
for. -/
theorem HeaderAuthenticates.of_started
    (started : startDecryptionInferred platform key aad header = .ok state) :
    HeaderAuthenticates platform key aad header state.context := by
  rcases startDecryptionInferred_spec platform key aad header with
    ⟨context, other, authentic, same, ready, _⟩ | ⟨⟨error, failed⟩, _⟩
  · rw [started] at same
    cases same
    rw [ready.context_eq]
    exact authentic
  · rw [started] at failed
    cases failed

/-- The header that `start_encryption` returns is accepted under its own
context. -/
theorem startDecryption_of_startEncryption
    {rng : ProviderRng}
    {encryption : EncryptionState}
    (started :
      startEncryption platform key aad parameters rng =
        .ok (encryption, header)) :
    ∃ state,
      startDecryption platform key aad parameters header = .ok state ∧
        startDecryptionInferred platform key aad header = .ok state ∧
        state.context = encryption.context := by
  obtain ⟨authentic, own, _, ⟨segmentKey, scheduled⟩, _⟩ :=
    startEncryption_eq_ok (Kdf.FaultOf.refl platform.kdfExpand) started
  have scheduled' :
      encryption.context.segmentKey platform 0 = some segmentKey :=
    scheduled
  rcases startDecryptionInferred_spec platform key aad header with
    ⟨context, state, other, accepted, ready, _⟩ | ⟨_, unscheduled⟩
  · obtain rfl := other.unique authentic
    refine ⟨state, ?_, accepted, ready.1⟩
    exact startDecryption_eq_ok_iff.mpr
      ⟨accepted, (congrArg MessageContext.parameters ready.1).trans own⟩
  · rw [unscheduled _ authentic] at scheduled'
    cases scheduled'

end Start

/-- A ciphertext is decrypted with chosen parameters exactly when it is
decrypted at all and its header encodes these. -/
theorem decryptWithParameters_eq_ok_iff
    {platform : Platform}
    {key : Key}
    {aad ciphertext plaintext : Bytes}
    {parameters : Parameters} :
    decryptWithParameters platform key aad parameters ciphertext =
        .ok plaintext ↔
      decrypt platform key aad ciphertext = .ok plaintext ∧
        ciphertext.take encodedParametersLength = parameters.encode.val := by
  rcases splitHeader_spec ciphertext with
    ⟨header, body, rfl, cut⟩ | ⟨_, error, failed⟩
  · have declared :
        (header.val ++ body).take encodedParametersLength =
          header.encodedParameters.val := by
      rw [List.take_append_of_le_length (by
        rw [header.length_val]
        decide)]
      rfl
    rw [declared]
    constructor
    · intro decrypted
      simp only [decryptWithParameters, cut, Outcome.ok_bind,
        Decryptor.newWithParameters] at decrypted
      obtain ⟨decryptor, created, opened⟩ := Outcome.bind_eq_ok.mp decrypted
      obtain ⟨state, started, shape⟩ := Outcome.bind_eq_ok.mp created
      obtain ⟨provider, _, begun⟩ := Outcome.bind_eq_ok.mp started
      obtain ⟨same, _⟩ := startDecryptionWithProvider_parameters begun
      rw [startDecryption_eq_inferred platform key aad same] at started
      refine ⟨?_, congrArg Subtype.val same⟩
      simp only [decrypt, cut, Outcome.ok_bind, Decryptor.new]
      exact Outcome.bind_eq_ok.mpr
        ⟨decryptor, Outcome.bind_eq_ok.mpr ⟨state, started, shape⟩, opened⟩
    · rintro ⟨decrypted, same⟩
      rw [← decrypted]
      simp only [decryptWithParameters, decrypt, cut, Outcome.ok_bind,
        Decryptor.newWithParameters, Decryptor.new,
        startDecryption_eq_inferred platform key aad (Subtype.ext same)]
  · constructor
    · intro decrypted
      simp only [decryptWithParameters, failed, Outcome.error_bind]
        at decrypted
      cases decrypted
    · rintro ⟨decrypted, _⟩
      simp only [decrypt, failed, Outcome.error_bind] at decrypted
      cases decrypted

/-- Header parsing is exact, and the two ways to start a decryption agree.
`decode` accepts an encoding exactly as the parameters that encode to it, which
have a supported segment length, and refuses everything else.  `start_decryption`
succeeds with parameters exactly when `start_decryption_inferred` succeeds and
infers these, with the same state; so `decrypt_with_parameters` is `decrypt` on
the ciphertexts whose header encodes them.  The header that `start_encryption`
returns is accepted both ways, with the encryptor's own context. -/
theorem headerParsing_isExact :
    (∀ encoded parameters,
      Parameters.decode encoded = .ok parameters ↔
        parameters.encode = encoded ∧
          64 ≤ parameters.ciphertextSegmentLength ∧
          parameters.ciphertextSegmentLength ≤ 2 ^ 32 - 2) ∧
    (∀ encoded,
      ((∃ parameters, Parameters.decode encoded = .ok parameters) ↔
        ∃ segmentLength,
          64 ≤ segmentLength ∧ segmentLength ≤ 2 ^ 32 - 2 ∧
            encoded.val =
              [0, 0] ++ beBytes 4 segmentLength ++ beBytes 4 32) ∧
        ∀ stop,
          Parameters.decode encoded = .error stop →
            stop = .err .invalidHeaderParameters) ∧
    (∀ parameters : Parameters,
      Parameters.decode parameters.encode = .ok parameters) ∧
    (∀ platform key aad header parameters,
      ((∃ state,
          startDecryption platform key aad parameters header = .ok state) ↔
        ∃ state,
          startDecryptionInferred platform key aad header = .ok state ∧
            state.context.parameters = parameters) ∧
        ∀ chosen inferred,
          startDecryption platform key aad parameters header = .ok chosen →
            startDecryptionInferred platform key aad header = .ok inferred →
              chosen.context = inferred.context) ∧
    (∀ platform key aad parameters ciphertext plaintext,
      decryptWithParameters platform key aad parameters ciphertext =
          .ok plaintext ↔
        decrypt platform key aad ciphertext = .ok plaintext ∧
          ciphertext.take encodedParametersLength =
            parameters.encode.val) ∧
    ∀ platform key aad parameters rng encryption header,
      startEncryption platform key aad parameters rng =
          .ok (encryption, header) →
        ∃ chosen inferred,
          startDecryption platform key aad parameters header = .ok chosen ∧
            startDecryptionInferred platform key aad header = .ok inferred ∧
            chosen.context = encryption.context ∧
            inferred.context = encryption.context := by
  refine ⟨?_, ?_, fun _ => Parameters.decode_eq_ok.mpr rfl, ?_, ?_, ?_⟩
  · intro encoded parameters
    rw [Parameters.decode_eq_ok]
    constructor
    · rintro rfl
      have minimum := parameters.minimum_le
      have maximum := parameters.lt_maximum
      refine ⟨rfl, minimum, ?_⟩
      unfold u32Max at maximum
      omega
    · rintro ⟨same, _, _⟩
      exact same.symm
  · intro encoded
    refine ⟨⟨?_, ?_⟩, ?_⟩
    · rintro ⟨parameters, decoded⟩
      have minimum := parameters.minimum_le
      have maximum := parameters.lt_maximum
      refine ⟨parameters.ciphertextSegmentLength, minimum, ?_, ?_⟩
      · unfold u32Max at maximum
        omega
      · rw [Parameters.decode_eq_ok.mp decoded]
        rfl
    · rintro ⟨segmentLength, minimum, maximum, whole⟩
      refine ⟨⟨segmentLength, minimum, ?_⟩,
        Parameters.decode_eq_ok.mpr (Subtype.ext whole)⟩
      unfold u32Max
      omega
    · intro stop failed
      rcases Parameters.decode_cases encoded with
        ⟨parameters, decoded, _⟩ | ⟨refused, _⟩
      · rw [decoded] at failed
        cases failed
      · rw [refused] at failed
        cases failed
        rfl
  · intro platform key aad header parameters
    constructor
    · constructor
      · rintro ⟨state, started⟩
        exact ⟨state, startDecryption_eq_ok_iff.mp started⟩
      · rintro ⟨state, started⟩
        exact ⟨state, startDecryption_eq_ok_iff.mpr started⟩
    · intro chosen inferred started other
      have same := (startDecryption_eq_ok_iff.mp started).1
      rw [other] at same
      cases same
      rfl
  · intro platform key aad parameters ciphertext plaintext
    exact decryptWithParameters_eq_ok_iff
  · intro platform key aad parameters rng encryption header started
    obtain ⟨state, chosen, inferred, same⟩ :=
      startDecryption_of_startEncryption started
    exact ⟨state, state, chosen, inferred, same, same⟩

set_option maxRecDepth 100000 in
theorem headerParsing_isExact_example :
    ∃ header chosen,
      startDecryption openPlatform zeroKey [] shortestSegments header =
          .ok chosen ∧
        chosen.context = transparentContext := by
  obtain ⟨encryption, header, started, own⟩ :
      ∃ encryption header,
        startEncryption openPlatform zeroKey [] shortestSegments zeroRng =
            .ok (encryption, header) ∧
          encryption.context = transparentContext :=
    ⟨_, _, rfl, rfl⟩
  obtain ⟨chosen, _, accepted, _, same, _⟩ :=
    headerParsing_isExact.2.2.2.2.2 openPlatform zeroKey [] shortestSegments
      zeroRng encryption header started
  exact ⟨header, chosen, accepted, same.trans own⟩

end FastFloe
