import FastFloe.Specification
import FastFloe.EncryptionPaths
import FastFloe.SealedMessages

namespace FastFloe

open Rust

/-!
# Headers and segments are the specification's

Over a provider that computes the external functions, the key schedule, the
headers and the segments of the crate are those of the specification.
-/

/-- The provider computes the external functions, and its key derivation does
not fail on the lengths that FLOE derives. -/
structure Platform.Implements (platform : Platform) (provider : Provider)
    (externals : Externals) : Prop where
  accepts : ∀ material,
    (platform.aead provider).acceptsKey material = true
  derives : ∀ length key info, length ≤ 48 →
    ∃ output,
      platform.kdfExpand provider length key info = .ok output ∧
        output.val = externals.kdf key info.flatten length
  seals : ∀ material nonce aad plaintext,
    ((⟨provider, material⟩ : AeadKey).sealed platform nonce aad
        plaintext).map (fun payload => (payload.1, payload.2.val)) =
      externals.aeadEnc material.val nonce.val plaintext aad
  opens : ∀ material nonce aad ciphertext tag,
    (⟨provider, material⟩ : AeadKey).opened platform nonce aad ciphertext
        tag =
      externals.aeadDec material.val nonce.val ciphertext aad tag.val

/-- The state that the specification has for a message context. -/
def MessageContext.specified (self : MessageContext) : Specification.State :=
  ⟨self.messageKey.val, self.floeIv.val, self.aad⟩

namespace Specification

@[simp] theorem assert_eq_some
    {condition : Prop}
    [Decidable condition]
    {value : Unit} :
    assert condition = some value ↔ condition := by
  simp [assert]

/-- The code encodes parameters as the specification does. -/
theorem paramEncode_eq (parameters : Parameters) :
    paramEncode parameters.ciphertextSegmentLength =
      parameters.encode.val :=
  rfl

@[simp] theorem length_paramEncode (encSegLen : Nat) :
    (paramEncode encSegLen).length = 10 := by
  simp [paramEncode]

theorem split_eq_some
    {data first middle last : Bytes}
    {prefixLen suffixLen : Nat} :
    split data prefixLen suffixLen = some (first, middle, last) ↔
      data = first ++ middle ++ last ∧ first.length = prefixLen ∧
        last.length = suffixLen := by
  unfold split
  constructor
  · intro cut
    split at cut
    next enough =>
      simp only [Option.some.injEq, Prod.mk.injEq] at cut
      obtain ⟨rfl, rfl, rfl⟩ := cut
      refine ⟨?_, List.length_take_of_le (by omega), ?_⟩
      · have inner : data.drop (data.length - suffixLen) =
            (data.drop prefixLen).drop
              (data.length - prefixLen - suffixLen) := by
          rw [List.drop_drop]
          congr 1
          omega
        rw [List.append_assoc, inner, List.take_append_drop,
          List.take_append_drop]
      · rw [List.length_drop]
        omega
    · cases cut
  · rintro ⟨rfl, rfl, rfl⟩
    have enough : first.length + last.length ≤
        (first ++ middle ++ last).length := by
      simp only [List.length_append]
      omega
    have body : (first ++ middle ++ last).length - first.length -
        last.length = middle.length := by
      simp only [List.length_append]
      omega
    have tail : (first ++ middle ++ last).length - last.length =
        (first ++ middle).length := by
      simp only [List.length_append]
      omega
    simp only [enough, ↓reduceIte, body, tail, List.drop_left]
    rw [List.append_assoc, List.take_left, List.drop_left, List.take_left]

/-- The specification cuts a segment into the parts that the code slices out
of it. -/
theorem split_eq_parts
    {segment nonce ciphertext tag : Bytes}
    (enough : 32 ≤ segment.length)
    (nonce_eq : nonce = (segment.drop 4).take 12)
    (ciphertext_eq :
      ciphertext = (segment.drop 16).take (segment.length - 32))
    (tag_eq : tag = segment.drop (segment.length - 16)) :
    split (segment.drop 4) aeadIvLen aeadTagLen =
      some (nonce, ciphertext, tag) := by
  have room : aeadIvLen + aeadTagLen ≤ (segment.drop 4).length := by
    rw [List.length_drop]
    simp only [aeadIvLen, aeadTagLen]
    omega
  have body : (segment.drop 4).length - aeadIvLen - aeadTagLen =
      segment.length - 32 := by
    rw [List.length_drop]
    simp only [aeadIvLen, aeadTagLen]
    omega
  have start : 4 + ((segment.drop 4).length - aeadTagLen) =
      segment.length - 16 := by
    rw [List.length_drop]
    simp only [aeadTagLen]
    omega
  simp only [split, room, ↓reduceIte, body, List.drop_drop, start]
  rw [nonce_eq, ciphertext_eq, tag_eq]
  rfl

end Specification

/-- A header is its three fields. -/
theorem Header.val_eq_fields (header : Header) :
    header.encodedParameters.val ++ header.floeIv.val ++ header.tag.val =
      header.val := by
  have rest : (header.val.drop floeIvOffset).take (tagOffset - floeIvOffset) ++
      header.val.drop tagOffset = header.val.drop floeIvOffset := by
    have same : header.val.drop tagOffset =
        (header.val.drop floeIvOffset).drop (tagOffset - floeIvOffset) :=
      List.drop_drop.symm
    rw [same, List.take_append_drop]
  simp only [encodedParameters, floeIv, tag, List.append_assoc, rest,
    List.take_append_drop]

/-- The specification cuts a header into its fields. -/
theorem Specification.split_header (header : Header) :
    split header.val 10 32 =
      some (header.encodedParameters.val, header.floeIv.val,
        header.tag.val) :=
  split_eq_some.mpr ⟨header.val_eq_fields.symm,
    header.encodedParameters.length_val, header.tag.length_val⟩

/-- The specification starts a decryption with a header that encodes its
parameters and carries the derived tag. -/
theorem Specification.startDecryption_eq_some
    {externals : Externals}
    {encSegLen : Nat}
    {key aad : Bytes}
    {header : Header}
    {state : State} :
    startDecryption externals encSegLen key aad header.val = some state ↔
      header.encodedParameters.val = paramEncode encSegLen ∧
        headerTag externals encSegLen key header.floeIv.val aad =
          header.tag.val ∧
        ⟨messageKey externals encSegLen key header.floeIv.val aad,
          header.floeIv.val, aad⟩ = state := by
  simp only [startDecryption, Option.bind_eq_bind, Option.bind_eq_some_iff,
    assert_eq_some, exists_const, length_paramEncode, split_header,
    Option.some.injEq, exists_eq_left', header.length_val]
  exact and_iff_right rfl

section Implements

open Specification

variable {platform : Platform} {provider : Provider} {externals : Externals}
  {context : MessageContext} {position : Nat} {kind : SegmentKind}

/-- A derivation returns exactly what the external function computes. -/
theorem Platform.Implements.kdf_iff
    {length : Nat}
    {key : Bytes}
    {info : List Bytes}
    {output : Octets length}
    (implements : platform.Implements provider externals)
    (short : length ≤ 48) :
    platform.kdfExpand provider length key info = .ok output ↔
      externals.kdf key info.flatten length = output.val := by
  obtain ⟨derived, returned, value⟩ :=
    implements.derives length key info short
  rw [returned, ← value, Except.ok.injEq]
  exact ⟨congrArg Subtype.val, Subtype.ext⟩

/-- The segment key of a position is the specification's. -/
theorem Platform.Implements.segmentKey
    (implements : platform.Implements context.provider externals)
    (inside : position < aeadMaxSegments) :
    ∃ material : Octets 32,
      context.segmentKey platform position =
          some ⟨context.provider, material⟩ ∧
        deriveKey externals context.parameters.ciphertextSegmentLength
            context.messageKey.val context.floeIv.val context.aad position =
          material.val := by
  obtain ⟨material, returned, value⟩ :=
    implements.derives 32 context.messageKey.val
      [context.parameters.encode.val, context.floeIv.val, segmentKeyPurpose,
        beBytes 8 (context.parameters.maskedPosition position), context.aad]
      (by decide)
  have derived :
      CachedKey.derive platform context
          (context.parameters.maskedPosition position) =
        .ok ⟨context.parameters.maskedPosition position,
          ⟨context.provider, material⟩⟩ := by
    simp only [CachedKey.derive, deriveSegmentKey, Platform.expand, returned,
      liftBackend, Outcome.ok_bind, AeadKey.new, implements.accepts material,
      ↓reduceIte]
  refine ⟨material, ?_, ?_⟩
  · simp only [MessageContext.segmentKey, inside, ↓reduceIte, derived]
  · rw [value, context.parameters.maskedPosition_eq inside]
    simp only [deriveKey, floeKdf, paramEncode_eq, List.flatten_cons,
      List.flatten_nil, List.append_nil, List.append_assoc]
    rfl

/-- Sealing a payload that fits is the specification's `encryptSegment`. -/
theorem Platform.Implements.seals_iff
    {nonce : Octets aeadIvLength}
    {plaintext segment : Bytes}
    (implements : platform.Implements context.provider externals)
    (inside : position < aeadMaxSegments) :
    (FitsKind context.parameters kind plaintext.length ∧
        context.sealSegment platform position kind nonce plaintext =
          some segment) ↔
      encryptSegment externals context.parameters.ciphertextSegmentLength
          context.specified plaintext position kind.isFinal nonce.val =
        some segment := by
  obtain ⟨material, scheduled, derived⟩ := implements.segmentKey inside
  have sealing := implements.seals material nonce (segmentAad position kind)
    plaintext
  have total := context.parameters.plaintextSegmentLength_add
  have payload : context.parameters.ciphertextSegmentLength - aeadIvLen -
      aeadTagLen - 4 = context.parameters.plaintextSegmentLength := by
    simp only [aeadIvLen, aeadTagLen]
    omega
  have framing (ciphertext : Bytes)
      (kept : ciphertext.length = plaintext.length) :
      (if kind.isFinal then
          beBytes 4 (4 + aeadIvLen + ciphertext.length + aeadTagLen)
        else beBytes 4 0xFFFFFFFF) =
        lengthPrefixOf kind (plaintext.length + segmentOverhead) := by
    cases kind with
    | nonFinal => rfl
    | final =>
        simp only [SegmentKind.isFinal, ↓reduceIte, lengthPrefixOf, kept,
          aeadIvLen, aeadTagLen, segmentOverhead_eq]
        congr 1
        omega
  have sealedAs :
      (∃ sealedPayload,
          externals.aeadEnc material.val nonce.val plaintext
              (segmentAad position kind) = some sealedPayload ∧
            (if kind.isFinal then
                beBytes 4
                  (4 + aeadIvLen + sealedPayload.1.length + aeadTagLen)
              else beBytes 4 0xFFFFFFFF) ++ nonce.val ++
                sealedPayload.1 ++ sealedPayload.2 = segment) ↔
        context.sealSegment platform position kind nonce plaintext =
          some segment := by
    rw [← sealing]
    simp only [MessageContext.sealSegment, scheduled, Option.bind_eq_bind,
      Option.bind_some, Option.bind_eq_some_iff, Option.map_eq_some_iff,
      Option.some.injEq]
    constructor
    · rintro ⟨_, ⟨payload, sealed, rfl⟩, joined⟩
      refine ⟨payload, sealed, ?_⟩
      rwa [framing _ (AeadKey.length_of_sealed sealed)] at joined
    · rintro ⟨payload, sealed, joined⟩
      refine ⟨_, ⟨payload, sealed, rfl⟩, ?_⟩
      rwa [framing _ (AeadKey.length_of_sealed sealed)]
  rw [← sealedAs]
  cases kind with
  | nonFinal =>
      simp only [encryptSegment, SegmentKind.isFinal, payload,
        MessageContext.specified, derived, Option.bind_eq_bind,
        Option.bind_eq_some_iff, assert_eq_some, exists_const,
        Option.some.injEq, FitsKind, Bool.false_eq_true, ↓reduceIte]
      rfl
  | final =>
      simp only [encryptSegment, SegmentKind.isFinal, payload,
        MessageContext.specified, derived, Option.bind_eq_bind,
        Option.bind_eq_some_iff, assert_eq_some, exists_const,
        Option.some.injEq, FitsKind, ↓reduceIte]
      rfl

/-- A segment opens at a position exactly as the specification's
`decryptSegment` decrypts it there. -/
theorem Platform.Implements.opens_iff
    {segment plaintext : Bytes}
    (implements : platform.Implements context.provider externals)
    (inside : position < aeadMaxSegments) :
    context.Opens platform position kind segment plaintext ↔
      decryptSegment externals context.parameters.ciphertextSegmentLength
          context.specified segment position kind.isFinal =
        some plaintext := by
  obtain ⟨material, scheduled, derived⟩ := implements.segmentKey inside
  have minimum := context.parameters.minimum_le
  have maximum := context.parameters.lt_maximum
  have declares (enough : 32 ≤ segment.length) {value : Nat}
      (fits : value < 256 ^ 4) :
      beValue (segment.take 4) = value ↔
        segment.take 4 = beBytes 4 value :=
    beValue_eq_iff (List.length_take_of_le (by omega)) fits
  by_cases enough : 32 ≤ segment.length
  · obtain ⟨parts, cut, _, nonce, ciphertext, tag⟩ :=
      segmentParts_of_length enough
    have cutAs : Specification.split (segment.drop 4) aeadIvLen aeadTagLen =
        some (parts.nonce.val, parts.ciphertext, parts.tag.val) :=
      split_eq_parts enough nonce ciphertext tag
    have opening := implements.opens material parts.nonce
      (segmentAad position kind) parts.ciphertext parts.tag
    have opened :
        context.openSegment platform position kind segment =
            some plaintext ↔
          externals.aeadDec material.val parts.nonce.val parts.ciphertext
              (segmentAad position kind) parts.tag.val = some plaintext := by
      rw [← opening, MessageContext.openSegment_eq_some cut]
      simp only [scheduled, Option.some.injEq, exists_eq_left']
    have shape :
        context.Opens platform position kind segment plaintext ↔
          WellFramed context.parameters kind segment ∧
            context.openSegment platform position kind segment =
              some plaintext :=
      ⟨fun opens => ⟨opens.framed, opens.opened⟩, fun both => ⟨both.1, both.2⟩⟩
    rw [shape, opened]
    cases kind with
    | nonFinal =>
        simp only [decryptSegment, SegmentKind.isFinal,
          MessageContext.specified, derived, Option.bind_eq_bind,
          Option.bind_eq_some_iff, assert_eq_some, exists_const, cutAs,
          Option.some.injEq, exists_eq_left', WellFramed,
          declares enough (by decide : 0xFFFFFFFF < 256 ^ 4),
          segmentPrefixLength_eq, Bool.false_eq_true, ↓reduceIte, and_assoc]
        rfl
    | final =>
        simp only [decryptSegment, SegmentKind.isFinal,
          MessageContext.specified, derived, Option.bind_eq_bind,
          Option.bind_eq_some_iff, assert_eq_some, exists_const, cutAs,
          Option.some.injEq, exists_eq_left', WellFramed,
          segmentPrefixLength_eq, ↓reduceIte, and_assoc]
        refine and_congr Iff.rfl (and_congr_right fun within => ?_)
        rw [declares enough (Nat.lt_of_le_of_lt within
          (Nat.lt_of_lt_of_le maximum (by decide)))]
        rfl
  · constructor
    · intro opens
      exact (enough opens.framed.length_bounds.1).elim
    · intro decrypted
      refine (enough ?_).elim
      cases kind with
      | nonFinal =>
          simp only [decryptSegment, SegmentKind.isFinal,
            Option.bind_eq_bind, Option.bind_eq_some_iff, assert_eq_some,
            exists_const, Bool.false_eq_true, ↓reduceIte] at decrypted
          omega
      | final =>
          simp only [decryptSegment, SegmentKind.isFinal,
            Option.bind_eq_bind, Option.bind_eq_some_iff, assert_eq_some,
            exists_const, ↓reduceIte] at decrypted
          exact decrypted.1

/-! ## Headers -/

variable {key : Key} {aad : Bytes} {header : Header}

/-- A header stands for a context exactly when the specification starts with
it, under the context's parameters, in the context's state. -/
theorem Platform.Implements.header_iff
    (implements : platform.Implements provider externals)
    (resolved : key.resolveProvider platform = .ok provider)
    (parameters : Parameters)
    (state : Specification.State) :
    Specification.startDecryption externals
        parameters.ciphertextSegmentLength key.bytes.val aad header.val =
          some state ↔
      ∃ context,
        HeaderAuthenticates platform key aad header context ∧
          context.parameters = parameters ∧ context.specified = state := by
  have tagged : headerTag externals parameters.ciphertextSegmentLength
        key.bytes.val header.floeIv.val aad =
      externals.kdf key.bytes.val
        [parameters.encode.val, header.floeIv.val, headerTagPurpose,
          aad].flatten 32 := by
    simp only [headerTag, floeKdf, paramEncode_eq, List.flatten_cons,
      List.flatten_nil, List.append_nil, List.append_assoc]
    rfl
  have derived : Specification.messageKey externals
        parameters.ciphertextSegmentLength key.bytes.val header.floeIv.val
        aad =
      externals.kdf key.bytes.val
        [parameters.encode.val, header.floeIv.val, messageKeyPurpose,
          aad].flatten 48 := by
    simp only [Specification.messageKey, floeKdf, paramEncode_eq,
      List.flatten_cons, List.flatten_nil, List.append_nil,
      List.append_assoc]
    rfl
  rw [startDecryption_eq_some, tagged, derived, paramEncode_eq]
  constructor
  · rintro ⟨encoded, authentic, rfl⟩
    obtain ⟨messageKey, returned, value⟩ := implements.derives 48
      key.bytes.val [parameters.encode.val, header.floeIv.val,
        messageKeyPurpose, aad] (by decide)
    refine ⟨⟨provider, parameters, messageKey, header.floeIv, aad⟩,
      ⟨resolved, Subtype.ext encoded, rfl, rfl, ?_, ?_⟩, rfl, ?_⟩
    · rw [encoded]
      exact (implements.kdf_iff (by decide)).mpr authentic
    · rw [encoded]
      exact returned
    · simp only [MessageContext.specified, value]
  · rintro ⟨context, authentic, rfl, rfl⟩
    have provider_eq : context.provider = provider := by
      have other := authentic.provider
      rw [resolved] at other
      exact (Except.ok.inj other).symm
    have tag := authentic.tag
    have messageKey := authentic.messageKey
    rw [provider_eq, authentic.parameters] at tag messageKey
    refine ⟨congrArg Subtype.val authentic.parameters,
      (implements.kdf_iff (by decide)).mp tag, ?_⟩
    simp only [MessageContext.specified, authentic.floeIv,
      authentic.associated]
    rw [(implements.kdf_iff (by decide)).mp messageKey]

/-- The header of a new message is the specification's. -/
theorem Platform.Implements.startEncryption_eq
    (implements : platform.Implements context.provider externals)
    (authentic : HeaderAuthenticates platform key aad header context) :
    Specification.startEncryption externals
        context.parameters.ciphertextSegmentLength key.bytes.val aad
        context.floeIv.val =
      (context.specified, header.val) := by
  have started := (implements.header_iff authentic.provider
    context.parameters context.specified).mpr ⟨context, authentic, rfl, rfl⟩
  obtain ⟨encoded, tag, state⟩ := startDecryption_eq_some.mp started
  rw [← authentic.floeIv] at tag state
  simp only [Specification.startEncryption, state, tag, ← encoded]
  rw [authentic.floeIv, header.val_eq_fields]

end Implements

/-! ## The transparent provider -/

/-- The external functions that the transparent provider computes. -/
def transparentExternals : Externals where
  kdf _ _ length := zeros length
  aeadEnc _ _ data _ := some (data, zeros aeadTagLength)
  aeadDec _ _ ciphertext _ tag :=
    if tag = zeros aeadTagLength then some ciphertext else none

theorem openPlatform_implements (provider : Provider) :
    openPlatform.Implements provider transparentExternals := by
  refine ⟨fun _ => rfl, fun length _ _ _ => ⟨Octets.zero length, rfl, rfl⟩,
    fun _ _ _ _ => rfl, ?_⟩
  intro material nonce aad ciphertext tag
  have opened := @transparent_opened (fun _ _ _ => true)
    ⟨provider, material⟩ nonce aad ciphertext
  have zero : tag.val = zeros aeadTagLength ↔
      tag = Octets.zero aeadTagLength :=
    ⟨fun same => Subtype.ext same, congrArg Subtype.val⟩
  apply Option.ext
  intro plaintext
  rw [opened, transparentExternals]
  by_cases same : tag = Octets.zero aeadTagLength
  · subst same
    simp [Octets.zero, eq_comm]
  · have other := mt zero.mp same
    simp [same, other]

end FastFloe
