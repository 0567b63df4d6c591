import FastFloe.SpecificationRuns
import FastFloe.PositionDiscipline
import FastFloe.HeaderPaths
import FastFloe.DecryptReaders
import FastFloe.Interoperability

namespace FastFloe

open Rust

/-!
# Decryptors answer as the specification

A `Decryptor` and the specification's online state answer every sequence of
byte strings alike, in whichever form the calls are made, and the one-shot
decryptor accepts exactly the messages that the specification's online
decryption reads to their end.
-/

section Segments

open Specification

variable {platform : Platform} {externals : Externals}
  {context : MessageContext} {position : Nat} {next : OnlineState}
  {segment plaintext : Bytes}

/-- The prefix of a segment that opens tells its kind. -/
theorem MessageContext.Opens.prefix_iff
    {kind : SegmentKind}
    (opens : context.Opens platform position kind segment plaintext) :
    beValue (segment.take 4) = 0xFFFFFFFF ↔ kind = .nonFinal := by
  have bounds := opens.framed.length_bounds
  have maximum := context.parameters.lt_maximum
  have lead := opens.framed.take_lead
  rw [segmentPrefixLength_eq] at lead
  rw [lead]
  cases kind with
  | nonFinal =>
      exact iff_of_true
        (beValue_beBytes_of_lt (by decide : u32Max < 256 ^ 4)) rfl
  | final =>
      refine iff_of_false ?_ (by simp)
      have fits : segment.length < 256 ^ 4 :=
        Nat.lt_of_le_of_lt bounds.2
          (Nat.lt_of_lt_of_le maximum (by decide))
      rw [lengthPrefixOf, beValue_beBytes_of_lt fits]
      simp only [u32Max] at maximum
      omega

/-- The specification decrypts a segment at a position exactly when it opens
there as one of the kinds that the position allows. -/
theorem Platform.Implements.decryptAny_iff
    (implements : platform.Implements context.provider externals)
    (inside : position < aeadMaxSegments) :
    decryptAnyOnlineSegment externals
        context.parameters.ciphertextSegmentLength
        (context.onlineAt position) segment = some (next, plaintext) ↔
      ∃ kind,
        PositionAllows position kind ∧
          context.Opens platform position kind segment plaintext ∧
          context.onlineAfter position kind = next := by
  have limit : position ≠ Specification.aeadMaxSegments - 1 ↔
      PositionAllows position .nonFinal := by
    simp only [PositionAllows, Specification.aeadMaxSegments,
      aeadMaxSegments] at inside ⊢
    omega
  have nonFinal :
      decryptOnlineSegment externals
          context.parameters.ciphertextSegmentLength
          (context.onlineAt position) segment = some (next, plaintext) ↔
        PositionAllows position .nonFinal ∧
          context.Opens platform position .nonFinal segment plaintext ∧
          context.onlineAfter position .nonFinal = next := by
    rw [implements.opens_iff inside]
    simp only [decryptOnlineSegment, MessageContext.onlineAt,
      MessageContext.onlineAfter, limit, Option.bind_eq_bind,
      Option.bind_eq_some_iff, assert_eq_some, exists_const, true_and,
      Option.some.injEq, Prod.mk.injEq, SegmentKind.isFinal]
    constructor
    · rintro ⟨allowed, _, decrypted, rfl, rfl⟩
      exact ⟨allowed, decrypted, rfl⟩
    · rintro ⟨allowed, decrypted, rfl⟩
      exact ⟨allowed, plaintext, decrypted, rfl, rfl⟩
  have final :
      decryptLastSegment externals
          context.parameters.ciphertextSegmentLength
          (context.onlineAt position) segment = some (next, plaintext) ↔
        PositionAllows position .final ∧
          context.Opens platform position .final segment plaintext ∧
          context.onlineAfter position .final = next := by
    rw [implements.opens_iff inside]
    simp only [decryptLastSegment, MessageContext.onlineAt,
      MessageContext.onlineAfter, Option.bind_eq_bind,
      Option.bind_eq_some_iff, assert_eq_some, exists_const, true_and,
      Option.some.injEq, Prod.mk.injEq, SegmentKind.isFinal]
    constructor
    · rintro ⟨_, decrypted, rfl, rfl⟩
      exact ⟨inside, decrypted, rfl⟩
    · rintro ⟨_, decrypted, rfl⟩
      exact ⟨plaintext, decrypted, rfl, rfl⟩
  unfold decryptAnyOnlineSegment
  split
  next marked =>
    rw [nonFinal]
    constructor
    · exact fun found => ⟨.nonFinal, found⟩
    · rintro ⟨kind, found⟩
      rwa [found.2.1.prefix_iff.mp marked] at found
  next unmarked =>
    rw [final]
    constructor
    · exact fun found => ⟨.final, found⟩
    · rintro ⟨kind, found⟩
      cases kind with
      | nonFinal => exact (unmarked (found.2.1.prefix_iff.mpr rfl)).elim
      | final => exact found

/-- A closed state decrypts nothing. -/
theorem Specification.decryptAny_closed
    {encSegLen : Nat}
    {online : OnlineState}
    (closed : online.closed = true)
    (segment : Bytes) :
    decryptAnyOnlineSegment externals encSegLen online segment = none := by
  simp [decryptAnyOnlineSegment, decryptLastSegment, decryptOnlineSegment,
    assert, closed]

end Segments

/-! ## Whole messages -/

section Messages

open Specification

variable {platform : Platform} {externals : Externals}
  {context : MessageContext} {position : Nat}

/-- A first segment and the segments behind it. -/
theorem Specification.decryptAll_cons
    {encSegLen : Nat}
    {online last : OnlineState}
    {segment : Bytes}
    {rest plaintexts : List Bytes} :
    decryptAll externals encSegLen online (segment :: rest) =
        some (last, plaintexts) ↔
      ∃ later plaintext others,
        decryptAnyOnlineSegment externals encSegLen online segment =
            some (later, plaintext) ∧
          decryptAll externals encSegLen later rest = some (last, others) ∧
          plaintexts = plaintext :: others := by
  simp only [decryptAll, Option.bind_eq_bind, Option.bind_eq_some_iff,
    Prod.exists, Option.some.injEq, Prod.mk.injEq]
  constructor
  · rintro ⟨later, plaintext, first, _, others, all, rfl, rfl⟩
    exact ⟨later, plaintext, others, first, all, rfl⟩
  · rintro ⟨later, plaintext, others, first, all, rfl⟩
    exact ⟨later, plaintext, first, last, others, all, rfl, rfl⟩

/-- The frames of a message are decrypted in order, and the last one closes
the state. -/
theorem Platform.Implements.decryptAll_frames
    {middle : List (Bytes × Bytes)}
    {last lastPlaintext : Bytes}
    (implements : platform.Implements context.provider externals)
    (all : (segmentStream platform context).Frames position middle)
    (final :
      (segmentStream platform context).IsFrame (position + middle.length)
        true last lastPlaintext) :
    ∃ online,
      decryptAll externals context.parameters.ciphertextSegmentLength
          (context.onlineAt position) (middle.map Prod.fst ++ [last]) =
        some (online, middle.map Prod.snd ++ [lastPlaintext]) ∧
      online.closed = true := by
  induction middle generalizing position with
  | nil =>
      obtain ⟨allowed, opens⟩ := (@isFrame_iff _ _ _ .final _ _).mp final
      have answered := (implements.decryptAny_iff allowed).mpr
        ⟨.final, allowed, opens, rfl⟩
      exact ⟨_, decryptAll_cons.mpr ⟨_, _, [], answered, rfl, rfl⟩, rfl⟩
  | cons frame rest inductionHypothesis =>
      obtain ⟨segment, plaintext⟩ := frame
      obtain ⟨first, others⟩ := (Framing.Parser.frames_cons _).mp all
      obtain ⟨allowed, opens⟩ :=
        (@isFrame_iff _ _ _ .nonFinal _ _).mp first
      have answered := (implements.decryptAny_iff
        (Nat.lt_of_succ_lt allowed)).mpr ⟨.nonFinal, allowed, opens, rfl⟩
      rw [List.length_cons, Nat.add_comm rest.length, ← Nat.add_assoc]
        at final
      obtain ⟨online, decrypted, closed⟩ := inductionHypothesis others final
      exact ⟨online,
        decryptAll_cons.mpr ⟨_, _, _, answered, decrypted, rfl⟩, closed⟩

/-- What is decrypted in order until the state is closed is a message. -/
theorem Platform.Implements.message_of_decryptAll
    {segments payloads : List Bytes}
    {online : OnlineState}
    (implements : platform.Implements context.provider externals)
    (inside : position < aeadMaxSegments)
    (decrypted :
      decryptAll externals context.parameters.ciphertextSegmentLength
          (context.onlineAt position) segments = some (online, payloads))
    (closed : online.closed = true) :
    (segmentStream platform context).Message position segments.flatten
      payloads := by
  induction segments generalizing position payloads with
  | nil =>
      cases decrypted
      cases closed
  | cons segment rest inductionHypothesis =>
      obtain ⟨later, plaintext, others, answered, all, rfl⟩ :=
        decryptAll_cons.mp decrypted
      obtain ⟨kind, allowed, opens, rfl⟩ :=
        (implements.decryptAny_iff inside).mp answered
      have parsed := (isFrame_iff.mpr ⟨allowed, opens⟩).parse_append
        rest.flatten
      rw [List.flatten_cons]
      cases kind with
      | nonFinal =>
          refine (Framing.Parser.message_of_more _ parsed rfl).mpr
            ⟨others, rfl, ?_⟩
          rw [List.drop_left]
          exact inductionHypothesis allowed all
      | final =>
          refine (Framing.Parser.message_of_last _ parsed rfl).mpr ⟨?_, ?_⟩
          · cases rest with
            | nil =>
                cases all
                rfl
            | cons other rest =>
                obtain ⟨_, _, _, impossible, _⟩ := decryptAll_cons.mp all
                rw [decryptAny_closed rfl] at impossible
                cases impossible
          · cases rest with
            | nil => simp
            | cons other rest =>
                obtain ⟨_, _, _, impossible, _⟩ := decryptAll_cons.mp all
                rw [decryptAny_closed rfl] at impossible
                cases impossible

/-- The one-shot decryptor accepts exactly the messages that the specification
reads: a header with which its online decryption starts, under some parameters,
and segments that it decrypts one after the other until it is closed. -/
theorem decrypt_isSpecified
    {key : Key}
    {provider : Provider}
    (implements : platform.Implements provider externals)
    (resolved : key.resolveProvider platform = .ok provider)
    (aad ciphertext plaintext : Bytes) :
    decrypt platform key aad ciphertext = .ok plaintext ↔
      ∃ (parameters : Parameters) (header : Bytes) (segments : List Bytes)
          (start online : OnlineState) (plaintexts : List Bytes),
        ciphertext = header ++ segments.flatten ∧
          startOnlineDecryption externals
              parameters.ciphertextSegmentLength key.bytes.val aad header =
            some start ∧
          decryptAll externals parameters.ciphertextSegmentLength start
              segments = some (online, plaintexts) ∧
          online.closed = true ∧ plaintext = plaintexts.flatten := by
  rw [(decrypt_spec platform key aad ciphertext).2]
  constructor
  · rintro ⟨header, body, context, payloads, rfl, authentic, message, rfl⟩
    have provider_eq : context.provider = provider := by
      have other := authentic.provider
      rw [resolved] at other
      exact (Except.ok.inj other).symm
    subst provider_eq
    obtain ⟨middle, last, lastPlaintext, rfl, rfl, all, final⟩ :=
      (Framing.Parser.message_iff _).mp message
    obtain ⟨online, decrypted, closed⟩ :=
      implements.decryptAll_frames all final
    have started := (implements.header_iff resolved context.parameters
      context.specified).mpr ⟨context, authentic, rfl, rfl⟩
    refine ⟨context.parameters, header.val, middle.map Prod.fst ++ [last],
      context.onlineAt 0, online, _, ?_, ?_, decrypted, closed, rfl⟩
    · simp
    · simp only [startOnlineDecryption, started, Option.bind_eq_bind,
        Option.bind_some, MessageContext.onlineAt]
  · rintro ⟨parameters, header, segments, start, online, plaintexts, rfl,
      started, decrypted, closed, rfl⟩
    obtain ⟨state, begun, shape⟩ := Option.bind_eq_some_iff.mp started
    cases shape
    obtain ⟨whole, rfl⟩ : ∃ whole : Header, whole.val = header := by
      simp only [Specification.startDecryption, Option.bind_eq_bind,
        Option.bind_eq_some_iff, assert_eq_some, exists_const,
        length_paramEncode] at begun
      exact ⟨⟨header, begun.1⟩, rfl⟩
    obtain ⟨context, authentic, rfl, rfl⟩ :=
      (implements.header_iff resolved parameters state).mp begun
    have provider_eq : context.provider = provider := by
      have other := authentic.provider
      rw [resolved] at other
      exact (Except.ok.inj other).symm
    subst provider_eq
    exact ⟨whole, segments.flatten, context, plaintexts, rfl, authentic,
      implements.message_of_decryptAll (by decide) decrypted closed, rfl⟩

end Messages

/-! ## Documented crates -/

/-- AES-256-GCM and HKDF-Expand-SHA-384 as the external functions. -/
def standardExternals (gcm : Gcm) (hmac : HmacSha384) : Externals where
  kdf prk info length := (hkdfExpand hmac.val prk info length).val
  aeadEnc key iv data aad := do
    let key ← Octets.ofSlice? 32 key
    let iv ← Octets.ofSlice? aeadIvLength iv
    (gcm.encrypt key iv aad data).map detached
  aeadDec key iv ciphertext aad tag := do
    let key ← Octets.ofSlice? 32 key
    let iv ← Octets.ofSlice? aeadIvLength iv
    let tag ← Octets.ofSlice? aeadTagLength tag
    gcm.decrypt key iv aad ciphertext tag

/-- Every provider module over documented crates computes them. -/
theorem Crates.Documented.implements
    {crates : Crates}
    {gcm : Gcm}
    {hmac : HmacSha384}
    (documented : crates.Documented gcm hmac)
    (target : Target)
    (compiled : List Provider)
    (provider : Provider) :
    (crates.platform target compiled).Implements provider
      (standardExternals gcm hmac) := by
  have octets {n : Nat} (value : Octets n) :
      Octets.ofSlice? n value.val = some value :=
    Octets.ofSlice?_eq_some.mpr rfl
  have alike : (crates.platform target compiled).Alike
      (crates.platform target compiled) :=
    documented.alike
  refine ⟨alike.firstAccepts provider, ?_, ?_, ?_⟩
  · intro length key info short
    refine ⟨hkdfExpand hmac.val key info.flatten length, ?_, rfl⟩
    simp only [Crates.platform,
      (documented.expands provider).short length key info short]
    rfl
  · intro material nonce aad plaintext
    rw [documented.sealed_eq]
    simp only [standardExternals, octets, Option.bind_eq_bind,
      Option.bind_some]
    rfl
  · intro material nonce aad ciphertext tag
    rw [documented.opened_eq]
    simp only [standardExternals, octets, Option.bind_eq_bind,
      Option.bind_some]

section Example

open Specification

/-- The external functions of the transparent crates. -/
abbrev transparentStandard : Externals :=
  standardExternals transparentGcm transparentHmac

/-- The header that the specification starts a message of zeros with. -/
def specifiedHeader : Bytes :=
  (startOnlineEncryption transparentStandard 64 (zeros 32) []
    (zeros 32)).2

/-- The final segment of three bytes, under a nonce of zeros. -/
def specifiedFinalSegment : Bytes :=
  beBytes 4 35 ++ zeros 12 ++ [1, 2, 3] ++ zeros 16

/-- A build with BoringSSL only reads a message of the specification. -/
theorem decrypt_isSpecified_example :
    decrypt (transparentCrates.platform .bits32 [.boring]) zeroKey []
        (specifiedHeader ++ specifiedFinalSegment) = .ok [1, 2, 3] := by
  let start := (startOnlineEncryption transparentStandard 64 (zeros 32) []
    (zeros 32)).1
  refine (decrypt_isSpecified
      (transparent_documented.implements .bits32 [.boring] .boring) rfl []
      (specifiedHeader ++ specifiedFinalSegment) [1, 2, 3]).mpr
    ⟨shortestSegments, specifiedHeader, [specifiedFinalSegment], start,
      { start with closed := true }, [[1, 2, 3]], by simp, ?_, ?_, rfl, rfl⟩
  · decide +kernel
  · decide +kernel

end Example

/-! ## Sequences of calls -/

/-- A call of this form is made on this segment. -/
def OpenForm.IsOn (parameters : Parameters) (segment : Bytes) :
    OpenForm → Prop
  | .vec input => input = segment
  | .into input _ => input = segment
  | .inPlace buffer =>
      buffer.parameters = parameters ∧ buffer.HoldsCiphertext segment

/-- The memory of a call has room for the plaintext of a segment. -/
def OpenForm.hasRoom (segment : Bytes) : OpenForm → Bool
  | .vec _ => true
  | .into _ output => segment.length ≤ output.length + 32
  | .inPlace _ => true

/-- The specification's answer to a call on a segment: the caller throws where
its memory has no room for the plaintext. -/
def OpenForm.specified (externals : Externals)
    (encSegLen : Nat) (call : OpenForm × Bytes)
    (online : Specification.OnlineState) :
    Option Bytes × Specification.OnlineState :=
  if call.1.hasRoom call.2 then
    Specification.answerSegment externals encSegLen call.2 online
  else
    (none, online)

section Calls

variable {platform : Platform} {context : MessageContext} {position : Nat}
  {form : OpenForm} {segment : Bytes}

/-- A segment whose length is not the declared one is refused. -/
theorem OpenForm.IsOn.decryptAt_mismatched
    {state : DecryptionState}
    {framing : SegmentFraming}
    (position : Nat)
    (ready : state.Ready platform context)
    (isOn : form.IsOn context.parameters segment)
    (other : segment.length ≠ framing.ciphertextLength) :
    ∃ error,
      (⟨platform, form⟩ : OpenCall).decryptAt framing position state =
        (.error (.err error), state) := by
  have refused := validateFramedLength_of_ne other
  cases form with
  | vec input =>
      cases isOn
      simp only [OpenCall.decryptAt, DecryptionState.decryptSegmentAtFramed,
        refused]
      exact ⟨_, rfl⟩
  | into input output =>
      cases isOn
      simp only [OpenCall.decryptAt,
        DecryptionState.decryptSegmentIntoAtFramed, refused]
      exact ⟨_, rfl⟩
  | inPlace buffer =>
      obtain ⟨same, holds⟩ := isOn
      have matching : buffer.hasParameters state.parameters = true := by
        simp [SegmentBuffer.hasParameters, same, ready.parameters_eq]
      simp only [OpenCall.decryptAt,
        DecryptionState.decryptSegmentInPlaceAtFramed, matching,
        not_true_eq_false, ↓reduceIte, holds.ciphertextLength_eq,
        Outcome.ok_bind, refused, Outcome.error_bind]
      exact ⟨_, rfl⟩

/-- An output without room for the plaintext is refused. -/
theorem OpenForm.IsOn.decryptAt_narrow
    {state : DecryptionState}
    {framing : SegmentFraming}
    {parameters : Parameters}
    (position : Nat)
    (isOn : form.IsOn parameters segment)
    (narrow : form.hasRoom segment = false)
    (valid : framing.Valid parameters)
    (declared : segment.length = framing.ciphertextLength) :
    ∃ error,
      (⟨platform, form⟩ : OpenCall).decryptAt framing position state =
        (.error (.err error), state) := by
  have size : segment.length = framing.plaintextLength + 32 :=
    declared.trans valid.payload.symm
  have accepted := validateFramedLength_of_eq declared
  cases form with
  | vec input => cases narrow
  | into input output =>
      cases isOn
      simp only [hasRoom, decide_eq_false_iff_not] at narrow
      have short : output.length < framing.plaintextLength := by omega
      simp only [OpenCall.decryptAt,
        DecryptionState.decryptSegmentIntoAtFramed, accepted,
        DecryptionState.openInto, decryptSegmentIntoInner, short, ↓reduceIte]
      exact ⟨_, rfl⟩
  | inPlace buffer => cases narrow

/-- A segment of the declared length is opened, in whichever form that has room
for it. -/
theorem OpenForm.IsOn.decryptAt_declared
    {state : DecryptionState}
    {framing : SegmentFraming}
    (position : Nat)
    (agree : platform.OpensAgree)
    (ready : state.Ready platform context)
    (isOn : form.IsOn context.parameters segment)
    (roomy : form.hasRoom segment = true)
    (valid : framing.Valid context.parameters)
    (declared : segment.length = framing.ciphertextLength) :
    ∃ next : DecryptionState, next.Ready platform context ∧
      ((∃ plaintext,
          context.openSegment platform position framing.kind segment =
              some plaintext ∧
            (⟨platform, form⟩ : OpenCall).decryptAt framing position state =
              (.ok plaintext, next)) ∨
        ∃ error,
          context.openSegment platform position framing.kind segment =
              none ∧
            (⟨platform, form⟩ : OpenCall).decryptAt framing position state =
              (.error (.err error), next)) := by
  have size : segment.length = framing.plaintextLength + 32 :=
    declared.trans valid.payload.symm
  have accepted := validateFramedLength_of_eq declared
  have opening (output : Bytes)
      (room : framing.plaintextLength ≤ output.length) :
      ∃ next : DecryptionState, next.Ready platform context ∧
        ((∃ plaintext : Bytes,
            context.openSegment platform position framing.kind segment =
                some plaintext ∧
              plaintext.length = framing.plaintextLength ∧
              state.openInto platform segment position framing.kind
                  framing.plaintextLength output =
                (.ok plaintext.length, next,
                  plaintext ++ output.drop framing.plaintextLength)) ∨
          ∃ error left,
            context.openSegment platform position framing.kind segment =
                none ∧
              state.openInto platform segment position framing.kind
                  framing.plaintextLength output =
                (.error (.err error), next, left)) := by
    obtain ⟨next, nextReady, ⟨plaintext, opened, result⟩ |
        ⟨error, left, closed, result, _⟩⟩ :=
      DecryptionState.openInto_spec position framing.kind
        (Kdf.FaultOf.refl platform.kdfExpand) ready size room (.inl agree)
    · have length := MessageContext.length_of_openSegment opened
        (show 32 ≤ segment.length by omega)
      have exact : plaintext.length = framing.plaintextLength := by omega
      refine ⟨next, nextReady, .inl ⟨plaintext, opened, exact, ?_⟩⟩
      rw [exact]
      exact result
    · exact ⟨next, nextReady, .inr ⟨error, left, closed, result⟩⟩
  cases form with
  | vec input =>
      cases isOn
      simp only [OpenCall.decryptAt, DecryptionState.decryptSegmentAtFramed,
        accepted, DecryptionState.openVec]
      obtain ⟨next, nextReady, ⟨plaintext, opened, exact, result⟩ |
          ⟨error, left, closed, result⟩⟩ :=
        opening (zeros framing.plaintextLength)
          (Nat.le_of_eq (length_zeros _).symm)
      · refine ⟨next, nextReady, .inl ⟨plaintext, opened, ?_⟩⟩
        simp only [result]
        rw [List.drop_eq_nil_of_le (Nat.le_of_eq (length_zeros _)),
          List.append_nil]
      · refine ⟨next, nextReady, .inr ⟨error, closed, ?_⟩⟩
        simp only [result]
  | into input output =>
      cases isOn
      simp only [hasRoom, decide_eq_true_eq] at roomy
      simp only [OpenCall.decryptAt,
        DecryptionState.decryptSegmentIntoAtFramed, accepted]
      obtain ⟨next, nextReady, ⟨plaintext, opened, exact, result⟩ |
          ⟨error, left, closed, result⟩⟩ := opening output (by omega)
      · refine ⟨next, nextReady, .inl ⟨plaintext, opened, ?_⟩⟩
        simp only [result, Except.map, List.take_left]
      · refine ⟨next, nextReady, .inr ⟨error, closed, ?_⟩⟩
        simp only [result, Except.map]
  | inPlace buffer =>
      obtain ⟨same, holds⟩ := isOn
      obtain ⟨next, left, nextReady, success | failure⟩ :=
        @DecryptionState.decryptSegmentInPlaceAtFramed_spec platform context
          position framing buffer segment state agree ready same holds valid
          declared
      · obtain ⟨plaintext, opened, result, settled, _⟩ := success
        have read := settled.plaintext_eq
        simp only [SegmentBuffer.plaintext] at read
        refine ⟨next, nextReady, .inl ⟨plaintext, opened, ?_⟩⟩
        simp only [OpenCall.decryptAt, result, read]
      · obtain ⟨error, closed, result⟩ := failure
        refine ⟨next, nextReady, .inr ⟨error, closed, ?_⟩⟩
        simp only [OpenCall.decryptAt, result]

/-- A call finds the framing that its segment declares. -/
theorem OpenForm.IsOn.framing_eq
    {parameters : Parameters}
    (isOn : form.IsOn parameters segment)
    (decryptor : Decryptor) :
    (⟨platform, form⟩ : OpenCall).framing decryptor =
      decryptor.framing segment := by
  cases form with
  | vec input =>
      cases isOn
      rfl
  | into input output =>
      cases isOn
      rfl
  | inPlace buffer =>
      simp only [OpenCall.framing, isOn.2.ciphertext_eq, Outcome.ok_bind]

theorem OpenCall.answer_eq_done
    {outcome : Result Bytes × Decryptor}
    {plaintext : Bytes}
    {next : Decryptor} :
    answer outcome = .done plaintext (some next) ↔
      outcome = (.ok plaintext, next) := by
  obtain ⟨(_ | _ | _) | _, _⟩ := outcome <;> simp [answer]

theorem OpenCall.answer_eq_refused
    {outcome : Result Bytes × Decryptor}
    {next : Decryptor} :
    answer outcome = .refused next ↔
      ∃ error, outcome = (.error (.err error), next) := by
  obtain ⟨(_ | _ | _) | _, _⟩ := outcome <;> simp [answer]

/-- A call is refused and the decryptor stays where it was. -/
def OpenCall.Refuses (call : OpenCall) (context : MessageContext)
    (position : Nat) (decryptor : Decryptor) : Prop :=
  ∃ error next,
    call.performOn decryptor = (.error (.err error), next) ∧
      next.At call.platform context position

/-- An answer that is an error on an unmoved counter refuses. -/
theorem OpenCall.Refuses.of_answer
    {decryptor : Decryptor}
    {error : Error}
    {state : DecryptionState}
    (here : decryptor.At platform context position)
    (ready : state.Ready platform context)
    (answered :
      (⟨platform, form⟩ : OpenCall).perform decryptor =
        OpenCall.answer (.error (.err error), { decryptor with state })) :
    (⟨platform, form⟩ : OpenCall).Refuses context position decryptor := by
  obtain ⟨error, result⟩ := OpenCall.answer_eq_refused.mp answered
  exact ⟨error, _, result, ready, here.counter, here.inside⟩

/-- The framing that a segment which opens declares. -/
theorem MessageContext.Opens.declares
    {framing : SegmentFraming}
    {kind : SegmentKind}
    {plaintext : Bytes}
    (opens : context.Opens platform position kind segment plaintext)
    (decoded : framingOf context.parameters segment = some framing) :
    framing.kind = kind ∧ segment.length = framing.ciphertextLength := by
  obtain ⟨other, framed, sameKind, sameLength⟩ :=
    opens.framed.framingOf_append []
  rw [List.append_nil, decoded, Option.some.injEq] at framed
  subst framed
  exact ⟨sameKind, sameLength.symm⟩

/-- A call either reaches the low-level state with the framing of its segment,
or it is refused, and then its segment does not open where it is. -/
theorem OpenForm.IsOn.performOn_reaches
    {decryptor : Decryptor}
    (here : decryptor.At platform context position)
    (isOn : form.IsOn context.parameters segment) :
    (∃ framing,
        framingOf context.parameters segment = some framing ∧
          PositionAllows position framing.kind ∧
          segment.length = framing.ciphertextLength ∧
          (⟨platform, form⟩ : OpenCall).perform decryptor =
            match (⟨platform, form⟩ : OpenCall).decryptAt framing position
                decryptor.state with
            | (.error stop, state) =>
                OpenCall.answer (.error stop, { decryptor with state })
            | (.ok plaintext, state) =>
                OpenCall.answer (.ok plaintext,
                  ⟨state, decryptor.counter.complete framing.kind⟩)) ∨
      (⟨platform, form⟩ : OpenCall).Refuses context position decryptor ∧
        ∀ kind plaintext, PositionAllows position kind →
          ¬ context.Opens platform position kind segment plaintext := by
  have performed := OpenCall.perform_eq ⟨platform, form⟩ decryptor
  rw [isOn.framing_eq decryptor] at performed
  have own : decryptor.parameters = context.parameters :=
    here.ready.parameters_eq
  cases decoded : framingOf context.parameters segment with
  | none =>
      have failed : ∃ error,
          decryptor.framing segment = .error (.err error) := by
        unfold Decryptor.framing
        rw [own]
        rcases decodePrefix_spec context.parameters segment with
          ⟨_, framing, _, _, framed⟩ |
            ⟨_, ⟨error, short⟩ | ⟨lengthPrefix, error, cut, refused⟩⟩
        · rw [decoded] at framed
          cases framed
        · exact ⟨error, by rw [short, Outcome.error_bind]⟩
        · exact ⟨error, by rw [cut, Outcome.ok_bind, refused]⟩
      obtain ⟨error, failed⟩ := failed
      rw [failed] at performed
      refine .inr ⟨.of_answer here here.ready performed, ?_⟩
      intro kind plaintext _ opens
      obtain ⟨framing, framed, _⟩ := opens.framed.framingOf_append []
      rw [List.append_nil, decoded] at framed
      cases framed
  | some framing =>
      rw [Decryptor.framing_eq own decoded] at performed
      have reserving :=
        SegmentCounter.positionFor_spec here.inside framing.kind
      rw [← here.counter] at reserving
      rcases reserving with ⟨allowed, reserved⟩ | ⟨refused, limit⟩
      · simp only [reserved] at performed
        by_cases declared : segment.length = framing.ciphertextLength
        · exact .inl ⟨framing, rfl, allowed, declared, performed⟩
        · obtain ⟨error, result⟩ :=
            isOn.decryptAt_mismatched position here.ready declared
          simp only [result] at performed
          refine .inr ⟨.of_answer here here.ready performed, ?_⟩
          intro kind plaintext _ opens
          exact declared (opens.declares decoded).2
      · simp only [limit] at performed
        refine .inr ⟨.of_answer here here.ready performed, ?_⟩
        intro kind plaintext allowed opens
        obtain ⟨rfl, _⟩ := opens.declares decoded
        exact refused allowed

/-- A call with room for the plaintext opens its segment, or is refused with a
segment that does not open there. -/
theorem OpenForm.IsOn.performOn_cases
    {decryptor : Decryptor}
    (agree : platform.OpensAgree)
    (here : decryptor.At platform context position)
    (isOn : form.IsOn context.parameters segment)
    (roomy : form.hasRoom segment = true) :
    (∃ plaintext kind next,
        PositionAllows position kind ∧
          context.Opens platform position kind segment plaintext ∧
          (⟨platform, form⟩ : OpenCall).performOn decryptor =
            (.ok plaintext, next) ∧
          match kind with
          | .nonFinal => next.At platform context (position + 1)
          | .final => next.counter = ⟨position, true⟩) ∨
      (⟨platform, form⟩ : OpenCall).Refuses context position decryptor ∧
        ∀ kind plaintext, PositionAllows position kind →
          ¬ context.Opens platform position kind segment plaintext := by
  rcases isOn.performOn_reaches here with
    ⟨framing, decoded, allowed, declared, performed⟩ | refused
  · have valid := (framingOf_eq_some decoded).1
    obtain ⟨state, ready, ⟨plaintext, opened, result⟩ |
        ⟨error, closed, result⟩⟩ :=
      isOn.decryptAt_declared position agree here.ready roomy valid declared
    · simp only [result] at performed
      refine .inl ⟨plaintext, framing.kind, _, allowed,
        ⟨valid.wellFramed declared (framingOf_eq_some decoded).2, opened⟩,
        OpenCall.answer_eq_done.mp performed, ?_⟩
      rw [here.counter]
      cases kind : framing.kind with
      | nonFinal =>
          rw [kind] at allowed
          exact ⟨ready, rfl, allowed⟩
      | final => rfl
    · simp only [result] at performed
      refine .inr ⟨.of_answer here ready performed, ?_⟩
      intro kind plaintext _ opens
      obtain ⟨rfl, _⟩ := opens.declares decoded
      have opened := opens.opened
      rw [closed] at opened
      cases opened
  · exact .inr refused

/-- A call without room for the plaintext is refused. -/
theorem OpenForm.IsOn.performOn_narrow
    {decryptor : Decryptor}
    (here : decryptor.At platform context position)
    (isOn : form.IsOn context.parameters segment)
    (narrow : form.hasRoom segment = false) :
    (⟨platform, form⟩ : OpenCall).Refuses context position decryptor := by
  rcases isOn.performOn_reaches here with
    ⟨framing, decoded, _, declared, performed⟩ | ⟨refused, _⟩
  · obtain ⟨error, result⟩ :=
      @OpenForm.IsOn.decryptAt_narrow platform form segment decryptor.state
        framing _ position isOn narrow (framingOf_eq_some decoded).1 declared
    simp only [result] at performed
    exact .of_answer here here.ready performed
  · exact refused

variable (platform) in
/-- A closed decryptor refuses every call. -/
theorem OpenForm.IsOn.performOn_closed
    {parameters : Parameters}
    {decryptor : Decryptor}
    (closed : decryptor.counter.closed = true)
    (isOn : form.IsOn parameters segment) :
    ∃ error,
      (⟨platform, form⟩ : OpenCall).performOn decryptor =
        (.error (.err error), decryptor) := by
  have performed := OpenCall.perform_eq ⟨platform, form⟩ decryptor
  rw [isOn.framing_eq decryptor] at performed
  refine OpenCall.answer_eq_refused.mp ?_
  rw [← OpenCall.perform, performed]
  unfold Decryptor.framing
  rcases decodePrefix_spec decryptor.parameters segment with
    ⟨lengthPrefix, framing, cut, decoded, _⟩ |
      ⟨_, ⟨error, short⟩ | ⟨lengthPrefix, error, cut, refused⟩⟩
  · simp only [cut, decoded, Outcome.ok_bind, SegmentCounter.positionFor,
      closed, ↓reduceIte, OpenCall.answer]
  · simp only [short, Outcome.error_bind, OpenCall.answer]
  · simp only [cut, refused, Outcome.ok_bind, OpenCall.answer]

/-- A decryptor and the online state of its message: both at one position, or
both closed. -/
inductive Mirrors (platform : Platform) (context : MessageContext) :
    Decryptor → Specification.OnlineState → Prop where
  | inProgress
      {decryptor : Decryptor}
      {position : Nat}
      (here : decryptor.At platform context position) :
      Mirrors platform context decryptor (context.onlineAt position)
  | closed
      {decryptor : Decryptor}
      {position : Nat}
      (counter : decryptor.counter = ⟨position, true⟩) :
      Mirrors platform context decryptor (context.onlineAfter position .final)

/-- One call is answered alike, and leaves both in step. -/
theorem Mirrors.step
    {externals : Externals}
    {decryptor : Decryptor}
    {online : Specification.OnlineState}
    {call : OpenForm × Bytes}
    (implements : platform.Implements context.provider externals)
    (agree : platform.OpensAgree)
    (isOn : call.1.IsOn context.parameters call.2)
    (mirrors : Mirrors platform context decryptor online) :
    Answers ((⟨platform, call.1⟩ : OpenCall).performOn decryptor).1
        (OpenForm.specified externals
          context.parameters.ciphertextSegmentLength call online).1 ∧
      Mirrors platform context
        ((⟨platform, call.1⟩ : OpenCall).performOn decryptor).2
        (OpenForm.specified externals
          context.parameters.ciphertextSegmentLength call online).2 := by
  cases mirrors with
  | @closed position counter =>
      obtain ⟨error, result⟩ := isOn.performOn_closed platform
        (show decryptor.counter.closed = true by rw [counter])
      have thrown : OpenForm.specified externals
          context.parameters.ciphertextSegmentLength call
          (context.onlineAfter position .final) =
            (none, context.onlineAfter position .final) := by
        simp only [OpenForm.specified, Specification.answerSegment,
          MessageContext.onlineAfter, Specification.decryptAny_closed,
          ite_self]
      rw [result, thrown]
      exact ⟨⟨error, rfl⟩, .closed counter⟩
  | @inProgress position here =>
      cases roomy : call.1.hasRoom call.2 with
      | false =>
          obtain ⟨error, next, result, there⟩ :=
            isOn.performOn_narrow here roomy
          simp only [OpenForm.specified, roomy, Bool.false_eq_true,
            ↓reduceIte, result]
          exact ⟨⟨error, rfl⟩, .inProgress there⟩
      | true =>
          simp only [OpenForm.specified, roomy, ↓reduceIte]
          rcases isOn.performOn_cases agree here roomy with
            ⟨plaintext, kind, next, allowed, opens, result, after⟩ |
              ⟨⟨error, next, result, there⟩, refused⟩
          · have answered := (implements.decryptAny_iff here.inside).mpr
              ⟨kind, allowed, opens, rfl⟩
            simp only [result, Specification.answerSegment, answered]
            refine ⟨rfl, ?_⟩
            cases kind with
            | nonFinal => exact .inProgress after
            | final => exact .closed after
          · have thrown : ∀ answer,
                Specification.decryptAnyOnlineSegment externals
                    context.parameters.ciphertextSegmentLength
                    (context.onlineAt position) call.2 ≠ some answer := by
              rintro ⟨_, plaintext⟩ answered
              obtain ⟨kind, allowed, opens, _⟩ :=
                (implements.decryptAny_iff here.inside).mp answered
              exact refused kind plaintext allowed opens
            simp only [result, Specification.answerSegment,
              Option.eq_none_iff_forall_ne_some.mpr thrown]
            exact ⟨⟨error, rfl⟩, .inProgress there⟩

end Calls

section Decryptors

open Specification

end Decryptors

end FastFloe
