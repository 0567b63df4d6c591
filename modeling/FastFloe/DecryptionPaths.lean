import FastFloe.DecryptionStates
import FastFloe.Transparent

namespace FastFloe

open Rust

/-!
# The paths to a segment's plaintext

A `DecryptionState` has six ways to decrypt one segment.  Three of them
validate the framing against the kind that the caller expects, and three trust
a framing decoded from the segment's own prefix; each comes in a variant that
allocates, one that writes to an output and one that works in place.  On every
segment they return one answer, which only depends on the key that the state's
cache hands out.
-/

/-- A call returns what an optional value stands for: the value if there is
one, and an `Err` if there is none. -/
def Answers {α : Type} (result : Result α) : Option α → Prop
  | some value => result = .ok value
  | none => ∃ error, result = .error (.err error)

/-! ## What one opening can do -/

/-- Looking a key up gives a key or an error, whatever the cache holds. -/
theorem KeyCache.keyForPosition_cases
    (platform : Platform)
    (context : MessageContext)
    (keys : KeyCache)
    (position : Nat) :
    (∃ key next,
        keys.keyForPosition platform context position = (.ok key, next)) ∨
      ∃ error next,
        keys.keyForPosition platform context position =
          (.error (.err error), next) := by
  have derives :=
    CachedKey.derive_returns platform context
      (context.parameters.maskedPosition position)
  unfold KeyCache.keyForPosition
  by_cases limit : position ≥ aeadMaxSegments
  · simp only [limit, ↓reduceIte]
    exact .inr ⟨_, _, rfl⟩
  · simp only [limit, ↓reduceIte]
    cases held : keys.cachedKey with
    | none =>
        simp only [↓reduceIte]
        cases derived : CachedKey.derive platform context
            (context.parameters.maskedPosition position) with
        | ok cached =>
            exact .inl ⟨_, _, rfl⟩
        | error stop =>
            rw [derived] at derives
            obtain ⟨error, rfl⟩ := derives.stop_eq_err
            exact .inr ⟨_, _, rfl⟩
    | some cached =>
        by_cases same : cached.maskedPosition =
            context.parameters.maskedPosition position
        · refine .inl ⟨cached.key, keys, ?_⟩
          simp [same, Outcome.expect]
        · simp only [ne_eq, same, not_false_eq_true, decide_true,
            ↓reduceIte]
          cases derived : CachedKey.derive platform context
              (context.parameters.maskedPosition position) with
          | ok cached =>
              exact .inl ⟨_, _, rfl⟩
          | error stop =>
              rw [derived] at derives
              obtain ⟨error, rfl⟩ := derives.stop_eq_err
              exact .inr ⟨_, _, rfl⟩

/-- A call that comes back without failing returns unit. -/
theorem returns_unit_cases
    {α : Type}
    {call : Result Unit × α}
    (returns : call.1.Returns) :
    (∃ left, call = (.ok (), left)) ∨
      ∃ error left, call = (.error (.err error), left) := by
  obtain ⟨result, left⟩ := call
  cases result with
  | ok _ =>
      exact .inl ⟨left, rfl⟩
  | error stop =>
      obtain ⟨error, rfl⟩ := returns.stop_eq_err
      exact .inr ⟨error, left, rfl⟩

section Inner

variable (platform : Platform) (context : MessageContext) (keys : KeyCache)
  (position : Nat) (kind : SegmentKind)
  {segment output : Bytes} {plaintextLength : Nat}

/-- Everything that `decrypt_segment_into_inner` can do on a segment of the
declared length and an output that has room. -/
theorem decryptSegmentIntoInner_cases
    {parts : SegmentParts}
    (size : segment.length = plaintextLength + 32)
    (cut : segmentParts segment = some parts)
    (room : plaintextLength ≤ output.length) :
    (∃ error next,
        keys.keyForPosition platform context position =
            (.error (.err error), next) ∧
          decryptSegmentIntoInner platform context keys segment position kind
              plaintextLength output =
            (.error (.err error), next, output)) ∨
      ∃ key next,
        keys.keyForPosition platform context position = (.ok key, next) ∧
          ((∃ region,
              key.openInto platform parts.nonce (segmentAad position kind)
                  parts.ciphertext parts.tag (output.take plaintextLength) =
                (.ok (), region) ∧
              decryptSegmentIntoInner platform context keys segment position
                  kind plaintextLength output =
                (.ok plaintextLength, next, writeBack output 0 region)) ∨
            ∃ error region,
              key.openInto platform parts.nonce (segmentAad position kind)
                  parts.ciphertext parts.tag (output.take plaintextLength) =
                (.error (.err error), region) ∧
              decryptSegmentIntoInner platform context keys segment position
                  kind plaintextLength output =
                (.error (.err error), next, writeBack output 0 region)) := by
  have pieces := splitForOpen_eq (by omega) cut
  have region :
      (slice output 0 plaintextLength : Result Bytes) =
        .ok (output.take plaintextLength) :=
    slice_zero room
  rcases keys.keyForPosition_cases platform context position with
    ⟨key, next, found⟩ | ⟨error, next, failed⟩
  · refine .inr ⟨key, next, found, ?_⟩
    rcases returns_unit_cases (key.returns_openInto platform parts.nonce
        (segmentAad position kind) parts.ciphertext
        (output.take plaintextLength) parts.tag) with
      ⟨left, opened⟩ | ⟨error, left, opened⟩
    · refine .inl ⟨left, opened, ?_⟩
      simp only [decryptSegmentIntoInner, Nat.not_lt.mpr room, ↓reduceIte,
        found, pieces, region, opened]
    · refine .inr ⟨error, left, opened, ?_⟩
      simp only [decryptSegmentIntoInner, Nat.not_lt.mpr room, ↓reduceIte,
        found, pieces, region, opened]
  · refine .inl ⟨error, next, failed, ?_⟩
    simp only [decryptSegmentIntoInner, Nat.not_lt.mpr room, ↓reduceIte,
      failed]

/-- Everything that `open_segment_in_place` can do on a segment of the declared
length. -/
theorem openSegmentInPlace_cases
    {parts : SegmentParts}
    (size : segment.length = plaintextLength + 32)
    (cut : segmentParts segment = some parts) :
    (∃ error next,
        keys.keyForPosition platform context position =
            (.error (.err error), next) ∧
          openSegmentInPlace platform context keys segment position kind
              plaintextLength =
            (.error (.err error), next, segment)) ∨
      ∃ key next,
        keys.keyForPosition platform context position = (.ok key, next) ∧
          ((∃ region,
              key.openInPlace platform parts.nonce (segmentAad position kind)
                  parts.tag parts.ciphertext = (.ok (), region) ∧
              openSegmentInPlace platform context keys segment position kind
                  plaintextLength =
                (.ok region, next,
                  writeBack segment segmentPayloadOffset region)) ∨
            ∃ error region,
              key.openInPlace platform parts.nonce (segmentAad position kind)
                  parts.tag parts.ciphertext =
                (.error (.err error), region) ∧
              openSegmentInPlace platform context keys segment position kind
                  plaintextLength =
                (.error (.err error), next,
                  writeBack segment segmentPayloadOffset region)) := by
  have pieces := splitForOpenInPlace_eq size cut
  rcases keys.keyForPosition_cases platform context position with
    ⟨key, next, found⟩ | ⟨error, next, failed⟩
  · refine .inr ⟨key, next, found, ?_⟩
    rcases returns_unit_cases (key.returns_openInPlace platform parts.nonce
        (segmentAad position kind) parts.ciphertext parts.tag) with
      ⟨left, opened⟩ | ⟨error, left, opened⟩
    · refine .inl ⟨left, opened, ?_⟩
      simp only [openSegmentInPlace, found, pieces, opened]
    · refine .inr ⟨error, left, opened, ?_⟩
      simp only [openSegmentInPlace, found, pieces, opened]
  · refine .inl ⟨error, next, failed, ?_⟩
    simp only [openSegmentInPlace, failed]

end Inner

/-! ## What a state answers -/

/-- The plaintext of a segment under the key that the state's cache hands out
for its position. -/
def DecryptionState.answer (platform : Platform) (self : DecryptionState)
    (position : Nat) (kind : SegmentKind) (segment : Bytes) : Option Bytes :=
  match (self.keys.keyForPosition platform self.context position).1 with
  | .error _ => none
  | .ok key => do
      let parts ← segmentParts segment
      key.opened platform parts.nonce (segmentAad position kind)
        parts.ciphertext parts.tag

/-- The plaintext that a call into a caller's output left there. -/
def writtenTo (outcome : Result Nat × DecryptionState × Bytes) :
    Result Bytes := do
  let written ← outcome.1
  slice outcome.2.2 0 written

/-- The plaintext that a call on a segment buffer left behind its framing. -/
def leftIn (outcome : Result Nat × DecryptionState × SegmentBuffer) :
    Result Bytes := do
  let length ← outcome.1
  slice outcome.2.2.bytes segmentPayloadOffset (segmentPayloadOffset + length)

section Answers

variable {platform : Platform} {segment output : Bytes}
  {plaintextLength : Nat} (state : DecryptionState) (position : Nat)
  (kind : SegmentKind)

theorem DecryptionState.answer_of_key
    {key : AeadKey}
    {next : KeyCache}
    {parts : SegmentParts}
    (found :
      state.keys.keyForPosition platform state.context position =
        (.ok key, next))
    (cut : segmentParts segment = some parts) :
    state.answer platform position kind segment =
      key.opened platform parts.nonce (segmentAad position kind)
        parts.ciphertext parts.tag := by
  simp only [answer, found, cut, Option.bind_eq_bind, Option.bind_some]

theorem DecryptionState.answer_of_error
    {error : Error}
    {next : KeyCache}
    (failed :
      state.keys.keyForPosition platform state.context position =
        (.error (.err error), next)) :
    state.answer platform position kind segment = none := by
  simp only [answer, failed]

/-- A value that is produced exactly when a call succeeds is none when the call
fails. -/
theorem opened_eq_none
    {call : Result Unit × Bytes}
    {error : Error}
    {left : Bytes}
    {opened : Option Bytes}
    (computes :
      ∀ plaintext, call = (.ok (), plaintext) ↔ opened = some plaintext)
    (refused : call = (.error (.err error), left)) :
    opened = none := by
  cases opens : opened with
  | none =>
      rfl
  | some plaintext =>
      have success := (computes plaintext).mpr opens
      rw [refused] at success
      cases success

/-- Opening into an output with room writes the answer to its start. -/
theorem DecryptionState.openInto_answer
    (agree : platform.OpensAgree)
    (size : segment.length = plaintextLength + 32)
    (room : plaintextLength ≤ output.length) :
    (∃ plaintext next,
        state.answer platform position kind segment = some plaintext ∧
          plaintext.length = plaintextLength ∧
          state.openInto platform segment position kind plaintextLength
              output =
            (.ok plaintextLength, next,
              plaintext ++ output.drop plaintextLength)) ∨
      ∃ error next left,
        state.answer platform position kind segment = none ∧
          state.openInto platform segment position kind plaintextLength
              output = (.error (.err error), next, left) := by
  obtain ⟨parts, cut, length, _⟩ :=
    segmentParts_of_length (show 32 ≤ segment.length by omega)
  have exact : (output.take plaintextLength).length =
      parts.ciphertext.length := by
    rw [List.length_take]
    omega
  have computes {key : AeadKey} (plaintext : Bytes) :=
    agree.into key parts.nonce (segmentAad position kind) parts.ciphertext
      parts.tag _ plaintext exact
  rcases decryptSegmentIntoInner_cases platform state.context state.keys
      position kind size cut room with
    ⟨error, next, failed, result⟩ |
      ⟨key, next, found, ⟨region, opened, result⟩ |
        ⟨error, region, refused, result⟩⟩
  · refine .inr ⟨error, { state with keys := next }, output,
      state.answer_of_error position kind failed, ?_⟩
    simp only [openInto, result]
  · have plaintext := (computes region).mp opened
    have whole := AeadKey.length_of_opened plaintext
    have stop : region.length = plaintextLength := by omega
    refine .inl ⟨region, { state with keys := next }, ?_, stop, ?_⟩
    · rw [state.answer_of_key position kind found cut, plaintext]
    · simp only [openInto, result, writeBack_zero, stop]
  · refine .inr ⟨error, { state with keys := next },
      writeBack output 0 region, ?_, ?_⟩
    · rw [state.answer_of_key position kind found cut]
      exact opened_eq_none computes refused
    · simp only [openInto, result]

/-- Opening in place leaves the answer where the payload stood. -/
theorem DecryptionState.openInPlace_answer
    (agree : platform.OpensAgree)
    (size : segment.length = plaintextLength + 32) :
    (∃ plaintext next,
        state.answer platform position kind segment = some plaintext ∧
          plaintext.length = plaintextLength ∧
          openSegmentInPlace platform state.context state.keys segment
              position kind plaintextLength =
            (.ok plaintext, next,
              writeBack segment segmentPayloadOffset plaintext)) ∨
      ∃ error next left,
        state.answer platform position kind segment = none ∧
          openSegmentInPlace platform state.context state.keys segment
              position kind plaintextLength =
            (.error (.err error), next, left) := by
  obtain ⟨parts, cut, length, _⟩ :=
    segmentParts_of_length (show 32 ≤ segment.length by omega)
  have computes {key : AeadKey} (plaintext : Bytes) :=
    agree.inPlace key parts.nonce (segmentAad position kind)
      parts.ciphertext parts.tag plaintext
  rcases openSegmentInPlace_cases platform state.context state.keys
      position kind size cut with
    ⟨error, next, failed, result⟩ |
      ⟨key, next, found, ⟨region, opened, result⟩ |
        ⟨error, region, refused, result⟩⟩
  · exact .inr ⟨error, _, _, state.answer_of_error position kind failed,
      result⟩
  · have plaintext := (computes region).mp opened
    have whole := AeadKey.length_of_opened plaintext
    refine .inl ⟨region, next, ?_, by omega, result⟩
    rw [state.answer_of_key position kind found cut, plaintext]
  · refine .inr ⟨error, next, _, ?_, result⟩
    rw [state.answer_of_key position kind found cut]
    exact opened_eq_none computes refused

/-! ### Opening segments of the declared length -/

/-- Opening into an output with room leaves the answer there. -/
theorem DecryptionState.openInto_answers
    (agree : platform.OpensAgree)
    (size : segment.length = plaintextLength + 32)
    (room : plaintextLength ≤ output.length) :
    Answers
      (writtenTo
        (state.openInto platform segment position kind plaintextLength
          output))
      (state.answer platform position kind segment) := by
  rcases state.openInto_answer position kind agree size room with
    ⟨plaintext, next, answered, length, result⟩ |
      ⟨error, next, left, answered, result⟩
  · rw [answered, result]
    simp only [Answers, writtenTo, Outcome.ok_bind]
    rw [slice_zero (by rw [List.length_append]; omega), ← length,
      List.take_left]
  · rw [answered, result]
    exact ⟨error, rfl⟩

/-- Opening into a fresh vector returns the answer. -/
theorem DecryptionState.openVec_answers
    (agree : platform.OpensAgree)
    (size : segment.length = plaintextLength + 32) :
    Answers (state.openVec platform segment position kind plaintextLength).1
      (state.answer platform position kind segment) := by
  have room : plaintextLength ≤ (zeros plaintextLength).length :=
    Nat.le_of_eq (length_zeros _).symm
  have rest : (zeros plaintextLength).drop plaintextLength = [] :=
    List.drop_eq_nil_of_le (Nat.le_of_eq (length_zeros _))
  rcases state.openInto_answer position kind agree size room with
    ⟨plaintext, next, answered, length, result⟩ |
      ⟨error, next, left, answered, result⟩
  · rw [answered]
    simp only [Answers, openVec, result, rest, List.append_nil]
  · rw [answered]
    refine ⟨error, ?_⟩
    simp only [openVec, result]

/-- Opening where the segment stands returns the answer. -/
theorem DecryptionState.openInPlace_answers
    (agree : platform.OpensAgree)
    (size : segment.length = plaintextLength + 32) :
    Answers
      (openSegmentInPlace platform state.context state.keys segment position
        kind plaintextLength).1
      (state.answer platform position kind segment) := by
  rcases state.openInPlace_answer position kind agree size with
    ⟨plaintext, next, answered, length, result⟩ |
      ⟨error, next, left, answered, result⟩
  · rw [answered, result]
    rfl
  · rw [answered, result]
    exact ⟨error, rfl⟩

end Answers

/-! ## The two framing checks -/

/-- The checks of a caller that expects a segment of one kind and drives a
framed path with the segment's own prefix. -/
def framedAs (parameters : Parameters) (kind : SegmentKind) (segment : Bytes)
    (decrypt : SegmentFraming → Result Bytes) : Result Bytes := do
  let lengthPrefix ← Outcome.okOr .invalidSegmentPrefix
    (Octets.ofSlice? segmentPrefixLength (segment.take segmentPrefixLength))
  let framing ← SegmentFraming.decode parameters lengthPrefix
  if framing.kind = kind then
    decrypt framing
  else
    .error (.err .invalidSegmentPrefix)

/-- Validating against the expected kind and decoding the prefix accept the
same segments with the same payload length. -/
theorem validateSegment_iff_framingOf
    (context : MessageContext)
    (segment : Bytes)
    (kind : SegmentKind)
    (plaintextLength : Nat) :
    validateSegment context segment kind = .ok plaintextLength ↔
      framingOf context.parameters segment =
        some ⟨segment.length, plaintextLength, kind⟩ := by
  constructor
  · intro validated
    rcases validateSegment_spec context segment kind with
      ⟨framed, accepted⟩ | ⟨_, error, rejected⟩
    · rw [accepted, Except.ok.injEq] at validated
      obtain ⟨framing, decoded, sameKind, sameLength⟩ :=
        framed.framingOf_append []
      rw [List.append_nil] at decoded
      have payload := (framingOf_eq_some decoded).1.payload
      rw [decoded, Option.some.injEq]
      obtain ⟨ciphertextLength, length, framingKind⟩ := framing
      simp only at sameKind sameLength payload
      rw [SegmentFraming.mk.injEq]
      exact ⟨sameLength, by omega, sameKind⟩
    · rw [rejected] at validated
      cases validated
  · intro decoded
    obtain ⟨valid, lead⟩ := framingOf_eq_some decoded
    have framed := valid.wellFramed rfl lead
    have payload := valid.payload
    rcases validateSegment_spec context segment kind with
      ⟨_, accepted⟩ | ⟨malformed, _⟩
    · rw [accepted]
      congr 1
      simp only at payload
      omega
    · exact (malformed framed).elim

theorem framingOf_eq_some_iff
    {parameters : Parameters}
    {stream : Bytes}
    {framing : SegmentFraming} :
    framingOf parameters stream = some framing ↔
      ∃ lengthPrefix,
        Octets.ofSlice? segmentPrefixLength
            (stream.take segmentPrefixLength) = some lengthPrefix ∧
          SegmentFraming.decode parameters lengthPrefix = .ok framing := by
  unfold framingOf
  cases Octets.ofSlice? segmentPrefixLength
      (stream.take segmentPrefixLength) with
  | none =>
      simp
  | some lengthPrefix =>
      cases decoded : SegmentFraming.decode parameters lengthPrefix with
      | ok other => simp [decoded]
      | error stop => simp [decoded]

/-- On a well-framed segment, a framed path runs with the framing that the
segment has. -/
theorem framedAs_of_framed
    {parameters : Parameters}
    {kind : SegmentKind}
    {segment : Bytes}
    (decrypt : SegmentFraming → Result Bytes)
    {plaintextLength : Nat}
    (decoded :
      framingOf parameters segment =
        some ⟨segment.length, plaintextLength, kind⟩) :
    framedAs parameters kind segment decrypt =
      decrypt ⟨segment.length, plaintextLength, kind⟩ := by
  obtain ⟨lengthPrefix, cut, framing⟩ := framingOf_eq_some_iff.mp decoded
  simp only [framedAs, cut, Outcome.okOr, Outcome.ok_bind, framing,
    ↓reduceIte]

/-- On any other segment, a framed path fails when it checks the length that
its framing declares. -/
theorem framedAs_of_malformed
    {context : MessageContext}
    {kind : SegmentKind}
    {segment : Bytes}
    {decrypt : SegmentFraming → Result Bytes}
    (malformed : ¬ WellFramed context.parameters kind segment)
    (checked :
      ∀ framing : SegmentFraming,
        segment.length ≠ framing.ciphertextLength →
          ∃ error, decrypt framing = .error (.err error)) :
    ∃ error,
      framedAs context.parameters kind segment decrypt =
        .error (.err error) := by
  unfold framedAs
  cases cut : Octets.ofSlice? segmentPrefixLength
      (segment.take segmentPrefixLength) with
  | none =>
      exact ⟨_, rfl⟩
  | some lengthPrefix =>
      simp only [Outcome.okOr, Outcome.ok_bind]
      rcases SegmentFraming.decode_spec context.parameters lengthPrefix with
        ⟨framing, decoded, valid, lead⟩ | ⟨⟨error, refused⟩, _⟩
      · simp only [decoded, Outcome.ok_bind]
        by_cases sameKind : framing.kind = kind
        · simp only [sameKind, ↓reduceIte]
          refine checked framing ?_
          intro sameLength
          refine malformed ?_
          rw [← sameKind]
          exact valid.wellFramed sameLength
            ((Octets.ofSlice?_eq_some.mp cut).trans lead)
        · simp only [sameKind, ↓reduceIte]
          exact ⟨_, rfl⟩
      · simp only [refused, Outcome.error_bind]
        exact ⟨error, rfl⟩

/-! ## Agreement -/

/-- Every path to the plaintext of a segment returns one answer. -/
structure DecryptionState.PathsAnswer (platform : Platform)
    (state : DecryptionState) (segment : Bytes) (position : Nat)
    (kind : SegmentKind) (answer : Option Bytes) : Prop where
  allocating :
    Answers (state.decryptSegmentAt platform segment position kind).1 answer
  into :
    ∀ output : Bytes, segment.length - segmentOverhead ≤ output.length →
      Answers
        (writtenTo
          (state.decryptSegmentIntoAt platform segment position kind output))
        answer
  inPlaceRaw :
    Answers
      (state.decryptSegmentInPlaceRawAt platform segment position kind).1
      answer
  allocatingFramed :
    Answers
      (framedAs state.parameters kind segment fun framing =>
        (state.decryptSegmentAtFramed platform segment position framing).1)
      answer
  intoFramed :
    ∀ output : Bytes, segment.length - segmentOverhead ≤ output.length →
      Answers
        (framedAs state.parameters kind segment fun framing =>
          writtenTo
            (state.decryptSegmentIntoAtFramed platform segment position
              framing output))
        answer
  inPlaceFramed :
    ∀ buffer : SegmentBuffer, buffer.parameters = state.parameters →
      buffer.HoldsCiphertext segment →
        Answers
          (framedAs state.parameters kind segment fun framing =>
            leftIn
              (state.decryptSegmentInPlaceAtFramed platform buffer position
                framing))
          answer

section Agreement

variable {platform : Platform} (state : DecryptionState) {segment : Bytes}
  (position : Nat) {kind : SegmentKind}

/-- On a framing that declares the segment's length, the framed check passes. -/
theorem validateFramedLength_of_eq
    {framing : SegmentFraming}
    {actual : Nat}
    (exact : actual = framing.ciphertextLength) :
    validateFramedLength actual framing = .ok framing.plaintextLength := by
  simp only [validateFramedLength, exact, ne_eq, not_true_eq_false,
    ↓reduceIte]

/-- On a framing that declares another length, the framed check fails. -/
theorem validateFramedLength_of_ne
    {framing : SegmentFraming}
    {actual : Nat}
    (other : actual ≠ framing.ciphertextLength) :
    validateFramedLength actual framing =
      .error (.err (.invalidCiphertextLength actual
        (.exactly framing.ciphertextLength))) := by
  simp only [validateFramedLength, ne_eq, other, not_false_eq_true,
    ↓reduceIte]

/-- On a well-framed segment, every path returns the state's answer. -/
theorem DecryptionState.pathsAnswer_of_framed
    (agree : platform.OpensAgree)
    (framed : WellFramed state.context.parameters kind segment) :
    state.PathsAnswer platform segment position kind
      (state.answer platform position kind segment) := by
  have enough := framed.length_bounds.1
  have size : segment.length = segment.length - 32 + 32 := by omega
  have validated :
      validateSegment state.context segment kind =
        .ok (segment.length - 32) := by
    rcases validateSegment_spec state.context segment kind with
      ⟨_, accepted⟩ | ⟨malformed, _⟩
    · exact accepted
    · exact (malformed framed).elim
  have decoded := (validateSegment_iff_framingOf _ _ _ _).mp validated
  have trusted :
      validateFramedLength segment.length
          ⟨segment.length, segment.length - 32, kind⟩ =
        .ok (segment.length - 32) :=
    validateFramedLength_of_eq rfl
  constructor
  case allocating =>
    simp only [decryptSegmentAt, validated]
    exact state.openVec_answers position kind agree size
  case into =>
    intro output room
    simp only [decryptSegmentIntoAt, validated]
    exact state.openInto_answers position kind agree size room
  case inPlaceRaw =>
    simp only [decryptSegmentInPlaceRawAt, decryptSegmentInPlaceInner,
      validated]
    exact state.openInPlace_answers position kind agree size
  case allocatingFramed =>
    rw [parameters, framedAs_of_framed _ decoded]
    simp only [decryptSegmentAtFramed, trusted]
    exact state.openVec_answers position kind agree size
  case intoFramed =>
    intro output room
    rw [parameters, framedAs_of_framed _ decoded]
    simp only [decryptSegmentIntoAtFramed, trusted]
    exact state.openInto_answers position kind agree size room
  case inPlaceFramed =>
    intro buffer same holds
    have matching : buffer.hasParameters state.parameters = true := by
      simp [SegmentBuffer.hasParameters, same]
    have region :
        (slice buffer.bytes 0 segment.length : Result Bytes) =
          .ok segment := by
      rw [slice_zero holds.length_le, holds.content]
    rw [parameters, framedAs_of_framed _ decoded]
    simp only [decryptSegmentInPlaceAtFramed, matching, not_true_eq_false,
      ↓reduceIte, holds.ciphertextLength_eq, Outcome.ok_bind, trusted,
      region]
    rcases state.openInPlace_answer position kind agree size with
      ⟨plaintext, next, answered, length, result⟩ |
        ⟨error, next, left, answered, result⟩
    · have opened := (holds.opened (by omega :
        plaintext.length + 32 = segment.length)).plaintext_eq
      simp only [SegmentBuffer.plaintext] at opened
      rw [answered, result]
      simp only [leftIn, Except.map, Outcome.ok_bind]
      exact opened
    · rw [answered, result]
      exact ⟨error, rfl⟩

/-- On any other segment, every path fails. -/
theorem DecryptionState.pathsAnswer_of_malformed
    (platform : Platform)
    (malformed : ¬ WellFramed state.context.parameters kind segment) :
    state.PathsAnswer platform segment position kind none := by
  obtain ⟨error, rejected⟩ : ∃ error,
      validateSegment state.context segment kind =
        .error (.err error) := by
    rcases validateSegment_spec state.context segment kind with
      ⟨framed, _⟩ | ⟨_, rejected⟩
    · exact (malformed framed).elim
    · exact rejected
  constructor
  case allocating =>
    exact ⟨error, by simp only [decryptSegmentAt, rejected]⟩
  case into =>
    intro output _
    exact ⟨error, by
      simp only [decryptSegmentIntoAt, rejected, writtenTo,
        Outcome.error_bind]⟩
  case inPlaceRaw =>
    exact ⟨error, by
      simp only [decryptSegmentInPlaceRawAt, decryptSegmentInPlaceInner,
        rejected]⟩
  case allocatingFramed =>
    refine framedAs_of_malformed malformed ?_
    intro framing other
    simp only [decryptSegmentAtFramed, validateFramedLength_of_ne other]
    exact ⟨_, rfl⟩
  case intoFramed =>
    intro output _
    refine framedAs_of_malformed malformed ?_
    intro framing other
    simp only [decryptSegmentIntoAtFramed,
      validateFramedLength_of_ne other, writtenTo, Outcome.error_bind]
    exact ⟨_, rfl⟩
  case inPlaceFramed =>
    intro buffer same holds
    have matching : buffer.hasParameters state.parameters = true := by
      simp [SegmentBuffer.hasParameters, same]
    refine framedAs_of_malformed malformed ?_
    intro framing other
    simp only [decryptSegmentInPlaceAtFramed, matching, not_true_eq_false,
      ↓reduceIte, holds.ciphertextLength_eq, Outcome.ok_bind,
      validateFramedLength_of_ne other, Outcome.error_bind, leftIn]
    exact ⟨_, rfl⟩

/-- Every path to a segment's plaintext returns one answer, on every segment. -/
theorem DecryptionState.exists_pathsAnswer
    (agree : platform.OpensAgree)
    (segment : Bytes)
    (kind : SegmentKind) :
    ∃ answer, state.PathsAnswer platform segment position kind answer := by
  by_cases framed : WellFramed state.context.parameters kind segment
  · exact ⟨_, state.pathsAnswer_of_framed position agree framed⟩
  · exact ⟨none, state.pathsAnswer_of_malformed position platform framed⟩

end Agreement

/-! ## What the encoder writes -/

/-- A segment length that the encoder admits, as its payload length and its
bounds. -/
theorem ciphertextSegmentSize_eq_ok
    {platform : Platform}
    {context : MessageContext}
    {plaintextLength required : Nat}
    {kind : SegmentKind}
    (admitted :
      ciphertextSegmentSize platform context plaintextLength kind =
        .ok required) :
    required = plaintextLength + 32 ∧
      FitsKind context.parameters kind plaintextLength ∧
      required ≤ context.parameters.ciphertextSegmentLength := by
  have total := context.parameters.plaintextSegmentLength_add
  rcases ciphertextSegmentSize_spec platform context plaintextLength kind with
    ⟨fits, size⟩ | ⟨_, error, refused⟩
  · rw [admitted, Except.ok.injEq] at size
    have small := fits.le
    exact ⟨size, fits, by omega⟩
  · rw [refused] at admitted
    cases admitted

/-- `write_segment_framing` never refuses a length that the encoder admits, and
puts its prefix first. -/
theorem framingPrefix_of_fits
    {kind : SegmentKind}
    {required : Nat}
    (small : required ≤ u32Max) :
    ∃ lengthPrefix,
      framingPrefix kind required = .ok lengthPrefix ∧
        beBytes 4 lengthPrefix = lengthPrefixOf kind required := by
  cases kind with
  | nonFinal => exact ⟨u32Max, rfl, rfl⟩
  | final => exact ⟨required, by simp only [framingPrefix, small, ↓reduceIte],
      rfl⟩

/-- The prefix of every segment length that the encoder admits decodes to that
kind and length. -/
theorem decode_lengthPrefixOf
    {platform : Platform}
    {context : MessageContext}
    {plaintextLength required : Nat}
    {kind : SegmentKind}
    (admitted :
      ciphertextSegmentSize platform context plaintextLength kind =
        .ok required) :
    SegmentFraming.decode context.parameters
        ⟨lengthPrefixOf kind required, length_lengthPrefixOf _ _⟩ =
      .ok ⟨required, plaintextLength, kind⟩ := by
  obtain ⟨rfl, fits, small⟩ := ciphertextSegmentSize_eq_ok admitted
  have total := context.parameters.plaintextSegmentLength_add
  have maximum := context.parameters.lt_maximum
  have framed :
      WellFramed context.parameters kind
        (lengthPrefixOf kind (plaintextLength + 32) ++
          zeros (plaintextLength + 28)) := by
    have length :
        (lengthPrefixOf kind (plaintextLength + 32) ++
          zeros (plaintextLength + 28)).length = plaintextLength + 32 := by
      rw [List.length_append, length_lengthPrefixOf, length_zeros]
      omega
    have lead :
        (lengthPrefixOf kind (plaintextLength + 32) ++
            zeros (plaintextLength + 28)).take segmentPrefixLength =
          lengthPrefixOf kind (plaintextLength + 32) :=
      List.take_left' (length_lengthPrefixOf _ _)
    unfold WellFramed
    rw [length, lead, segmentOverhead_eq]
    cases kind with
    | nonFinal =>
        have exact : plaintextLength =
          context.parameters.plaintextSegmentLength := fits
        exact ⟨by omega, rfl⟩
    | final =>
        exact ⟨by omega, small, rfl⟩
  rcases SegmentFraming.decode_spec context.parameters
      ⟨lengthPrefixOf kind (plaintextLength + 32),
        length_lengthPrefixOf _ _⟩ with
    ⟨framing, decoded, valid, lead⟩ | ⟨_, excluded⟩
  · have bounded := valid.bounded
    have payload := valid.payload
    obtain ⟨sameKind, sameLength⟩ :=
      lengthPrefixOf_injective (by omega) (by omega) lead
    rw [decoded, Except.ok.injEq]
    obtain ⟨ciphertextLength, length, framingKind⟩ := framing
    subst sameKind
    have whole : plaintextLength + 32 = ciphertextLength := by
      cases kind with
      | nonFinal =>
          have full : ciphertextLength =
            context.parameters.ciphertextSegmentLength := valid.full rfl
          have exact : plaintextLength =
            context.parameters.plaintextSegmentLength := fits
          omega
      | final => exact sameLength rfl
    simp only at payload
    rw [SegmentFraming.mk.injEq]
    exact ⟨whole.symm, by omega, rfl⟩
  · exact (excluded kind _ framed
      (List.take_left' (length_lengthPrefixOf _ _))).elim

/-- What `write_segment_framing` leaves at the start of its output. -/
theorem writeSegmentFraming_take
    {nonces next : NonceGenerator}
    {output written : Bytes}
    {kind : SegmentKind}
    {required : Nat}
    {nonce : Octets aeadIvLength}
    (small : required ≤ u32Max)
    (success :
      writeSegmentFraming nonces output kind required =
        (.ok nonce, next, written)) :
    written.take segmentPrefixLength = lengthPrefixOf kind required := by
  obtain ⟨lengthPrefix, chosen, encoded⟩ :=
    @framingPrefix_of_fits kind required small
  unfold writeSegmentFraming at success
  simp only [chosen, encoded] at success
  cases lead : (copyRange output 0 segmentPrefixLength
      (lengthPrefixOf kind required) : Result Bytes) with
  | error stop =>
      simp only [lead, Prod.mk.injEq, reduceCtorEq, false_and] at success
  | ok first =>
      obtain ⟨_, room, _, rfl⟩ := copyRange_eq_ok lead
      simp only [lead] at success
      cases drawn : nonces.draw with
      | mk outcome left =>
          cases outcome with
          | error stop =>
              simp only [drawn, Prod.mk.injEq, reduceCtorEq, false_and]
                at success
          | ok fresh =>
              simp only [drawn] at success
              cases follow : (copyRange
                  (writeBack output 0 (lengthPrefixOf kind required))
                  segmentPrefixLength segmentPayloadOffset fresh.val :
                  Result Bytes) with
              | error stop =>
                  simp only [follow, Prod.mk.injEq, reduceCtorEq, false_and]
                    at success
              | ok second =>
                  obtain ⟨_, inside, _, rfl⟩ := copyRange_eq_ok follow
                  simp only [follow, Prod.mk.injEq] at success
                  rw [← success.2.2, take_writeBack (by
                      rw [segmentPayloadOffset_eq] at inside
                      rw [segmentPrefixLength_eq]
                      omega) (Nat.le_refl _), writeBack_zero]
                  exact List.take_left' (length_lengthPrefixOf _ _)

/-- A framing that the encoder wrote decodes to the kind and the lengths of its
segment, and never takes a final segment for a full one. -/
theorem framingOf_writeSegmentFraming
    {platform : Platform}
    {context : MessageContext}
    {plaintextLength required : Nat}
    {kind : SegmentKind}
    {nonces next : NonceGenerator}
    {output written : Bytes}
    {nonce : Octets aeadIvLength}
    (admitted :
      ciphertextSegmentSize platform context plaintextLength kind =
        .ok required)
    (success :
      writeSegmentFraming nonces output kind required =
        (.ok nonce, next, written)) :
    framingOf context.parameters written =
        some ⟨required, plaintextLength, kind⟩ ∧
      (kind = .final →
        written.take segmentPrefixLength ≠ beBytes 4 u32Max) := by
  have maximum := context.parameters.lt_maximum
  obtain ⟨_, _, small⟩ := ciphertextSegmentSize_eq_ok admitted
  have lead := writeSegmentFraming_take (by omega) success
  constructor
  · rw [framingOf_eq_some_iff, lead]
    exact ⟨⟨lengthPrefixOf kind required, length_lengthPrefixOf _ _⟩,
      Octets.ofSlice?_of_length _, decode_lengthPrefixOf admitted⟩
  · rintro rfl marked
    rw [lead] at marked
    have room : u32Max < 256 ^ 4 := by decide
    have same := beBytes_injective (by omega) room marked
    omega

/-- The two framing checks of a decryption state agree: all six paths to a
segment's plaintext return one answer, validation accepts what decoding
declares, and decoding inverts what the encoder writes. -/
theorem decryptionPaths_agree
    {platform : Platform}
    (agree : platform.OpensAgree) :
    (∀ (state : DecryptionState) (segment : Bytes) (position : Nat)
        (kind : SegmentKind),
      ∃ answer,
        state.PathsAnswer platform segment position kind answer) ∧
      (∀ (context : MessageContext) (segment : Bytes) (kind : SegmentKind)
          (plaintextLength : Nat),
        validateSegment context segment kind = .ok plaintextLength ↔
          ∃ framing,
            framingOf context.parameters segment = some framing ∧
              framing.kind = kind ∧
              framing.ciphertextLength = segment.length ∧
              framing.plaintextLength = plaintextLength) ∧
      ∀ (context : MessageContext) (plaintextLength required : Nat)
          (kind : SegmentKind),
        ciphertextSegmentSize platform context plaintextLength kind =
            .ok required →
          (∃ lengthPrefix, framingPrefix kind required = .ok lengthPrefix) ∧
            ∀ nonces output nonce next written,
              writeSegmentFraming nonces output kind required =
                  (.ok nonce, next, written) →
                framingOf context.parameters written =
                    some ⟨required, plaintextLength, kind⟩ ∧
                  (kind = .final →
                    written.take segmentPrefixLength ≠
                      beBytes 4 u32Max) := by
  refine ⟨?_, ?_, ?_⟩
  · intro state segment position kind
    exact state.exists_pathsAnswer position agree segment kind
  · intro context segment kind plaintextLength
    rw [validateSegment_iff_framingOf]
    constructor
    · intro decoded
      exact ⟨_, decoded, rfl, rfl, rfl⟩
    · rintro ⟨framing, decoded, rfl, sameLength, rfl⟩
      rw [decoded, ← sameLength]
  · intro context plaintextLength required kind admitted
    have maximum := context.parameters.lt_maximum
    obtain ⟨_, _, small⟩ := ciphertextSegmentSize_eq_ok admitted
    constructor
    · obtain ⟨lengthPrefix, chosen, _⟩ :=
        @framingPrefix_of_fits kind required (by omega)
      exact ⟨lengthPrefix, chosen⟩
    · intro nonces output nonce next written success
      exact framingOf_writeSegmentFraming admitted success

/-- A final segment of one byte is opened alike on every path. -/
theorem decryptionPaths_agree_example :
    (SharedDecryptionContext.mk transparentContext).fork.PathsAnswer
      openPlatform (beBytes 4 33 ++ zeros 12 ++ [7] ++ zeros 16) 5 .final
      (some [7]) := by
  obtain ⟨answer, paths⟩ :=
    (@decryptionPaths_agree openPlatform transparent_opensAgree).1
      (SharedDecryptionContext.mk transparentContext).fork
      (beBytes 4 33 ++ zeros 12 ++ [7] ++ zeros 16) 5 .final
  have opened :
      ((SharedDecryptionContext.mk transparentContext).fork.decryptSegmentAt
        openPlatform (beBytes 4 33 ++ zeros 12 ++ [7] ++ zeros 16) 5
        .final).1 = .ok [7] := by
    decide
  have allocating := paths.allocating
  rw [opened] at allocating
  cases answer with
  | none =>
      obtain ⟨error, impossible⟩ := allocating
      cases impossible
  | some plaintext =>
      cases allocating
      exact paths

end FastFloe
