import FastFloe.EncryptionPaths
import FastFloe.FailedOpenings

namespace FastFloe

open Rust

/-!
# What a segment operation does to its storage

The effects of the encryption and decryption operations on any provider,
honest or not: they come back, keep the length of the storage they work on, and
write no more than a segment.  The slices that the operations take without a
check of their own are all inside their storage.
-/

/-! ## Encryption -/

/-- The effect of sealing a payload of this length into storage of this
size. -/
structure SealEffect (context : MessageContext) (kind : SegmentKind)
    (plaintextLength size : Nat)
    (outcome : Result Nat × KeyCache × NonceGenerator × Bytes) : Prop where
  returns : outcome.1.Returns
  served : outcome.2.2.1.WellFormed
  kept : outcome.2.2.2.length = size
  written :
    ∀ length, outcome.1 = .ok length →
      length = plaintextLength + 32 ∧ length ≤ size ∧
        FitsKind context.parameters kind plaintextLength

section Sealing

variable (platform : Platform) (context : MessageContext) (keys : KeyCache)
  {nonces : NonceGenerator} (position : Nat) (kind : SegmentKind)

/-- Everything that `begin_segment_encryption` can do. -/
theorem beginSegmentEncryption_cases
    (output : Bytes)
    (plaintextLength : Nat)
    (served : nonces.WellFormed) :
    ∃ nextKeys nextNonces left,
      nextNonces.WellFormed ∧ left.length = output.length ∧
        ((∃ inputs,
            beginSegmentEncryption platform context keys nonces output
                plaintextLength position kind =
              (.ok inputs, nextKeys, nextNonces, left) ∧
            inputs.required = plaintextLength + 32 ∧
            plaintextLength + 32 ≤ output.length ∧
            FitsKind context.parameters kind plaintextLength) ∨
          ∃ error,
            beginSegmentEncryption platform context keys nonces output
                plaintextLength position kind =
              (.error (.err error), nextKeys, nextNonces, left)) := by
  have total := context.parameters.plaintextSegmentLength_add
  have maximum := context.parameters.lt_maximum
  rcases ciphertextSegmentSize_spec platform context plaintextLength kind with
    ⟨fits, size⟩ | ⟨_, error, size⟩
  · have small := fits.le
    by_cases room : plaintextLength + 32 ≤ output.length
    · obtain ⟨nextNonces, wellFormed, ⟨nonce, _, framed⟩ |
          ⟨error, failed, _, framed, length⟩⟩ :=
        writeSegmentFraming_spec kind served
          (show plaintextLength + 32 ≤ u32Max by omega)
          (show 16 ≤ output.length by omega)
      · have length :
            (lengthPrefixOf kind (plaintextLength + 32) ++
              (nonce.val ++ output.drop 16)).length = output.length := by
          simp only [List.length_append, length_lengthPrefixOf,
            Octets.length_val, aeadIvLength_eq, List.length_drop]
          omega
        rcases keys.keyForPosition_cases platform context position with
          ⟨key, nextKeys, found⟩ | ⟨error, nextKeys, failed⟩
        · refine ⟨nextKeys, nextNonces, _, wellFormed, length, .inl
            ⟨⟨plaintextLength + 32, nonce, key, segmentAad position kind⟩,
              ?_, rfl, room, fits⟩⟩
          simp only [beginSegmentEncryption, size, Nat.not_lt.mpr room,
            ↓reduceIte, framed, found]
        · refine ⟨nextKeys, nextNonces, _, wellFormed, length,
            .inr ⟨error, ?_⟩⟩
          simp only [beginSegmentEncryption, size, Nat.not_lt.mpr room,
            ↓reduceIte, framed, failed]
      · refine ⟨keys, nextNonces, failed, wellFormed, length,
          .inr ⟨error, ?_⟩⟩
        simp only [beginSegmentEncryption, size, Nat.not_lt.mpr room,
          ↓reduceIte, framed]
    · refine ⟨keys, nonces, output, served, rfl, .inr
        ⟨.outputTooSmall output.length (plaintextLength + 32), ?_⟩⟩
      simp only [beginSegmentEncryption, size, Nat.lt_of_not_le room,
        ↓reduceIte]
  · refine ⟨keys, nonces, output, served, rfl, .inr ⟨error, ?_⟩⟩
    simp only [beginSegmentEncryption, size]

/-- A failure that keeps the storage's length has the effect of sealing. -/
theorem SealEffect.of_error
    {context : MessageContext}
    {kind : SegmentKind}
    {plaintextLength size : Nat}
    {error : Error}
    {keys : KeyCache}
    {left : Bytes}
    (served : nonces.WellFormed)
    (kept : left.length = size) :
    SealEffect context kind plaintextLength size
      (.error (.err error), keys, nonces, left) := by
  refine ⟨Outcome.returns_err _, served, kept, ?_⟩
  intro length impossible
  cases impossible

/-- The payload slices behind the framing are inside the storage. -/
theorem encryptSegmentIntoInner_effect
    (plaintext output : Bytes)
    (served : nonces.WellFormed) :
    SealEffect context kind plaintext.length output.length
      (encryptSegmentIntoInner platform context keys nonces plaintext
        position kind output) := by
  obtain ⟨nextKeys, nextNonces, left, wellFormed, length,
      ⟨inputs, started, required, room, fits⟩ | ⟨error, started⟩⟩ :=
    beginSegmentEncryption_cases platform context keys position kind output
      plaintext.length served
  · have region :
        (slice left segmentPayloadOffset inputs.required : Result Bytes) =
          .ok ((left.drop 16).take (plaintext.length + 16)) := by
      rw [required, segmentPayloadOffset_eq,
        slice_eq (by omega) (by omega)]
      congr 2
    have regionLength :
        ((left.drop 16).take (plaintext.length + 16)).length =
          plaintext.length + 16 := by
      rw [List.length_take, List.length_drop]
      omega
    have kept := inputs.key.length_sealInto platform inputs.nonce inputs.aad
      plaintext ((left.drop 16).take (plaintext.length + 16))
    rw [regionLength] at kept
    simp only [encryptSegmentIntoInner, started, region]
    rcases returns_unit_cases (inputs.key.returns_sealInto platform
        inputs.nonce inputs.aad plaintext
        ((left.drop 16).take (plaintext.length + 16))) with
      ⟨sealed, written⟩ | ⟨error, sealed, written⟩
    · rw [written] at kept ⊢
      simp only at kept
      refine ⟨Outcome.returns_ok _, wellFormed, ?_, ?_⟩
      · rw [← length]
        exact length_writeBack (by rw [segmentPayloadOffset_eq]; omega)
      · intro length' same
        cases same
        exact ⟨required, by omega, fits⟩
    · rw [written] at kept ⊢
      simp only at kept
      refine SealEffect.of_error wellFormed ?_
      rw [← length]
      exact length_writeBack (by rw [segmentPayloadOffset_eq]; omega)
  · simp only [encryptSegmentIntoInner, started]
    exact SealEffect.of_error wellFormed length

/-- The payload and the tag behind it are inside the storage. -/
theorem encryptSegmentInPlaceInner_effect
    (buffer : Bytes)
    (plaintextLength : Nat)
    (served : nonces.WellFormed) :
    SealEffect context kind plaintextLength buffer.length
      (encryptSegmentInPlaceInner platform context keys nonces buffer
        plaintextLength position kind) := by
  obtain ⟨nextKeys, nextNonces, left, wellFormed, length,
      ⟨inputs, started, required, room, fits⟩ | ⟨error, started⟩⟩ :=
    beginSegmentEncryption_cases platform context keys position kind buffer
      plaintextLength served
  · have region :
        (slice left segmentPayloadOffset
            (segmentPayloadOffset + plaintextLength) : Result Bytes) =
          .ok ((left.drop 16).take plaintextLength) := by
      rw [segmentPayloadOffset_eq, slice_eq (by omega) (by omega),
        Nat.add_sub_cancel_left]
    have regionLength :
        ((left.drop 16).take plaintextLength).length = plaintextLength := by
      rw [List.length_take, List.length_drop]
      omega
    simp only [encryptSegmentInPlaceInner, started, region]
    have back (sealed : Bytes)
        (exact : sealed.length = plaintextLength) :
        (writeBack left segmentPayloadOffset sealed).length =
          left.length :=
      length_writeBack (by rw [segmentPayloadOffset_eq]; omega)
    rcases inputs.key.sealInPlace_spec platform inputs.nonce inputs.aad with
      ⟨ciphertext, tag, sealed, written⟩ | ⟨error, failed, _, written, kept⟩
    · have kept := AeadKey.length_of_sealed sealed
      rw [regionLength] at kept
      have tagLength : tag.val.length = 16 := tag.property
      have tagged :
          (copyRange (writeBack left segmentPayloadOffset ciphertext)
              (segmentPayloadOffset + plaintextLength) inputs.required
              tag.val : Result Bytes) =
            .ok (writeBack (writeBack left segmentPayloadOffset ciphertext)
              (segmentPayloadOffset + plaintextLength) tag.val) := by
        rw [required, segmentPayloadOffset_eq]
        refine copyRange_eq (by omega) ?_ (by omega)
        have size := back ciphertext kept
        rw [segmentPayloadOffset_eq] at size
        omega
      simp only [written, tagged]
      refine ⟨Outcome.returns_ok _, wellFormed, ?_, ?_⟩
      · have size := back ciphertext kept
        rw [segmentPayloadOffset_eq] at size ⊢
        rw [length_writeBack (by omega), size, length]
      · intro length' same
        cases same
        exact ⟨required, by omega, fits⟩
    · rw [regionLength] at kept
      simp only [written]
      refine SealEffect.of_error wellFormed ?_
      rw [back failed kept, length]
  · simp only [encryptSegmentInPlaceInner, started]
    exact SealEffect.of_error wellFormed length

/-! ### Framing -/

/-- What `begin_segment_encryption` leaves is framed as the segment to be. -/
theorem beginSegmentEncryption_framed
    {output left : Bytes}
    {plaintextLength : Nat}
    {inputs : SealInputs}
    {nextKeys : KeyCache}
    {nextNonces : NonceGenerator}
    (started :
      beginSegmentEncryption platform context keys nonces output
          plaintextLength position kind =
        (.ok inputs, nextKeys, nextNonces, left)) :
    framingOf context.parameters left =
      some ⟨inputs.required, plaintextLength, kind⟩ := by
  unfold beginSegmentEncryption at started
  cases admitted :
      ciphertextSegmentSize platform context plaintextLength kind with
  | error stop =>
      simp only [admitted, Prod.mk.injEq, reduceCtorEq, false_and] at started
  | ok required =>
      simp only [admitted] at started
      split at started
      · simp only [Prod.mk.injEq, reduceCtorEq, false_and] at started
      rcases framed : writeSegmentFraming nonces output kind required with
        ⟨stop | nonce, next, written⟩
      · simp only [framed, Prod.mk.injEq, reduceCtorEq, false_and] at started
      simp only [framed] at started
      rcases found : keys.keyForPosition platform context position with
        ⟨stop | key, later⟩
      · simp only [found, Prod.mk.injEq, reduceCtorEq, false_and] at started
      simp only [found, Prod.mk.injEq, Except.ok.injEq] at started
      obtain ⟨rfl, _, _, rfl⟩ := started
      exact (framingOf_writeSegmentFraming admitted framed).1

/-- A part of the storage behind the prefix does not change the framing. -/
theorem framingOf_writeBack
    {parameters : Parameters}
    {stream chunk : Bytes}
    {framing : SegmentFraming}
    {start : Nat}
    (framed : framingOf parameters stream = some framing)
    (inside : start ≤ stream.length)
    (behind : segmentPrefixLength ≤ start) :
    framingOf parameters (writeBack stream start chunk) = some framing :=
  (framingOf_congr (take_writeBack inside behind)).trans framed

/-- A segment sealed into an output is framed. -/
theorem encryptSegmentIntoInner_framed
    (plaintext output : Bytes)
    (served : nonces.WellFormed)
    {length : Nat}
    (written :
      (encryptSegmentIntoInner platform context keys nonces plaintext
        position kind output).1 = .ok length) :
    framingOf context.parameters
        (encryptSegmentIntoInner platform context keys nonces plaintext
          position kind output).2.2.2 =
      some ⟨length, plaintext.length, kind⟩ := by
  unfold encryptSegmentIntoInner at written ⊢
  obtain ⟨nextKeys, nextNonces, left, _, kept,
      ⟨inputs, started, required, room, _⟩ | ⟨error, started⟩⟩ :=
    beginSegmentEncryption_cases platform context keys position kind output
      plaintext.length served
  · have framed := beginSegmentEncryption_framed platform context keys
      position kind started
    simp only [started] at written ⊢
    rcases region : (slice left segmentPayloadOffset inputs.required :
        Result Bytes) with stop | payload
    · simp only [region, reduceCtorEq] at written
    simp only [region] at written ⊢
    rcases sealed : inputs.key.sealInto platform inputs.nonce inputs.aad
        plaintext payload with ⟨stop | _, after⟩
    · simp only [sealed, reduceCtorEq] at written
    simp only [sealed, Except.ok.injEq] at written ⊢
    subst written
    exact framingOf_writeBack framed
      (by rw [segmentPayloadOffset_eq]; omega) (by decide)
  · simp only [started, reduceCtorEq] at written

/-- A segment sealed where its plaintext stands is framed. -/
theorem encryptSegmentInPlaceInner_framed
    (buffer : Bytes)
    (plaintextLength : Nat)
    (served : nonces.WellFormed)
    {length : Nat}
    (written :
      (encryptSegmentInPlaceInner platform context keys nonces buffer
        plaintextLength position kind).1 = .ok length) :
    framingOf context.parameters
        (encryptSegmentInPlaceInner platform context keys nonces buffer
          plaintextLength position kind).2.2.2 =
      some ⟨length, plaintextLength, kind⟩ := by
  unfold encryptSegmentInPlaceInner at written ⊢
  obtain ⟨nextKeys, nextNonces, left, _, kept,
      ⟨inputs, started, required, room, _⟩ | ⟨error, started⟩⟩ :=
    beginSegmentEncryption_cases platform context keys position kind buffer
      plaintextLength served
  · have framed := beginSegmentEncryption_framed platform context keys
      position kind started
    simp only [started] at written ⊢
    rcases region : (slice left segmentPayloadOffset
        (segmentPayloadOffset + plaintextLength) : Result Bytes) with
      stop | payload
    · simp only [region, reduceCtorEq] at written
    simp only [region] at written ⊢
    rcases sealed : inputs.key.sealInPlace platform inputs.nonce inputs.aad
        payload with ⟨stop | tag, after⟩
    · simp only [sealed, reduceCtorEq] at written
    simp only [sealed] at written ⊢
    rcases tagged : (copyRange (writeBack left segmentPayloadOffset after)
        (segmentPayloadOffset + plaintextLength) inputs.required tag.val :
        Result Bytes) with stop | finished
    · simp only [tagged, reduceCtorEq] at written
    simp only [tagged, Except.ok.injEq] at written ⊢
    subst written
    obtain ⟨ordered, inside, _, rfl⟩ := copyRange_eq_ok tagged
    have sealedFraming :=
      @framingOf_writeBack _ _ after _ _ framed
        (show segmentPayloadOffset ≤ left.length by
          rw [segmentPayloadOffset_eq]
          omega) (by decide)
    exact framingOf_writeBack sealedFraming (by omega)
      (Nat.le_trans (by decide) (Nat.le_add_right _ _))
  · simp only [started, reduceCtorEq] at written

end Sealing

/-! ## Decryption -/

/-- The effect of opening a segment where it stands. -/
structure OpenEffect (segment : Bytes) (outcome : Result Bytes) : Prop where
  returns : outcome.Returns
  opened :
    ∀ plaintext, outcome = .ok plaintext →
      plaintext.length + 32 = segment.length

section Opening

variable (platform : Platform) (state : DecryptionState)
  (segment : Bytes) (position : Nat) (kind : SegmentKind)

/-- A segment of the declared length is split inside its storage. -/
theorem openSegmentInPlace_effect
    {plaintextLength : Nat}
    (size : segment.length = plaintextLength + 32) :
    OpenEffect segment
      (openSegmentInPlace platform state.context state.keys segment position
        kind plaintextLength).1 := by
  obtain ⟨parts, cut, length, _⟩ :=
    segmentParts_of_length (show 32 ≤ segment.length by omega)
  rcases openSegmentInPlace_cases platform state.context state.keys
      position kind size cut with
    ⟨error, next, _, result⟩ |
      ⟨key, next, _, ⟨region, opened, result⟩ | ⟨error, region, _, result⟩⟩
  · rw [result]
    exact ⟨Outcome.returns_err _, fun _ impossible => by cases impossible⟩
  · have kept := key.length_openInPlace platform parts.nonce
      (segmentAad position kind) parts.ciphertext parts.tag
    rw [opened] at kept
    simp only at kept
    rw [result]
    refine ⟨Outcome.returns_ok _, ?_⟩
    intro plaintext same
    cases same
    omega
  · rw [result]
    exact ⟨Outcome.returns_err _, fun _ impossible => by cases impossible⟩

/-- Opening into an output always comes back: a short output is refused, and
the segment is sliced inside its storage. -/
theorem DecryptionState.openInto_returns
    {plaintextLength : Nat}
    (output : Bytes)
    (size : segment.length = plaintextLength + 32) :
    (state.openInto platform segment position kind plaintextLength
      output).1.Returns := by
  by_cases room : plaintextLength ≤ output.length
  · obtain ⟨parts, cut, _⟩ :=
      segmentParts_of_length (show 32 ≤ segment.length by omega)
    rcases decryptSegmentIntoInner_cases platform state.context state.keys
        position kind size cut room with
      ⟨error, next, _, result⟩ |
        ⟨key, next, _, ⟨region, _, result⟩ | ⟨error, region, _, result⟩⟩
    · simp only [openInto, result]
      exact Outcome.returns_err _
    · simp only [openInto, result]
      exact Outcome.returns_ok _
    · simp only [openInto, result]
      exact Outcome.returns_err _
  · simp only [openInto, decryptSegmentIntoInner, Nat.lt_of_not_le room,
      ↓reduceIte]
    exact Outcome.returns_err _

theorem DecryptionState.openVec_returns
    {plaintextLength : Nat}
    (size : segment.length = plaintextLength + 32) :
    (state.openVec platform segment position kind
      plaintextLength).1.Returns := by
  have returns := state.openInto_returns platform segment position kind
    (zeros plaintextLength) size
  unfold openVec
  rcases opened : state.openInto platform segment position kind
      plaintextLength (zeros plaintextLength) with
    ⟨stop | _, next, left⟩
  · rw [opened] at returns
    exact returns.of_error
  · exact Outcome.returns_ok _

/-- Validation gives a length that the segment has. -/
theorem validateSegment_cases
    (context : MessageContext) :
    (∃ plaintextLength,
        validateSegment context segment kind = .ok plaintextLength ∧
          segment.length = plaintextLength + 32) ∨
      ∃ error,
        validateSegment context segment kind = .error (.err error) := by
  rcases validateSegment_spec context segment kind with
    ⟨framed, validated⟩ | ⟨_, refused⟩
  · have enough := framed.length_bounds.1
    exact .inl ⟨_, validated, by omega⟩
  · exact .inr refused

theorem DecryptionState.decryptSegmentAt_returns :
    (state.decryptSegmentAt platform segment position kind).1.Returns := by
  rcases validateSegment_cases segment kind state.context with
    ⟨plaintextLength, validated, size⟩ | ⟨error, refused⟩
  · simp only [decryptSegmentAt, validated]
    exact state.openVec_returns platform segment position kind size
  · simp only [decryptSegmentAt, refused]
    exact Outcome.returns_err _

theorem DecryptionState.decryptSegmentIntoAt_returns
    (output : Bytes) :
    (state.decryptSegmentIntoAt platform segment position kind
      output).1.Returns := by
  rcases validateSegment_cases segment kind state.context with
    ⟨plaintextLength, validated, size⟩ | ⟨error, refused⟩
  · simp only [decryptSegmentIntoAt, validated]
    exact state.openInto_returns platform segment position kind output size
  · simp only [decryptSegmentIntoAt, refused]
    exact Outcome.returns_err _

theorem DecryptionState.decryptSegmentInPlaceRawAt_effect :
    OpenEffect segment
      (state.decryptSegmentInPlaceRawAt platform segment position
        kind).1 := by
  rcases validateSegment_cases segment kind state.context with
    ⟨plaintextLength, validated, size⟩ | ⟨error, refused⟩
  · simp only [decryptSegmentInPlaceRawAt, decryptSegmentInPlaceInner,
      validated]
    exact openSegmentInPlace_effect platform state segment position kind size
  · simp only [decryptSegmentInPlaceRawAt, decryptSegmentInPlaceInner,
      refused]
    exact ⟨Outcome.returns_err _, fun _ impossible => by cases impossible⟩

/-! ### Framed operations -/

/-- A decoded framing gives the length of the segment it is checked against. -/
theorem validateFramedLength_cases
    {parameters : Parameters}
    {framing : SegmentFraming}
    (valid : framing.Valid parameters)
    (actual : Nat) :
    (∃ plaintextLength,
        validateFramedLength actual framing = .ok plaintextLength ∧
          actual = plaintextLength + 32) ∨
      ∃ error,
        validateFramedLength actual framing = .error (.err error) := by
  by_cases exact : actual = framing.ciphertextLength
  · exact .inl ⟨_, validateFramedLength_of_eq exact,
      exact.trans valid.payload.symm⟩
  · exact .inr ⟨_, validateFramedLength_of_ne exact⟩

variable {parameters : Parameters} {framing : SegmentFraming}

theorem DecryptionState.decryptSegmentAtFramed_returns
    (valid : framing.Valid parameters) :
    (state.decryptSegmentAtFramed platform segment position
      framing).1.Returns := by
  rcases validateFramedLength_cases valid segment.length with
    ⟨plaintextLength, validated, size⟩ | ⟨error, refused⟩
  · simp only [decryptSegmentAtFramed, validated]
    exact state.openVec_returns platform segment position framing.kind size
  · simp only [decryptSegmentAtFramed, refused]
    exact Outcome.returns_err _

theorem DecryptionState.decryptSegmentIntoAtFramed_returns
    (output : Bytes)
    (valid : framing.Valid parameters) :
    (state.decryptSegmentIntoAtFramed platform segment position framing
      output).1.Returns := by
  rcases validateFramedLength_cases valid segment.length with
    ⟨plaintextLength, validated, size⟩ | ⟨error, refused⟩
  · simp only [decryptSegmentIntoAtFramed, validated]
    exact state.openInto_returns platform segment position framing.kind
      output size
  · simp only [decryptSegmentIntoAtFramed, refused]
    exact Outcome.returns_err _

end Opening

end FastFloe
