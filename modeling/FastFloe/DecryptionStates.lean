import FastFloe.SegmentStream

namespace FastFloe

open Rust

/-!
# Decryption states

A `DecryptionState` is its message context and a coherent key cache, so its
operations return what the segments open to at the positions they are given,
whatever was decrypted before and on which state of the message.
-/

/-- A decryption state of a message whose key cache is coherent. -/
structure DecryptionState.Ready (platform : Platform)
    (context : MessageContext) (state : DecryptionState) : Prop where
  context_eq : state.context = context
  coherent : state.keys.Coherent platform context

theorem DecryptionState.Ready.parameters_eq
    {platform : Platform}
    {context : MessageContext}
    {state : DecryptionState}
    (ready : state.Ready platform context) :
    state.parameters = context.parameters := by
  rw [DecryptionState.parameters, ready.context_eq]

/-- A forked state is ready before its first call. -/
theorem SharedDecryptionContext.fork_ready
    (platform : Platform)
    (shared : SharedDecryptionContext) :
    shared.fork.Ready platform shared.context :=
  ⟨rfl, KeyCache.coherent_empty platform shared.context⟩

section Operations

variable {platform : Platform} {faulty : Kdf} {context : MessageContext}
  {state : DecryptionState} {segment output : Bytes} {plaintextLength : Nat}
  (position : Nat) (kind : SegmentKind)

/-- Opening into an output, on a state. -/
theorem DecryptionState.openInto_spec
    (sound : faulty.FaultOf platform.kdfExpand)
    (ready : state.Ready platform context)
    (size : segment.length = plaintextLength + 32)
    (room : plaintextLength ≤ output.length)
    (faithful :
      platform.OpensAgree ∨
        output.take plaintextLength = zeros plaintextLength) :
    ∃ next, next.Ready platform context ∧
      ((∃ plaintext,
          context.openSegment platform position kind segment =
              some plaintext ∧
            state.openInto (platform.withKdf faulty) segment position kind
                plaintextLength output =
              (.ok plaintextLength, next,
                plaintext ++ output.drop plaintextLength)) ∨
        ∃ error failed,
          context.openSegment (platform.withKdf faulty) position kind
              segment = none ∧
            state.openInto (platform.withKdf faulty) segment position kind
                plaintextLength output =
              (.error (.err error), next, failed) ∧
            failed.length = output.length) := by
  obtain ⟨rfl, coherent⟩ := ready
  obtain ⟨next, nextCoherent, success | failure⟩ :=
    decryptSegmentIntoInner_spec position kind sound coherent size room
      faithful
  · obtain ⟨plaintext, opened, result⟩ := success
    exact ⟨{ state with keys := next }, ⟨rfl, nextCoherent⟩,
      .inl ⟨plaintext, opened, by simp only [openInto, result]⟩⟩
  · obtain ⟨error, failed, closed, result, length⟩ := failure
    exact ⟨{ state with keys := next }, ⟨rfl, nextCoherent⟩,
      .inr ⟨error, failed, closed, by simp only [openInto, result], length⟩⟩

/-- A validated segment is opened into an output that has room for it. -/
theorem DecryptionState.decryptSegmentIntoAt_spec
    (sound : faulty.FaultOf platform.kdfExpand)
    (ready : state.Ready platform context)
    (faithful :
      platform.OpensAgree ∨
        output.take (segment.length - 32) = zeros (segment.length - 32)) :
    ∃ next, next.Ready platform context ∧
      ((∃ plaintext,
          context.Opens platform position kind segment plaintext ∧
            plaintext.length ≤ output.length ∧
            state.decryptSegmentIntoAt (platform.withKdf faulty) segment
                position kind output =
              (.ok plaintext.length, next,
                plaintext ++ output.drop plaintext.length)) ∨
        ∃ error failed,
          (∀ plaintext,
            context.Opens (platform.withKdf faulty) position kind segment
                plaintext →
              output.length < plaintext.length) ∧
            state.decryptSegmentIntoAt (platform.withKdf faulty) segment
                position kind output =
              (.error (.err error), next, failed) ∧
            failed.length = output.length) := by
  rcases validateSegment_spec context segment kind with
    ⟨framed, validated⟩ | ⟨malformed, error, rejected⟩
  · have enough := framed.length_bounds.1
    have size : segment.length = segment.length - 32 + 32 := by omega
    have validated' := validated
    rw [← ready.context_eq] at validated'
    by_cases room : segment.length - 32 ≤ output.length
    · obtain ⟨next, nextReady, success | failure⟩ :=
        DecryptionState.openInto_spec position kind sound ready size room
          faithful
      · obtain ⟨plaintext, opened, result⟩ := success
        have length :=
          MessageContext.length_of_openSegment opened enough
        have exact : segment.length - 32 = plaintext.length := by omega
        rw [exact] at result validated' room
        refine ⟨next, nextReady,
          .inl ⟨plaintext, ⟨framed, opened⟩, room, ?_⟩⟩
        simp only [decryptSegmentIntoAt, validated', result]
      · obtain ⟨error, failed, closed, result, length⟩ := failure
        refine ⟨next, nextReady, .inr ⟨error, failed, ?_, ?_, length⟩⟩
        · intro plaintext opens
          have opened := opens.opened
          rw [closed] at opened
          cases opened
        · simp only [decryptSegmentIntoAt, validated', result]
    · refine ⟨state, ready, .inr
        ⟨.outputTooSmall output.length (segment.length - 32), output, ?_, ?_,
          rfl⟩⟩
      · intro plaintext opens
        have length := opens.length_eq
        omega
      · simp only [decryptSegmentIntoAt, validated', openInto,
          decryptSegmentIntoInner, Nat.lt_of_not_le room, ↓reduceIte]
  · rw [← ready.context_eq] at rejected
    refine ⟨state, ready, .inr ⟨error, output, ?_, ?_, rfl⟩⟩
    · intro plaintext opens
      exact (malformed opens.framed).elim
    · simp only [decryptSegmentIntoAt, rejected]

variable (segment) in
/-- A validated segment is opened into a fresh vector. -/
theorem DecryptionState.decryptSegmentAt_spec
    (sound : faulty.FaultOf platform.kdfExpand)
    (ready : state.Ready platform context) :
    ∃ next, next.Ready platform context ∧
      ((∃ plaintext,
          context.Opens platform position kind segment plaintext ∧
            state.decryptSegmentAt (platform.withKdf faulty) segment position
                kind = (.ok plaintext, next)) ∨
        ∃ error,
          (∀ plaintext,
            ¬ context.Opens (platform.withKdf faulty) position kind segment
                plaintext) ∧
            state.decryptSegmentAt (platform.withKdf faulty) segment position
                kind = (.error (.err error), next)) := by
  rcases validateSegment_spec context segment kind with
    ⟨framed, validated⟩ | ⟨malformed, error, rejected⟩
  · have enough := framed.length_bounds.1
    have size : segment.length = segment.length - 32 + 32 := by omega
    rw [← ready.context_eq] at validated
    have whole : (zeros (segment.length - 32)).take (segment.length - 32) =
        zeros (segment.length - 32) :=
      List.take_of_length_le (Nat.le_of_eq (length_zeros _))
    obtain ⟨next, nextReady, success | failure⟩ :=
      DecryptionState.openInto_spec position kind sound ready size
        (Nat.le_of_eq (length_zeros (segment.length - 32)).symm) (.inr whole)
    · obtain ⟨plaintext, opened, result⟩ := success
      refine ⟨next, nextReady, .inl ⟨plaintext, ⟨framed, opened⟩, ?_⟩⟩
      have exhausted :
          (zeros (segment.length - 32)).drop (segment.length - 32) = [] :=
        List.drop_eq_nil_of_le (Nat.le_of_eq (length_zeros _))
      simp only [decryptSegmentAt, validated, openVec, result, exhausted,
        List.append_nil]
    · obtain ⟨error, failed, closed, result, length⟩ := failure
      refine ⟨next, nextReady, .inr ⟨error, ?_, ?_⟩⟩
      · intro plaintext opens
        have opened := opens.opened
        rw [closed] at opened
        cases opened
      · simp only [decryptSegmentAt, validated, openVec, result]
  · rw [← ready.context_eq] at rejected
    refine ⟨state, ready, .inr ⟨error, ?_, ?_⟩⟩
    · intro plaintext opens
      exact malformed opens.framed
    · simp only [decryptSegmentAt, rejected]

variable (segment) in
/-- A validated segment is opened where it stands. -/
theorem DecryptionState.decryptSegmentInPlaceRawAt_spec
    (sound : faulty.FaultOf platform.kdfExpand)
    (agree : platform.OpensAgree)
    (ready : state.Ready platform context) :
    ∃ next, next.Ready platform context ∧
      ((∃ plaintext,
          context.Opens platform position kind segment plaintext ∧
            state.decryptSegmentInPlaceRawAt (platform.withKdf faulty)
                segment position kind =
              (.ok plaintext, next,
                writeBack segment segmentPayloadOffset plaintext)) ∨
        ∃ error failed,
          (∀ plaintext,
            ¬ context.Opens (platform.withKdf faulty) position kind segment
                plaintext) ∧
            state.decryptSegmentInPlaceRawAt (platform.withKdf faulty)
                segment position kind =
              (.error (.err error), next, failed) ∧
            failed.length = segment.length) := by
  obtain ⟨rfl, coherent⟩ := ready
  rcases validateSegment_spec state.context segment kind with
    ⟨framed, validated⟩ | ⟨malformed, error, rejected⟩
  · have enough := framed.length_bounds.1
    have size : segment.length = segment.length - 32 + 32 := by omega
    obtain ⟨next, nextCoherent, success | failure⟩ :=
      openSegmentInPlace_spec position kind sound agree coherent size
    · obtain ⟨plaintext, opened, result⟩ := success
      refine ⟨{ state with keys := next }, ⟨rfl, nextCoherent⟩,
        .inl ⟨plaintext, ⟨framed, opened⟩, ?_⟩⟩
      simp only [decryptSegmentInPlaceRawAt, decryptSegmentInPlaceInner,
        validated, result]
    · obtain ⟨error, failed, closed, result, length⟩ := failure
      refine ⟨{ state with keys := next }, ⟨rfl, nextCoherent⟩,
        .inr ⟨error, failed, ?_, ?_, length⟩⟩
      · intro plaintext opens
        have opened := opens.opened
        rw [closed] at opened
        cases opened
      · simp only [decryptSegmentInPlaceRawAt, decryptSegmentInPlaceInner,
          validated, result]
  · refine ⟨state, ⟨rfl, coherent⟩, .inr ⟨error, segment, ?_, ?_, rfl⟩⟩
    · intro plaintext opens
      exact malformed opens.framed
    · simp only [decryptSegmentInPlaceRawAt, decryptSegmentInPlaceInner,
        rejected]

end Operations

/-! ## Operations on a layout -/

/-- The layout is of this message and describes a segment of this length. -/
def LayoutFits (context : MessageContext) (layout : SegmentLayout)
    (length : Nat) : Prop :=
  layout.parameters = context.parameters ∧ length = layout.ciphertextLength

theorem DecryptionState.Ready.validateCiphertextLayout_spec
    {platform : Platform}
    {context : MessageContext}
    {state : DecryptionState}
    (ready : state.Ready platform context)
    (length : Nat)
    (layout : SegmentLayout) :
    (LayoutFits context layout length ∧
        state.validateCiphertextLayout length layout = .ok ()) ∨
      (¬ LayoutFits context layout length ∧
        ∃ error, state.validateCiphertextLayout length layout =
          .error (.err error)) := by
  simp only [LayoutFits, DecryptionState.validateCiphertextLayout,
    validateLayout, ready.context_eq]
  by_cases parameters : layout.parameters = context.parameters
  · by_cases exact : length = layout.ciphertextLength
    · simp [parameters, exact]
    · simp [parameters, exact]
  · simp [parameters]

section Layouts

variable {platform : Platform} {faulty : Kdf} {context : MessageContext}
  {state : DecryptionState} {segment output : Bytes}
  {layout : SegmentLayout}

/-- `decrypt_segment_into`. -/
theorem DecryptionState.decryptSegmentInto_spec
    (sound : faulty.FaultOf platform.kdfExpand)
    (ready : state.Ready platform context)
    (faithful :
      platform.OpensAgree ∨
        output.take (segment.length - 32) = zeros (segment.length - 32)) :
    ∃ next, next.Ready platform context ∧
      ((∃ plaintext,
          LayoutFits context layout segment.length ∧
            context.Opens platform layout.position layout.kind segment
              plaintext ∧
            plaintext.length ≤ output.length ∧
            state.decryptSegmentInto (platform.withKdf faulty) segment layout
                output =
              (.ok plaintext.length, next,
                plaintext ++ output.drop plaintext.length)) ∨
        ∃ error failed,
          (LayoutFits context layout segment.length → ∀ plaintext,
            context.Opens (platform.withKdf faulty) layout.position
                layout.kind segment plaintext →
              output.length < plaintext.length) ∧
            state.decryptSegmentInto (platform.withKdf faulty) segment layout
                output =
              (.error (.err error), next, failed) ∧
            failed.length = output.length) := by
  rcases ready.validateCiphertextLayout_spec segment.length layout with
    ⟨fits, validated⟩ | ⟨foreign, error, rejected⟩
  · obtain ⟨next, nextReady, success | failure⟩ :=
      DecryptionState.decryptSegmentIntoAt_spec layout.position layout.kind
        sound ready faithful
    · obtain ⟨plaintext, opens, room, result⟩ := success
      exact ⟨next, nextReady, .inl ⟨plaintext, fits, opens, room, by
        simp only [decryptSegmentInto, validated, result]⟩⟩
    · obtain ⟨error, failed, closed, result, length⟩ := failure
      exact ⟨next, nextReady, .inr ⟨error, failed, fun _ => closed, by
        simp only [decryptSegmentInto, validated, result], length⟩⟩
  · refine ⟨state, ready, .inr ⟨error, output, ?_, ?_, rfl⟩⟩
    · intro fits
      exact (foreign fits).elim
    · simp only [decryptSegmentInto, rejected]

/-- `decrypt_segment`. -/
theorem DecryptionState.decryptSegment_spec
    (sound : faulty.FaultOf platform.kdfExpand)
    (ready : state.Ready platform context) :
    ∃ next, next.Ready platform context ∧
      ((∃ plaintext,
          LayoutFits context layout segment.length ∧
            context.Opens platform layout.position layout.kind segment
              plaintext ∧
            state.decryptSegment (platform.withKdf faulty) segment layout =
              (.ok plaintext, next)) ∨
        ∃ error,
          (LayoutFits context layout segment.length → ∀ plaintext,
            ¬ context.Opens (platform.withKdf faulty) layout.position
                layout.kind segment plaintext) ∧
            state.decryptSegment (platform.withKdf faulty) segment layout =
              (.error (.err error), next)) := by
  rcases ready.validateCiphertextLayout_spec segment.length layout with
    ⟨fits, validated⟩ | ⟨foreign, error, rejected⟩
  · obtain ⟨next, nextReady, success | failure⟩ :=
      DecryptionState.decryptSegmentAt_spec segment layout.position
        layout.kind sound ready
    · obtain ⟨plaintext, opens, result⟩ := success
      exact ⟨next, nextReady, .inl ⟨plaintext, fits, opens, by
        simp only [decryptSegment, validated, result]⟩⟩
    · obtain ⟨error, closed, result⟩ := failure
      exact ⟨next, nextReady, .inr ⟨error, fun _ => closed, by
        simp only [decryptSegment, validated, result]⟩⟩
  · refine ⟨state, ready, .inr ⟨error, ?_, ?_⟩⟩
    · intro fits
      exact (foreign fits).elim
    · simp only [decryptSegment, rejected]

/-- `decrypt_segment_in_place_raw` on a slice that starts with the segment. -/
theorem DecryptionState.decryptSegmentInPlaceRaw_spec
    {ciphertext : Bytes}
    (sound : faulty.FaultOf platform.kdfExpand)
    (agree : platform.OpensAgree)
    (ready : state.Ready platform context) :
    ∃ next, next.Ready platform context ∧
      ((∃ plaintext,
          layout.parameters = context.parameters ∧
            layout.ciphertextLength ≤ ciphertext.length ∧
            context.Opens platform layout.position layout.kind
              (ciphertext.take layout.ciphertextLength) plaintext ∧
            state.decryptSegmentInPlaceRaw (platform.withKdf faulty)
                ciphertext layout =
              (.ok plaintext, next, writeBack ciphertext 0
                (writeBack (ciphertext.take layout.ciphertextLength)
                  segmentPayloadOffset plaintext))) ∨
        ∃ error failed,
          (layout.parameters = context.parameters →
            layout.ciphertextLength ≤ ciphertext.length → ∀ plaintext,
            ¬ context.Opens (platform.withKdf faulty) layout.position
                layout.kind (ciphertext.take layout.ciphertextLength)
                plaintext) ∧
            state.decryptSegmentInPlaceRaw (platform.withKdf faulty)
                ciphertext layout = (.error (.err error), next, failed) ∧
            failed.length = ciphertext.length) := by
  by_cases parameters : layout.parameters = context.parameters
  · by_cases room : layout.ciphertextLength ≤ ciphertext.length
    · have region :
          (slice ciphertext 0 layout.ciphertextLength : Result Bytes) =
            .ok (ciphertext.take layout.ciphertextLength) :=
        slice_zero room
      obtain ⟨next, nextReady, success | failure⟩ :=
        DecryptionState.decryptSegmentInPlaceRawAt_spec
          (ciphertext.take layout.ciphertextLength) layout.position
          layout.kind sound agree ready
      · obtain ⟨plaintext, opens, result⟩ := success
        refine ⟨next, nextReady,
          .inl ⟨plaintext, parameters, room, opens, ?_⟩⟩
        simp only [decryptSegmentInPlaceRaw, validateLayout, ready.context_eq,
          parameters, ↓reduceIte, Nat.not_lt.mpr room, region, result]
      · obtain ⟨error, failed, closed, result, length⟩ := failure
        refine ⟨next, nextReady, .inr ⟨error, writeBack ciphertext 0 failed,
          fun _ _ => closed, ?_, ?_⟩⟩
        · simp only [decryptSegmentInPlaceRaw, validateLayout,
            ready.context_eq, parameters, ↓reduceIte, Nat.not_lt.mpr room,
            region, result]
        · refine length_writeBack ?_
          rw [length, List.length_take]
          omega
    · refine ⟨state, ready, .inr ⟨.invalidCiphertextLength ciphertext.length
        (.atLeast layout.ciphertextLength), ciphertext, ?_, ?_, rfl⟩⟩
      · intro _ impossible
        exact (room impossible).elim
      · simp only [decryptSegmentInPlaceRaw, validateLayout,
          ready.context_eq, parameters, ↓reduceIte, Nat.lt_of_not_le room]
  · refine ⟨state, ready, .inr ⟨.invalidParameters, ciphertext, ?_, ?_, rfl⟩⟩
    · intro impossible
      exact (parameters impossible).elim
    · simp only [decryptSegmentInPlaceRaw, validateLayout, ready.context_eq,
        parameters, ↓reduceIte]

/-- `decrypt_segment_in_place` on a buffer that holds the segment. -/
theorem DecryptionState.decryptSegmentInPlace_spec
    {buffer : SegmentBuffer}
    (sound : faulty.FaultOf platform.kdfExpand)
    (agree : platform.OpensAgree)
    (ready : state.Ready platform context)
    (holds : buffer.HoldsCiphertext segment) :
    ∃ next, next.Ready platform context ∧
      ((∃ plaintext opened,
          LayoutFits context layout segment.length ∧
            buffer.parameters = context.parameters ∧
            context.Opens platform layout.position layout.kind segment
              plaintext ∧
            state.decryptSegmentInPlace (platform.withKdf faulty) buffer
                layout = (.ok plaintext, opened, next) ∧
            opened.HoldsPlaintext plaintext ∧
            opened.parameters = buffer.parameters) ∨
        ∃ error failed,
          (LayoutFits context layout segment.length →
            buffer.parameters = context.parameters → ∀ plaintext,
            ¬ context.Opens (platform.withKdf faulty) layout.position
                layout.kind segment plaintext) ∧
            state.decryptSegmentInPlace (platform.withKdf faulty) buffer
                layout = (.error (.err error), failed, next) ∧
            failed.Sized ∧ failed.parameters = buffer.parameters) := by
  have region :
      (slice buffer.bytes 0 segment.length : Result Bytes) = .ok segment := by
    rw [slice_zero holds.length_le, holds.content]
  rcases ready.validateCiphertextLayout_spec segment.length layout with
    ⟨fits, validated⟩ | ⟨foreign, error, rejected⟩
  · by_cases parameters : buffer.parameters = context.parameters
    · have same : buffer.hasParameters state.parameters = true := by
        simp [SegmentBuffer.hasParameters, parameters, ready.parameters_eq]
      obtain ⟨next, nextReady, success | failure⟩ :=
        DecryptionState.decryptSegmentInPlaceRawAt_spec segment
          layout.position layout.kind sound agree ready
      · obtain ⟨plaintext, opens, result⟩ := success
        have opened := holds.opened opens.length_eq
        refine ⟨next, nextReady, .inl
          ⟨plaintext, _, fits, parameters, opens, ?_, opened, rfl⟩⟩
        have sliced := opened.plaintext_eq
        simp only [SegmentBuffer.plaintext] at sliced
        simp only [decryptSegmentInPlace, SegmentBuffer.decryptWith,
          holds.ciphertextLength_eq, Outcome.ok_bind, validated, same,
          not_true_eq_false, ↓reduceIte, region, result, Except.map, sliced]
      · obtain ⟨error, failed, closed, result, length⟩ := failure
        refine ⟨next, nextReady, .inr ⟨error,
          (buffer.withRaw (writeBack buffer.bytes 0 failed)).clear,
          fun _ _ => closed, ?_, ?_, rfl⟩⟩
        · simp only [decryptSegmentInPlace, SegmentBuffer.decryptWith,
            holds.ciphertextLength_eq, Outcome.ok_bind, validated, same,
            not_true_eq_false, ↓reduceIte, region, result, Except.map]
        · refine SegmentBuffer.sized_clear (holds.sized.withRaw ?_)
          refine length_writeBack ?_
          have room := holds.length_le
          omega
    · have different : buffer.hasParameters state.parameters = false := by
        simp [SegmentBuffer.hasParameters, parameters, ready.parameters_eq]
      refine ⟨state, ready, .inr ⟨.invalidParameters, buffer.clear, ?_, ?_,
        SegmentBuffer.sized_clear holds.sized, rfl⟩⟩
      · intro _ impossible
        exact (parameters impossible).elim
      · simp only [decryptSegmentInPlace, SegmentBuffer.decryptWith,
          holds.ciphertextLength_eq, Outcome.ok_bind, validated, different,
          Bool.false_eq_true, not_false_eq_true, ↓reduceIte]
  · refine ⟨state, ready, .inr ⟨error, buffer.clear, ?_, ?_,
      SegmentBuffer.sized_clear holds.sized, rfl⟩⟩
    · intro fits
      exact (foreign fits).elim
    · simp only [decryptSegmentInPlace, SegmentBuffer.decryptWith,
        holds.ciphertextLength_eq, Outcome.ok_bind, rejected,
        Outcome.error_bind]

end Layouts

end FastFloe
