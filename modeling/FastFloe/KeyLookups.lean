import FastFloe.DecryptionPaths

namespace FastFloe

open Rust

/-!
# Decryption looks one key up

An operation of a `DecryptionState` looks at its state through the message
context and at most one key lookup, and leaves the cache that the lookup left.
So coherent states of one message answer alike, whatever their caches hold, and
stay coherent.
-/

/-- Coherent caches of one message look the same key up. -/
theorem KeyCache.keyForPosition_congr
    {platform : Platform}
    {context : MessageContext}
    {first second : KeyCache}
    (firstCoherent : first.Coherent platform context)
    (secondCoherent : second.Coherent platform context)
    (position : Nat) :
    (first.keyForPosition platform context position).1 =
      (second.keyForPosition platform context position).1 := by
  have looked {keys : KeyCache} (coherent : keys.Coherent platform context)
      (inside : ¬ position ≥ aeadMaxSegments) :
      (keys.keyForPosition platform context position).1 =
        (CachedKey.derive platform context
          (context.parameters.maskedPosition position)).map
          CachedKey.key := by
    unfold KeyCache.keyForPosition
    simp only [inside, ↓reduceIte]
    cases held : keys.cachedKey with
    | none =>
        simp only [↓reduceIte]
        cases CachedKey.derive platform context
            (context.parameters.maskedPosition position) with
        | ok cached => rfl
        | error stop => rfl
    | some entry =>
        by_cases same : entry.maskedPosition =
            context.parameters.maskedPosition position
        · have derived := coherent entry held
          rw [same] at derived
          simp only [same, ne_eq, not_true_eq_false, decide_false,
            Bool.false_eq_true, ↓reduceIte, derived, Option.map_some,
            Outcome.expect]
          rfl
        · simp only [ne_eq, same, not_false_eq_true, decide_true,
            ↓reduceIte]
          cases CachedKey.derive platform context
              (context.parameters.maskedPosition position) with
          | ok cached => rfl
          | error stop => rfl
  by_cases outside : position ≥ aeadMaxSegments
  · simp only [KeyCache.keyForPosition, outside, ↓reduceIte]
  · rw [looked firstCoherent outside, looked secondCoherent outside]

/-- A lookup leaves the cache coherent, also when the derivation fails. -/
theorem KeyCache.keyForPosition_coherent
    {platform : Platform}
    {faulty : Kdf}
    {context : MessageContext}
    {keys : KeyCache}
    (sound : faulty.FaultOf platform.kdfExpand)
    (coherent : keys.Coherent platform context)
    (position : Nat) :
    (keys.keyForPosition (platform.withKdf faulty) context
      position).2.Coherent platform context := by
  obtain ⟨next, nextCoherent, ⟨_, _, result⟩ | ⟨_, _, result⟩⟩ :=
    KeyCache.keyForPosition_spec sound coherent position
  · rw [result]
    exact nextCoherent
  · rw [result]
    exact nextCoherent

/-! ## Operations with one lookup -/

/-- The operation answers without looking a key up, or its answer is a function
of the key looked up for one position. -/
def OneLookup {ρ : Type} (platform : Platform) (context : MessageContext)
    (operation : DecryptionState → ρ × DecryptionState) : Prop :=
  (∃ answer, ∀ keys,
      operation ⟨context, keys⟩ = (answer, ⟨context, keys⟩)) ∨
    ∃ (position : Nat) (answer : Result AeadKey → ρ), ∀ keys : KeyCache,
      operation ⟨context, keys⟩ =
        (answer (keys.keyForPosition platform context position).1,
          ⟨context, (keys.keyForPosition platform context position).2⟩)

namespace OneLookup

variable {ρ τ : Type} {platform : Platform} {faulty : Kdf}
  {context : MessageContext}

theorem of_answer
    {operation : DecryptionState → ρ × DecryptionState}
    (answer : ρ)
    (same : ∀ keys,
      operation ⟨context, keys⟩ = (answer, ⟨context, keys⟩)) :
    OneLookup platform context operation :=
  .inl ⟨answer, same⟩

/-- What an operation does to its answer afterwards is a part of it. -/
theorem map
    {operation : DecryptionState → ρ × DecryptionState}
    {other : DecryptionState → τ × DecryptionState}
    (lookup : OneLookup platform context operation)
    (change : ρ → τ)
    (same : ∀ keys,
      other ⟨context, keys⟩ =
        (change (operation ⟨context, keys⟩).1,
          (operation ⟨context, keys⟩).2)) :
    OneLookup platform context other := by
  rcases lookup with ⟨answer, constant⟩ | ⟨position, answer, looked⟩
  · refine .inl ⟨change answer, fun keys => ?_⟩
    rw [same, constant]
  · refine .inr ⟨position, fun found => change (answer found),
      fun keys => ?_⟩
    rw [same, looked]

/-- An operation with one lookup keeps its state ready. -/
theorem ready
    {operation : DecryptionState → ρ × DecryptionState}
    {state : DecryptionState}
    (lookup : OneLookup (platform.withKdf faulty) context operation)
    (sound : faulty.FaultOf platform.kdfExpand)
    (ready : state.Ready platform context) :
    (operation state).2.Ready platform context := by
  obtain ⟨rfl, coherent⟩ := ready
  rcases lookup with ⟨answer, constant⟩ | ⟨position, answer, looked⟩
  · rw [constant state.keys]
    exact ⟨rfl, coherent⟩
  · rw [looked state.keys]
    exact ⟨rfl,
      KeyCache.keyForPosition_coherent sound coherent position⟩

/-- An operation with one lookup answers alike on ready states of one
message. -/
theorem congr
    {operation : DecryptionState → ρ × DecryptionState}
    {first second : DecryptionState}
    (lookup : OneLookup platform context operation)
    (firstReady : first.Ready platform context)
    (secondReady : second.Ready platform context) :
    (operation first).1 = (operation second).1 := by
  obtain ⟨rfl, firstCoherent⟩ := firstReady
  obtain ⟨sameContext, secondCoherent⟩ := secondReady
  obtain ⟨context, firstKeys⟩ := first
  obtain ⟨other, secondKeys⟩ := second
  simp only at sameContext firstCoherent secondCoherent
  subst sameContext
  rcases lookup with ⟨answer, constant⟩ | ⟨position, answer, looked⟩
  · rw [constant, constant]
  · rw [looked, looked,
      KeyCache.keyForPosition_congr firstCoherent secondCoherent]

end OneLookup

/-! ## The operations of a decryption state -/

/-- What `decrypt_segment_into_inner` does with the key it looked up. -/
def openIntoWith (platform : Platform) (ciphertextSegment : Bytes)
    (position : Nat) (kind : SegmentKind) (plaintextLength : Nat)
    (output : Bytes) : Result AeadKey → Result Nat × Bytes
  | .error stop =>
      (.error stop, output)
  | .ok key =>
      match splitForOpen ciphertextSegment with
      | .error stop =>
          (.error stop, output)
      | .ok (nonce, ciphertext, tag) =>
          match (slice output 0 plaintextLength : Result Bytes) with
          | .error stop =>
              (.error stop, output)
          | .ok region =>
              match key.openInto platform nonce (segmentAad position kind)
                  ciphertext tag region with
              | (.error stop, region) =>
                  (.error stop, writeBack output 0 region)
              | (.ok (), region) =>
                  (.ok plaintextLength, writeBack output 0 region)

/-- What `open_segment_in_place` does with the key it looked up. -/
def openInPlaceWith (platform : Platform) (ciphertextSegment : Bytes)
    (position : Nat) (kind : SegmentKind) (plaintextLength : Nat) :
    Result AeadKey → Result Bytes × Bytes
  | .error stop =>
      (.error stop, ciphertextSegment)
  | .ok key =>
      match splitForOpenInPlace ciphertextSegment plaintextLength with
      | .error stop =>
          (.error stop, ciphertextSegment)
      | .ok (nonce, ciphertext, tag) =>
          match key.openInPlace platform nonce (segmentAad position kind) tag
              ciphertext with
          | (.error stop, ciphertext) =>
              (.error stop, writeBack ciphertextSegment segmentPayloadOffset
                ciphertext)
          | (.ok (), ciphertext) =>
              (.ok ciphertext, writeBack ciphertextSegment
                segmentPayloadOffset ciphertext)

section Operations

variable (platform : Platform) (context : MessageContext)
  (segment : Bytes) (position : Nat) (kind : SegmentKind)

/-- `decrypt_segment_into_inner` with room in its output looks one key up. -/
theorem decryptSegmentIntoInner_eq
    {plaintextLength : Nat}
    {output : Bytes}
    (room : ¬ output.length < plaintextLength)
    (keys : KeyCache) :
    decryptSegmentIntoInner platform context keys segment position kind
        plaintextLength output =
      ((openIntoWith platform segment position kind plaintextLength output
          (keys.keyForPosition platform context position).1).1,
        (keys.keyForPosition platform context position).2,
        (openIntoWith platform segment position kind plaintextLength output
          (keys.keyForPosition platform context position).1).2) := by
  simp only [decryptSegmentIntoInner, room, ↓reduceIte]
  cases keys.keyForPosition platform context position with
  | mk found next =>
      cases found with
      | error stop => rfl
      | ok key =>
          simp only [openIntoWith]
          cases splitForOpen segment with
          | error stop => rfl
          | ok pieces =>
              simp only
              cases (slice output 0 plaintextLength : Result Bytes) with
              | error stop => rfl
              | ok region =>
                  simp only
                  cases key.openInto platform pieces.1
                      (segmentAad position kind) pieces.2.1 pieces.2.2
                      region with
                  | mk opened left =>
                      cases opened with
                      | error stop => rfl
                      | ok _ => rfl

/-- `open_segment_in_place` looks one key up. -/
theorem openSegmentInPlace_eq
    (plaintextLength : Nat)
    (keys : KeyCache) :
    openSegmentInPlace platform context keys segment position kind
        plaintextLength =
      ((openInPlaceWith platform segment position kind plaintextLength
          (keys.keyForPosition platform context position).1).1,
        (keys.keyForPosition platform context position).2,
        (openInPlaceWith platform segment position kind plaintextLength
          (keys.keyForPosition platform context position).1).2) := by
  simp only [openSegmentInPlace]
  cases keys.keyForPosition platform context position with
  | mk found next =>
      cases found with
      | error stop => rfl
      | ok key =>
          simp only [openInPlaceWith]
          cases splitForOpenInPlace segment plaintextLength with
          | error stop => rfl
          | ok pieces =>
              simp only
              cases key.openInPlace platform pieces.1
                  (segmentAad position kind) pieces.2.2 pieces.2.1 with
              | mk opened left =>
                  cases opened with
                  | error stop => rfl
                  | ok _ => rfl

/-- Puts the state a call leaves behind what the caller sees of the call. -/
def seen {α ω : Type} (outcome : α × DecryptionState × ω) :
    (α × ω) × DecryptionState :=
  ((outcome.1, outcome.2.2), outcome.2.1)

namespace DecryptionState

theorem openInto_oneLookup
    (plaintextLength : Nat)
    (output : Bytes) :
    OneLookup platform context fun state =>
      seen (state.openInto platform segment position kind plaintextLength
        output) := by
  by_cases room : output.length < plaintextLength
  · refine OneLookup.of_answer
      (.error (.err (.outputTooSmall output.length plaintextLength)), output)
      fun keys => ?_
    simp only [openInto, decryptSegmentIntoInner, room, ↓reduceIte, seen]
  · refine .inr ⟨position, openIntoWith platform segment position kind
      plaintextLength output, fun keys => ?_⟩
    simp only [openInto, seen,
      decryptSegmentIntoInner_eq platform context segment position kind room]

theorem openVec_oneLookup
    (plaintextLength : Nat) :
    OneLookup platform context fun state =>
      state.openVec platform segment position kind plaintextLength := by
  refine (openInto_oneLookup platform context segment position kind
    plaintextLength (zeros plaintextLength)).map
    (fun answer => answer.1.map fun _ => answer.2) fun keys => ?_
  simp only [openVec, seen]
  cases openInto platform ⟨context, keys⟩ segment position kind
      plaintextLength (zeros plaintextLength) with
  | mk result rest =>
      cases result with
      | error stop => rfl
      | ok written => rfl

theorem decryptSegmentAt_oneLookup :
    OneLookup platform context fun state =>
      state.decryptSegmentAt platform segment position kind := by
  cases validated : validateSegment context segment kind with
  | error stop =>
      exact OneLookup.of_answer (.error stop) fun keys => by
        simp only [decryptSegmentAt, validated]
  | ok plaintextLength =>
      refine (openVec_oneLookup platform context segment position kind
        plaintextLength).map id fun keys => ?_
      simp only [decryptSegmentAt, validated, id_eq]

theorem decryptSegmentIntoAt_oneLookup
    (output : Bytes) :
    OneLookup platform context fun state =>
      seen (state.decryptSegmentIntoAt platform segment position kind
        output) := by
  cases validated : validateSegment context segment kind with
  | error stop =>
      exact OneLookup.of_answer (.error stop, output) fun keys => by
        simp only [decryptSegmentIntoAt, validated, seen]
  | ok plaintextLength =>
      refine (openInto_oneLookup platform context segment position kind
        plaintextLength output).map id fun keys => ?_
      simp only [decryptSegmentIntoAt, validated, id_eq]

theorem decryptSegmentInPlaceRawAt_oneLookup :
    OneLookup platform context fun state =>
      seen (state.decryptSegmentInPlaceRawAt platform segment position
        kind) := by
  cases validated : validateSegment context segment kind with
  | error stop =>
      exact OneLookup.of_answer (.error stop, segment) fun keys => by
        simp only [decryptSegmentInPlaceRawAt, decryptSegmentInPlaceInner,
          validated, seen]
  | ok plaintextLength =>
      refine .inr ⟨position, openInPlaceWith platform segment position kind
        plaintextLength, fun keys => ?_⟩
      simp only [decryptSegmentInPlaceRawAt, decryptSegmentInPlaceInner,
        validated, openSegmentInPlace_eq, seen]

theorem decryptSegmentAtFramed_oneLookup
    (framing : SegmentFraming) :
    OneLookup platform context fun state =>
      state.decryptSegmentAtFramed platform segment position framing := by
  cases validated : validateFramedLength segment.length framing with
  | error stop =>
      exact OneLookup.of_answer (.error stop) fun keys => by
        simp only [decryptSegmentAtFramed, validated]
  | ok plaintextLength =>
      refine (openVec_oneLookup platform context segment position
        framing.kind plaintextLength).map id fun keys => ?_
      simp only [decryptSegmentAtFramed, validated, id_eq]

theorem decryptSegmentIntoAtFramed_oneLookup
    (framing : SegmentFraming)
    (output : Bytes) :
    OneLookup platform context fun state =>
      seen (state.decryptSegmentIntoAtFramed platform segment position
        framing output) := by
  cases validated : validateFramedLength segment.length framing with
  | error stop =>
      exact OneLookup.of_answer (.error stop, output) fun keys => by
        simp only [decryptSegmentIntoAtFramed, validated, seen]
  | ok plaintextLength =>
      refine (openInto_oneLookup platform context segment position
        framing.kind plaintextLength output).map id fun keys => ?_
      simp only [decryptSegmentIntoAtFramed, validated, id_eq]

theorem decryptSegmentInPlaceAtFramed_oneLookup
    (buffer : SegmentBuffer)
    (framing : SegmentFraming) :
    OneLookup platform context fun state =>
      seen (state.decryptSegmentInPlaceAtFramed platform buffer position
        framing) := by
  by_cases matching : buffer.hasParameters context.parameters = true
  · cases prepared : (do
        let ciphertextLength ← buffer.ciphertextLength
        let plaintextLength ← validateFramedLength ciphertextLength framing
        let segment ← slice buffer.bytes 0 ciphertextLength
        .ok (segment, plaintextLength) : Result (Bytes × Nat)) with
    | error stop =>
        exact OneLookup.of_answer (.error stop, buffer) fun keys => by
          simp only [decryptSegmentInPlaceAtFramed, parameters, matching,
            not_true_eq_false, ↓reduceIte, prepared, seen]
    | ok pieces =>
        refine .inr ⟨position, fun found =>
          ((openInPlaceWith platform pieces.1 position framing.kind pieces.2
              found).1.map List.length,
            buffer.withRaw (writeBack buffer.bytes 0
              (openInPlaceWith platform pieces.1 position framing.kind
                pieces.2 found).2)), fun keys => ?_⟩
        simp only [decryptSegmentInPlaceAtFramed, parameters, matching,
          not_true_eq_false, ↓reduceIte, prepared, openSegmentInPlace_eq,
          seen]
  · exact OneLookup.of_answer (.error (.err .invalidParameters), buffer)
      fun keys => by
        simp only [decryptSegmentInPlaceAtFramed, parameters, matching,
          Bool.false_eq_true, not_false_eq_true, ↓reduceIte, seen]

end DecryptionState

end Operations

end FastFloe
