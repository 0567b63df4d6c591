import FastFloe.Sealing
import FastFloe.Decryptors

namespace FastFloe

open Rust

/-!
# The sequential encryptor takes encryption steps

An `Encryptor` that has emitted `position` non-final segments takes the next
encryption step at that position.  A failed call, also a failed final one,
leaves an encryptor at the same position; the step may have used up a nonce or
moved the key cache.
-/

namespace Encryptor

/-- An encryptor that has emitted `position` non-final segments. -/
structure At (platform : Platform) (context : MessageContext)
    (position : Nat) (encryptor : Encryptor) : Prop where
  ready : encryptor.state.Ready platform context
  counter : encryptor.counter = ⟨position, false⟩
  inside : position < aeadMaxSegments

section Advance

variable {platform : Platform} {context : MessageContext} {position : Nat}
  {encryptor : Encryptor} {α ω : Type} {borrowed : ω}
  {op : EncryptionState → ω → Nat → Result α × EncryptionState × ω}

/-- The encryptor after a successful non-final operation. -/
def stepped (encryptor : Encryptor) (state : EncryptionState) : Encryptor :=
  { encryptor with state, counter := encryptor.counter.complete .nonFinal }

theorem At.stepped
    {state : EncryptionState}
    (here : encryptor.At platform context position)
    (allowed : PositionAllows position .nonFinal)
    (ready : state.Ready platform context) :
    (encryptor.stepped state).At platform context (position + 1) :=
  ⟨ready, by simp [Encryptor.stepped, here.counter, SegmentCounter.complete],
    allowed⟩

/-- The encryptor after a failed operation. -/
theorem At.failed
    {state : EncryptionState}
    (here : encryptor.At platform context position)
    (ready : state.Ready platform context) :
    { encryptor with state }.At platform context position :=
  ⟨ready, here.counter, here.inside⟩

theorem At.advance_limit
    (here : encryptor.At platform context position)
    (refused : ¬ PositionAllows position .nonFinal) :
    encryptor.advance borrowed op =
      (.error (.err .segmentLimit), encryptor, borrowed) := by
  rcases SegmentCounter.positionFor_spec here.inside .nonFinal with
    ⟨allowed, _⟩ | ⟨_, limit⟩
  · exact (refused allowed).elim
  · simp only [advance, here.counter, limit]

theorem At.advance_ok
    {value : α}
    {state : EncryptionState}
    {written : ω}
    (here : encryptor.At platform context position)
    (allowed : PositionAllows position .nonFinal)
    (result :
      op encryptor.state borrowed position = (.ok value, state, written)) :
    encryptor.advance borrowed op =
      (.ok value, encryptor.stepped state, written) := by
  rcases SegmentCounter.positionFor_spec here.inside .nonFinal with
    ⟨_, reserved⟩ | ⟨refused, _⟩
  · simp only [advance, here.counter, reserved, result, Encryptor.stepped]
  · exact (refused allowed).elim

theorem At.advance_err
    {error : Error}
    {state : EncryptionState}
    {written : ω}
    (here : encryptor.At platform context position)
    (allowed : PositionAllows position .nonFinal)
    (result :
      op encryptor.state borrowed position =
        (.error (.err error), state, written)) :
    encryptor.advance borrowed op =
      (.error (.err error), { encryptor with state }, written) := by
  rcases SegmentCounter.positionFor_spec here.inside .nonFinal with
    ⟨_, reserved⟩ | ⟨refused, _⟩
  · simp only [advance, here.counter, reserved, result]
  · exact (refused allowed).elim

theorem At.finalize_ok
    {value : α}
    {state : EncryptionState}
    {written : ω}
    (here : encryptor.At platform context position)
    (result :
      op encryptor.state borrowed position = (.ok value, state, written)) :
    encryptor.finalize borrowed op = (.ok value, written) := by
  rcases SegmentCounter.positionFor_spec here.inside .final with
    ⟨_, reserved⟩ | ⟨refused, _⟩
  · simp only [finalize, here.counter, reserved, result, Outcome.mapErr]
  · exact (refused here.inside).elim

theorem At.finalize_err
    {error : Error}
    {state : EncryptionState}
    {written : ω}
    (here : encryptor.At platform context position)
    (result :
      op encryptor.state borrowed position =
        (.error (.err error), state, written)) :
    encryptor.finalize borrowed op =
      (.error (.err ⟨{ encryptor with state }, error⟩), written) := by
  rcases SegmentCounter.positionFor_spec here.inside .final with
    ⟨_, reserved⟩ | ⟨refused, _⟩
  · simp only [finalize, here.counter, reserved, result, Outcome.mapErr]
  · exact (refused here.inside).elim

end Advance

section Calls

variable {platform : Platform} {faulty : Kdf} {context : MessageContext}
  {position : Nat} {encryptor : Encryptor}

/-- `encrypt_non_final_segment_into`. -/
theorem At.encryptNonFinalSegmentInto_spec
    (plaintext output : Bytes)
    (sound : faulty.FaultOf platform.kdfExpand)
    (agree : platform.SealsAgree)
    (here : encryptor.At platform context position) :
    (∃ segment state,
        PositionAllows position .nonFinal ∧
          encryptor.state.sealNext (platform.withKdf faulty) plaintext
              position .nonFinal = (some segment, state) ∧
          segment.length = plaintext.length + 32 ∧
          segment.length ≤ output.length ∧
          state.Ready platform context ∧
          encryptor.encryptNonFinalSegmentInto (platform.withKdf faulty)
              plaintext output =
            (.ok segment.length, encryptor.stepped state,
              segment ++ output.drop segment.length)) ∨
      ∃ error state failed,
        (PositionAllows position .nonFinal →
          encryptor.state.FailsTo (platform.withKdf faulty) plaintext
            position .nonFinal output.length state) ∧
          state.Ready platform context ∧
          encryptor.encryptNonFinalSegmentInto (platform.withKdf faulty)
              plaintext output =
            (.error (.err error), { encryptor with state }, failed) ∧
          failed.length = output.length := by
  by_cases allowed : PositionAllows position .nonFinal
  · obtain ⟨state, ready, ⟨segment, step, length, room, result⟩ |
        ⟨error, failed, step, result, length⟩⟩ :=
      EncryptionState.encryptSegmentIntoAt_spec plaintext position .nonFinal
        output sound agree here.ready
    · exact .inl ⟨segment, state, allowed, step, length, room, ready,
        here.advance_ok allowed result⟩
    · exact .inr ⟨error, state, failed, fun _ => step, ready,
        here.advance_err allowed result, length⟩
  · exact .inr ⟨.segmentLimit, encryptor.state, output,
      fun impossible => (allowed impossible).elim, here.ready,
      here.advance_limit allowed, rfl⟩

/-- `encrypt_non_final_segment`. -/
theorem At.encryptNonFinalSegment_spec
    (plaintext : Bytes)
    (sound : faulty.FaultOf platform.kdfExpand)
    (agree : platform.SealsAgree)
    (here : encryptor.At platform context position) :
    (∃ segment state,
        PositionAllows position .nonFinal ∧
          encryptor.state.sealNext (platform.withKdf faulty) plaintext
              position .nonFinal = (some segment, state) ∧
          state.Ready platform context ∧
          encryptor.encryptNonFinalSegment (platform.withKdf faulty)
              plaintext = (.ok segment, encryptor.stepped state)) ∨
      ∃ error state,
        (PositionAllows position .nonFinal →
          encryptor.state.sealNext (platform.withKdf faulty) plaintext
              position .nonFinal = (none, state)) ∧
          state.Ready platform context ∧
          encryptor.encryptNonFinalSegment (platform.withKdf faulty)
              plaintext =
            (.error (.err error), { encryptor with state }) := by
  by_cases allowed : PositionAllows position .nonFinal
  · obtain ⟨state, ready, ⟨segment, step, result⟩ |
        ⟨error, step, result⟩⟩ :=
      EncryptionState.encryptSegmentAt_spec plaintext position .nonFinal
        sound agree here.ready
    · refine .inl ⟨segment, state, allowed, step, ready, ?_⟩
      unfold encryptNonFinalSegment
      rw [here.advance_ok allowed (by simp only [result]; rfl)]
    · refine .inr ⟨error, state, fun _ => step, ready, ?_⟩
      unfold encryptNonFinalSegment
      rw [here.advance_err allowed (by simp only [result]; rfl)]
  · refine .inr ⟨.segmentLimit, encryptor.state,
      fun impossible => (allowed impossible).elim, here.ready, ?_⟩
    unfold encryptNonFinalSegment
    rw [here.advance_limit allowed]

/-- `encrypt_non_final_segment_in_place`. -/
theorem At.encryptNonFinalSegmentInPlace_spec
    (buffer : SegmentBuffer)
    (sound : faulty.FaultOf platform.kdfExpand)
    (here : encryptor.At platform context position) :
    (∃ plaintext segment state sealedBuffer,
        PositionAllows position .nonFinal ∧
          buffer.plaintext = .ok plaintext ∧
          encryptor.state.sealNext (platform.withKdf faulty) plaintext
              position .nonFinal = (some segment, state) ∧
          state.Ready platform context ∧
          encryptor.encryptNonFinalSegmentInPlace (platform.withKdf faulty)
              buffer =
            (.ok segment, encryptor.stepped state, sealedBuffer) ∧
          sealedBuffer.parameters = buffer.parameters ∧
          (buffer.Sized → sealedBuffer.HoldsCiphertext segment)) ∨
      ∃ error state failed,
        (∀ plaintext,
          PositionAllows position .nonFinal →
            buffer.HoldsPlaintext plaintext →
              buffer.parameters = context.parameters →
                encryptor.state.sealNext (platform.withKdf faulty) plaintext
                    position .nonFinal = (none, state)) ∧
          state.Ready platform context ∧
          encryptor.encryptNonFinalSegmentInPlace (platform.withKdf faulty)
              buffer =
            (.error (.err error), { encryptor with state }, failed) ∧
          failed.parameters = buffer.parameters ∧
          (buffer.Sized → failed.Sized) := by
  by_cases allowed : PositionAllows position .nonFinal
  · obtain ⟨state, ready,
        ⟨plaintext, segment, sealedBuffer, held, step, result, same, holds⟩ |
        ⟨error, failed, step, result, same, sized⟩⟩ :=
      EncryptionState.encryptSegmentInPlaceAt_spec buffer position .nonFinal
        sound here.ready
    · exact .inl ⟨plaintext, segment, state, sealedBuffer, allowed, held,
        step, ready, here.advance_ok allowed result, same, holds⟩
    · exact .inr ⟨error, state, failed, fun plaintext _ => step plaintext,
        ready, here.advance_err allowed result, same, sized⟩
  · exact .inr ⟨.segmentLimit, encryptor.state, buffer,
      fun _ impossible => (allowed impossible).elim, here.ready,
      here.advance_limit allowed, rfl, id⟩

/-- `encrypt_final_segment_into`. -/
theorem At.encryptFinalSegmentInto_spec
    (plaintext output : Bytes)
    (sound : faulty.FaultOf platform.kdfExpand)
    (agree : platform.SealsAgree)
    (here : encryptor.At platform context position) :
    (∃ segment state,
        encryptor.state.sealNext (platform.withKdf faulty) plaintext position
            .final = (some segment, state) ∧
          segment.length = plaintext.length + 32 ∧
          segment.length ≤ output.length ∧
          encryptor.encryptFinalSegmentInto (platform.withKdf faulty)
              plaintext output =
            (.ok segment.length, segment ++ output.drop segment.length)) ∨
      ∃ error state failed,
        encryptor.state.FailsTo (platform.withKdf faulty) plaintext position
            .final output.length state ∧
          state.Ready platform context ∧
          encryptor.encryptFinalSegmentInto (platform.withKdf faulty)
              plaintext output =
            (.error (.err ⟨{ encryptor with state }, error⟩), failed) ∧
          failed.length = output.length := by
  obtain ⟨state, ready, ⟨segment, step, length, room, result⟩ |
      ⟨error, failed, step, result, length⟩⟩ :=
    EncryptionState.encryptSegmentIntoAt_spec plaintext position .final
      output sound agree here.ready
  · exact .inl ⟨segment, state, step, length, room, here.finalize_ok result⟩
  · exact .inr ⟨error, state, failed, step, ready, here.finalize_err result,
      length⟩

/-- `encrypt_final_segment`. -/
theorem At.encryptFinalSegment_spec
    (plaintext : Bytes)
    (sound : faulty.FaultOf platform.kdfExpand)
    (agree : platform.SealsAgree)
    (here : encryptor.At platform context position) :
    (∃ segment state,
        encryptor.state.sealNext (platform.withKdf faulty) plaintext position
            .final = (some segment, state) ∧
          encryptor.encryptFinalSegment (platform.withKdf faulty) plaintext =
            .ok segment) ∨
      ∃ error state,
        encryptor.state.sealNext (platform.withKdf faulty) plaintext position
            .final = (none, state) ∧
          state.Ready platform context ∧
          encryptor.encryptFinalSegment (platform.withKdf faulty) plaintext =
            .error (.err ⟨{ encryptor with state }, error⟩) := by
  obtain ⟨state, ready, ⟨segment, step, result⟩ | ⟨error, step, result⟩⟩ :=
    EncryptionState.encryptSegmentAt_spec plaintext position .final sound
      agree here.ready
  · refine .inl ⟨segment, state, step, ?_⟩
    unfold encryptFinalSegment
    rw [here.finalize_ok (by simp only [result]; rfl)]
  · refine .inr ⟨error, state, step, ready, ?_⟩
    unfold encryptFinalSegment
    rw [here.finalize_err (by simp only [result]; rfl)]

/-- `encrypt_final_segment_in_place`. -/
theorem At.encryptFinalSegmentInPlace_spec
    (buffer : SegmentBuffer)
    (sound : faulty.FaultOf platform.kdfExpand)
    (here : encryptor.At platform context position) :
    (∃ plaintext segment state sealedBuffer,
        buffer.plaintext = .ok plaintext ∧
          encryptor.state.sealNext (platform.withKdf faulty) plaintext
              position .final = (some segment, state) ∧
          encryptor.encryptFinalSegmentInPlace (platform.withKdf faulty)
              buffer = (.ok segment, sealedBuffer) ∧
          sealedBuffer.parameters = buffer.parameters ∧
          (buffer.Sized → sealedBuffer.HoldsCiphertext segment)) ∨
      ∃ error state failed,
        (∀ plaintext,
          buffer.HoldsPlaintext plaintext →
            buffer.parameters = context.parameters →
              encryptor.state.sealNext (platform.withKdf faulty) plaintext
                  position .final = (none, state)) ∧
          state.Ready platform context ∧
          encryptor.encryptFinalSegmentInPlace (platform.withKdf faulty)
              buffer =
            (.error (.err ⟨{ encryptor with state }, error⟩), failed) ∧
          failed.parameters = buffer.parameters ∧
          (buffer.Sized → failed.Sized) := by
  obtain ⟨state, ready,
      ⟨plaintext, segment, sealedBuffer, held, step, result, same, holds⟩ |
      ⟨error, failed, step, result, same, sized⟩⟩ :=
    EncryptionState.encryptSegmentInPlaceAt_spec buffer position .final sound
      here.ready
  · exact .inl ⟨plaintext, segment, state, sealedBuffer, held, step,
      here.finalize_ok result, same, holds⟩
  · exact .inr ⟨error, state, failed, step, ready, here.finalize_err result,
      same, sized⟩

end Calls

/-- A new encryptor starts at position zero, under the context its header
stands for. -/
theorem new_eq_ok
    {platform : Platform}
    {faulty : Kdf}
    {key : Key}
    {aad : Bytes}
    {parameters : Parameters}
    {rng : ProviderRng}
    {encryptor : Encryptor}
    (sound : faulty.FaultOf platform.kdfExpand)
    (created :
      Encryptor.new (platform.withKdf faulty) key aad parameters rng =
        .ok encryptor) :
    HeaderAuthenticates platform key aad encryptor.header
        encryptor.state.context ∧
      encryptor.state.context.parameters = parameters ∧
      encryptor.At platform encryptor.state.context 0 := by
  unfold Encryptor.new at created
  obtain ⟨⟨state, header⟩, started, shape⟩ := Outcome.bind_eq_ok.mp created
  cases shape
  obtain ⟨authentic, parameters, coherent, _, later, nonces⟩ :=
    startEncryption_eq_ok sound started
  refine ⟨authentic, parameters, ⟨rfl, coherent, ?_⟩, rfl, by decide⟩
  simp only [nonces]
  exact NonceGenerator.wellFormed_new later

end Encryptor

end FastFloe
