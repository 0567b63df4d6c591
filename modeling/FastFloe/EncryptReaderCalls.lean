import FastFloe.EncryptReaders
import FastFloe.ReachableBuffers

namespace FastFloe

open Rust

/-!
# The calls on an encrypting reader

What each read does to an `EncryptReader` when nothing is known of its source or
its provider: it hands out a part of the header or of the segment in its buffer,
or seals the next segment, buffered or directly into the output, or it fails and
is poisoned.  Every segment is framed as the next one of the message.
-/

/-! ## Sealing one segment with any provider -/

section Sealing

variable (platform : Platform) {buffer : SegmentBuffer} (kind : SegmentKind)

/-- Sealing where the plaintext stands fails, or leaves a framed segment. -/
theorem EncryptionState.encryptSegmentInPlaceAt_cases
    (state : EncryptionState)
    (position : Nat)
    (invariant : buffer.Invariant)
    (served : state.nonces.WellFormed) :
    ∃ next left,
      next.parameters = state.parameters ∧ next.nonces.WellFormed ∧
        left.parameters = buffer.parameters ∧
        ((∃ segment plaintextLength,
            state.encryptSegmentInPlaceAt platform buffer position kind =
                (.ok segment, next, left) ∧
              left.HoldsCiphertext segment ∧
              framingOf state.parameters segment =
                some ⟨segment.length, plaintextLength, kind⟩) ∨
          ∃ error,
            state.encryptSegmentInPlaceAt platform buffer position kind =
              (.error (.err error), next, left)) := by
  unfold encryptSegmentInPlaceAt
  by_cases matching : buffer.hasParameters state.parameters = true
  · simp only [matching, not_true_eq_false, ↓reduceIte]
    cases prepared : buffer.plaintextLength with
    | error stop =>
        have holds := buffer.plaintextLength_returns
        rw [prepared] at holds
        obtain ⟨error, rfl⟩ := holds.stop_eq_err
        exact ⟨state, buffer, rfl, served, rfl, .inr ⟨error, rfl⟩⟩
    | ok plaintextLength =>
        have effect := encryptSegmentInPlaceInner_effect platform
          state.context state.keys position kind buffer.bytes plaintextLength
          served
        have framed := @encryptSegmentInPlaceInner_framed platform
          state.context state.keys state.nonces position kind buffer.bytes
          plaintextLength served
        simp only [encryptSegmentInPlaceRawAt]
        rcases sealed : encryptSegmentInPlaceInner platform state.context
            state.keys state.nonces buffer.bytes plaintextLength position
            kind with
          ⟨stop | written, keys, nonces, bytes⟩
        · rw [sealed] at effect
          obtain ⟨error, rfl⟩ := effect.returns.stop_eq_err
          exact ⟨{ state with keys, nonces }, (buffer.withRaw bytes).clear,
            rfl, effect.served, rfl, .inr ⟨error, rfl⟩⟩
        · rw [sealed] at effect framed
          obtain ⟨exact, small, _⟩ := effect.written written rfl
          have declared := framed rfl
          have stored : bytes.length = buffer.bytes.length := effect.kept
          have inside : written ≤ bytes.length := by
            rw [stored]
            exact small
          have length : (bytes.take written).length = written :=
            List.length_take_of_le inside
          refine ⟨{ state with keys, nonces },
            (buffer.withRaw bytes).markCiphertext written, rfl,
            effect.served, rfl,
            .inl ⟨bytes.take written, plaintextLength, ?_, ?_, ?_⟩⟩
          · simp only [SegmentBuffer.ciphertext,
              SegmentBuffer.markCiphertext, SegmentBuffer.withRaw,
              slice_zero inside]
          · refine ⟨stored.trans invariant.sized, ?_, ?_⟩
            · rw [length]
              rfl
            · rw [length]
              rfl
          · rw [length]
            exact framingOf_segment declared
  · simp only [matching, Bool.false_eq_true, not_false_eq_true, ↓reduceIte]
    exact ⟨state, buffer, rfl, served, rfl, .inr ⟨_, rfl⟩⟩

/-- Sealing into an output fails, or leaves a framed segment at its start. -/
theorem EncryptionState.encryptSegmentIntoAt_cases
    (state : EncryptionState)
    (position : Nat)
    (plaintext output : Bytes)
    (served : state.nonces.WellFormed) :
    ∃ next left,
      next.parameters = state.parameters ∧ next.nonces.WellFormed ∧
        ((∃ written,
            state.encryptSegmentIntoAt platform plaintext position kind
                output = (.ok written, next, left) ∧
              written ≤ left.length ∧
              framingOf state.parameters (left.take written) =
                some ⟨written, plaintext.length, kind⟩) ∨
          ∃ error,
            state.encryptSegmentIntoAt platform plaintext position kind
              output = (.error (.err error), next, left)) := by
  have effect := encryptSegmentIntoInner_effect platform state.context
    state.keys position kind plaintext output served
  have framed := @encryptSegmentIntoInner_framed platform state.context
    state.keys state.nonces position kind plaintext output served
  unfold encryptSegmentIntoAt
  rcases sealed : encryptSegmentIntoInner platform state.context state.keys
      state.nonces plaintext position kind output with
    ⟨stop | written, keys, nonces, left⟩
  · rw [sealed] at effect
    obtain ⟨error, rfl⟩ := effect.returns.stop_eq_err
    exact ⟨{ state with keys, nonces }, left, rfl, effect.served,
      .inr ⟨error, rfl⟩⟩
  · rw [sealed] at effect framed
    obtain ⟨exact, small, _⟩ := effect.written written rfl
    have kept : left.length = output.length := effect.kept
    exact ⟨{ state with keys, nonces }, left, rfl, effect.served,
      .inl ⟨written, rfl, by omega, framingOf_segment (framed rfl)⟩⟩

end Sealing

/-! ### Sequential sealing -/

/-- An encryptor that can seal segments of this parameter set. -/
structure Encryptor.Usable (parameters : Parameters)
    (encryptor : Encryptor) : Prop where
  own : encryptor.parameters = parameters
  served : encryptor.state.nonces.WellFormed

theorem SegmentBuffer.HoldsPlaintext.invariant
    {buffer : SegmentBuffer}
    {plaintext : Bytes}
    (holds : buffer.HoldsPlaintext plaintext) :
    buffer.Invariant := by
  have fits := holds.fits
  have full := buffer.parameters.plaintextSegmentLength_add
  refine ⟨holds.sized, fun length same => ?_, fun length same => ?_⟩
  · rw [holds.state, BufferState.plaintext.injEq] at same
    rw [segmentOverhead_eq]
    omega
  · rw [holds.state] at same
    cases same

section Sequential

variable (platform : Platform) {encryptor : Encryptor}
  {parameters : Parameters} {buffer : SegmentBuffer}

theorem Encryptor.Usable.encryptNonFinalSegmentInPlace_cases
    (usable : encryptor.Usable parameters)
    (invariant : buffer.Invariant) :
    ∃ next left,
      left.parameters = buffer.parameters ∧
        ((∃ segment plaintextLength,
            encryptor.encryptNonFinalSegmentInPlace platform buffer =
                (.ok segment, next, left) ∧
              next.Usable parameters ∧ left.HoldsCiphertext segment ∧
              framingOf parameters segment =
                some ⟨segment.length, plaintextLength, .nonFinal⟩) ∨
          ∃ error,
            encryptor.encryptNonFinalSegmentInPlace platform buffer =
              (.error (.err error), next, left)) := by
  unfold encryptNonFinalSegmentInPlace advance
  rcases encryptor.counter.positionFor_cases .nonFinal with
    ⟨position, reserved⟩ | ⟨error, refused⟩
  · obtain ⟨next, left, kept, served, own,
        ⟨segment, plaintextLength, result, holds, framed⟩ |
          ⟨error, result⟩⟩ :=
      encryptor.state.encryptSegmentInPlaceAt_cases platform .nonFinal
        position invariant usable.served
    · simp only [reserved, result]
      exact ⟨_, left, own, .inl ⟨segment, plaintextLength, rfl,
        ⟨kept.trans usable.own, served⟩, holds,
        by rw [← usable.own]; exact framed⟩⟩
    · simp only [reserved, result]
      exact ⟨_, left, own, .inr ⟨error, rfl⟩⟩
  · simp only [refused]
    exact ⟨encryptor, buffer, rfl, .inr ⟨error, rfl⟩⟩

theorem Encryptor.Usable.encryptFinalSegmentInPlace_cases
    (usable : encryptor.Usable parameters)
    (invariant : buffer.Invariant) :
    ∃ left,
      left.parameters = buffer.parameters ∧
        ((∃ segment plaintextLength,
            encryptor.encryptFinalSegmentInPlace platform buffer =
                (.ok segment, left) ∧
              left.HoldsCiphertext segment ∧
              framingOf parameters segment =
                some ⟨segment.length, plaintextLength, .final⟩) ∨
          ∃ error,
            encryptor.encryptFinalSegmentInPlace platform buffer =
              (.error (.err error), left)) := by
  unfold encryptFinalSegmentInPlace finalize
  rcases encryptor.counter.positionFor_cases .final with
    ⟨position, reserved⟩ | ⟨error, refused⟩
  · obtain ⟨next, left, kept, served, own,
        ⟨segment, plaintextLength, result, holds, framed⟩ |
          ⟨error, result⟩⟩ :=
      encryptor.state.encryptSegmentInPlaceAt_cases platform .final
        position invariant usable.served
    · simp only [reserved, result]
      exact ⟨left, own, .inl ⟨segment, plaintextLength, rfl, holds,
        by rw [← usable.own]; exact framed⟩⟩
    · simp only [reserved, result]
      exact ⟨left, own, .inr ⟨_, rfl⟩⟩
  · simp only [refused]
    exact ⟨buffer, rfl, .inr ⟨_, rfl⟩⟩

theorem Encryptor.Usable.encryptNonFinalSegmentInto_cases
    (usable : encryptor.Usable parameters)
    (plaintext output : Bytes) :
    ∃ next left,
      (∃ written,
          encryptor.encryptNonFinalSegmentInto platform plaintext output =
              (.ok written, next, left) ∧
            next.Usable parameters ∧ written ≤ left.length ∧
            framingOf parameters (left.take written) =
              some ⟨written, plaintext.length, .nonFinal⟩) ∨
        ∃ error,
          encryptor.encryptNonFinalSegmentInto platform plaintext output =
            (.error (.err error), next, left) := by
  unfold encryptNonFinalSegmentInto advance
  rcases encryptor.counter.positionFor_cases .nonFinal with
    ⟨position, reserved⟩ | ⟨error, refused⟩
  · obtain ⟨next, left, kept, served, ⟨written, result, inside, framed⟩ |
        ⟨error, result⟩⟩ :=
      encryptor.state.encryptSegmentIntoAt_cases platform .nonFinal position
        plaintext output usable.served
    · simp only [reserved, result]
      exact ⟨_, left, .inl ⟨written, rfl, ⟨kept.trans usable.own, served⟩,
        inside, by rw [← usable.own]; exact framed⟩⟩
    · simp only [reserved, result]
      exact ⟨_, left, .inr ⟨error, rfl⟩⟩
  · simp only [refused]
    exact ⟨encryptor, output, .inr ⟨error, rfl⟩⟩

theorem Encryptor.Usable.encryptFinalSegmentInto_cases
    (usable : encryptor.Usable parameters)
    (plaintext output : Bytes) :
    ∃ left,
      (∃ written,
          encryptor.encryptFinalSegmentInto platform plaintext output =
              (.ok written, left) ∧
            written ≤ left.length ∧
            framingOf parameters (left.take written) =
              some ⟨written, plaintext.length, .final⟩) ∨
        ∃ error,
          encryptor.encryptFinalSegmentInto platform plaintext output =
            (.error (.err error), left) := by
  unfold encryptFinalSegmentInto finalize
  rcases encryptor.counter.positionFor_cases .final with
    ⟨position, reserved⟩ | ⟨error, refused⟩
  · obtain ⟨next, left, kept, served, ⟨written, result, inside, framed⟩ |
        ⟨error, result⟩⟩ :=
      encryptor.state.encryptSegmentIntoAt_cases platform .final position
        plaintext output usable.served
    · simp only [reserved, result]
      exact ⟨left, .inl ⟨written, rfl, inside,
        by rw [← usable.own]; exact framed⟩⟩
    · simp only [reserved, result]
      exact ⟨left, .inr ⟨_, rfl⟩⟩
  · simp only [refused]
    exact ⟨output, .inr ⟨_, rfl⟩⟩

end Sequential

/-! ## Sealing the next segment -/

theorem ofSource_encryptionError
    (source : Source IoPayload)
    (error : Error) :
    OfSource source (encryptionError error) := by
  intro same
  cases same

namespace EncryptReader

/-- A reader that can go on to its next segment. -/
structure CanLoad (reader : EncryptReader) : Prop where
  status : reader.status = .opened
  sized : reader.buffer.Sized
  encryptor :
    ∃ encryptor,
      reader.encryptor = some encryptor ∧
        encryptor.Usable reader.buffer.parameters

/-- A reader that has sealed its next segment. -/
structure Sealed (before after : EncryptReader) (kind : SegmentKind)
    (segment : Bytes) : Prop where
  framed :
    ∃ plaintextLength,
      framingOf before.parameters segment =
        some ⟨segment.length, plaintextLength, kind⟩
  parameters : after.buffer.parameters = before.buffer.parameters
  header : after.header = before.header
  headerPosition : after.headerPosition = before.headerPosition
  status :
    after.status = if kind.isFinal then .finished else .opened
  canLoad : after.status = .opened → after.CanLoad

/-- A call that failed and poisoned the reader. -/
structure Fails (before after : EncryptReader) (error : IoError IoPayload) :
    Prop where
  ofSource : OfSource before.inner error
  parameters : after.buffer.parameters = before.buffer.parameters
  header : after.header = before.header
  status : after.status = .failed
  within : after.ciphertextPosition ≤ after.ciphertextLength

section Loading

variable (platform : Platform) {reader : EncryptReader}

/-- `load_segment` on any source, with any provider. -/
theorem CanLoad.loadSegment_cases
    (canLoad : reader.CanLoad)
    (within : reader.ciphertextPosition ≤ reader.ciphertextLength) :
    ∃ next,
      (∃ kind segment,
          reader.loadSegment platform = (.ok (), next) ∧
            reader.Sealed next kind segment ∧
            next.buffer.HoldsCiphertext segment ∧
            next.ciphertextPosition = 0 ∧
            next.ciphertextLength = segment.length) ∨
        ∃ error,
          reader.loadSegment platform = (.error (.err error), next) ∧
            reader.Fails next error := by
  obtain ⟨encryptor, present, usable⟩ := canLoad.encryptor
  obtain ⟨inner, buffer, lookahead, _, sized, own,
      ⟨isFinal, plaintext, filled, holds, _⟩ |
        ⟨error, filled, ofSource, _⟩⟩ :=
    reader.fillPlaintext_cases canLoad.sized
  · cases isFinal with
    | true =>
        obtain ⟨left, kept, ⟨segment, length, result, ready, framed⟩ |
            ⟨error, result⟩⟩ :=
          usable.encryptFinalSegmentInPlace_cases platform holds.invariant
        · refine ⟨{ reader with
              inner
              encryptor := none
              buffer := left
              ciphertextPosition := 0
              ciphertextLength := segment.length
              lookahead
              status := .finished },
            .inl ⟨.final, segment, ?_, ⟨⟨length, framed⟩, kept.trans own,
              rfl, rfl, rfl, by simp⟩, ready, rfl, rfl⟩⟩
          exact loadSegment_final filled present result
        · exact ⟨_, .inr ⟨_, loadSegment_final_error filled present result,
            ofSource_encryptionError _ _, kept.trans own, rfl, rfl,
            Nat.zero_le _⟩⟩
    | false =>
        obtain ⟨next, left, kept,
            ⟨segment, length, result, still, ready, framed⟩ |
              ⟨error, result⟩⟩ :=
          usable.encryptNonFinalSegmentInPlace_cases platform holds.invariant
        · refine ⟨{ reader with
              inner
              encryptor := some next
              buffer := left
              ciphertextPosition := 0
              ciphertextLength := segment.length
              lookahead },
            .inl ⟨.nonFinal, segment, ?_, ⟨⟨length, framed⟩,
              kept.trans own, rfl, rfl, canLoad.status, fun _ =>
                ⟨canLoad.status, ready.sized, next, rfl, ?_⟩⟩, ready, rfl,
              rfl⟩⟩
          · exact loadSegment_nonFinal filled present result
          · simp only [kept.trans own]
            exact still
        · exact ⟨_, .inr ⟨_, loadSegment_nonFinal_error filled present result,
            ofSource_encryptionError _ _, kept.trans own, rfl, rfl,
            Nat.zero_le _⟩⟩
  · exact ⟨_, .inr ⟨_, loadSegment_unfilled filled, ofSource, own, rfl, rfl,
      within⟩⟩

/-- `emit_segment_direct` on any source, with any provider. -/
theorem CanLoad.emitSegmentDirect_cases
    (canLoad : reader.CanLoad)
    (within : reader.ciphertextPosition ≤ reader.ciphertextLength)
    (output : Bytes) :
    ∃ next left,
      (∃ kind count,
          reader.emitSegmentDirect platform output =
              (.ok count, next, left) ∧
            count ≤ left.length ∧
            reader.Sealed next kind (left.take count) ∧
            next.ciphertextPosition = reader.ciphertextPosition ∧
            next.ciphertextLength = reader.ciphertextLength) ∨
        ∃ error,
          reader.emitSegmentDirect platform output =
              (.error (.err error), next, left) ∧
            reader.Fails next error := by
  obtain ⟨encryptor, present, usable⟩ := canLoad.encryptor
  obtain ⟨inner, buffer, lookahead, _, sized, own,
      ⟨isFinal, plaintext, filled, holds, _⟩ |
        ⟨error, filled, ofSource, _⟩⟩ :=
    reader.fillPlaintext_cases canLoad.sized
  · have read := holds.plaintext_eq
    cases isFinal with
    | true =>
        obtain ⟨left, ⟨written, result, inside, framed⟩ |
            ⟨error, result⟩⟩ :=
          usable.encryptFinalSegmentInto_cases platform plaintext output
        · refine ⟨{ reader with
              inner, encryptor := none, buffer, lookahead,
              status := .finished }, left,
            .inl ⟨.final, written, ?_, inside,
              ⟨⟨plaintext.length, ?_⟩, own, rfl, rfl, rfl, by simp⟩, rfl,
              rfl⟩⟩
          · exact emitSegmentDirect_final filled present read result
          · rw [List.length_take_of_le inside]
            exact framed
        · exact ⟨_, left, .inr ⟨_,
            emitSegmentDirect_final_error filled present read result,
            ofSource_encryptionError _ _, own, rfl, rfl, within⟩⟩
    | false =>
        obtain ⟨next, left, ⟨written, result, still, inside, framed⟩ |
            ⟨error, result⟩⟩ :=
          usable.encryptNonFinalSegmentInto_cases platform plaintext output
        · refine ⟨{ reader with
              inner, encryptor := some next, buffer, lookahead }, left,
            .inl ⟨.nonFinal, written, ?_, inside,
              ⟨⟨plaintext.length, ?_⟩, own, rfl, rfl, canLoad.status,
                fun _ => ⟨canLoad.status, sized, next, rfl, ?_⟩⟩, rfl,
              rfl⟩⟩
          · exact emitSegmentDirect_nonFinal filled present read result
          · rw [List.length_take_of_le inside]
            exact framed
          · simp only [own]
            exact still
        · exact ⟨_, left, .inr ⟨_,
            emitSegmentDirect_nonFinal_error filled present read result,
            ofSource_encryptionError _ _, own, rfl, rfl, within⟩⟩
  · exact ⟨_, output, .inr ⟨_, emitSegmentDirect_unfilled filled, ofSource,
      own, rfl, rfl, within⟩⟩

end Loading

/-! ## Consistent readers -/

/-- A reader that has not failed. -/
structure Consistent (reader : EncryptReader) : Prop where
  unfailed : reader.status ≠ .failed
  canLoad : reader.status = .opened → reader.CanLoad
  within : reader.ciphertextPosition ≤ reader.ciphertextLength
  held :
    reader.ciphertextPosition < reader.ciphertextLength →
      ∃ segment,
        reader.buffer.HoldsCiphertext segment ∧
          reader.ciphertextLength = segment.length
  inside : reader.headerPosition ≤ headerLength
  started :
    reader.headerPosition < headerLength →
      reader.status = .opened ∧
        reader.ciphertextPosition = reader.ciphertextLength

/-- What the reader can still serve without sealing another segment: the rest of
the header and of the segment in its buffer. -/
def unserved (self : EncryptReader) : Bytes :=
  self.header.val.drop self.headerPosition ++
    (self.buffer.bytes.take self.ciphertextLength).drop
      self.ciphertextPosition

/-- The final segment was sealed. -/
def isComplete (self : EncryptReader) : Bool := self.status = .finished

/-- A reader that has handed these bytes out, and sealed these while it did. -/
structure Serves (before after : EncryptReader) (bytes fresh : Bytes) :
    Prop where
  consistent : after.Consistent
  parameters : after.buffer.parameters = before.buffer.parameters
  header : after.header = before.header
  kept : bytes ++ after.unserved = before.unserved ++ fresh
  passed :
    ∃ lengths,
      ∀ body earlier,
        (framingStream before.parameters).Passed 0 body earlier
            before.isComplete [] →
          (framingStream before.parameters).Passed 0 (body ++ fresh)
            (earlier ++ lengths) after.isComplete []

section Serving

variable (platform : Platform) {reader : EncryptReader}

/-- A reader whose buffer was handed out has header bytes left at most. -/
theorem unserved_of_drained
    (drained : reader.ciphertextPosition = reader.ciphertextLength) :
    reader.unserved = reader.header.val.drop reader.headerPosition := by
  have nothing :
      (reader.buffer.bytes.take reader.ciphertextLength).drop
        reader.ciphertextPosition = [] :=
    List.drop_eq_nil_of_le (by
      rw [drained]
      exact List.length_take_le _ _)
  rw [unserved, nothing, List.append_nil]

/-- A reader whose header was handed out has the rest of its segment left. -/
theorem unserved_of_holds
    {segment : Bytes}
    (behind : ¬ reader.headerPosition < headerLength)
    (holds : reader.buffer.HoldsCiphertext segment)
    (length : reader.ciphertextLength = segment.length) :
    reader.unserved = segment.drop reader.ciphertextPosition := by
  have passed := header_passed behind
  rw [unserved, passed, List.nil_append, length, holds.content]

theorem Consistent.opened
    (consistent : reader.Consistent)
    (unfinished : reader.status ≠ .finished) :
    reader.status = .opened := by
  cases status : reader.status with
  | opened => rfl
  | finished => exact (unfinished status).elim
  | failed => exact (consistent.unfailed status).elim

/-- Nothing is unserved when the header and the buffer were handed out, and only
then. -/
theorem Consistent.unserved_eq_nil_iff
    (consistent : reader.Consistent) :
    reader.unserved = [] ↔
      reader.headerPosition = headerLength ∧
        reader.ciphertextPosition = reader.ciphertextLength := by
  have width := reader.header.length_val
  have inside := consistent.inside
  constructor
  · intro nothing
    have passed : headerLength ≤ reader.headerPosition := by
      have front := (List.append_eq_nil_iff.mp nothing).1
      rw [List.drop_eq_nil_iff, width] at front
      exact front
    refine ⟨by omega, ?_⟩
    by_cases ahead : reader.ciphertextPosition < reader.ciphertextLength
    · obtain ⟨segment, holds, length⟩ := consistent.held ahead
      rw [unserved_of_holds (Nat.not_lt.mpr passed) holds length,
        List.drop_eq_nil_iff] at nothing
      omega
    · have within := consistent.within
      omega
  · rintro ⟨passed, drained⟩
    rw [unserved_of_drained drained]
    exact List.drop_eq_nil_of_le (by omega)

/-! ### One step after another -/

/-- A call that seals nothing. -/
theorem Consistent.serves
    {next : EncryptReader}
    {bytes : Bytes}
    (consistent : next.Consistent)
    (parameters : next.buffer.parameters = reader.buffer.parameters)
    (header : next.header = reader.header)
    (status : next.status = reader.status)
    (kept : bytes ++ next.unserved = reader.unserved) :
    reader.Serves next bytes [] := by
  refine ⟨consistent, parameters, header, by rw [kept, List.append_nil], [],
    fun body earlier passed => ?_⟩
  rw [List.append_nil, List.append_nil, isComplete, status]
  exact passed

theorem Serves.trans
    {middle next : EncryptReader}
    {bytes fresh more later : Bytes}
    (first : reader.Serves middle bytes fresh)
    (second : middle.Serves next more later) :
    reader.Serves next (bytes ++ more) (fresh ++ later) := by
  obtain ⟨lengths, passed⟩ := first.passed
  obtain ⟨rest, passes⟩ := second.passed
  have own : middle.parameters = reader.parameters := first.parameters
  rw [own] at passes
  refine ⟨second.consistent, second.parameters.trans first.parameters,
    second.header.trans first.header, ?_, lengths ++ rest,
    fun body earlier before => ?_⟩
  · rw [List.append_assoc, second.kept, ← List.append_assoc, first.kept,
      List.append_assoc]
  · rw [← List.append_assoc, ← List.append_assoc]
    exact passes _ _ (passed _ _ before)

/-- A sealed segment is the next frame of the message. -/
theorem Sealed.passed
    {next : EncryptReader}
    {kind : SegmentKind}
    {segment : Bytes}
    (fresh : reader.Sealed next kind segment)
    (opened : reader.status = .opened) :
    ∃ lengths,
      ∀ body earlier,
        (framingStream reader.parameters).Passed 0 body earlier
            reader.isComplete [] →
          (framingStream reader.parameters).Passed 0 (body ++ segment)
            (earlier ++ lengths) next.isComplete [] := by
  obtain ⟨length, framed⟩ := fresh.framed
  refine ⟨[length], fun body earlier passed => ?_⟩
  have open' : reader.isComplete = false := by simp [isComplete, opened]
  have complete : next.isComplete = kind.isFinal := by
    cases last : kind.isFinal <;> simp [isComplete, fresh.status, last]
  rw [open'] at passed
  rw [complete]
  exact passed.frame (framingStream_isFrame _ framed rfl)

/-- A reader that has sealed its next segment is consistent again. -/
theorem Sealed.consistent
    {next : EncryptReader}
    {kind : SegmentKind}
    {segment : Bytes}
    (fresh : reader.Sealed next kind segment)
    (passed : reader.headerPosition = headerLength)
    (within : next.ciphertextPosition ≤ next.ciphertextLength)
    (held :
      next.ciphertextPosition < next.ciphertextLength →
        ∃ segment,
          next.buffer.HoldsCiphertext segment ∧
            next.ciphertextLength = segment.length) :
    next.Consistent where
  unfailed := by
    rw [fresh.status]
    cases kind.isFinal <;> simp
  canLoad := fresh.canLoad
  within := within
  held := held
  inside := by
    rw [fresh.headerPosition, passed]
  started := by
    rw [fresh.headerPosition, passed]
    exact fun impossible => (Nat.lt_irrefl _ impossible).elim

/-! ### Handing bytes out -/

/-- Handing out header bytes. -/
theorem Consistent.readHeaderBytes_serves
    (consistent : reader.Consistent)
    (before : reader.headerPosition < headerLength)
    (output : Bytes) :
    ∃ next left count,
      reader.readHeaderBytes output = (.ok count, next, left) ∧
        count ≤ left.length ∧ reader.Serves next (left.take count) [] := by
  obtain ⟨opened, drained⟩ := consistent.started before
  obtain ⟨chunk, result, length, joined⟩ := readHeaderBytes_eq before output
  let next : EncryptReader :=
    { reader with headerPosition := reader.headerPosition + chunk.length }
  have still : next.Consistent :=
    { unfailed := consistent.unfailed
      canLoad := fun status =>
        ⟨status, (consistent.canLoad status).sized,
          (consistent.canLoad status).encryptor⟩
      within := consistent.within
      held := consistent.held
      inside := by
        simp only [next]
        omega
      started := fun _ => ⟨opened, drained⟩ }
  refine ⟨next, chunk ++ output.drop chunk.length, chunk.length, result, ?_,
    still.serves rfl rfl rfl ?_⟩
  · rw [List.length_append]
    omega
  · rw [List.take_left, unserved_of_drained drained,
      @unserved_of_drained next drained]
    exact joined.symm

/-- Serving buffered bytes never fails. -/
theorem Consistent.readBuffered_eq
    (consistent : reader.Consistent)
    (ahead : reader.ciphertextPosition < reader.ciphertextLength)
    (output : Bytes) :
    ∃ left,
      reader.readBuffered output =
          (.ok (min output.length
              (reader.ciphertextLength - reader.ciphertextPosition)),
            { reader with
              ciphertextPosition :=
                reader.ciphertextPosition + min output.length
                  (reader.ciphertextLength - reader.ciphertextPosition) },
            left) ∧
        left.length = output.length ∧
        left.take (min output.length
            (reader.ciphertextLength - reader.ciphertextPosition)) =
          reader.unserved.take output.length := by
  obtain ⟨segment, holds, length⟩ := consistent.held ahead
  have behind : ¬ reader.headerPosition < headerLength := by
    intro before
    have drained := (consistent.started before).2
    omega
  let chunk := (segment.drop reader.ciphertextPosition).take output.length
  have count : chunk.length = min output.length
      (reader.ciphertextLength - reader.ciphertextPosition) := by
    rw [List.length_take, List.length_drop, length]
  refine ⟨chunk ++ output.drop chunk.length, ?_, ?_, ?_⟩
  · simp only [readBuffered, holds.ciphertext_eq, Outcome.mapErr,
      Outcome.ok_bind]
    rw [handOut_eq length (by omega), ← count]
  · rw [List.length_append, List.length_drop]
    omega
  · rw [← count, List.take_left, unserved_of_holds behind holds length]

theorem Consistent.readBuffered_serves
    (consistent : reader.Consistent)
    (ahead : reader.ciphertextPosition < reader.ciphertextLength)
    (output : Bytes) :
    ∃ next left count,
      reader.readBuffered output = (.ok count, next, left) ∧
        count ≤ left.length ∧ reader.Serves next (left.take count) [] := by
  obtain ⟨left, result, same, handed⟩ :=
    consistent.readBuffered_eq ahead output
  obtain ⟨segment, holds, length⟩ := consistent.held ahead
  have behind : ¬ reader.headerPosition < headerLength := by
    intro before
    have drained := (consistent.started before).2
    omega
  let next : EncryptReader :=
    { reader with
      ciphertextPosition :=
        reader.ciphertextPosition + min output.length
          (reader.ciphertextLength - reader.ciphertextPosition) }
  have count :
      ((segment.drop reader.ciphertextPosition).take output.length).length =
        min output.length
          (reader.ciphertextLength - reader.ciphertextPosition) := by
    rw [List.length_take, List.length_drop, length]
  have rest : next.unserved =
      (segment.drop reader.ciphertextPosition).drop output.length := by
    rw [@unserved_of_holds next segment behind holds length, ← drop_handedOut,
      count]
  have still : next.Consistent :=
    { unfailed := consistent.unfailed
      canLoad := fun status =>
        ⟨status, (consistent.canLoad status).sized,
          (consistent.canLoad status).encryptor⟩
      within := by
        simp only [next]
        omega
      held := fun _ => ⟨segment, holds, length⟩
      inside := consistent.inside
      started := fun before => (behind before).elim }
  refine ⟨next, left, _, result, by omega, still.serves rfl rfl rfl ?_⟩
  rw [handed, rest, unserved_of_holds behind holds length]
  exact List.take_append_drop _ _

/-- `read` on any source, with any provider: it hands bytes out, or it fails
with everything handed out. -/
theorem Consistent.read_cases
    (consistent : reader.Consistent)
    (output : Bytes) :
    ∃ next left,
      (∃ count fresh,
          reader.read platform output = (.ok count, next, left) ∧
            count ≤ left.length ∧
            reader.Serves next (left.take count) fresh) ∨
        ∃ error,
          reader.read platform output =
              (.error (.err error), next, left) ∧
            reader.Fails next error ∧
            reader.status = .opened ∧ reader.unserved = [] := by
  have unfailed := consistent.unfailed
  have idle : reader.Serves reader [] [] :=
    consistent.serves rfl rfl rfl rfl
  by_cases empty : output = []
  · refine ⟨reader, output, .inl ⟨0, [], ?_, Nat.zero_le _, idle⟩⟩
    simp only [read, empty, ↓reduceIte]
  by_cases before : reader.headerPosition < headerLength
  · obtain ⟨next, left, count, result, inside, serves⟩ :=
      consistent.readHeaderBytes_serves before output
    refine ⟨next, left, .inl ⟨count, [], ?_, inside, serves⟩⟩
    simp only [read, empty, unfailed, before, result, ↓reduceIte]
  have passed : reader.headerPosition = headerLength := by
    have most := consistent.inside
    omega
  by_cases drained : reader.ciphertextPosition = reader.ciphertextLength
  · by_cases complete : reader.status = .finished
    · refine ⟨reader, output, .inl ⟨0, [], ?_, Nat.zero_le _, idle⟩⟩
      simp only [read, empty, before, drained, complete, reduceCtorEq,
        ↓reduceIte]
    have opened := consistent.opened complete
    have canLoad := consistent.canLoad opened
    have nothing : reader.unserved = [] :=
      consistent.unserved_eq_nil_iff.mpr ⟨passed, drained⟩
    by_cases direct :
        output.length ≥ reader.parameters.ciphertextSegmentLength
    · -- The segment goes straight into the caller's output.
      have shape : reader.read platform output =
          reader.emitSegmentDirect platform output := by
        simp only [read, empty, unfailed, before, drained, complete, direct,
          ↓reduceIte]
      rw [shape]
      obtain ⟨next, left, ⟨kind, count, result, inside, fresh, position,
          length⟩ | ⟨error, result, fails⟩⟩ :=
        canLoad.emitSegmentDirect_cases platform consistent.within output
      · have spent : next.ciphertextPosition = next.ciphertextLength := by
          rw [position, length, drained]
        have next_unserved : next.unserved = [] := by
          rw [unserved_of_drained spent, fresh.headerPosition, passed]
          exact List.drop_eq_nil_of_le (by rw [next.header.length_val])
        refine ⟨next, left, .inl ⟨count, left.take count, result, inside,
          fresh.consistent passed (Nat.le_of_eq spent)
            fun ahead => (Nat.ne_of_lt ahead spent).elim,
          fresh.parameters, fresh.header, ?_, fresh.passed opened⟩⟩
        rw [next_unserved, nothing, List.append_nil, List.nil_append]
      · exact ⟨next, left, .inr ⟨error, result, fails, opened, nothing⟩⟩
    · obtain ⟨next, ⟨kind, segment, result, fresh, holds, position, length⟩ |
          ⟨error, result, fails⟩⟩ :=
        canLoad.loadSegment_cases platform consistent.within
      · obtain ⟨plaintextLength, framed⟩ := fresh.framed
        have payload : plaintextLength + 32 = segment.length :=
          (framingOf_eq_some framed).1.payload
        have loaded : next.Consistent :=
          fresh.consistent passed (by omega) fun _ => ⟨segment, holds, length⟩
        have behind : ¬ next.headerPosition < headerLength := by
          rw [fresh.headerPosition]
          exact before
        have first : reader.Serves next [] segment := by
          refine ⟨loaded, fresh.parameters, fresh.header, ?_,
            fresh.passed opened⟩
          rw [unserved_of_holds behind holds length, position, nothing]
          rfl
        obtain ⟨after, left, count, served, inside, second⟩ :=
          loaded.readBuffered_serves (by
            rw [position, length]
            omega) output
        have serves := first.trans second
        rw [List.append_nil] at serves
        refine ⟨after, left, .inl ⟨count, segment, ?_, inside, serves⟩⟩
        simp only [read, empty, unfailed, before, drained, complete, direct,
          result, served, ↓reduceIte]
      · refine ⟨next, output, .inr ⟨error, ?_, fails, opened, nothing⟩⟩
        simp only [read, empty, unfailed, before, drained, complete, direct,
          result, ↓reduceIte]
  · obtain ⟨next, left, count, result, inside, serves⟩ :=
      consistent.readBuffered_serves
        (Nat.lt_of_le_of_ne consistent.within drained) output
    refine ⟨next, left, .inl ⟨count, [], ?_, inside, serves⟩⟩
    simp only [read, empty, unfailed, before, drained, result, ↓reduceIte]

end Serving

end EncryptReader

end FastFloe
