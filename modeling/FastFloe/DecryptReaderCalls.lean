import FastFloe.FramedReading
import FastFloe.ReachableBuffers

namespace FastFloe

open Rust

/-!
# The calls on a decrypting reader

What each call does to a `DecryptReader` when nothing is known of its source or
its provider: on the buffered, the direct, the draining and the finalizing path
the reader passes over whole segments of its source and stays consistent, or it
fails and is poisoned.  No call panics and no loop runs forever.
-/

/-! ## Opening one segment with any provider -/

section Opening

variable (platform : Platform) {framing : SegmentFraming}
  {buffer : SegmentBuffer} {segment : Bytes} {parameters : Parameters}

/-- Opening a segment where it stands fails, or leaves the declared
plaintext. -/
theorem DecryptionState.decryptSegmentInPlaceAtFramed_cases
    (state : DecryptionState)
    (position : Nat)
    (holds : buffer.HoldsCiphertext segment)
    (valid : framing.Valid parameters)
    (declared : segment.length = framing.ciphertextLength) :
    ∃ next left,
      next.parameters = state.parameters ∧ left.Sized ∧
        left.parameters = buffer.parameters ∧
        (state.decryptSegmentInPlaceAtFramed platform buffer position
              framing = (.ok framing.plaintextLength, next, left) ∨
          ∃ error,
            state.decryptSegmentInPlaceAtFramed platform buffer position
              framing = (.error (.err error), next, left)) := by
  by_cases matching : buffer.hasParameters state.parameters = true
  · have region :
        (slice buffer.bytes 0 segment.length : Result Bytes) =
          .ok segment := by
      rw [slice_zero holds.length_le, holds.content]
    have size : segment.length = framing.plaintextLength + 32 :=
      declared.trans valid.payload.symm
    have effect := openSegmentInPlace_effect platform state segment position
      framing.kind size
    have kept := openSegmentInPlace_eq platform state.context segment position
      framing.kind framing.plaintextLength state.keys
    have length := length_openInPlaceWith platform segment position
      framing.kind framing.plaintextLength
      (state.keys.keyForPosition platform state.context position).1
    rcases opened : openSegmentInPlace platform state.context state.keys
        segment position framing.kind framing.plaintextLength with
      ⟨result, keys, left⟩
    rw [opened] at effect kept
    simp only [Prod.mk.injEq] at kept
    rw [← kept.2.2] at length
    have sized :
        (buffer.withRaw (writeBack buffer.bytes 0 left)).Sized :=
      holds.sized.withRaw (length_writeBack (by
        have inside := holds.length_le
        omega))
    refine ⟨{ state with keys },
      buffer.withRaw (writeBack buffer.bytes 0 left), rfl, sized, rfl, ?_⟩
    simp only [decryptSegmentInPlaceAtFramed, matching, not_true_eq_false,
      ↓reduceIte, holds.ciphertextLength_eq, Outcome.ok_bind,
      validateFramedLength_of_eq declared, region, opened]
    cases result with
    | error stop =>
        obtain ⟨error, rfl⟩ := effect.returns.stop_eq_err
        exact .inr ⟨error, rfl⟩
    | ok plaintext =>
        have whole := effect.opened plaintext rfl
        have exact : plaintext.length = framing.plaintextLength := by omega
        refine .inl ?_
        simp only [Except.map, exact]
  · refine ⟨state, buffer, rfl, holds.sized, rfl,
      .inr ⟨.invalidParameters, ?_⟩⟩
    simp only [decryptSegmentInPlaceAtFramed, matching, Bool.false_eq_true,
      not_false_eq_true, ↓reduceIte]

/-- Opening a segment into an output fails, or fills the declared length. -/
theorem DecryptionState.decryptSegmentIntoAtFramed_cases
    (state : DecryptionState)
    (position : Nat)
    (output : Bytes)
    (valid : framing.Valid parameters)
    (declared : segment.length = framing.ciphertextLength) :
    ∃ next left,
      next.parameters = state.parameters ∧
        (state.decryptSegmentIntoAtFramed platform segment position framing
              output = (.ok framing.plaintextLength, next, left) ∨
          ∃ error,
            state.decryptSegmentIntoAtFramed platform segment position
              framing output = (.error (.err error), next, left)) := by
  have size : segment.length = framing.plaintextLength + 32 :=
    declared.trans valid.payload.symm
  by_cases room : framing.plaintextLength ≤ output.length
  · obtain ⟨parts, cut, _⟩ :=
      segmentParts_of_length (show 32 ≤ segment.length by omega)
    rcases decryptSegmentIntoInner_cases platform state.context state.keys
        position framing.kind size cut room with
      ⟨error, next, _, result⟩ |
        ⟨_, next, _, ⟨region, _, result⟩ | ⟨error, region, _, result⟩⟩
    · refine ⟨{ state with keys := next }, output, rfl, .inr ⟨error, ?_⟩⟩
      simp only [decryptSegmentIntoAtFramed,
        validateFramedLength_of_eq declared, openInto, result]
    · refine ⟨{ state with keys := next }, writeBack output 0 region, rfl,
        .inl ?_⟩
      simp only [decryptSegmentIntoAtFramed,
        validateFramedLength_of_eq declared, openInto, result]
    · refine ⟨{ state with keys := next }, writeBack output 0 region, rfl,
        .inr ⟨error, ?_⟩⟩
      simp only [decryptSegmentIntoAtFramed,
        validateFramedLength_of_eq declared, openInto, result]
  · refine ⟨state, output, rfl,
      .inr ⟨.outputTooSmall output.length framing.plaintextLength, ?_⟩⟩
    simp only [decryptSegmentIntoAtFramed,
      validateFramedLength_of_eq declared, openInto, decryptSegmentIntoInner,
      Nat.lt_of_not_le room, ↓reduceIte]

/-- The next decryptor of a message after it opened a segment. -/
structure Decryptor.Advanced (decryptor : Decryptor) (kind : SegmentKind)
    (next : Decryptor) : Prop where
  parameters : next.parameters = decryptor.parameters
  counter : next.counter = decryptor.counter.complete kind

/-- `Decryptor::decrypt_segment_in_place` fails, or prepares the buffer with the
declared plaintext. -/
theorem Decryptor.decryptSegmentInPlace_cases
    (decryptor : Decryptor)
    (same : decryptor.parameters = buffer.parameters)
    (holds : buffer.HoldsCiphertext segment)
    (decoded : framingOf buffer.parameters segment = some framing)
    (declared : segment.length = framing.ciphertextLength) :
    ∃ left next,
      (∃ plaintext,
          decryptor.decryptSegmentInPlace platform buffer =
              (.ok plaintext, left, next) ∧
            plaintext.length = framing.plaintextLength ∧
            left.state = .plaintext plaintext.length ∧ left.Sized ∧
            left.parameters = buffer.parameters ∧
            decryptor.Advanced framing.kind next) ∨
        ∃ error,
          decryptor.decryptSegmentInPlace platform buffer =
            (.error (.err error), left, next) := by
  have valid := (framingOf_eq_some decoded).1
  have prepared : preparedFraming buffer decryptor = .ok framing := by
    unfold preparedFraming Decryptor.framing
    rw [same]
    rcases decodePrefix_spec buffer.parameters segment with
      ⟨lengthPrefix, other, cut, read, framed⟩ | ⟨missing, _⟩
    · rw [decoded, Option.some.injEq] at framed
      subst framed
      simp only [holds.ciphertext_eq, cut, Outcome.ok_bind, read]
    · rw [decoded] at missing
      cases missing
  rw [decryptSegmentInPlace_eq, SegmentBuffer.decryptWith_eq]
  rcases decryptor.counter.positionFor_cases framing.kind with
    ⟨position, reserved⟩ | ⟨error, refused⟩
  · obtain ⟨next, left, kept, sized, own, result | ⟨error, result⟩⟩ :=
      decryptor.state.decryptSegmentInPlaceAtFramed_cases platform position
        holds valid declared
    · have operated :
          openBuffer platform buffer decryptor =
            (.ok framing.plaintextLength, left,
              { state := next,
                counter := decryptor.counter.complete framing.kind }) := by
        simp only [openBuffer, prepared, advance, reserved, result]
      have full := left.parameters.plaintextSegmentLength_add
      have bounded := valid.bounded
      have payload := valid.payload
      have storage := sized
      unfold SegmentBuffer.Sized at storage
      have region :
          (slice left.bytes segmentPayloadOffset
              (segmentPayloadOffset + framing.plaintextLength) :
              Result Bytes) =
            .ok ((left.bytes.drop segmentPayloadOffset).take
              framing.plaintextLength) := by
        rw [slice_eq (Nat.le_add_right _ _) (by
          rw [storage, own, segmentPayloadOffset_eq]
          omega), Nat.add_sub_cancel_left]
      have length :
          ((left.bytes.drop segmentPayloadOffset).take
            framing.plaintextLength).length = framing.plaintextLength := by
        rw [List.length_take, List.length_drop, storage, own,
          segmentPayloadOffset_eq]
        omega
      refine ⟨{ left with state := .plaintext framing.plaintextLength },
        { state := next,
          counter := decryptor.counter.complete framing.kind },
        .inl ⟨_, ?_, length, ?_, sized, own, kept, rfl⟩⟩
      · rw [operated]
        simp only [SegmentBuffer.settle, region]
      · rw [length]
    · have operated :
          openBuffer platform buffer decryptor =
            (.error (.err error), left, { decryptor with state := next }) := by
        simp only [openBuffer, prepared, advance, reserved, result]
      refine ⟨left.clear, { decryptor with state := next },
        .inr ⟨error, ?_⟩⟩
      rw [operated]
      rfl
  · have operated :
        openBuffer platform buffer decryptor =
          (.error (.err error), buffer, decryptor) := by
      simp only [openBuffer, prepared, advance, refused]
    refine ⟨buffer.clear, decryptor, .inr ⟨error, ?_⟩⟩
    rw [operated]
    rfl

/-- `Decryptor::decrypt_segment_into_framed` fails, or fills the declared
length. -/
theorem Decryptor.decryptSegmentIntoFramed_cases
    (decryptor : Decryptor)
    (output : Bytes)
    (valid : framing.Valid parameters)
    (declared : segment.length = framing.ciphertextLength) :
    ∃ next left,
      (decryptor.decryptSegmentIntoFramed platform segment framing output =
            (.ok framing.plaintextLength, next, left) ∧
          decryptor.Advanced framing.kind next) ∨
        ∃ error,
          decryptor.decryptSegmentIntoFramed platform segment framing
            output = (.error (.err error), next, left) := by
  unfold decryptSegmentIntoFramed advance
  rcases decryptor.counter.positionFor_cases framing.kind with
    ⟨position, reserved⟩ | ⟨error, refused⟩
  · obtain ⟨next, left, kept, result | ⟨error, result⟩⟩ :=
      decryptor.state.decryptSegmentIntoAtFramed_cases platform position
        output valid declared
    · simp only [reserved, result]
      exact ⟨_, _, .inl ⟨rfl, kept, rfl⟩⟩
    · simp only [reserved, result]
      exact ⟨_, _, .inr ⟨error, rfl⟩⟩
  · simp only [refused]
    exact ⟨_, _, .inr ⟨error, rfl⟩⟩

end Opening

/-! ## Loading one segment -/

/-- What a source handed out between two moments. -/
def bytesTaken (before after : Source IoPayload) : Bytes :=
  before.remaining.take (after.cursor - before.cursor)

namespace DecryptReader

/-- A reader that can go on to its next segment. -/
structure CanLoad (reader : DecryptReader) : Prop where
  status : reader.status = .opened
  sized : reader.buffer.Sized
  decryptor :
    ∃ decryptor,
      reader.decryptor = some decryptor ∧
        decryptor.parameters = reader.buffer.parameters

/-- A reader that has taken the next segment off its source. -/
structure Took (before after : DecryptReader) (framing : SegmentFraming) :
    Prop where
  framed :
    framingOf before.parameters before.inner.remaining = some framing
  inside : framing.ciphertextLength ≤ before.inner.remaining.length
  data : after.inner.data = before.inner.data
  cursor :
    after.inner.cursor = before.inner.cursor + framing.ciphertextLength
  script : after.inner.script <:+ before.inner.script
  sized : after.buffer.Sized
  parameters : after.buffer.parameters = before.buffer.parameters
  status :
    after.status =
      if framing.kind.isFinal then .frameComplete else .opened
  canLoad : after.status = .opened → after.CanLoad

/-- A call that failed and poisoned the reader. -/
structure Fails (before after : DecryptReader) (error : IoError IoPayload) :
    Prop where
  ofSource : OfSource before.inner error
  unended : before.status ≠ .streamComplete
  status : after.status = .failed
  drained : after.plaintextConsumed = after.plaintextAvailable

section Loading

variable (platform : Platform) {reader : DecryptReader}

/-- The reader behind a segment that was fetched and opened. -/
theorem Fetched.took
    {framing : SegmentFraming}
    {inner : Source IoPayload}
    {fetchedBuffer buffer : SegmentBuffer}
    {decryptor next : Decryptor}
    {consumed available : Nat}
    (fetched : reader.Fetched framing inner fetchedBuffer)
    (used : inner.script <:+ reader.inner.script)
    (same : decryptor.parameters = reader.buffer.parameters)
    (advanced : decryptor.Advanced framing.kind next)
    (sized : buffer.Sized)
    (own : buffer.parameters = reader.buffer.parameters) :
    reader.Took
      { inner
        decryptor := if framing.kind.isFinal then none else some next
        header := reader.header
        buffer
        plaintextConsumed := consumed
        plaintextAvailable := available
        status :=
          if framing.kind.isFinal then .frameComplete else .opened }
      framing where
  framed := fetched.framed
  inside := fetched.inside
  data := fetched.data
  cursor := fetched.cursor
  script := used
  sized := sized
  parameters := own
  status := rfl
  canLoad := by
    intro opened
    refine ⟨opened, sized, next, ?_,
      advanced.parameters.trans (same.trans own.symm)⟩
    cases kind : framing.kind with
    | nonFinal => rfl
    | final =>
        simp only [kind, SegmentKind.isFinal, ↓reduceIte, reduceCtorEq]
          at opened

/-- `load_segment` on any source, with any provider. -/
theorem CanLoad.loadSegment_cases
    (canLoad : reader.CanLoad)
    (drained : reader.plaintextConsumed = reader.plaintextAvailable) :
    ∃ next,
      (∃ framing,
          reader.loadSegment platform = (.ok (), next) ∧
            reader.Took next framing ∧ next.plaintextConsumed = 0 ∧
            next.plaintextAvailable = framing.plaintextLength ∧
            next.buffer.state = .plaintext next.plaintextAvailable) ∨
        ∃ error,
          reader.loadSegment platform = (.error (.err error), next) ∧
            reader.Fails next error := by
  obtain ⟨decryptor, present, same⟩ := canLoad.decryptor
  obtain ⟨inner, fetchedBuffer, used, ⟨framing, fetch, fetched⟩ |
      ⟨error, fetch, ofSource, _⟩⟩ :=
    reader.fetchSegment_cases canLoad.sized
  · have length : (reader.inner.remaining.take
        framing.ciphertextLength).length = framing.ciphertextLength :=
      List.length_take_of_le fetched.inside
    have decoded :
        framingOf fetchedBuffer.parameters
            (reader.inner.remaining.take framing.ciphertextLength) =
          some framing := by
      rw [fetched.parameters]
      exact framingOf_segment fetched.framed
    obtain ⟨left, next, ⟨plaintext, opened, exact, held, sized, own,
        advanced⟩ | ⟨error, opened⟩⟩ :=
      decryptor.decryptSegmentInPlace_cases platform
        (same.trans fetched.parameters.symm) fetched.holds decoded length
    · have finished := @finishIfFinal_eq
        { reader with inner, buffer := left, decryptor := some next } framing
        next rfl canLoad.status fun final => by
          rw [advanced.counter, final]
          rfl
      refine ⟨_, .inl ⟨framing, ?_,
        @Fetched.took reader framing inner fetchedBuffer left decryptor next 0
          plaintext.length fetched used same advanced sized
          (own.trans fetched.parameters), rfl, exact, held⟩⟩
      simp only [loadSegment, tryLoadSegment, fetch, present, opened,
        finished, poisonOnError]
    · refine ⟨{ reader with
          inner
          buffer := left
          decryptor := some next
          status := .failed }, .inr ⟨decryptionError error, ?_,
        ofSource_decryptionError _ _, by simp [canLoad.status], rfl,
        drained⟩⟩
      simp only [loadSegment, tryLoadSegment, fetch, present, opened,
        Outcome.mapErr, poisonOnError]
  · refine ⟨{ reader with inner, buffer := fetchedBuffer, status := .failed },
      .inr ⟨error, ?_, ofSource, by simp [canLoad.status], rfl, drained⟩⟩
    simp only [loadSegment, tryLoadSegment, fetch, poisonOnError]

/-- `read_segment_direct` on any source, with any provider. -/
theorem CanLoad.readSegmentDirect_cases
    (canLoad : reader.CanLoad)
    (drained : reader.plaintextConsumed = reader.plaintextAvailable)
    (output : Bytes) :
    ∃ next left,
      (∃ framing,
          reader.readSegmentDirect platform output =
              (.ok framing.plaintextLength, next, left) ∧
            reader.Took next framing ∧ next.plaintextConsumed = 0 ∧
            next.plaintextAvailable = 0) ∨
        ∃ error,
          reader.readSegmentDirect platform output =
              (.error (.err error), next, left) ∧
            reader.Fails next error := by
  obtain ⟨decryptor, present, same⟩ := canLoad.decryptor
  obtain ⟨inner, buffer, used, ⟨framing, fetch, fetched⟩ |
      ⟨error, fetch, ofSource, _⟩⟩ :=
    reader.fetchSegment_cases canLoad.sized
  · have length : (reader.inner.remaining.take
        framing.ciphertextLength).length = framing.ciphertextLength :=
      List.length_take_of_le fetched.inside
    have held := fetched.holds.ciphertext_eq
    obtain ⟨next, left, ⟨opened, advanced⟩ | ⟨error, opened⟩⟩ :=
      decryptor.decryptSegmentIntoFramed_cases platform output
        (framingOf_eq_some fetched.framed).1 length
    · have finished := @finishIfFinal_eq
        { reader with inner, buffer, decryptor := some next } framing next
        rfl canLoad.status fun final => by
          rw [advanced.counter, final]
          rfl
      refine ⟨_, left, .inl ⟨framing, ?_,
        @Fetched.took reader framing inner buffer buffer decryptor next 0 0
          fetched used same advanced fetched.holds.sized fetched.parameters,
        rfl, rfl⟩⟩
      simp only [readSegmentDirect, tryReadSegmentDirect, fetch, present,
        held, Outcome.mapErr, opened, finished, poisonOnError]
    · refine ⟨{ reader with
          inner, buffer, decryptor := some next, status := .failed }, left,
        .inr ⟨decryptionError error, ?_, ofSource_decryptionError _ _,
          by simp [canLoad.status], rfl, drained⟩⟩
      simp only [readSegmentDirect, tryReadSegmentDirect, fetch, present,
        held, opened, Outcome.mapErr, poisonOnError]
  · refine ⟨{ reader with inner, buffer, status := .failed }, output,
      .inr ⟨error, ?_, ofSource, by simp [canLoad.status], rfl, drained⟩⟩
    simp only [readSegmentDirect, tryReadSegmentDirect, fetch, poisonOnError]

end Loading

/-! ## Passing over segments -/

/-- A reader that goes on from `before` by taking segments with plaintexts of
these lengths off its source. -/
structure Passes (before after : DecryptReader) (lengths : List Nat) :
    Prop where
  script : after.inner.script <:+ before.inner.script
  data : after.inner.data = before.inner.data
  cursor : before.inner.cursor ≤ after.inner.cursor
  parameters : after.buffer.parameters = before.buffer.parameters
  status :
    after.status = before.status ∨
      before.status = .opened ∧ after.status = .frameComplete
  complete : before.isComplete = true → lengths = []
  passed :
    ∀ taken earlier,
      (framingStream before.parameters).Passed 0 taken earlier
          before.isComplete [] →
        (framingStream before.parameters).Passed 0
          (taken ++ bytesTaken before.inner after.inner) (earlier ++ lengths)
          after.isComplete []

section Passing

variable {before middle after : DecryptReader} {framing : SegmentFraming}

/-- A reader whose source and status are the same has taken nothing. -/
theorem passes_idle
    (inner : after.inner = before.inner)
    (parameters : after.buffer.parameters = before.buffer.parameters)
    (status : after.status = before.status) :
    before.Passes after [] := by
  have complete : after.isComplete = before.isComplete := by
    simp only [isComplete, status]
  refine ⟨congrArg Source.script inner ▸ List.suffix_rfl, by rw [inner],
    by rw [inner], parameters, .inl status, fun _ => rfl,
    fun taken earlier passed => ?_⟩
  rw [bytesTaken, inner, Nat.sub_self, List.take_zero, List.append_nil,
    List.append_nil, complete]
  exact passed

/-- Between two moments a source hands out what it does up to a moment in
between and what it does from there on. -/
theorem bytesTaken_trans
    {first second third : Source IoPayload}
    (data : second.data = first.data)
    (earlier : first.cursor ≤ second.cursor)
    (later : second.cursor ≤ third.cursor) :
    bytesTaken first second ++ bytesTaken second third =
      bytesTaken first third := by
  have parts : third.cursor - first.cursor =
      (second.cursor - first.cursor) + (third.cursor - second.cursor) := by
    omega
  have left : second.remaining =
      first.remaining.drop (second.cursor - first.cursor) := by
    rw [Source.remaining, Source.remaining, data, List.drop_drop,
      Nat.add_sub_of_le earlier]
  rw [bytesTaken, bytesTaken, bytesTaken, left, parts, List.take_add]

/-- A reader that has seen the final segment stays behind it. -/
theorem Passes.still_complete
    {lengths : List Nat}
    (passes : before.Passes after lengths)
    (complete : before.isComplete = true) :
    after.isComplete = true := by
  rcases passes.status with same | ⟨opened, _⟩
  · simpa only [isComplete, same] using complete
  · simp [isComplete, opened] at complete

theorem Passes.trans
    {first second : List Nat}
    (earlier : before.Passes middle first)
    (later : middle.Passes after second) :
    before.Passes after (first ++ second) := by
  refine ⟨later.script.trans earlier.script, later.data.trans earlier.data,
    Nat.le_trans earlier.cursor later.cursor,
    later.parameters.trans earlier.parameters, ?_, ?_, ?_⟩
  · rcases earlier.status with same | ⟨opened, complete⟩
    · rw [← same]
      exact later.status
    · rcases later.status with same | ⟨impossible, _⟩
      · exact .inr ⟨opened, same.trans complete⟩
      · rw [complete] at impossible
        cases impossible
  · intro complete
    rw [earlier.complete complete,
      later.complete (earlier.still_complete complete)]
    rfl
  · intro taken lengths passed
    have own : middle.parameters = before.parameters := earlier.parameters
    have more := later.passed _ _
      (by rw [own]; exact earlier.passed taken lengths passed)
    rw [own, List.append_assoc, List.append_assoc,
      bytesTaken_trans earlier.data earlier.cursor later.cursor] at more
    exact more

/-- The reader was open before it took a segment, and is complete behind a
final one. -/
theorem Took.passes
    (took : before.Took after framing)
    (opened : before.status = .opened) :
    before.Passes after [framing.plaintextLength] := by
  have unfinished : before.isComplete = false := by
    simp [isComplete, opened]
  have complete : after.isComplete = framing.kind.isFinal := by
    cases kind : framing.kind with
    | nonFinal =>
        simp [isComplete, took.status, kind, SegmentKind.isFinal]
    | final =>
        simp [isComplete, took.status, kind, SegmentKind.isFinal]
  have taken : bytesTaken before.inner after.inner =
      before.inner.remaining.take framing.ciphertextLength := by
    rw [bytesTaken, took.cursor, Nat.add_sub_cancel_left]
  have decoded :
      framingOf before.parameters
          (before.inner.remaining.take framing.ciphertextLength) =
        some framing :=
    framingOf_segment took.framed
  refine ⟨took.script, took.data, ?_, took.parameters, ?_, ?_, ?_⟩
  · rw [took.cursor]
    exact Nat.le_add_right _ _
  · rw [took.status, opened]
    cases framing.kind.isFinal with
    | false => exact .inl rfl
    | true => exact .inr ⟨rfl, rfl⟩
  · rw [unfinished]
    exact fun impossible => by cases impossible
  · intro bytes earlier passed
    rw [unfinished] at passed
    rw [taken, complete]
    exact passed.frame (framingStream_isFrame _ decoded
      (List.length_take_of_le took.inside).symm)

/-- Taking a segment shortens what is left of the source. -/
theorem Took.shorter
    (took : before.Took after framing) :
    after.inner.remaining.length < before.inner.remaining.length := by
  have payload := (framingOf_eq_some took.framed).1.payload
  have inside := took.inside
  rw [Source.remaining, List.length_drop] at inside ⊢
  rw [took.data, took.cursor, Source.remaining, List.length_drop]
  omega

end Passing

/-! ## Consistent readers -/

/-- A reader that has not failed. -/
structure Consistent (reader : DecryptReader) : Prop where
  unfailed : reader.status ≠ .failed
  sized : reader.buffer.Sized
  canLoad : reader.status = .opened → reader.CanLoad
  within : reader.plaintextConsumed ≤ reader.plaintextAvailable
  held :
    reader.plaintextConsumed < reader.plaintextAvailable →
      reader.buffer.state = .plaintext reader.plaintextAvailable ∧
        reader.plaintextAvailable ≤
          reader.buffer.parameters.plaintextSegmentLength
  spent :
    reader.status = .streamComplete →
      reader.plaintextConsumed = reader.plaintextAvailable

/-- How many plaintext bytes the reader still holds. -/
def unserved (self : DecryptReader) : Nat :=
  self.plaintextAvailable - self.plaintextConsumed

section Reads

variable (platform : Platform) {reader : DecryptReader}

/-- The cursor moves within the plaintext that the reader holds. -/
theorem Consistent.consume
    (consistent : reader.Consistent)
    {consumed : Nat}
    (later : reader.plaintextConsumed ≤ consumed)
    (within : consumed ≤ reader.plaintextAvailable) :
    { reader with plaintextConsumed := consumed }.Consistent where
  unfailed := consistent.unfailed
  sized := consistent.sized
  canLoad := by
    intro opened
    obtain ⟨_, sized, decryptor⟩ := consistent.canLoad opened
    exact ⟨opened, sized, decryptor⟩
  within := within
  held := fun ahead => consistent.held (by simp only at ahead; omega)
  spent := by
    intro ended
    have all := consistent.spent ended
    simp only
    omega

/-- A reader behind a segment that was loaded or handed out directly. -/
theorem Took.consistent
    {next : DecryptReader}
    {framing : SegmentFraming}
    (took : reader.Took next framing)
    (consumed : next.plaintextConsumed = 0)
    (buffered :
      next.plaintextAvailable = 0 ∨
        next.plaintextAvailable = framing.plaintextLength ∧
          next.buffer.state = .plaintext next.plaintextAvailable) :
    next.Consistent where
  unfailed := by
    rw [took.status]
    cases framing.kind.isFinal <;> simp
  sized := took.sized
  canLoad := took.canLoad
  within := by
    rw [consumed]
    exact Nat.zero_le _
  held := by
    intro ahead
    rcases buffered with empty | ⟨available, state⟩
    · omega
    · have valid := (framingOf_eq_some took.framed).1
      have payload := valid.payload
      have bounded := valid.bounded
      have full := next.buffer.parameters.plaintextSegmentLength_add
      have own : next.buffer.parameters = reader.parameters :=
        took.parameters
      refine ⟨state, ?_⟩
      rw [← own] at bounded
      omega
  spent := by
    rw [took.status]
    intro impossible
    cases last : framing.kind.isFinal <;> simp [last] at impossible

/-- Serving buffered bytes never fails. -/
theorem Consistent.readBuffered_eq
    (consistent : reader.Consistent)
    (ahead : reader.plaintextConsumed < reader.plaintextAvailable)
    (output : Bytes) :
    ∃ left,
      reader.readBuffered output =
        (.ok (min output.length reader.unserved),
          { reader with
            plaintextConsumed :=
              reader.plaintextConsumed + min output.length reader.unserved },
          left) := by
  obtain ⟨state, fits⟩ := consistent.held ahead
  have sized := consistent.sized
  have full := reader.buffer.parameters.plaintextSegmentLength_add
  unfold SegmentBuffer.Sized at sized
  let content :=
    (reader.buffer.bytes.drop segmentPayloadOffset).take
      reader.plaintextAvailable
  have plaintext : reader.buffer.plaintext = .ok content := by
    simp only [SegmentBuffer.plaintext, state]
    rw [slice_eq (Nat.le_add_right _ _) (by
      rw [segmentPayloadOffset_eq]
      omega), Nat.add_sub_cancel_left]
  have whole : reader.plaintextAvailable = content.length := by
    simp only [content, List.length_take, List.length_drop,
      segmentPayloadOffset_eq]
    omega
  have count :
      ((content.drop reader.plaintextConsumed).take output.length).length =
        min output.length reader.unserved := by
    rw [List.length_take, List.length_drop, ← whole, unserved]
  refine ⟨(content.drop reader.plaintextConsumed).take output.length ++
    output.drop (min output.length reader.unserved), ?_⟩
  simp only [readBuffered, plaintext, Outcome.mapErr, Outcome.ok_bind]
  rw [handOut_eq whole (by omega), count]

/-- A reader that has neither failed nor seen the final segment is open. -/
theorem Consistent.opened
    (consistent : reader.Consistent)
    (unfinished : ¬ reader.isComplete = true) :
    reader.status = .opened := by
  have unfailed := consistent.unfailed
  simp only [isComplete, decide_eq_true_eq, not_or] at unfinished
  cases status : reader.status with
  | opened => rfl
  | frameComplete => exact (unfinished.1 status).elim
  | streamComplete => exact (unfinished.2 status).elim
  | failed => exact (unfailed status).elim

/-- A segment without plaintext is a final one. -/
theorem Took.complete_of_empty
    {next : DecryptReader}
    {framing : SegmentFraming}
    (took : reader.Took next framing)
    (empty : framing.plaintextLength = 0) :
    next.isComplete = true := by
  have valid := (framingOf_eq_some took.framed).1
  have payload := valid.payload
  have minimum := reader.parameters.minimum_le
  cases kind : framing.kind with
  | nonFinal =>
      have full := valid.full kind
      omega
  | final =>
      simp [isComplete, took.status, kind, SegmentKind.isFinal]

/-- A reader that has handed `count` plaintext bytes out while it took segments
with plaintexts of these lengths. -/
structure Serves (before after : DecryptReader) (lengths : List Nat)
    (count : Nat) : Prop where
  consistent : after.Consistent
  passes : before.Passes after lengths
  counted : count + after.unserved = before.unserved + lengths.sum

/-- A read that hands buffered bytes out. -/
theorem Consistent.serves
    {next : DecryptReader}
    {lengths : List Nat}
    (consistent : next.Consistent)
    (passes : reader.Passes next lengths)
    (counted : next.unserved = reader.unserved + lengths.sum)
    (room : Nat) :
    reader.Serves
      { next with
        plaintextConsumed := next.plaintextConsumed + min room next.unserved }
      lengths (min room next.unserved) := by
  have within := consistent.within
  unfold unserved at counted ⊢
  refine ⟨consistent.consume (Nat.le_add_right _ _) (by omega), ?_, ?_⟩
  · rw [← List.append_nil lengths]
    exact passes.trans (passes_idle rfl rfl rfl)
  · simp only [unserved]
    omega

/-- `read` on any source, with any provider. -/
theorem Consistent.read_cases
    (consistent : reader.Consistent)
    (output : Bytes) :
    ∃ next left,
      (∃ count lengths,
          reader.read platform output = (.ok count, next, left) ∧
            reader.Serves next lengths count) ∨
        ∃ error,
          reader.read platform output =
              (.error (.err error), next, left) ∧
            reader.Fails next error := by
  have unfailed := consistent.unfailed
  have idle : reader.Serves reader [] 0 :=
    ⟨consistent, passes_idle rfl rfl rfl, Nat.zero_add _⟩
  by_cases empty : output = []
  · refine ⟨reader, output, .inl ⟨0, [], ?_, idle⟩⟩
    simp only [read, empty, ↓reduceIte]
  by_cases drained : reader.plaintextConsumed = reader.plaintextAvailable
  · by_cases complete : reader.isComplete = true
    · refine ⟨reader, output, .inl ⟨0, [], ?_, idle⟩⟩
      simp only [read, empty, unfailed, drained, complete, ↓reduceIte]
    have opened := consistent.opened complete
    have canLoad := consistent.canLoad opened
    have nothing : reader.unserved = 0 := by
      rw [unserved, drained, Nat.sub_self]
    by_cases direct :
        output.length ≥ reader.parameters.plaintextSegmentLength
    · -- The segment goes straight into the caller's output.
      have shape : reader.read platform output =
          reader.readSegmentDirect platform output := by
        simp only [read, empty, unfailed, drained, complete, direct,
          Bool.false_eq_true, ↓reduceIte]
      rw [shape]
      obtain ⟨next, left, ⟨framing, result, took, consumed, available⟩ |
          ⟨error, result, fails⟩⟩ :=
        canLoad.readSegmentDirect_cases platform drained output
      · refine ⟨next, left, .inl ⟨_, _, result,
          took.consistent consumed (.inl available), took.passes opened,
          ?_⟩⟩
        simp [unserved, consumed, available, drained]
      · exact ⟨next, left, .inr ⟨error, result, fails⟩⟩
    · obtain ⟨next, ⟨framing, result, took, consumed, available, state⟩ |
          ⟨error, result, fails⟩⟩ :=
        canLoad.loadSegment_cases platform drained
      · have loaded := took.consistent consumed (.inr ⟨available, state⟩)
        have counted : next.unserved =
            reader.unserved + [framing.plaintextLength].sum := by
          simp [unserved, consumed, available, drained]
        by_cases blank : next.plaintextConsumed = next.plaintextAvailable
        · have ended := took.complete_of_empty (by omega)
          refine ⟨next, output, .inl ⟨0, _, ?_, loaded, took.passes opened,
            by rw [Nat.zero_add, counted]⟩⟩
          simp only [read, empty, unfailed, drained, complete, direct,
            result, blank, ended, Bool.false_eq_true, ↓reduceIte]
          rfl
        · obtain ⟨left, served⟩ := loaded.readBuffered_eq
            (Nat.lt_of_le_of_ne loaded.within blank) output
          refine ⟨_, left, .inl ⟨_, _, ?_,
            loaded.serves (took.passes opened) counted output.length⟩⟩
          simp only [read, empty, unfailed, drained, complete, direct,
            result, blank, served, Bool.false_eq_true, ↓reduceIte]
      · refine ⟨next, output, .inr ⟨error, ?_, fails⟩⟩
        simp only [read, empty, unfailed, drained, complete, direct, result,
          Bool.false_eq_true, ↓reduceIte]
  · obtain ⟨left, served⟩ := consistent.readBuffered_eq
      (Nat.lt_of_le_of_ne consistent.within drained) output
    refine ⟨_, left, .inl ⟨_, [], ?_,
      consistent.serves (passes_idle rfl rfl rfl) rfl output.length⟩⟩
    simp only [read, empty, unfailed, drained, served, ↓reduceIte]

/-! ### Finalizing -/

/-- A reader that has drained its message: no segment is left, and no plaintext
is held. -/
structure Drained (before after : DecryptReader) (lengths : List Nat) :
    Prop where
  consistent : after.Consistent
  passes : before.Passes after lengths
  complete : after.isComplete = true
  empty : after.plaintextConsumed = after.plaintextAvailable

/-- The loop of `drain_message` comes back: it goes on to the final segment,
or fails before it. -/
theorem Consistent.drainLoop_cases
    {fuel : Nat}
    (consistent : reader.Consistent)
    (drained : reader.plaintextConsumed = reader.plaintextAvailable)
    (enough : reader.inner.remaining.length < fuel) :
    ∃ next,
      (∃ lengths,
          drainLoop platform fuel reader = (.ok (), next) ∧
            reader.Drained next lengths) ∨
        ∃ error,
          drainLoop platform fuel reader = (.error (.err error), next) ∧
            reader.Fails next error := by
  induction fuel generalizing reader with
  | zero =>
      omega
  | succ fuel inductionHypothesis =>
      by_cases complete : reader.isComplete = true
      · have unopened : reader.status ≠ .opened := by
          intro opened
          simp [isComplete, opened] at complete
        refine ⟨reader, .inl ⟨[], ?_, consistent, passes_idle rfl rfl rfl,
          complete, drained⟩⟩
        simp only [drainLoop, unopened, ↓reduceIte]
      have opened := consistent.opened complete
      obtain ⟨next, ⟨framing, result, took, consumed, available, state⟩ |
          ⟨error, result, fails⟩⟩ :=
        (consistent.canLoad opened).loadSegment_cases platform drained
      · have loaded := took.consistent consumed (.inr ⟨available, state⟩)
        have shorter := took.shorter
        have passes := (took.passes opened).trans
          (@passes_idle next
            { next with plaintextConsumed := next.plaintextAvailable } rfl
            rfl rfl)
        obtain ⟨last, ⟨lengths, rest, done⟩ | ⟨error, rest, fails⟩⟩ :=
          inductionHypothesis (loaded.consume loaded.within (Nat.le_refl _))
            rfl (by simp only; omega)
        · refine ⟨last, .inl ⟨_, ?_, done.consistent,
            passes.trans done.passes, done.complete, done.empty⟩⟩
          simp only [drainLoop, opened, ↓reduceIte, result, rest]
        · refine ⟨last, .inr ⟨error, ?_,
            fails.ofSource.of_suffix took.script, by simp [opened],
            fails.status, fails.drained⟩⟩
          simp only [drainLoop, opened, ↓reduceIte, result, rest]
      · refine ⟨next, .inr ⟨error, ?_, fails⟩⟩
        simp only [drainLoop, opened, ↓reduceIte, result]

/-- `drain_message` on any source, with any provider. -/
theorem Consistent.drainMessage_cases
    (consistent : reader.Consistent) :
    ∃ next,
      (∃ lengths,
          reader.drainMessage platform = (.ok (), next) ∧
            reader.Drained next lengths) ∨
        ∃ error,
          reader.drainMessage platform = (.error (.err error), next) ∧
            reader.Fails next error := by
  let start : DecryptReader :=
    { reader with plaintextConsumed := reader.plaintextAvailable }
  have started : start.Consistent :=
    consistent.consume consistent.within (Nat.le_refl _)
  obtain ⟨next, ⟨lengths, result, done⟩ | ⟨error, result, fails⟩⟩ :=
    @Consistent.drainLoop_cases platform start
      (start.inner.remaining.length + 2) started rfl (by omega)
  · have unfailed := done.consistent.unfailed
    have passes := (@passes_idle reader start rfl rfl rfl).trans done.passes
    refine ⟨next, .inl ⟨lengths, ?_, done.consistent, passes, done.complete,
      done.empty⟩⟩
    simp only [start] at result
    simp only [drainMessage, result, unfailed, ↓reduceIte]
  · refine ⟨next, .inr ⟨error, ?_, fails.ofSource, fails.unended,
      fails.status, fails.drained⟩⟩
    simp only [start] at result
    simp only [drainMessage, result]

end Reads

/-! ## Calls -/

/-- A call on a decrypting reader that leaves the reader with its caller. -/
inductive Call where
  | read (output : Bytes)
  | tryFinish
  | tryFinishFrame
  | getMut (use : Source IoPayload → Source IoPayload)

namespace Call

/-- Performs a call and returns how much plaintext it handed out. -/
def perform (platform : Platform) :
    Call → DecryptReader → IoResult Nat × DecryptReader
  | .read output, reader =>
      match reader.read platform output with
      | (result, reader, _) => (result, reader)
  | .tryFinish, reader =>
      match reader.tryFinish platform with
      | (result, reader) => (result.map fun _ => 0, reader)
  | .tryFinishFrame, reader =>
      match reader.tryFinishFrame platform with
      | (result, reader) => (result.map fun _ => 0, reader)
  | .getMut use, reader =>
      (.ok 0, reader.getMut use)

/-- The reader once a call has taken its segments, before a finalizer looks for
the end of the stream. -/
def loaded (platform : Platform) : Call → DecryptReader → DecryptReader
  | .read output, reader => (reader.read platform output).2.1
  | .tryFinish, reader => (reader.drainMessage platform).2
  | .tryFinishFrame, reader => (reader.drainMessage platform).2
  | .getMut _, reader => reader

/-- The call is a finalizer, which discards the plaintext that was not read. -/
def finalizes : Call → Bool
  | .read _ => false
  | .tryFinish => true
  | .tryFinishFrame => true
  | .getMut _ => false

end Call

/-- The source reports the end of its stream. -/
def atEnd (source : Source IoPayload) : Bool :=
  match (readFully source (zeros 1)).1 with
  | .ok 0 => true
  | .ok (_ + 1) => false
  | .error _ => false

/-- Whether the end of the stream has been seen and the source not been touched
since. -/
def Call.endSeen (platform : Platform) (reader : DecryptReader) (seen : Bool) :
    Call → Bool
  | .read _ => seen
  | .tryFinish => seen || atEnd (reader.drainMessage platform).2.inner
  | .tryFinishFrame => seen
  | .getMut _ => false

/-- What a successful call on a consistent reader does. -/
structure Performs (platform : Platform) (call : Call)
    (before after : DecryptReader) (count : Nat) : Prop where
  consistent : after.Consistent
  parameters : after.buffer.parameters = before.buffer.parameters
  complete : after.isComplete = (call.loaded platform before).isComplete
  ended :
    after.status = .streamComplete ↔
      call.endSeen platform before (before.status = .streamComplete) = true
  passes :
    ∃ lengths,
      before.Passes (call.loaded platform before) lengths ∧
        (call.finalizes = false →
          count + after.unserved = before.unserved + lengths.sum)
  finalized :
    call.finalizes = true →
      after.isComplete = true ∧ after.unserved = 0

section Calls

variable (platform : Platform) {reader : DecryptReader}

/-- No call but a finalizer turns a reader into one that saw the end of its
stream. -/
theorem Passes.ended_iff
    {next : DecryptReader}
    {lengths : List Nat}
    (passes : reader.Passes next lengths) :
    next.status = .streamComplete ↔ reader.status = .streamComplete := by
  rcases passes.status with same | ⟨opened, complete⟩
  · rw [same]
  · simp [opened, complete]

/-- Discarding leaves a reader alone that holds nothing. -/
theorem discard_eq
    (drained : reader.plaintextConsumed = reader.plaintextAvailable) :
    { reader with plaintextConsumed := reader.plaintextAvailable } =
      reader := by
  obtain ⟨inner, decryptor, header, buffer, consumed, available, status⟩ :=
    reader
  simp only at drained
  rw [drained]

/-- A finalized reader stays so. -/
theorem tryFinish_streamComplete
    (ended : reader.status = .streamComplete) :
    reader.tryFinish platform = (.ok (), reader) := by
  simp only [tryFinish, ended, ↓reduceIte]

/-- `try_finish` looks for the end of the stream behind the final segment. -/
theorem Consistent.tryFinish_cases
    (consistent : reader.Consistent)
    (unended : reader.status ≠ .streamComplete) :
    ∃ next,
      (∃ drained lengths,
          reader.drainMessage platform = (.ok (), drained) ∧
            reader.Drained drained lengths ∧
            reader.tryFinish platform = (.ok (), next) ∧
            atEnd drained.inner = true ∧
            next =
              { drained with
                inner := (readFully drained.inner (zeros 1)).2.2
                status := .streamComplete }) ∨
        ∃ error,
          reader.tryFinish platform = (.error (.err error), next) ∧
            reader.Fails next error := by
  obtain ⟨drained, ⟨lengths, result, done⟩ | ⟨error, result, fails⟩⟩ :=
    consistent.drainMessage_cases platform
  · obtain ⟨outcome, taken, after, read, reads⟩ :=
      readFully_spec drained.inner (zeros 1)
    have scripted := readFully_scripted drained.inner (zeros 1)
    rw [read] at scripted
    cases outcome with
    | error stop =>
        obtain ⟨error, rfl⟩ := reads.returns.stop_eq_err
        have ofSource : OfSource drained.inner error :=
          fun _ => scripted.reported error rfl
        refine ⟨{ drained with inner := after, status := .failed },
          .inr ⟨error, ?_, ofSource.of_suffix done.passes.script, unended,
            rfl, done.empty⟩⟩
        simp only [tryFinish, unended, ↓reduceIte, result, read]
        rfl
    | ok _ =>
        cases taken with
        | nil =>
            refine ⟨{ drained with inner := after, status := .streamComplete },
              .inl ⟨drained, lengths, result, done, ?_, ?_, ?_⟩⟩
            · simp only [tryFinish, unended, ↓reduceIte, result, read]
              rfl
            · simp only [atEnd, read]
              rfl
            · rw [read]
        | cons byte rest =>
            refine ⟨{ drained with inner := after, status := .failed },
              .inr ⟨trailingDataError, ?_, (fun same => by cases same),
                unended, rfl, done.empty⟩⟩
            simp only [tryFinish, unended, ↓reduceIte, result, read]
            rfl
  · refine ⟨drained, .inr ⟨error, ?_, fails⟩⟩
    simp only [tryFinish, unended, ↓reduceIte, result]

/-- `get_mut` leaves everything but the source and the end-of-stream check
alone. -/
theorem Consistent.getMut
    (consistent : reader.Consistent)
    (use : Source IoPayload → Source IoPayload) :
    (reader.getMut use).Consistent ∧
      (reader.getMut use).isComplete = reader.isComplete ∧
      (reader.getMut use).status ≠ .streamComplete := by
  by_cases ended : reader.status = .streamComplete
  · have shape : reader.getMut use =
        { reader with
          inner := use reader.inner, status := .frameComplete } := by
      simp only [DecryptReader.getMut, ended, ↓reduceIte]
    rw [shape]
    refine ⟨⟨by simp, consistent.sized, by simp, consistent.within,
      consistent.held, by simp⟩, ?_, by simp⟩
    simp [isComplete, ended]
  · have shape : reader.getMut use =
        { reader with inner := use reader.inner } := by
      simp only [DecryptReader.getMut, ended, ↓reduceIte]
    rw [shape]
    refine ⟨⟨consistent.unfailed, consistent.sized, fun opened => ?_,
      consistent.within, consistent.held, consistent.spent⟩, rfl, ended⟩
    obtain ⟨_, sized, decryptor⟩ := consistent.canLoad opened
    exact ⟨opened, sized, decryptor⟩

/-- Every call on a consistent reader comes back.  It succeeds as it should, or
it fails and poisons the reader. -/
theorem Consistent.perform_cases
    (consistent : reader.Consistent)
    (call : Call) :
    ∃ next,
      (∃ count,
          call.perform platform reader = (.ok count, next) ∧
            Performs platform call reader next count) ∨
        ∃ error,
          call.perform platform reader = (.error (.err error), next) ∧
            reader.Fails next error := by
  cases call with
  | read output =>
      obtain ⟨next, left, ⟨count, lengths, result, serves⟩ |
          ⟨error, result, fails⟩⟩ :=
        consistent.read_cases platform output
      · have loaded : (Call.read output).loaded platform reader = next := by
          simp only [Call.loaded, result]
        refine ⟨next, .inl ⟨count, ?_, serves.consistent,
          serves.passes.parameters, ?_, ?_,
          ⟨lengths, ?_, fun _ => serves.counted⟩,
          by simp [Call.finalizes]⟩⟩
        · simp only [Call.perform, result]
        · rw [loaded]
        · simpa only [Call.endSeen, decide_eq_true_eq]
            using serves.passes.ended_iff
        · rw [loaded]
          exact serves.passes
      · refine ⟨next, .inr ⟨error, ?_, fails⟩⟩
        simp only [Call.perform, result]
  | tryFinish =>
      by_cases ended : reader.status = .streamComplete
      · -- Nothing is left to do, so the loop of `drain_message` is idle too.
        have spent := consistent.spent ended
        have drained : reader.drainMessage platform = (.ok (), reader) := by
          simp only [drainMessage, discard_eq spent]
          simp only [drainLoop, ended, reduceCtorEq, ↓reduceIte]
        have loaded : Call.tryFinish.loaded platform reader = reader := by
          simp only [Call.loaded, drained]
        refine ⟨reader, .inl ⟨0, ?_, consistent, rfl, by rw [loaded], ?_,
          ⟨[], ?_, by simp [Call.finalizes]⟩, fun _ => ?_⟩⟩
        · simp only [Call.perform, tryFinish_streamComplete platform ended]
          rfl
        · simp [Call.endSeen, ended]
        · rw [loaded]
          exact passes_idle rfl rfl rfl
        · refine ⟨by simp [isComplete, ended], ?_⟩
          rw [unserved, spent, Nat.sub_self]
      · obtain ⟨next, ⟨drained, lengths, result, done, finished, seen, rfl⟩ |
            ⟨error, result, fails⟩⟩ :=
          consistent.tryFinish_cases platform ended
        · have loaded : Call.tryFinish.loaded platform reader = drained := by
            simp only [Call.loaded, result]
          refine ⟨{ drained with
              inner := (readFully drained.inner (zeros 1)).2.2
              status := .streamComplete }, .inl ⟨0, ?_,
            ⟨by simp, done.consistent.sized, by simp,
              done.consistent.within, done.consistent.held,
              fun _ => done.empty⟩, done.passes.parameters, ?_, ?_,
            ⟨lengths, ?_, by simp [Call.finalizes]⟩, fun _ => ?_⟩⟩
          · simp only [Call.perform, finished]
            rfl
          · rw [loaded, done.complete]
            simp [isComplete]
          · simp [Call.endSeen, result, seen]
          · rw [loaded]
            exact done.passes
          · refine ⟨by simp [isComplete], ?_⟩
            simp only [unserved, done.empty, Nat.sub_self]
        · refine ⟨next, .inr ⟨error, ?_, fails⟩⟩
          simp only [Call.perform, result]
          rfl
  | tryFinishFrame =>
      obtain ⟨next, ⟨lengths, result, done⟩ | ⟨error, result, fails⟩⟩ :=
        consistent.drainMessage_cases platform
      · have loaded : Call.tryFinishFrame.loaded platform reader = next := by
          simp only [Call.loaded, result]
        refine ⟨next, .inl ⟨0, ?_, done.consistent, done.passes.parameters,
          by rw [loaded], ?_,
          ⟨lengths, ?_, by simp [Call.finalizes]⟩,
          fun _ => ⟨done.complete, ?_⟩⟩⟩
        · simp only [Call.perform, tryFinishFrame, result]
          rfl
        · simpa only [Call.endSeen, decide_eq_true_eq]
            using done.passes.ended_iff
        · rw [loaded]
          exact done.passes
        · rw [unserved, done.empty, Nat.sub_self]
      · refine ⟨next, .inr ⟨error, ?_, fails⟩⟩
        simp only [Call.perform, tryFinishFrame, result]
        rfl
  | getMut use =>
      obtain ⟨still, complete, unended⟩ := consistent.getMut use
      refine ⟨reader.getMut use, .inl ⟨0, rfl, still, rfl, complete, ?_,
        ⟨[], passes_idle rfl rfl rfl, fun _ => ?_⟩,
        by simp [Call.finalizes]⟩⟩
      · simp only [Call.endSeen, unended, Bool.false_eq_true]
      · exact Nat.zero_add _

end Calls

end DecryptReader

end FastFloe
