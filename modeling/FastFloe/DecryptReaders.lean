import FastFloe.FailedOpenings
import FastFloe.Io
import FastFloe.Reading

namespace FastFloe

open Rust

/-!
# Decrypting readers follow their segment stream

A `DecryptReader` takes the segments of its source in order, on two paths that
leave its buffer in different states.  On either path it has passed exactly the
leading segments of the stream, and the plaintext that it has handed out,
followed by what its buffer still holds, is the plaintext of those segments.
-/

/-! ## Opening in a buffer -/

section Opening

variable {platform : Platform} {context : MessageContext} {position : Nat}
  {decryptor : Decryptor} {framing : SegmentFraming} {buffer : SegmentBuffer}
  {segment : Bytes}

/-- A decryptor decodes the framing at the head of a segment. -/
theorem Decryptor.framing_eq
    (same : decryptor.parameters = context.parameters)
    (decoded : framingOf context.parameters segment = some framing) :
    decryptor.framing segment = .ok framing := by
  unfold Decryptor.framing
  rw [same]
  rcases decodePrefix_spec context.parameters segment with
    ⟨lengthPrefix, other, cut, read, framed⟩ | ⟨missing, _⟩
  · rw [decoded, Option.some.injEq] at framed
    subst framed
    simp only [cut, Outcome.ok_bind, read]
  · rw [decoded] at missing
    cases missing

/-- Opening a framed segment in the buffer that holds it. -/
theorem DecryptionState.decryptSegmentInPlaceAtFramed_spec
    {state : DecryptionState}
    (agree : platform.OpensAgree)
    (ready : state.Ready platform context)
    (same : buffer.parameters = context.parameters)
    (holds : buffer.HoldsCiphertext segment)
    (valid : framing.Valid context.parameters)
    (declared : segment.length = framing.ciphertextLength) :
    ∃ next left, next.Ready platform context ∧
      ((∃ plaintext,
          context.openSegment platform position framing.kind segment =
              some plaintext ∧
            state.decryptSegmentInPlaceAtFramed platform buffer position
                framing = (.ok plaintext.length, next, left) ∧
            { left with state := .plaintext plaintext.length }.HoldsPlaintext
              plaintext ∧
            left.parameters = buffer.parameters) ∨
        ∃ error,
          context.openSegment platform position framing.kind segment =
              none ∧
            state.decryptSegmentInPlaceAtFramed platform buffer position
                framing = (.error (.err error), next, left)) := by
  obtain ⟨rfl, coherent⟩ := ready
  have matching : buffer.hasParameters state.parameters = true := by
    simp [SegmentBuffer.hasParameters, same, DecryptionState.parameters]
  have region :
      (slice buffer.bytes 0 segment.length : Result Bytes) = .ok segment := by
    rw [slice_zero holds.length_le, holds.content]
  have size : segment.length = framing.plaintextLength + 32 :=
    declared.trans valid.payload.symm
  obtain ⟨next, nextCoherent, success | failure⟩ :=
    openSegmentInPlace_spec position framing.kind
      (Kdf.FaultOf.refl platform.kdfExpand) agree coherent size
  · obtain ⟨plaintext, opened, result⟩ := success
    have result' :
        openSegmentInPlace platform state.context state.keys segment position
            framing.kind framing.plaintextLength =
          (.ok plaintext, next,
            writeBack segment segmentPayloadOffset plaintext) :=
      result
    have length := MessageContext.length_of_openSegment opened
      (show 32 ≤ segment.length by omega)
    refine ⟨{ state with keys := next }, _, ⟨rfl, nextCoherent⟩,
      .inl ⟨plaintext, opened, ?_, holds.opened length, rfl⟩⟩
    simp only [decryptSegmentInPlaceAtFramed, matching, not_true_eq_false,
      ↓reduceIte, holds.ciphertextLength_eq, Outcome.ok_bind,
      validateFramedLength_of_eq declared, region, result']
    rfl
  · obtain ⟨error, failed, closed, result, length⟩ := failure
    have result' :
        openSegmentInPlace platform state.context state.keys segment position
            framing.kind framing.plaintextLength =
          (.error (.err error), next, failed) :=
      result
    refine ⟨{ state with keys := next },
      buffer.withRaw (writeBack buffer.bytes 0 failed), ⟨rfl, nextCoherent⟩,
      .inr ⟨error, closed, ?_⟩⟩
    simp only [decryptSegmentInPlaceAtFramed, matching, not_true_eq_false,
      ↓reduceIte, holds.ciphertextLength_eq, Outcome.ok_bind,
      validateFramedLength_of_eq declared, region, result']
    rfl

/-- `Decryptor::decrypt_segment_in_place` on a buffer that holds a segment. -/
theorem Decryptor.At.decryptSegmentInPlace_spec
    (agree : platform.OpensAgree)
    (here : decryptor.At platform context position)
    (same : buffer.parameters = context.parameters)
    (holds : buffer.HoldsCiphertext segment)
    (decoded : framingOf context.parameters segment = some framing)
    (declared : segment.length = framing.ciphertextLength) :
    ∃ next left,
      (∃ plaintext,
          PositionAllows position framing.kind ∧
            context.openSegment platform position framing.kind segment =
              some plaintext ∧
            decryptor.decryptSegmentInPlace platform buffer =
              (.ok plaintext, left, next) ∧
            left.HoldsPlaintext plaintext ∧
            left.parameters = buffer.parameters ∧
            next.After platform context position framing.kind) ∨
        ∃ error,
          (PositionAllows position framing.kind →
            context.openSegment platform position framing.kind segment =
              none) ∧
            decryptor.decryptSegmentInPlace platform buffer =
              (.error (.err error), left, next) := by
  have own : decryptor.parameters = context.parameters :=
    here.ready.parameters_eq
  have prepared : preparedFraming buffer decryptor = .ok framing := by
    simp only [preparedFraming, holds.ciphertext_eq, Outcome.ok_bind,
      Decryptor.framing_eq own decoded]
  have valid := (framingOf_eq_some decoded).1
  rw [decryptSegmentInPlace_eq, SegmentBuffer.decryptWith_eq]
  rcases SegmentCounter.positionFor_spec here.inside framing.kind with
    ⟨allowed, reserved⟩ | ⟨refused, limit⟩
  · obtain ⟨state, left, ready, success | failure⟩ :=
      @DecryptionState.decryptSegmentInPlaceAtFramed_spec platform context
        position framing buffer segment decryptor.state agree here.ready same
        holds valid declared
    · obtain ⟨plaintext, opened, result, settled, kept⟩ := success
      have operated :
          openBuffer platform buffer decryptor =
            (.ok plaintext.length, left,
              { state,
                counter := decryptor.counter.complete framing.kind }) := by
        simp only [openBuffer, prepared, advance, here.counter, reserved,
          result]
      refine ⟨{ state, counter := decryptor.counter.complete framing.kind },
        { left with state := .plaintext plaintext.length },
        .inl ⟨plaintext, allowed, opened, ?_, settled, kept,
          here.after allowed ready⟩⟩
      have read := settled.plaintext_eq
      simp only [SegmentBuffer.plaintext] at read
      rw [operated]
      simp only [SegmentBuffer.settle, read]
    · obtain ⟨error, closed, result⟩ := failure
      have operated :
          openBuffer platform buffer decryptor =
            (.error (.err error), left, { decryptor with state }) := by
        simp only [openBuffer, prepared, advance, here.counter, reserved,
          result]
      refine ⟨{ decryptor with state }, left.clear,
        .inr ⟨error, fun _ => closed, ?_⟩⟩
      rw [operated]
      rfl
  · have operated :
        openBuffer platform buffer decryptor =
          (.error (.err .segmentLimit), buffer, decryptor) := by
      simp only [openBuffer, prepared, advance, here.counter, limit]
    refine ⟨decryptor, buffer.clear, .inr ⟨.segmentLimit, ?_, ?_⟩⟩
    · intro allowed
      exact (refused allowed).elim
    · rw [operated]
      rfl

end Opening

/-! ## Fetching a segment -/

/-- An error is not that of a poisoned adapter unless the source reports
it. -/
def OfSource (source : Source IoPayload) (error : IoError IoPayload) :
    Prop :=
  error = poisonedError →
    ∃ cursor, SourceEvent.fail error cursor ∈ source.script

theorem ofSource_decryptionError
    (source : Source IoPayload)
    (error : Error) :
    OfSource source (decryptionError error) := by
  intro same
  cases same

theorem OfSource.of_suffix
    {before after : Source IoPayload}
    {error : IoError IoPayload}
    (ofSource : OfSource after error)
    (used : after.script <:+ before.script) :
    OfSource before error := by
  intro same
  obtain ⟨cursor, scripted⟩ := ofSource same
  exact ⟨cursor, used.subset scripted⟩

namespace DecryptReader

section Fetching

variable {reader : DecryptReader}

/-- A reader that has moved a segment off its source into its buffer. -/
structure Fetched (reader : DecryptReader) (framing : SegmentFraming)
    (inner : Source IoPayload) (buffer : SegmentBuffer) : Prop where
  framed :
    framingOf reader.parameters reader.inner.remaining = some framing
  inside : framing.ciphertextLength ≤ reader.inner.remaining.length
  data : inner.data = reader.inner.data
  cursor : inner.cursor = reader.inner.cursor + framing.ciphertextLength
  honest : reader.inner.Honest → inner.Honest
  parameters : buffer.parameters = reader.buffer.parameters
  holds :
    buffer.HoldsCiphertext
      (reader.inner.remaining.take framing.ciphertextLength)

/-- The reader that has written a prefix and what follows it into its
buffer. -/
def reloaded (self : DecryptReader)
    (lengthPrefix : Octets segmentPrefixLength) (framing : SegmentFraming)
    (inner : Source IoPayload) (rest : Bytes) : DecryptReader :=
  { self with
    inner
    buffer :=
      { self.buffer with
        state := .ciphertext framing.ciphertextLength }.withRaw
        (writeBack self.buffer.bytes 0 (lengthPrefix.val ++ rest)) }

/-- The buffer has room for a segment that the parameters allow. -/
theorem prepareFramed
    {framing : SegmentFraming}
    (sized : reader.buffer.Sized)
    (valid : framing.Valid reader.parameters) :
    reader.buffer.prepareCiphertext framing.ciphertextLength =
        (.ok (reader.buffer.bytes.take framing.ciphertextLength),
          reader.buffer.markCiphertext framing.ciphertextLength) ∧
      framing.ciphertextLength ≤ reader.buffer.bytes.length := by
  have payload := valid.payload
  exact sized.prepareCiphertext (by rw [segmentOverhead_eq]; omega)
    valid.bounded

/-- The read of the rest of a segment: what the source hands out stands behind
the prefix, and the count of it decides. -/
theorem fetchRemainder_reads
    {lengthPrefix : Octets segmentPrefixLength}
    {framing : SegmentFraming}
    (sized : reader.buffer.Sized)
    (valid : framing.Valid reader.parameters) :
    ∃ result taken inner rest,
      Reads reader.inner (framing.ciphertextLength - 4) result taken inner ∧
        Scripted reader.inner result inner ∧
        (taken.length = framing.ciphertextLength - 4 → rest = taken) ∧
        reader.fetchRemainder lengthPrefix framing =
          (match result with
            | .error stop => .error stop
            | .ok _ =>
                if taken.length ≠ framing.ciphertextLength - 4 then
                  .error (.err (decryptionError (.invalidCiphertextLength
                    (segmentPrefixLength + taken.length)
                    (.exactly framing.ciphertextLength))))
                else
                  .ok framing,
            reader.reloaded lengthPrefix framing inner rest) := by
  have payload := valid.payload
  have width : lengthPrefix.val.length = 4 := lengthPrefix.length_val
  obtain ⟨prepared, fits⟩ := reader.prepareFramed sized valid
  -- What the part of the storage behind the prefix held before.
  generalize former :
    (reader.buffer.bytes.take framing.ciphertextLength).drop 4 = stale
  have staleLength : stale.length = framing.ciphertextLength - 4 := by
    rw [← former, List.length_drop, List.length_take, Nat.min_eq_left fits]
  have copied :
      (copyRange (reader.buffer.bytes.take framing.ciphertextLength) 0
          segmentPrefixLength lengthPrefix.val : IoResult Bytes) =
        .ok (lengthPrefix.val ++ stale) := by
    rw [copyRange_eq (Nat.zero_le _) (by
      rw [List.length_take, segmentPrefixLength_eq]
      omega) (by rw [width, segmentPrefixLength_eq]), writeBack_zero, width,
      former]
  have room :
      (slice (lengthPrefix.val ++ stale) segmentPrefixLength
          (lengthPrefix.val ++ stale).length : IoResult Bytes) =
        .ok stale := by
    have within : segmentPrefixLength ≤
        (lengthPrefix.val ++ stale).length := by
      rw [List.length_append, width, segmentPrefixLength_eq]
      omega
    rw [slice_eq within (Nat.le_refl _),
      List.drop_left' (width.trans segmentPrefixLength_eq.symm),
      List.take_of_length_le]
    rw [List.length_append, width, segmentPrefixLength_eq]
    omega
  obtain ⟨result, taken, inner, read, reads⟩ :=
    readFully_spec reader.inner stale
  have scripted := readFully_scripted reader.inner stale
  rw [read] at scripted
  rw [staleLength] at reads
  have bounded := reads.bounded
  have filledLength : (writeBack stale 0 taken).length = stale.length :=
    length_writeBack (by omega)
  have placed :
      writeBack (lengthPrefix.val ++ stale) segmentPrefixLength
          (writeBack stale 0 taken) =
        lengthPrefix.val ++ writeBack stale 0 taken := by
    rw [writeBack_append (by rw [width, segmentPrefixLength_eq]),
      List.drop_eq_nil_of_le (Nat.le_of_eq filledLength.symm),
      List.append_nil]
  have remainder :
      (sub framing.ciphertextLength segmentPrefixLength : IoResult Nat) =
        .ok (framing.ciphertextLength - 4) :=
    sub_eq (by rw [segmentPrefixLength_eq]; omega)
  refine ⟨result, taken, inner, writeBack stale 0 taken, reads,
    ⟨scripted.script, ?_⟩, fun complete => ?_, ?_⟩
  · rintro error rfl
    exact scripted.reported error rfl
  · rw [writeBack_zero, List.drop_eq_nil_of_le (by omega), List.append_nil]
  · simp only [fetchRemainder, prepared, copied, room, Outcome.ok_bind, read]
    cases result with
    | error stop =>
        simp only [Except.map, placed]
        rfl
    | ok _ =>
        simp only [Except.map, placed, remainder, Outcome.ok_bind]
        rfl

/-- A whole segment in the buffer of a reader that has written it there. -/
theorem reloaded_holds
    {lengthPrefix : Octets segmentPrefixLength}
    {framing : SegmentFraming}
    {inner : Source IoPayload}
    {rest : Bytes}
    (sized : reader.buffer.Sized)
    (valid : framing.Valid reader.parameters)
    (complete : rest.length = framing.ciphertextLength - 4) :
    (reader.reloaded lengthPrefix framing inner rest).buffer.HoldsCiphertext
      (lengthPrefix.val ++ rest) := by
  have payload := valid.payload
  obtain ⟨_, fits⟩ := reader.prepareFramed sized valid
  have length :
      (lengthPrefix.val ++ rest).length = framing.ciphertextLength := by
    rw [List.length_append, lengthPrefix.length_val, segmentPrefixLength_eq]
    omega
  have holds := sized.holdsCiphertext
    (show (lengthPrefix.val ++ rest).length ≤ _ by rwa [length])
  rwa [length] at holds

/-- The rest of a segment whose prefix has been read, from any source. -/
theorem fetchRemainder_cases
    {lengthPrefix : Octets segmentPrefixLength}
    {framing : SegmentFraming}
    (sized : reader.buffer.Sized)
    (valid : framing.Valid reader.parameters) :
    ∃ inner buffer,
      inner.script <:+ reader.inner.script ∧
        ((reader.fetchRemainder lengthPrefix framing =
              (.ok framing, { reader with inner, buffer }) ∧
            framing.ciphertextLength ≤ 4 + reader.inner.remaining.length ∧
            inner.data = reader.inner.data ∧
            inner.cursor =
              reader.inner.cursor + (framing.ciphertextLength - 4) ∧
            (reader.inner.Honest → inner.Honest) ∧
            buffer.parameters = reader.buffer.parameters ∧
            buffer.HoldsCiphertext
              (lengthPrefix.val ++
                reader.inner.remaining.take
                  (framing.ciphertextLength - 4))) ∨
          ∃ error,
            reader.fetchRemainder lengthPrefix framing =
                (.error (.err error), { reader with inner, buffer }) ∧
              OfSource reader.inner error ∧
              (reader.inner.Honest →
                4 + reader.inner.remaining.length <
                  framing.ciphertextLength)) := by
  have payload := valid.payload
  obtain ⟨result, taken, inner, rest, reads, scripted, whole, fetched⟩ :=
    @fetchRemainder_reads reader lengthPrefix framing sized valid
  refine ⟨inner, (reader.reloaded lengthPrefix framing inner rest).buffer,
    scripted.script, ?_⟩
  cases result with
  | error stop =>
      obtain ⟨error, rfl⟩ := reads.returns.stop_eq_err
      refine .inr ⟨error, fetched, fun _ => scripted.reported error rfl, ?_⟩
      intro honest
      cases (reads.honest honest).1
  | ok _ =>
      by_cases complete : taken.length = framing.ciphertextLength - 4
      · obtain rfl := whole complete
        have lead : rest =
            reader.inner.remaining.take (framing.ciphertextLength - 4) := by
          rw [← complete]
          exact List.prefix_iff_eq_take.mp reads.lead
        have enough := reads.lead.length_le
        refine .inl ⟨?_, by omega, reads.data, reads.cursor complete rfl,
          fun honest => (reads.honest honest).2.2.1, rfl, ?_⟩
        · rw [fetched, if_neg (not_not_intro complete)]
          rfl
        · rw [← lead]
          exact reader.reloaded_holds sized valid complete
      · refine .inr ⟨decryptionError (.invalidCiphertextLength
          (segmentPrefixLength + taken.length)
          (.exactly framing.ciphertextLength)), ?_,
          ofSource_decryptionError _ _, fun honest => ?_⟩
        · rw [fetched, if_pos complete]
          rfl
        · rw [(reads.honest honest).2.1, List.length_take] at complete
          omega

/-- The read of the next prefix: the source's error ends `fetch_segment`, and
so does a source that ends inside the prefix. -/
theorem fetchSegment_reads
    (reader : DecryptReader) :
    ∃ result taken after,
      Reads reader.inner segmentPrefixLength result taken after ∧
        Scripted reader.inner result after ∧
        reader.fetchSegment =
          match result with
          | .error stop => (.error stop, { reader with inner := after })
          | .ok _ =>
              if complete : taken.length = segmentPrefixLength then
                match SegmentFraming.decode reader.parameters
                    ⟨taken, complete⟩ with
                | .error stop =>
                    (Outcome.mapErr decryptionError (.error stop),
                      { reader with inner := after })
                | .ok framing =>
                    { reader with inner := after }.fetchRemainder
                      ⟨taken, complete⟩ framing
              else
                (.error (.err (decryptionError .truncated)),
                  { reader with inner := after }) := by
  obtain ⟨result, taken, after, read, reads⟩ :=
    readFully_spec reader.inner (zeros segmentPrefixLength)
  have scripted :=
    readFully_scripted reader.inner (zeros segmentPrefixLength)
  rw [read] at scripted
  rw [length_zeros] at reads
  have bounded := reads.bounded
  refine ⟨result, taken, after, reads, ⟨scripted.script, ?_⟩, ?_⟩
  · rintro error rfl
    exact scripted.reported error rfl
  cases result with
  | error stop =>
      simp only [fetchSegment, read]
      rfl
  | ok _ =>
      by_cases complete : taken.length = segmentPrefixLength
      · have filled :
            writeBack (zeros segmentPrefixLength) 0 taken = taken := by
          rw [writeBack_zero, List.drop_eq_nil_of_le (by
            rw [length_zeros, complete]), List.append_nil]
        simp only [fetchSegment, read, Except.map, filled, complete, ne_eq,
          not_true_eq_false, ↓reduceIte, ↓reduceDIte,
          Octets.ofSlice?_of_length complete, Outcome.expect, Outcome.ok_bind,
          parameters]
        cases SegmentFraming.decode reader.buffer.parameters
            ⟨taken, complete⟩ with
        | error stop =>
            cases stop <;> simp only [Outcome.mapErr, Outcome.error_bind]
        | ok framing =>
            simp only [Outcome.mapErr, Outcome.ok_bind]
      · have kept :
            (writeBack (zeros segmentPrefixLength) 0 taken).length =
              segmentPrefixLength := by
          rw [length_writeBack (by rw [length_zeros]; omega), length_zeros]
        simp only [fetchSegment, read, Except.map, kept, ne_eq, complete,
          not_false_eq_true, ↓reduceIte, ↓reduceDIte]

/-- A prefix that was read whole is the beginning of what the source held, and
the rest of the source stands behind it. -/
theorem prefix_of_reads
    {taken : Bytes}
    {after : Source IoPayload}
    (reads : Reads reader.inner segmentPrefixLength (.ok ()) taken after)
    (complete : taken.length = segmentPrefixLength) :
    taken = reader.inner.remaining.take segmentPrefixLength ∧
      after.cursor = reader.inner.cursor + segmentPrefixLength ∧
      after.remaining = reader.inner.remaining.drop segmentPrefixLength ∧
      framingOf reader.parameters reader.inner.remaining =
        match SegmentFraming.decode reader.parameters ⟨taken, complete⟩ with
        | .ok framing => some framing
        | .error _ => none := by
  have stands := reads.cursor complete rfl
  have lead : taken = reader.inner.remaining.take segmentPrefixLength := by
    rw [← complete]
    exact List.prefix_iff_eq_take.mp reads.lead
  refine ⟨lead, stands, ?_, ?_⟩
  · rw [Source.remaining, Source.remaining, reads.data, stands,
      List.drop_drop]
  · cases decoded : SegmentFraming.decode reader.parameters
        ⟨taken, complete⟩ <;>
      simp only [framingOf, ← lead, Octets.ofSlice?_of_length complete,
        decoded]

/-- A segment whose rest was read behind its prefix has been fetched. -/
theorem fetched_of_remainder
    {taken : Bytes}
    {framing : SegmentFraming}
    {after inner : Source IoPayload}
    {buffer : SegmentBuffer}
    (reads : Reads reader.inner segmentPrefixLength (.ok ()) taken after)
    (complete : taken.length = segmentPrefixLength)
    (valid : framing.Valid reader.parameters)
    (framed :
      framingOf reader.parameters reader.inner.remaining = some framing)
    (within : framing.ciphertextLength ≤ 4 + after.remaining.length)
    (data : inner.data = after.data)
    (cursor : inner.cursor = after.cursor + (framing.ciphertextLength - 4))
    (honest : after.Honest → inner.Honest)
    (same : buffer.parameters = reader.buffer.parameters)
    (holds :
      buffer.HoldsCiphertext
        (taken ++ after.remaining.take (framing.ciphertextLength - 4))) :
    reader.Fetched framing inner buffer := by
  obtain ⟨lead, stands, left, _⟩ := prefix_of_reads reads complete
  have payload := valid.payload
  have enough := reads.lead.length_le
  have whole :
      taken ++ after.remaining.take (framing.ciphertextLength - 4) =
        reader.inner.remaining.take framing.ciphertextLength := by
    have parts : framing.ciphertextLength =
        segmentPrefixLength + (framing.ciphertextLength - 4) := by
      rw [segmentPrefixLength_eq]
      omega
    conv_rhs => rw [parts]
    rw [List.take_add, lead, left]
  rw [left, List.length_drop] at within
  rw [segmentPrefixLength_eq] at complete stands within
  exact {
    framed
    inside := by omega
    data := data.trans reads.data
    cursor := by omega
    honest := fun isHonest => honest (reads.honest isHonest).2.2.1
    parameters := same
    holds := whole ▸ holds }

/-- `fetch_segment` takes the segment that the next prefix declares off its
source, and fails where there is none or where the source does. -/
theorem fetchSegment_cases
    (sized : reader.buffer.Sized) :
    ∃ inner buffer,
      inner.script <:+ reader.inner.script ∧
        ((∃ framing,
            reader.fetchSegment =
                (.ok framing, { reader with inner, buffer }) ∧
              reader.Fetched framing inner buffer) ∨
          ∃ error,
            reader.fetchSegment =
                (.error (.err error), { reader with inner, buffer }) ∧
              OfSource reader.inner error ∧
              (reader.inner.Honest →
                ∀ framing,
                  framingOf reader.parameters reader.inner.remaining =
                      some framing →
                    reader.inner.remaining.length <
                      framing.ciphertextLength)) := by
  obtain ⟨result, taken, after, reads, scripted, fetched⟩ :=
    reader.fetchSegment_reads
  cases result with
  | error stop =>
      obtain ⟨error, rfl⟩ := reads.returns.stop_eq_err
      refine ⟨after, reader.buffer, scripted.script,
        .inr ⟨error, fetched, fun _ => scripted.reported error rfl, ?_⟩⟩
      intro honest
      cases (reads.honest honest).1
  | ok _ =>
      by_cases complete : taken.length = segmentPrefixLength
      · obtain ⟨_, _, left, framed⟩ := prefix_of_reads reads complete
        rw [dif_pos complete] at fetched
        rcases SegmentFraming.decode_spec reader.parameters
            ⟨taken, complete⟩ with
          ⟨framing, decoded, valid, _⟩ | ⟨⟨error, failed⟩, _⟩
        · rw [decoded] at fetched framed
          obtain ⟨inner, buffer, used,
              ⟨result, within, data, cursor, honest, same, holds⟩ |
              ⟨error, result, ofSource, beyond⟩⟩ :=
            @fetchRemainder_cases { reader with inner := after }
              ⟨taken, complete⟩ framing sized valid
          · exact ⟨inner, buffer, used.trans scripted.script,
              .inl ⟨framing, fetched.trans result,
                fetched_of_remainder reads complete valid framed within data
                  cursor honest same holds⟩⟩
          · refine ⟨inner, buffer, used.trans scripted.script,
              .inr ⟨error, fetched.trans result,
                ofSource.of_suffix scripted.script, ?_⟩⟩
            intro honest other same
            rw [framed, Option.some.injEq] at same
            subst same
            have short := beyond (reads.honest honest).2.2.1
            have enough := reads.lead.length_le
            simp only [left, List.length_drop] at short
            rw [segmentPrefixLength_eq] at short complete
            omega
        · rw [failed] at fetched framed
          refine ⟨after, reader.buffer, scripted.script,
            .inr ⟨decryptionError error, fetched, ofSource_decryptionError _ _,
              fun _ framing decoded => ?_⟩⟩
          rw [framed] at decoded
          cases decoded
      · -- The source ended inside the prefix.
        rw [dif_neg complete] at fetched
        refine ⟨after, reader.buffer, scripted.script,
          .inr ⟨decryptionError .truncated, fetched,
            ofSource_decryptionError _ _, fun honest framing decoded => ?_⟩⟩
        have enough := length_of_framingOf decoded
        rw [(reads.honest honest).2.1, List.length_take] at complete
        omega

/-- `fetch_segment` on an honest source. -/
theorem fetchSegment_spec
    (honest : reader.inner.Honest)
    (sized : reader.buffer.Sized) :
    ∃ inner buffer,
      (∃ framing,
          framingOf reader.parameters reader.inner.remaining =
              some framing ∧
            framing.ciphertextLength ≤ reader.inner.remaining.length ∧
            reader.fetchSegment =
              (.ok framing, { reader with inner, buffer }) ∧
            reader.inner.Advanced inner framing.ciphertextLength ∧
            buffer.parameters = reader.buffer.parameters ∧
            buffer.HoldsCiphertext
              (reader.inner.remaining.take framing.ciphertextLength)) ∨
        ((∀ framing,
            framingOf reader.parameters reader.inner.remaining =
                some framing →
              reader.inner.remaining.length < framing.ciphertextLength) ∧
          ∃ error,
            reader.fetchSegment =
              (.error (.err error), { reader with inner, buffer })) := by
  obtain ⟨inner, buffer, _, success | failure⟩ :=
    reader.fetchSegment_cases sized
  · obtain ⟨framing, result, fetched⟩ := success
    exact ⟨inner, buffer, .inl ⟨framing, fetched.framed, fetched.inside,
      result, ⟨fetched.data, fetched.cursor, fetched.honest honest⟩,
      fetched.parameters, fetched.holds⟩⟩
  · obtain ⟨error, result, _, missing⟩ := failure
    exact ⟨inner, buffer, .inr ⟨missing honest, error, result⟩⟩

end Fetching

end DecryptReader

end FastFloe
