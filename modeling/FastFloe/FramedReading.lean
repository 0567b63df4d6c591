import FastFloe.DecryptReaders

namespace FastFloe

open Rust

/-!
# Reading a framed message

What a `DecryptReader` has taken off its source is a run of leading segments of
the stream, on the buffered path, on the direct path and while it drains.  The
plaintext of these segments is what the caller has got, followed by what the
buffer still holds.
-/

namespace DecryptReader

/-- The plaintext that the reader still holds for its caller. -/
inductive Pending (reader : DecryptReader) : Bytes → Prop where
  | nothing
      (drained : reader.plaintextConsumed = reader.plaintextAvailable) :
      Pending reader []
  | buffered
      {plaintext : Bytes}
      (holds : reader.buffer.HoldsPlaintext plaintext)
      (available : reader.plaintextAvailable = plaintext.length)
      (ahead : reader.plaintextConsumed < plaintext.length) :
      Pending reader (plaintext.drop reader.plaintextConsumed)

/-- A reader that has taken the segments with these payloads off a source that
started as `start`. -/
structure Follows (platform : Platform) (context : MessageContext)
    (start : Source IoPayload) (payloads : List Bytes) (ended : Bool)
    (pending : Bytes) (reader : DecryptReader) : Prop where
  honest : reader.inner.Honest
  data : reader.inner.data = start.data
  inside : reader.inner.cursor ≤ start.data.length
  passed :
    (segmentStream platform context).Passed 0 start.remaining payloads ended
      reader.inner.remaining
  parameters : reader.buffer.parameters = context.parameters
  sized : reader.buffer.Sized
  status :
    reader.status = if ended then .frameComplete else .opened
  decryptor :
    ended = false →
      ∃ decryptor,
        reader.decryptor = some decryptor ∧
          decryptor.At platform context payloads.length
  pending : reader.Pending pending

section Steps

variable {platform : Platform} {context : MessageContext}
  {start : Source IoPayload} {payloads : List Bytes} {ended : Bool}
  {pending : Bytes} {reader : DecryptReader}

/-- What the buffer holds once a segment was opened in it. -/
theorem Pending.of_opened
    {plaintext : Bytes}
    (holds : reader.buffer.HoldsPlaintext plaintext)
    (consumed : reader.plaintextConsumed = 0)
    (available : reader.plaintextAvailable = plaintext.length) :
    reader.Pending plaintext := by
  rcases List.eq_nil_or_concat plaintext with rfl | ⟨_, _, rfl⟩
  · refine .nothing ?_
    rw [consumed, available]
    rfl
  · have ahead := Pending.buffered holds available (by
      rw [consumed]
      simp)
    rwa [consumed, List.drop_zero] at ahead

/-- Nothing is pending when everything was consumed. -/
theorem Pending.eq_nil
    (holds : reader.Pending pending)
    (drained : reader.plaintextConsumed = reader.plaintextAvailable) :
    pending = [] := by
  cases holds with
  | nothing _ => rfl
  | buffered _ available ahead =>
      rw [drained, available] at ahead
      omega

/-- A source keeps to its data while bytes are taken off it. -/
theorem Follows.inside_of_advanced
    (follows : reader.Follows platform context start payloads ended pending)
    {inner : Source IoPayload}
    {count : Nat}
    (advanced : reader.inner.Advanced inner count)
    (enough : count ≤ reader.inner.remaining.length) :
    inner.cursor ≤ start.data.length := by
  have inside := follows.inside
  have cursor := advanced.cursor
  rw [Source.remaining, follows.data, List.length_drop] at enough
  omega

/-- `finish_if_final` on a decryptor that has opened a segment of this kind. -/
theorem finishIfFinal_eq
    {framing : SegmentFraming}
    {decryptor : Decryptor}
    (holds : reader.decryptor = some decryptor)
    (opened : reader.status = .opened)
    (closed : framing.kind = .final → decryptor.counter.closed = true) :
    reader.finishIfFinal framing =
      (.ok (),
        { reader with
          decryptor :=
            if framing.kind.isFinal then none else some decryptor
          status :=
            if framing.kind.isFinal then .frameComplete else .opened }) := by
  cases kind : framing.kind with
  | nonFinal =>
      simp only [finishIfFinal, kind, SegmentKind.isFinal,
        Bool.false_eq_true, ↓reduceIte, ← holds, ← opened]
  | final =>
      have finished : decryptor.finish = .ok () := by
        simp only [Decryptor.finish, SegmentCounter.finish, closed kind,
          ↓reduceIte]
      simp only [finishIfFinal, kind, SegmentKind.isFinal, ↓reduceIte, holds,
        finished, Outcome.mapErr]

/-- `finish_if_final` after a segment of this kind was opened. -/
theorem finishIfFinal_spec
    {position : Nat}
    {framing : SegmentFraming}
    {decryptor : Decryptor}
    (holds : reader.decryptor = some decryptor)
    (after : decryptor.After platform context position framing.kind)
    (opened : reader.status = .opened) :
    ∃ left,
      reader.finishIfFinal framing =
          (.ok (),
            { reader with
              decryptor := left
              status :=
                if framing.kind.isFinal then .frameComplete else .opened }) ∧
        (framing.kind.isFinal = false →
          ∃ next,
            left = some next ∧
              next.At platform context (position + 1)) := by
  have closed : framing.kind = .final → decryptor.counter.closed = true := by
    intro kind
    rw [kind] at after
    exact after
  refine ⟨_, finishIfFinal_eq holds opened closed, fun more => ?_⟩
  refine ⟨decryptor, by rw [if_neg (by simp [more])], ?_⟩
  cases kind : framing.kind with
  | nonFinal =>
      rw [kind] at after
      exact after
  | final =>
      rw [kind] at more
      cases more

/-- The reader after one more segment was opened. -/
theorem Follows.next
    {next : DecryptReader}
    {frame : Framing.Frame Bytes}
    {left : Bytes}
    (follows : reader.Follows platform context start payloads false pending)
    (parsed :
      parseSegment platform context payloads.length
        reader.inner.remaining = some frame)
    (advanced : reader.inner.Advanced next.inner frame.length)
    (kept : next.buffer.parameters = reader.buffer.parameters)
    (sized : next.buffer.Sized)
    (status :
      next.status = if frame.last then .frameComplete else .opened)
    (decryptor :
      frame.last = false →
        ∃ decryptor,
          next.decryptor = some decryptor ∧
            decryptor.At platform context (payloads.length + 1))
    (holds : next.Pending left) :
    next.Follows platform context start (payloads ++ [frame.payload])
      frame.last left := by
  have enough := (parseSegment_length parsed).2
  refine ⟨advanced.honest, advanced.data.trans follows.data,
    follows.inside_of_advanced advanced enough, ?_,
    kept.trans follows.parameters, sized, status, ?_, holds⟩
  · rw [advanced.remaining_eq]
    refine follows.passed.next ?_
    rw [Nat.zero_add]
    exact parsed
  · intro more
    rw [List.length_append]
    exact decryptor more

/-- A segment that does not authenticate where the reader stands is not a
frame. -/
theorem parseSegment_eq_none
    {position : Nat}
    {framing : SegmentFraming}
    {stream : Bytes}
    (decoded : framingOf context.parameters stream = some framing)
    (closed :
      PositionAllows position framing.kind →
        context.openSegment platform position framing.kind
          (stream.take framing.ciphertextLength) = none) :
    parseSegment platform context position stream = none := by
  cases parsed : parseSegment platform context position stream with
  | none => rfl
  | some frame =>
      obtain ⟨other, same, _, allowed, opened, _⟩ :=
        parseSegment_eq_some.mp parsed
      rw [decoded, Option.some.injEq] at same
      subst same
      rw [closed allowed] at opened
      cases opened

/-- A stream that ends before its declared segment does is not a frame. -/
theorem parseSegment_eq_none_of_short
    {position : Nat}
    {stream : Bytes}
    (short : ∀ framing,
      framingOf context.parameters stream = some framing →
        stream.length < framing.ciphertextLength) :
    parseSegment platform context position stream = none := by
  cases parsed : parseSegment platform context position stream with
  | none => rfl
  | some frame =>
      obtain ⟨framing, decoded, enough, _⟩ := parseSegment_eq_some.mp parsed
      have missing := short framing decoded
      omega

/-- `load_segment` opens the next segment in the reader's buffer. -/
theorem Follows.loadSegment_spec
    (agree : platform.OpensAgree)
    (follows : reader.Follows platform context start payloads false pending) :
    ∃ next,
      (∃ frame,
          parseSegment platform context payloads.length
              reader.inner.remaining = some frame ∧
            reader.loadSegment platform = (.ok (), next) ∧
            next.Follows platform context start
              (payloads ++ [frame.payload]) frame.last frame.payload ∧
            next.plaintextConsumed = 0 ∧
            next.plaintextAvailable = frame.payload.length ∧
            next.inner.remaining.length < reader.inner.remaining.length) ∨
        (parseSegment platform context payloads.length
              reader.inner.remaining = none ∧
          (∃ error,
            reader.loadSegment platform = (.error (.err error), next)) ∧
          next.status = .failed) := by
  obtain ⟨decryptor, present, here⟩ := follows.decryptor rfl
  have own : reader.parameters = context.parameters := follows.parameters
  rcases fetchSegment_spec follows.honest follows.sized with
    ⟨inner, buffer, ⟨framing, decoded, enough, fetched, advanced, kept,
      holds⟩ | ⟨beyond, error, fetched⟩⟩
  · rw [own] at decoded
    have declared :
        (reader.inner.remaining.take framing.ciphertextLength).length =
          framing.ciphertextLength := by
      rw [List.length_take]
      omega
    have framed :
        framingOf context.parameters
            (reader.inner.remaining.take framing.ciphertextLength) =
          some framing :=
      framingOf_segment decoded
    obtain ⟨advancedDecryptor, left, success | failure⟩ :=
      here.decryptSegmentInPlace_spec agree
        (kept.trans follows.parameters) holds framed declared
    · obtain ⟨plaintext, allowed, opened, result, settled, keptLeft,
        after⟩ := success
      let between : DecryptReader :=
        { reader with
          inner, buffer := left, decryptor := some advancedDecryptor }
      obtain ⟨remaining, finished, more⟩ :=
        @finishIfFinal_spec platform context between payloads.length
          framing advancedDecryptor rfl after follows.status
      let frame : Framing.Frame Bytes :=
        ⟨plaintext, framing.ciphertextLength, framing.kind.isFinal⟩
      have parsed :
          parseSegment platform context payloads.length
            reader.inner.remaining = some frame :=
        parseSegment_eq_some.mpr
          ⟨framing, decoded, enough, allowed, opened, rfl, rfl⟩
      have size := parseSegment_length parsed
      let next : DecryptReader :=
        { between with
          decryptor := remaining
          plaintextConsumed := 0
          plaintextAvailable := plaintext.length
          status :=
            if framing.kind.isFinal then .frameComplete else .opened }
      have shorter : next.inner.remaining =
          reader.inner.remaining.drop framing.ciphertextLength :=
        advanced.remaining_eq
      refine ⟨next, .inl ⟨frame, parsed, ?_, ?_, rfl, rfl, ?_⟩⟩
      · simp only [loadSegment, tryLoadSegment, fetched, present, result]
        simp only [between] at finished
        simp only [finished, poisonOnError]
        rfl
      · refine follows.next parsed advanced (keptLeft.trans kept)
          settled.sized rfl more ?_
        exact Pending.of_opened settled rfl rfl
      · rw [shorter, List.length_drop]
        simp only [frame] at size
        omega
    · obtain ⟨error, closed, result⟩ := failure
      let next : DecryptReader :=
        { reader with
          inner
          buffer := left
          decryptor := some advancedDecryptor
          status := .failed }
      refine ⟨next, .inr ⟨parseSegment_eq_none decoded closed, ?_, rfl⟩⟩
      simp only [loadSegment, tryLoadSegment, fetched, present, result]
      exact ⟨_, rfl⟩
  · refine ⟨{ reader with inner, buffer, status := .failed },
      .inr ⟨?_, ⟨error, ?_⟩, rfl⟩⟩
    · rw [own] at beyond
      exact parseSegment_eq_none_of_short beyond
    · simp only [loadSegment, tryLoadSegment, fetched, poisonOnError]

/-- `read_segment_direct` opens the next segment in the caller's buffer. -/
theorem Follows.readSegmentDirect_spec
    {output : Bytes}
    (agree : platform.OpensAgree)
    (follows : reader.Follows platform context start payloads false pending)
    (room : context.parameters.plaintextSegmentLength ≤ output.length) :
    ∃ next left,
      (∃ frame,
          parseSegment platform context payloads.length
              reader.inner.remaining = some frame ∧
            reader.readSegmentDirect platform output =
              (.ok frame.payload.length, next,
                frame.payload ++ output.drop frame.payload.length) ∧
            next.Follows platform context start
              (payloads ++ [frame.payload]) frame.last []) ∨
        (parseSegment platform context payloads.length
              reader.inner.remaining = none ∧
          (∃ error,
            reader.readSegmentDirect platform output =
              (.error (.err error), next, left)) ∧
          next.status = .failed) := by
  obtain ⟨decryptor, present, here⟩ := follows.decryptor rfl
  have own : reader.parameters = context.parameters := follows.parameters
  rcases fetchSegment_spec follows.honest follows.sized with
    ⟨inner, buffer, ⟨framing, decoded, enough, fetched, advanced, kept,
      holds⟩ | ⟨beyond, error, fetched⟩⟩
  · rw [own] at decoded
    have valid := (framingOf_eq_some decoded).1
    have payload := valid.payload
    have bounded := valid.bounded
    have full := context.parameters.plaintextSegmentLength_add
    have declared :
        (reader.inner.remaining.take framing.ciphertextLength).length =
          framing.ciphertextLength := by
      rw [List.length_take]
      omega
    have fits : framing.plaintextLength ≤ output.length := by omega
    obtain ⟨advancedDecryptor, success | failure⟩ :=
      here.decryptSegmentIntoFramed_spec
        (declared.trans payload.symm) declared fits (.inl agree)
    · obtain ⟨plaintext, allowed, opened, result, after⟩ := success
      have length : plaintext.length = framing.plaintextLength := by
        have whole := MessageContext.length_of_openSegment opened (by omega)
        omega
      let between : DecryptReader :=
        { reader with
          inner, buffer, decryptor := some advancedDecryptor }
      obtain ⟨remaining, finished, more⟩ :=
        @finishIfFinal_spec platform context between payloads.length
          framing advancedDecryptor rfl after follows.status
      let frame : Framing.Frame Bytes :=
        ⟨plaintext, framing.ciphertextLength, framing.kind.isFinal⟩
      have parsed :
          parseSegment platform context payloads.length
            reader.inner.remaining = some frame :=
        parseSegment_eq_some.mpr
          ⟨framing, decoded, enough, allowed, opened, rfl, rfl⟩
      let next : DecryptReader :=
        { between with
          decryptor := remaining
          plaintextConsumed := 0
          plaintextAvailable := 0
          status :=
            if framing.kind.isFinal then .frameComplete else .opened }
      refine ⟨next, [], .inl ⟨frame, parsed, ?_, ?_⟩⟩
      · have held := holds.ciphertext_eq
        simp only [readSegmentDirect, tryReadSegmentDirect, fetched, present,
          held, Outcome.mapErr, result]
        simp only [between] at finished
        simp only [finished, poisonOnError, frame, length]
        rfl
      · exact follows.next parsed advanced kept holds.sized rfl more
          (.nothing rfl)
    · obtain ⟨error, failed, closed, result, _⟩ := failure
      let next : DecryptReader :=
        { reader with
          inner
          buffer
          decryptor := some advancedDecryptor
          status := .failed }
      refine ⟨next, failed,
        .inr ⟨parseSegment_eq_none decoded closed, ?_, rfl⟩⟩
      have held := holds.ciphertext_eq
      simp only [readSegmentDirect, tryReadSegmentDirect, fetched, present,
        held, Outcome.mapErr, result]
      exact ⟨_, rfl⟩
  · refine ⟨{ reader with inner, buffer, status := .failed }, output,
      .inr ⟨?_, ⟨error, ?_⟩, rfl⟩⟩
    · rw [own] at beyond
      exact parseSegment_eq_none_of_short beyond
    · simp only [readSegmentDirect, tryReadSegmentDirect, fetched,
        poisonOnError]

/-- A segment that is not the last one carries plaintext. -/
theorem payload_ne_nil
    {position : Nat}
    {stream : Bytes}
    {frame : Framing.Frame Bytes}
    (parsed : parseSegment platform context position stream = some frame)
    (more : frame.last = false) :
    frame.payload ≠ [] := by
  obtain ⟨framing, decoded, enough, _, opened, _, last⟩ :=
    parseSegment_eq_some.mp parsed
  have valid := (framingOf_eq_some decoded).1
  have payload := valid.payload
  have positive := context.parameters.plaintextSegmentLength_add
  have minimum := context.parameters.minimum_le
  have nonFinal : framing.kind = .nonFinal := by
    cases kind : framing.kind with
    | nonFinal => rfl
    | final =>
        rw [more, kind] at last
        cases last
  have full := valid.full nonFinal
  have taken :
      (stream.take framing.ciphertextLength).length =
        framing.ciphertextLength := by
    rw [List.length_take]
    omega
  have length := MessageContext.length_of_openSegment opened (by omega)
  intro empty
  rw [empty, taken, List.length_nil] at length
  omega

/-- Handing out what the buffer holds moves the reader's cursor only. -/
theorem Pending.readBuffered_spec
    {output : Bytes}
    (holds : reader.Pending pending)
    (ahead : reader.plaintextConsumed ≠ reader.plaintextAvailable) :
    ∃ consumed,
      reader.readBuffered output =
          (.ok (pending.take output.length).length,
            { reader with plaintextConsumed := consumed },
            pending.take output.length ++
              output.drop (pending.take output.length).length) ∧
        { reader with plaintextConsumed := consumed }.Pending
          (pending.drop output.length) ∧
        pending ≠ [] := by
  cases holds with
  | nothing drained =>
      exact (ahead drained).elim
  | @buffered plaintext holds available before =>
      let next : DecryptReader :=
        { reader with
          plaintextConsumed := reader.plaintextConsumed +
            ((plaintext.drop reader.plaintextConsumed).take
              output.length).length }
      have left : next.Pending
          ((plaintext.drop reader.plaintextConsumed).drop
            output.length) := by
        rw [← drop_handedOut]
        by_cases all : next.plaintextConsumed < plaintext.length
        · exact @Pending.buffered next plaintext holds available all
        · have spent : plaintext.drop next.plaintextConsumed = [] :=
            List.drop_eq_nil_of_le (Nat.le_of_not_lt all)
          simp only [next] at spent
          rw [spent]
          refine .nothing ?_
          simp only [next, List.length_take, List.length_drop] at all ⊢
          omega
      refine ⟨next.plaintextConsumed, ?_, left, ?_⟩
      · simp only [readBuffered, holds.plaintext_eq, Outcome.mapErr,
          Outcome.ok_bind]
        rw [handOut_eq available (Nat.le_of_lt before)]
      · intro empty
        have size := congrArg List.length empty
        rw [List.length_drop, List.length_nil] at size
        omega

/-- Handing out buffered plaintext. -/
theorem Follows.readBuffered_spec
    {output : Bytes}
    (follows : reader.Follows platform context start payloads ended pending)
    (ahead : reader.plaintextConsumed ≠ reader.plaintextAvailable) :
    ∃ next,
      reader.readBuffered output =
          (.ok (pending.take output.length).length, next,
            pending.take output.length ++
              output.drop (pending.take output.length).length) ∧
        next.Follows platform context start payloads ended
          (pending.drop output.length) ∧
        pending ≠ [] := by
  obtain ⟨_, result, left, something⟩ :=
    follows.pending.readBuffered_spec ahead
  exact ⟨_, result, { follows with pending := left }, something⟩

/-- What one `read` into `output` may do to a reader that follows its stream: it
hands out the next plaintext of the leading segments, and none of it only at the
end of the message; or there is no further segment, and it is poisoned. -/
inductive ReadStep (platform : Platform) (context : MessageContext)
    (start : Source IoPayload) (payloads : List Bytes) (ended : Bool)
    (pending : Bytes) (reader : DecryptReader) (output : Bytes) :
    IoResult Nat × DecryptReader × Bytes → Prop where
  | handed
      {next : DecryptReader} {chunk left : Bytes} {more : List Bytes}
      {endedNext : Bool}
      (follows :
        next.Follows platform context start (payloads ++ more) endedNext
          left)
      (balance : pending ++ more.flatten = chunk ++ left)
      (settled : ended = true → endedNext = true ∧ more = [])
      (progress :
        chunk = [] → output = [] ∨ (endedNext = true ∧ left = [])) :
      ReadStep platform context start payloads ended pending reader output
        (.ok chunk.length, next, chunk ++ output.drop chunk.length)
  | refused
      {next : DecryptReader} {error : IoError IoPayload} {untouched : Bytes}
      (failed : next.status = .failed)
      (opened : ended = false)
      (nothing : pending = [])
      (missing :
        parseSegment platform context payloads.length
          reader.inner.remaining = none) :
      ReadStep platform context start payloads ended pending reader output
        (.error (.err error), next, untouched)

/-- A read that changes nothing. -/
theorem ReadStep.idle
    {output : Bytes}
    (follows : reader.Follows platform context start payloads ended pending)
    (done : output = [] ∨ (ended = true ∧ pending = [])) :
    ReadStep platform context start payloads ended pending reader output
      (.ok 0, reader, output) := by
  rw [← List.append_nil payloads] at follows
  exact @ReadStep.handed platform context start payloads ended pending reader
    output reader [] pending [] ended follows (List.append_nil pending)
    (fun ends => ⟨ends, rfl⟩) (fun _ => done)

/-- A `read` straight into the caller's buffer. -/
theorem Follows.readSegmentDirect_step
    {output : Bytes}
    (agree : platform.OpensAgree)
    (follows : reader.Follows platform context start payloads false [])
    (room : context.parameters.plaintextSegmentLength ≤ output.length) :
    ReadStep platform context start payloads false [] reader output
      (reader.readSegmentDirect platform output) := by
  obtain ⟨next, untouched, success | failure⟩ :=
    follows.readSegmentDirect_spec agree room
  · obtain ⟨frame, parsed, result, nextFollows⟩ := success
    rw [result]
    refine .handed nextFollows ?_ (fun impossible => by cases impossible) ?_
    · rw [List.flatten_singleton, List.append_nil, List.nil_append]
    · intro nothing
      cases last : frame.last with
      | true => exact .inr ⟨rfl, rfl⟩
      | false => exact (payload_ne_nil parsed last nothing).elim
  · obtain ⟨missing, ⟨error, result⟩, failed⟩ := failure
    rw [result]
    exact .refused failed rfl rfl missing

/-- A `read` that loads the next segment into the reader's buffer. -/
theorem Follows.readLoaded_step
    {output : Bytes}
    (agree : platform.OpensAgree)
    (follows : reader.Follows platform context start payloads false [])
    (wanted : output ≠ [])
    (drained : reader.plaintextConsumed = reader.plaintextAvailable)
    (small :
      ¬ context.parameters.plaintextSegmentLength ≤ output.length) :
    ReadStep platform context start payloads false [] reader output
      (reader.read platform output) := by
  have healthy : reader.status ≠ .failed := by
    rw [follows.status]
    simp
  have unfinished : reader.isComplete = false := by
    simp [isComplete, follows.status]
  have own : reader.parameters = context.parameters := follows.parameters
  obtain ⟨next, success | failure⟩ := follows.loadSegment_spec agree
  · obtain ⟨frame, parsed, result, nextFollows, consumed, available, _⟩ :=
      success
    by_cases spent : next.plaintextConsumed = next.plaintextAvailable
    · have blank : frame.payload = [] := by
        rw [← List.length_eq_zero_iff, ← available, ← spent, consumed]
      have last : frame.last = true := by
        cases last : frame.last with
        | true => rfl
        | false => exact (payload_ne_nil parsed last blank).elim
      have complete : next.isComplete = true := by
        simp only [isComplete, nextFollows.status, last, ↓reduceIte, true_or,
          decide_true]
      rw [last, blank] at nextFollows
      have answer : reader.read platform output = (.ok 0, next, output) := by
        simp only [read, wanted, healthy, drained, unfinished, own, small,
          Bool.false_eq_true, ↓reduceIte, result, spent, complete,
          Outcome.debugAssert, Outcome.ok_bind]
      rw [answer]
      exact @ReadStep.handed platform context start payloads false [] reader
        output next [] [] [[]] true nextFollows rfl
        (fun impossible => by cases impossible) (fun _ => .inr ⟨rfl, rfl⟩)
    · obtain ⟨after, handed, afterFollows, blank⟩ :=
        @Follows.readBuffered_spec platform context start _ _ _ next output
          nextFollows spent
      have answer : reader.read platform output = next.readBuffered output := by
        simp only [read, wanted, healthy, drained, unfinished, own, small,
          Bool.false_eq_true, ↓reduceIte, result, spent]
      rw [answer, handed]
      refine .handed afterFollows ?_ (fun impossible => by cases impossible)
        fun unread => ?_
      · rw [List.flatten_singleton, List.take_append_drop, List.nil_append]
      · rcases List.take_eq_nil_iff.mp unread with zero | nothing
        · exact (wanted (List.length_eq_zero_iff.mp zero)).elim
        · exact (blank nothing).elim
  · obtain ⟨missing, ⟨error, result⟩, failed⟩ := failure
    have answer : reader.read platform output =
        (.error (.err error), next, output) := by
      simp only [read, wanted, healthy, drained, unfinished, own, small,
        Bool.false_eq_true, ↓reduceIte, result]
    rw [answer]
    exact .refused failed rfl rfl missing

/-- What one `read` does, whichever path it takes. -/
theorem Follows.read_step
    (agree : platform.OpensAgree)
    (follows : reader.Follows platform context start payloads ended pending)
    (output : Bytes) :
    ReadStep platform context start payloads ended pending reader output
      (reader.read platform output) := by
  by_cases empty : output = []
  · have idle : reader.read platform output = (.ok 0, reader, output) := by
      simp only [read, empty, ↓reduceIte]
    rw [idle]
    exact .idle follows (.inl empty)
  have healthy : reader.status ≠ .failed := by
    rw [follows.status]
    cases ended <;> simp
  by_cases drained : reader.plaintextConsumed = reader.plaintextAvailable
  · cases follows.pending.eq_nil drained
    cases ended with
    | true =>
        have complete : reader.isComplete = true := by
          simp only [isComplete, follows.status, ↓reduceIte, true_or,
            decide_true]
        have idle : reader.read platform output =
            (.ok 0, reader, output) := by
          simp only [read, empty, healthy, drained, complete, ↓reduceIte]
        rw [idle]
        exact .idle follows (.inr ⟨rfl, rfl⟩)
    | false =>
        have unfinished : reader.isComplete = false := by
          simp [isComplete, follows.status]
        have own : reader.parameters = context.parameters :=
          follows.parameters
        by_cases room :
            context.parameters.plaintextSegmentLength ≤ output.length
        · have direct : reader.read platform output =
              reader.readSegmentDirect platform output := by
            simp only [read, empty, healthy, drained, unfinished, own, room,
              Bool.false_eq_true, ↓reduceIte]
          rw [direct]
          exact follows.readSegmentDirect_step agree room
        · exact follows.readLoaded_step agree empty drained room
  · have buffered : reader.read platform output =
        reader.readBuffered output := by
      simp only [read, empty, healthy, drained, ↓reduceIte]
    obtain ⟨next, handed, nextFollows, blank⟩ :=
      @Follows.readBuffered_spec platform context start _ _ _ reader output
        follows drained
    rw [buffered, handed]
    rw [← List.append_nil payloads] at nextFollows
    refine .handed nextFollows ?_ (fun ends => ⟨ends, rfl⟩) fun unread => ?_
    · rw [List.flatten_nil, List.append_nil, List.take_append_drop]
    · rcases List.take_eq_nil_iff.mp unread with zero | nothing
      · exact (empty (List.length_eq_zero_iff.mp zero)).elim
      · exact (blank nothing).elim

/-! ## Draining -/

/-- Whatever is pending may be given up. -/
theorem Follows.discard
    (follows : reader.Follows platform context start payloads ended
      pending) :
    { reader with
      plaintextConsumed := reader.plaintextAvailable }.Follows platform
        context start payloads ended [] :=
  ⟨follows.honest, follows.data, follows.inside, follows.passed,
    follows.parameters, follows.sized, follows.status, follows.decryptor,
    .nothing rfl⟩

/-- The loop of `drain_message` goes on to the last segment of the message, or
stops where no further segment authenticates. -/
theorem Follows.drainLoop_spec
    {fuel : Nat}
    (agree : platform.OpensAgree)
    (follows : reader.Follows platform context start payloads ended [])
    (enough : reader.inner.remaining.length + 1 < fuel) :
    ∃ next,
      (∃ all,
          drainLoop platform fuel reader = (.ok (), next) ∧
            next.Follows platform context start all true []) ∨
        ((∃ error,
            drainLoop platform fuel reader = (.error (.err error), next)) ∧
          next.status = .failed ∧
          ((segmentStream platform context).scan 0 start.remaining).2 =
            none) := by
  induction fuel generalizing reader payloads ended with
  | zero =>
      omega
  | succ fuel inductionHypothesis =>
      cases ended with
      | true =>
          refine ⟨reader, .inl ⟨payloads, ?_, follows⟩⟩
          simp only [drainLoop, follows.status, ↓reduceIte, reduceCtorEq]
      | false =>
          have opened : reader.status = .opened := follows.status
          obtain ⟨next, success | failure⟩ := follows.loadSegment_spec agree
          · obtain ⟨frame, _, result, nextFollows, _, _, shorter⟩ := success
            obtain ⟨last, drained⟩ :=
              inductionHypothesis
                (@Follows.discard platform context start _ _ _ next
                  nextFollows)
                (by simp only; omega)
            refine ⟨last, ?_⟩
            simpa only [drainLoop, opened, ↓reduceIte, result] using drained
          · obtain ⟨missing, ⟨error, result⟩, failed⟩ := failure
            refine ⟨next, .inr ⟨⟨error, ?_⟩, failed, ?_⟩⟩
            · simp only [drainLoop, opened, ↓reduceIte, result]
            · have scanned := follows.passed.scan_eq
              rw [Nat.zero_add,
                (segmentStream platform context).scan_of_none missing]
                at scanned
              rw [scanned]
              rfl

/-- `drain_message`. -/
theorem Follows.drainMessage_spec
    (agree : platform.OpensAgree)
    (follows : reader.Follows platform context start payloads ended
      pending) :
    ∃ next,
      (∃ all,
          reader.drainMessage platform = (.ok (), next) ∧
            next.Follows platform context start all true []) ∨
        ((∃ error,
            reader.drainMessage platform = (.error (.err error), next)) ∧
          ((segmentStream platform context).scan 0 start.remaining).2 =
            none) := by
  obtain ⟨next, success | failure⟩ :=
    @Follows.drainLoop_spec platform context start payloads ended
      { reader with plaintextConsumed := reader.plaintextAvailable }
      (reader.inner.remaining.length + 2) agree follows.discard
      (by simp only; omega)
  · obtain ⟨all, result, nextFollows⟩ := success
    refine ⟨next, .inl ⟨all, ?_, nextFollows⟩⟩
    simp only [drainMessage, result, nextFollows.status, ↓reduceIte,
      reduceCtorEq]
  · obtain ⟨⟨error, result⟩, _, closed⟩ := failure
    refine ⟨next, .inr ⟨⟨error, ?_⟩, closed⟩⟩
    simp only [drainMessage, result]

/-- `try_finish` succeeds exactly when the message is the rest of the stream,
and reads at most one byte past it. -/
theorem Follows.tryFinish_spec
    (agree : platform.OpensAgree)
    (follows : reader.Follows platform context start payloads ended
      pending) :
    ∃ next,
      (∃ all,
          reader.tryFinish platform = (.ok (), next) ∧
            (segmentStream platform context).Message 0 start.remaining all ∧
            next.inner.cursor ≤ start.data.length) ∨
        ((∃ error,
            reader.tryFinish platform = (.error (.err error), next)) ∧
          ((segmentStream platform context).scan 0 start.remaining).2 =
            none) ∨
        ∃ all rest,
          (∃ error,
            reader.tryFinish platform = (.error (.err error), next)) ∧
            (segmentStream platform context).scan 0 start.remaining =
              (all, some rest) ∧
            rest ≠ [] ∧
            next.inner.cursor + rest.length = start.data.length + 1 := by
  have unfinished : reader.status ≠ .streamComplete := by
    rw [follows.status]
    cases ended <;> simp
  obtain ⟨next, success | failure⟩ := follows.drainMessage_spec agree
  · obtain ⟨all, result, nextFollows⟩ := success
    have scanned := nextFollows.passed.scan_eq
    rw [if_pos rfl] at scanned
    obtain ⟨inner, read, advanced⟩ :=
      readFully_honest nextFollows.honest (zeros 1)
    have moved := advanced.cursor
    have inside := nextFollows.inside
    rw [length_zeros] at read moved
    cases remaining : next.inner.remaining with
    | nil =>
        rw [remaining] at scanned read moved
        simp only [List.length_nil, Nat.min_zero] at read moved
        refine ⟨{ next with inner, status := .streamComplete },
          .inl ⟨all, ?_, scanned, ?_⟩⟩
        · simp only [tryFinish, unfinished, ↓reduceIte, result, read]
        · simp only
          omega
    | cons byte rest =>
        have one : min 1 (byte :: rest).length = 0 + 1 := by
          rw [List.length_cons]
          omega
        rw [remaining] at scanned
        rw [remaining, one] at moved
        refine ⟨{ next with inner, status := .failed },
          .inr (.inr ⟨all, byte :: rest, ⟨trailingDataError, ?_⟩, scanned,
            by simp, ?_⟩)⟩
        · rw [remaining, one] at read
          simp only [tryFinish, unfinished, ↓reduceIte, result, read]
        · have length := congrArg List.length remaining
          rw [Source.remaining, nextFollows.data, List.length_drop] at length
          simp only
          omega
  · obtain ⟨⟨error, result⟩, closed⟩ := failure
    refine ⟨next, .inr (.inl ⟨⟨error, ?_⟩, closed⟩)⟩
    simp only [tryFinish, unfinished, ↓reduceIte, result]

end Steps

end DecryptReader

end FastFloe
