import FastFloe.DecryptReaderCalls

namespace FastFloe

open Rust

/-!
# What a decrypting reader has opened

A `DecryptReader` on a source of which nothing is known: it may fragment, fail,
end early, jump about, and be exchanged through `get_mut` between two calls.
What the reader has taken off it is still a run of frames, read where each of
them was expected, and the plaintext handed out, followed by what is still held,
is the plaintext of these frames.
-/

namespace DecryptReader

/-- A reader that has taken these bytes off its source as segments, and has
opened these payloads in them. -/
structure Tracks (platform : Platform) (context : MessageContext)
    (taken : Bytes) (payloads : List Bytes) (pending : Bytes)
    (reader : DecryptReader) : Prop where
  unfailed : reader.status ≠ .failed
  passed :
    (segmentStream platform context).Passed 0 taken payloads
      reader.isComplete []
  parameters : reader.buffer.parameters = context.parameters
  sized : reader.buffer.Sized
  decryptor :
    reader.status = .opened →
      ∃ decryptor,
        reader.decryptor = some decryptor ∧
          decryptor.At platform context payloads.length
  pending : reader.Pending pending

/-- A reader that has gone on from `before` by opening segments with the
payloads `more`, and holds `left`. -/
structure GoesOn (platform : Platform) (context : MessageContext)
    (taken : Bytes) (payloads : List Bytes) (before after : DecryptReader)
    (more : List Bytes) (left : Bytes) : Prop where
  data : after.inner.data = before.inner.data
  cursor : before.inner.cursor ≤ after.inner.cursor
  complete :
    before.isComplete = true → more = [] ∧ after.isComplete = true
  unended :
    after.status = .streamComplete → before.status = .streamComplete
  tracks :
    after.Tracks platform context
      (taken ++ bytesTaken before.inner after.inner) (payloads ++ more) left

section Steps

variable {platform : Platform} {context : MessageContext} {taken : Bytes}
  {payloads : List Bytes} {pending : Bytes} {reader : DecryptReader}

/-- A reader that has not moved its source. -/
theorem GoesOn.idle
    {next : DecryptReader}
    {left : Bytes}
    (inner : next.inner = reader.inner)
    (status : next.status = reader.status)
    (tracks : next.Tracks platform context taken payloads left) :
    GoesOn platform context taken payloads reader next [] left := by
  refine ⟨by rw [inner], by rw [inner], ?_, fun ended => status ▸ ended, ?_⟩
  · intro complete
    refine ⟨rfl, ?_⟩
    simpa only [isComplete, status] using complete
  rw [bytesTaken, inner, Nat.sub_self, List.take_zero, List.append_nil,
    List.append_nil]
  exact tracks

theorem GoesOn.trans
    {middle after : DecryptReader}
    {first second : List Bytes}
    {held left : Bytes}
    (earlier :
      GoesOn platform context taken payloads reader middle first held)
    (later :
      GoesOn platform context (taken ++ bytesTaken reader.inner middle.inner)
        (payloads ++ first) middle after second left) :
    GoesOn platform context taken payloads reader after (first ++ second)
      left := by
  refine ⟨later.data.trans earlier.data,
    Nat.le_trans earlier.cursor later.cursor, fun complete => ?_,
    fun ended => earlier.unended (later.unended ended), ?_⟩
  · obtain ⟨rfl, stillComplete⟩ := earlier.complete complete
    exact later.complete stillComplete
  rw [← bytesTaken_trans earlier.data earlier.cursor later.cursor,
    ← List.append_assoc, ← List.append_assoc]
  exact later.tracks

/-- Giving up or handing out what is held moves nothing. -/
theorem Tracks.consume
    {left : Bytes}
    (tracks : reader.Tracks platform context taken payloads pending)
    (consumed : Nat)
    (holds :
      { reader with plaintextConsumed := consumed }.Pending left) :
    { reader with plaintextConsumed := consumed }.Tracks platform context
      taken payloads left :=
  ⟨tracks.unfailed, tracks.passed, tracks.parameters, tracks.sized,
    tracks.decryptor, holds⟩

/-- A reader that has neither failed nor seen the final segment is open. -/
theorem Tracks.opened
    (tracks : reader.Tracks platform context taken payloads pending)
    (unfinished : ¬ reader.isComplete = true) :
    reader.status = .opened := by
  simp only [isComplete, decide_eq_true_eq, not_or] at unfinished
  cases status : reader.status with
  | opened => rfl
  | frameComplete => exact (unfinished.1 status).elim
  | streamComplete => exact (unfinished.2 status).elim
  | failed => exact (tracks.unfailed status).elim

/-! ## One more segment -/

/-- The reader after the segment at the head of its source was opened. -/
theorem Tracks.next
    {next : DecryptReader}
    {framing : SegmentFraming}
    {plaintext left : Bytes}
    {decryptor : Decryptor}
    (tracks : reader.Tracks platform context taken payloads pending)
    (opened : reader.status = .opened)
    (decoded :
      framingOf context.parameters reader.inner.remaining = some framing)
    (enough : framing.ciphertextLength ≤ reader.inner.remaining.length)
    (allowed : PositionAllows payloads.length framing.kind)
    (opens :
      context.openSegment platform payloads.length framing.kind
          (reader.inner.remaining.take framing.ciphertextLength) =
        some plaintext)
    (data : next.inner.data = reader.inner.data)
    (cursor :
      next.inner.cursor = reader.inner.cursor + framing.ciphertextLength)
    (parameters : next.buffer.parameters = context.parameters)
    (sized : next.buffer.Sized)
    (status :
      next.status =
        if framing.kind.isFinal then .frameComplete else .opened)
    (holdsDecryptor :
      next.decryptor =
        if framing.kind.isFinal then none else some decryptor)
    (after :
      decryptor.After platform context payloads.length framing.kind)
    (holds : next.Pending left) :
    GoesOn platform context taken payloads reader next [plaintext] left ∧
      (plaintext = [] → next.isComplete = true) := by
  have unfinished : reader.isComplete = false := by
    simp [isComplete, opened]
  have complete : next.isComplete = framing.kind.isFinal := by
    cases kind : framing.kind with
    | nonFinal => simp [isComplete, status, kind, SegmentKind.isFinal]
    | final => simp [isComplete, status, kind, SegmentKind.isFinal]
  have bytes : bytesTaken reader.inner next.inner =
      reader.inner.remaining.take framing.ciphertextLength := by
    rw [bytesTaken, cursor, Nat.add_sub_cancel_left]
  have parsed :
      parseSegment platform context payloads.length reader.inner.remaining =
        some ⟨plaintext, framing.ciphertextLength, framing.kind.isFinal⟩ :=
    parseSegment_eq_some.mpr
      ⟨framing, decoded, enough, allowed, opens, rfl, rfl⟩
  have frame :=
    (segmentStream platform context).isFrame_of_parse parsed
  have passed := tracks.passed
  rw [unfinished] at passed
  rw [← Nat.zero_add payloads.length] at frame
  have longer := passed.frame frame
  refine ⟨⟨data, cursor ▸ Nat.le_add_right _ _, fun impossible => ?_,
    fun impossible => ?_, ?_, ?_, parameters, sized, ?_, holds⟩,
    fun empty => ?_⟩
  · rw [unfinished] at impossible
    cases impossible
  · rw [status] at impossible
    split at impossible <;> cases impossible
  · rw [status]
    split <;> simp
  · rw [bytes, complete]
    exact longer
  · intro open'
    cases kind : framing.kind with
    | nonFinal =>
        rw [kind] at after holdsDecryptor
        refine ⟨decryptor, holdsDecryptor, ?_⟩
        rw [List.length_append]
        exact after
    | final =>
        simp [status, kind, SegmentKind.isFinal] at open'
  · -- Only a final segment may be empty.
    rw [complete]
    cases last : framing.kind.isFinal with
    | true => rfl
    | false => exact (payload_ne_nil parsed last empty).elim

/-- `load_segment` opens the segment at the head of the source, or poisons the
reader. -/
theorem Tracks.loadSegment_spec
    (agree : platform.OpensAgree)
    (tracks : reader.Tracks platform context taken payloads pending)
    (opened : reader.status = .opened) :
    ∃ next,
      (∃ plaintext,
          reader.loadSegment platform = (.ok (), next) ∧
            GoesOn platform context taken payloads reader next [plaintext]
              plaintext ∧
            next.plaintextConsumed = 0 ∧
            next.plaintextAvailable = plaintext.length ∧
            (plaintext = [] → next.isComplete = true) ∧
            next.inner.remaining.length < reader.inner.remaining.length) ∨
        (∃ error, reader.loadSegment platform = (.error (.err error), next)) ∧
          next.status = .failed := by
  obtain ⟨decryptor, present, here⟩ := tracks.decryptor opened
  have own : reader.parameters = context.parameters := tracks.parameters
  obtain ⟨inner, buffer, _, ⟨framing, fetched, taken'⟩ |
      ⟨error, fetched, _⟩⟩ := reader.fetchSegment_cases tracks.sized
  · have decoded := taken'.framed
    rw [own] at decoded
    obtain ⟨advanced, left, success | failure⟩ :=
      here.decryptSegmentInPlace_spec agree
        (taken'.parameters.trans tracks.parameters) taken'.holds
        (framingOf_segment decoded) (List.length_take_of_le taken'.inside)
    · obtain ⟨plaintext, allowed, opens, result, settled, kept, after⟩ :=
        success
      let between : DecryptReader :=
        { reader with inner, buffer := left, decryptor := some advanced }
      have finished := @finishIfFinal_eq between framing advanced rfl opened
        (by
          intro final
          rw [final] at after
          exact after)
      let next : DecryptReader :=
        { between with
          decryptor := if framing.kind.isFinal then none else some advanced
          plaintextConsumed := 0
          plaintextAvailable := plaintext.length
          status :=
            if framing.kind.isFinal then .frameComplete else .opened }
      obtain ⟨goesOn, complete⟩ :=
        @Tracks.next platform context taken payloads pending reader next
          framing plaintext plaintext advanced tracks opened decoded
          taken'.inside allowed opens taken'.data taken'.cursor
          ((kept.trans taken'.parameters).trans tracks.parameters)
          settled.sized rfl rfl after (.of_opened settled rfl rfl)
      refine ⟨next, .inl ⟨plaintext, ?_, goesOn, rfl, rfl, complete, ?_⟩⟩
      · simp only [between] at finished
        simp only [loadSegment, tryLoadSegment, fetched, present, result,
          finished, poisonOnError]
        rfl
      · have positive := (framingOf_eq_some decoded).1.payload
        have inside := taken'.inside
        rw [Source.remaining, List.length_drop] at inside ⊢
        simp only [next, between, taken'.data, taken'.cursor,
          Source.remaining, List.length_drop]
        omega
    · obtain ⟨error, _, result⟩ := failure
      refine ⟨{ reader with
          inner
          buffer := left
          decryptor := some advanced
          status := .failed }, .inr ⟨⟨decryptionError error, ?_⟩, rfl⟩⟩
      simp only [loadSegment, tryLoadSegment, fetched, present, result,
        Outcome.mapErr, poisonOnError]
  · refine ⟨{ reader with inner, buffer, status := .failed },
      .inr ⟨⟨error, ?_⟩, rfl⟩⟩
    simp only [loadSegment, tryLoadSegment, fetched, poisonOnError]

/-- `read_segment_direct` opens the segment at the head of the source in the
caller's buffer, or poisons the reader. -/
theorem Tracks.readSegmentDirect_spec
    {output : Bytes}
    (agree : platform.OpensAgree)
    (tracks : reader.Tracks platform context taken payloads pending)
    (opened : reader.status = .opened)
    (room : context.parameters.plaintextSegmentLength ≤ output.length) :
    ∃ next filled,
      (∃ plaintext,
          reader.readSegmentDirect platform output =
              (.ok plaintext.length, next,
                plaintext ++ output.drop plaintext.length) ∧
            GoesOn platform context taken payloads reader next [plaintext]
              [] ∧
            (plaintext = [] → next.isComplete = true)) ∨
        (∃ error,
            reader.readSegmentDirect platform output =
              (.error (.err error), next, filled)) ∧
          next.status = .failed := by
  obtain ⟨decryptor, present, here⟩ := tracks.decryptor opened
  have own : reader.parameters = context.parameters := tracks.parameters
  obtain ⟨inner, buffer, _, ⟨framing, fetched, taken'⟩ |
      ⟨error, fetched, _⟩⟩ := reader.fetchSegment_cases tracks.sized
  · have decoded := taken'.framed
    rw [own] at decoded
    have valid := (framingOf_eq_some decoded).1
    have payload := valid.payload
    have bounded := valid.bounded
    have full := context.parameters.plaintextSegmentLength_add
    have held := taken'.holds.ciphertext_eq
    have declared := List.length_take_of_le taken'.inside
    obtain ⟨advanced, success | failure⟩ :=
      here.decryptSegmentIntoFramed_spec (declared.trans payload.symm)
        declared (show framing.plaintextLength ≤ output.length by omega)
        (.inl agree)
    · obtain ⟨plaintext, allowed, opens, result, after⟩ := success
      have length : plaintext.length = framing.plaintextLength := by
        have whole := MessageContext.length_of_openSegment opens (by omega)
        omega
      let between : DecryptReader :=
        { reader with inner, buffer, decryptor := some advanced }
      have finished := @finishIfFinal_eq between framing advanced rfl opened
        (by
          intro final
          rw [final] at after
          exact after)
      let next : DecryptReader :=
        { between with
          decryptor := if framing.kind.isFinal then none else some advanced
          plaintextConsumed := 0
          plaintextAvailable := 0
          status :=
            if framing.kind.isFinal then .frameComplete else .opened }
      refine ⟨next, [], .inl ⟨plaintext, ?_,
        @Tracks.next platform context taken payloads pending reader next
          framing plaintext [] advanced tracks opened decoded taken'.inside
          allowed opens taken'.data taken'.cursor
          (taken'.parameters.trans tracks.parameters) taken'.holds.sized rfl
          rfl after (.nothing rfl)⟩⟩
      simp only [between] at finished
      simp only [readSegmentDirect, tryReadSegmentDirect, fetched, present,
        held, Outcome.mapErr, result, finished, poisonOnError, length]
      rfl
    · obtain ⟨error, failed, _, result, _⟩ := failure
      refine ⟨{ reader with
          inner, buffer, decryptor := some advanced, status := .failed },
        failed, .inr ⟨⟨decryptionError error, ?_⟩, rfl⟩⟩
      simp only [readSegmentDirect, tryReadSegmentDirect, fetched, present,
        held, Outcome.mapErr, result, poisonOnError]
  · refine ⟨{ reader with inner, buffer, status := .failed }, output,
      .inr ⟨⟨error, ?_⟩, rfl⟩⟩
    simp only [readSegmentDirect, tryReadSegmentDirect, fetched,
      poisonOnError]

/-! ## Reads -/

/-- `read` hands out the next plaintext that was opened, and nothing of it only
at the end of the message; or it fails and poisons the reader. -/
theorem Tracks.read_spec
    (agree : platform.OpensAgree)
    (tracks : reader.Tracks platform context taken payloads pending)
    (output : Bytes) :
    ∃ next filled,
      (∃ chunk more left,
          reader.read platform output =
              (.ok chunk.length, next,
                chunk ++ output.drop chunk.length) ∧
            GoesOn platform context taken payloads reader next more left ∧
            pending ++ more.flatten = chunk ++ left ∧
            (chunk = [] →
              output = [] ∨ next.isComplete = true ∧ left = [])) ∨
        (∃ error,
            reader.read platform output =
              (.error (.err error), next, filled)) ∧
          next.status = .failed := by
  have unfailed := tracks.unfailed
  have idle (done : output = [] ∨ reader.isComplete = true ∧ pending = []) :
      GoesOn platform context taken payloads reader reader [] pending ∧
        pending ++ ([] : List Bytes).flatten = [] ++ pending ∧
        (([] : Bytes) = [] →
          output = [] ∨ reader.isComplete = true ∧ pending = []) :=
    ⟨.idle rfl rfl tracks, List.append_nil pending, fun _ => done⟩
  by_cases empty : output = []
  · refine ⟨reader, output, .inl ⟨[], [], pending, ?_, idle (.inl empty)⟩⟩
    simp only [read, empty, ↓reduceIte]
    rfl
  by_cases drained : reader.plaintextConsumed = reader.plaintextAvailable
  · obtain rfl := tracks.pending.eq_nil drained
    by_cases complete : reader.isComplete = true
    · refine ⟨reader, output,
        .inl ⟨[], [], [], ?_, idle (.inr ⟨complete, rfl⟩)⟩⟩
      simp only [read, empty, unfailed, drained, complete, ↓reduceIte]
      rfl
    have opened := tracks.opened complete
    have own : reader.parameters = context.parameters := tracks.parameters
    by_cases room :
        context.parameters.plaintextSegmentLength ≤ output.length
    · have direct : reader.read platform output =
          reader.readSegmentDirect platform output := by
        simp only [read, empty, unfailed, drained, complete, own, room,
          Bool.false_eq_true, ↓reduceIte]
      rw [direct]
      obtain ⟨next, filled, ⟨plaintext, result, goesOn, ends⟩ | failure⟩ :=
        tracks.readSegmentDirect_spec agree opened room
      · refine ⟨next, filled, .inl ⟨plaintext, [plaintext], [], result,
          goesOn, ?_, fun blank => .inr ⟨ends blank, rfl⟩⟩⟩
        rw [List.flatten_singleton, List.append_nil, List.nil_append]
      · exact ⟨next, filled, .inr failure⟩
    · obtain ⟨next, ⟨plaintext, result, goesOn, consumed, available, ends,
          _⟩ | ⟨⟨error, result⟩, failed⟩⟩ :=
        tracks.loadSegment_spec agree opened
      · by_cases spent : next.plaintextConsumed = next.plaintextAvailable
        · have blank : plaintext = [] := by
            rw [← List.length_eq_zero_iff, ← available, ← spent, consumed]
          have ended := ends blank
          subst blank
          refine ⟨next, output, .inl ⟨[], [[]], [], ?_, goesOn, rfl,
            fun _ => .inr ⟨ended, rfl⟩⟩⟩
          simp only [read, empty, unfailed, drained, complete, own, room,
            Bool.false_eq_true, ↓reduceIte, result, spent, ended,
            Outcome.debugAssert, Outcome.ok_bind]
          rfl
        · obtain ⟨consumed, handed, left, something⟩ :=
            @Pending.readBuffered_spec plaintext next output
              goesOn.tracks.pending spent
          refine ⟨{ next with plaintextConsumed := consumed }, [],
            .inl ⟨plaintext.take output.length, [plaintext], _, ?_,
              ⟨goesOn.data, goesOn.cursor, goesOn.complete, goesOn.unended,
                goesOn.tracks.consume consumed left⟩,
              ?_, fun unread => ?_⟩⟩
          · simp only [read, empty, unfailed, drained, complete, own, room,
              Bool.false_eq_true, ↓reduceIte, result, spent, handed]
          · rw [List.flatten_singleton, List.take_append_drop,
              List.nil_append]
          · rcases List.take_eq_nil_iff.mp unread with zero | nothing
            · exact .inl (List.length_eq_zero_iff.mp zero)
            · exact (something nothing).elim
      · refine ⟨next, output, .inr ⟨⟨error, ?_⟩, failed⟩⟩
        simp only [read, empty, unfailed, drained, complete, own, room,
          Bool.false_eq_true, ↓reduceIte, result]
  · obtain ⟨consumed, handed, left, something⟩ :=
      @Pending.readBuffered_spec pending reader output tracks.pending drained
    refine ⟨{ reader with plaintextConsumed := consumed }, [],
      .inl ⟨pending.take output.length, [], _, ?_,
        .idle rfl rfl (tracks.consume consumed left), ?_,
        fun unread => ?_⟩⟩
    · simp only [read, empty, unfailed, drained, ↓reduceIte, handed]
    · rw [List.flatten_nil, List.append_nil, List.take_append_drop]
    · rcases List.take_eq_nil_iff.mp unread with zero | nothing
      · exact .inl (List.length_eq_zero_iff.mp zero)
      · exact (something nothing).elim

/-! ## Draining -/

/-- The loop of `drain_message` opens segments up to the final one, or poisons
the reader. -/
theorem Tracks.drainLoop_spec
    {fuel : Nat}
    (agree : platform.OpensAgree)
    (tracks : reader.Tracks platform context taken payloads [])
    (enough : reader.inner.remaining.length < fuel) :
    ∃ next,
      (∃ more,
          drainLoop platform fuel reader = (.ok (), next) ∧
            GoesOn platform context taken payloads reader next more [] ∧
            next.isComplete = true) ∨
        (∃ error,
            drainLoop platform fuel reader = (.error (.err error), next)) ∧
          next.status = .failed := by
  induction fuel generalizing reader taken payloads with
  | zero =>
      exact (Nat.not_lt_zero _ enough).elim
  | succ fuel inductionHypothesis =>
      by_cases complete : reader.isComplete = true
      · have unopened : reader.status ≠ .opened := by
          intro opened
          simp [isComplete, opened] at complete
        refine ⟨reader, .inl ⟨[], ?_, .idle rfl rfl tracks, complete⟩⟩
        simp only [drainLoop, unopened, ↓reduceIte]
      have opened := tracks.opened complete
      obtain ⟨next, ⟨plaintext, result, goesOn, _, _, _, shorter⟩ |
          ⟨⟨error, result⟩, failed⟩⟩ :=
        tracks.loadSegment_spec agree opened
      · let discarded : DecryptReader :=
          { next with plaintextConsumed := next.plaintextAvailable }
        have onward : GoesOn platform context taken payloads reader discarded
            [plaintext] [] :=
          ⟨goesOn.data, goesOn.cursor, goesOn.complete, goesOn.unended,
            goesOn.tracks.consume _ (.nothing rfl)⟩
        obtain ⟨last, ⟨more, rest, later, ended⟩ |
            ⟨⟨error, rest⟩, failed⟩⟩ :=
          inductionHypothesis onward.tracks
            (Nat.lt_of_lt_of_le shorter (Nat.le_of_lt_succ enough))
        · refine ⟨last,
            .inl ⟨[plaintext] ++ more, ?_, onward.trans later, ended⟩⟩
          simp only [drainLoop, opened, ↓reduceIte, result]
          exact rest
        · refine ⟨last, .inr ⟨⟨error, ?_⟩, failed⟩⟩
          simp only [drainLoop, opened, ↓reduceIte, result]
          exact rest
      · refine ⟨next, .inr ⟨⟨error, ?_⟩, failed⟩⟩
        simp only [drainLoop, opened, ↓reduceIte, result]

/-- `drain_message` opens the rest of the message and gives up what is held. -/
theorem Tracks.drainMessage_spec
    (agree : platform.OpensAgree)
    (tracks : reader.Tracks platform context taken payloads pending) :
    ∃ next,
      (∃ more,
          reader.drainMessage platform = (.ok (), next) ∧
            GoesOn platform context taken payloads reader next more [] ∧
            next.isComplete = true) ∨
        (∃ error,
            reader.drainMessage platform = (.error (.err error), next)) ∧
          next.status = .failed := by
  obtain ⟨next, ⟨more, result, goesOn, ended⟩ |
      ⟨⟨error, result⟩, failed⟩⟩ :=
    @Tracks.drainLoop_spec platform context taken payloads
      { reader with plaintextConsumed := reader.plaintextAvailable }
      (reader.inner.remaining.length + 2) agree
      (tracks.consume _ (.nothing rfl))
      (Nat.lt_of_lt_of_le (Nat.lt_succ_self _) (Nat.le_succ _))
  · refine ⟨next, .inl ⟨more, ?_, ⟨goesOn.data, goesOn.cursor,
      goesOn.complete, goesOn.unended, goesOn.tracks⟩, ended⟩⟩
    simp only [drainMessage, result, goesOn.tracks.unfailed, ↓reduceIte]
  · refine ⟨next, .inr ⟨⟨error, ?_⟩, failed⟩⟩
    simp only [drainMessage, result]

/-- Another source, and another status behind the same segments. -/
theorem Tracks.withSource
    {inner : Source IoPayload}
    {status : DecryptStatus}
    (tracks : reader.Tracks platform context taken payloads pending)
    (unfailed : status ≠ .failed)
    (complete :
      { reader with inner, status }.isComplete = reader.isComplete)
    (opened : status = .opened → reader.status = .opened) :
    { reader with inner, status }.Tracks platform context taken payloads
      pending := by
  refine ⟨unfailed, complete ▸ tracks.passed, tracks.parameters,
    tracks.sized, fun unfinished => tracks.decryptor (opened unfinished), ?_⟩
  cases tracks.pending with
  | nothing drained => exact .nothing drained
  | buffered holds available ahead => exact .buffered holds available ahead

/-- `get_mut` leaves what was taken and what is held alone. -/
theorem Tracks.getMut
    (tracks : reader.Tracks platform context taken payloads pending)
    (use : Source IoPayload → Source IoPayload) :
    (reader.getMut use).Tracks platform context taken payloads pending ∧
      (reader.getMut use).isComplete = reader.isComplete ∧
      (reader.getMut use).status ≠ .streamComplete := by
  have unfailed := tracks.unfailed
  unfold DecryptReader.getMut
  by_cases ended : reader.status = .streamComplete
  · have complete : { reader with
        inner := use reader.inner
        status := .frameComplete }.isComplete = reader.isComplete := by
      simp [isComplete, ended]
    simp only [ended, ↓reduceIte]
    exact ⟨tracks.withSource (by simp) complete (by simp), complete, by simp⟩
  · have complete : { reader with
        inner := use reader.inner
        status := reader.status }.isComplete = reader.isComplete :=
      rfl
    simp only [ended, ↓reduceIte]
    exact ⟨tracks.withSource unfailed complete id, complete, ended⟩

/-- `try_finish` opens the rest of the message, gives up what is held and looks
for the end of the stream. -/
theorem Tracks.tryFinish_spec
    (agree : platform.OpensAgree)
    (tracks : reader.Tracks platform context taken payloads pending)
    (unended : reader.status ≠ .streamComplete) :
    ∃ drained next,
      (∃ more,
          reader.drainMessage platform = (.ok (), drained) ∧
            reader.tryFinish platform = (.ok (), next) ∧
            GoesOn platform context taken payloads reader drained more [] ∧
            next.isComplete = true ∧
            next.Tracks platform context
              (taken ++ bytesTaken reader.inner drained.inner)
              (payloads ++ more) []) ∨
        (∃ error,
            reader.tryFinish platform = (.error (.err error), next)) ∧
          next.status = .failed := by
  obtain ⟨drained, ⟨more, result, goesOn, complete⟩ |
      ⟨⟨error, result⟩, failed⟩⟩ :=
    tracks.drainMessage_spec agree
  · obtain ⟨outcome, behind, after, read, reads⟩ :=
      readFully_spec drained.inner (zeros 1)
    cases outcome with
    | error stop =>
        obtain ⟨error, rfl⟩ := reads.returns.stop_eq_err
        refine ⟨drained, { drained with inner := after, status := .failed },
          .inr ⟨⟨error, ?_⟩, rfl⟩⟩
        simp only [tryFinish, unended, ↓reduceIte, result, read]
        rfl
    | ok _ =>
        cases behind with
        | nil =>
            refine ⟨drained,
              { drained with inner := after, status := .streamComplete },
              .inl ⟨more, result, ?_, goesOn, by simp [isComplete], ?_⟩⟩
            · simp only [tryFinish, unended, ↓reduceIte, result, read]
              rfl
            · exact goesOn.tracks.withSource (by simp)
                (complete.trans (by simp [isComplete])).symm (by simp)
        | cons byte rest =>
            refine ⟨drained,
              { drained with inner := after, status := .failed },
              .inr ⟨⟨trailingDataError, ?_⟩, rfl⟩⟩
            simp only [tryFinish, unended, ↓reduceIte, result, read]
            rfl
  · refine ⟨drained, drained, .inr ⟨⟨error, ?_⟩, failed⟩⟩
    simp only [tryFinish, unended, ↓reduceIte, result]

end Steps

end DecryptReader

end FastFloe
