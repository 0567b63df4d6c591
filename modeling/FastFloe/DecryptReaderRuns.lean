import FastFloe.FramedReading
import FastFloe.ReaderRuns

namespace FastFloe

open Rust

/-!
# Runs of reads on a decrypting reader

Any sequence of reads into outputs of any sizes, on a source that fragments its
bytes in any way.  The bytes returned are always the beginning of the plaintext
of the leading segments; the message is complete exactly when `decrypt` accepts
it.
-/

/-- One call of `read`: the buffer it was given and what it came back with. -/
structure ReadCall where
  output : Bytes
  result : IoResult Nat
  filled : Bytes

namespace ReadCall

/-- The plaintext that the call returned. -/
def delivered (self : ReadCall) : Bytes :=
  match self.result with
  | .ok count => self.filled.take count
  | .error _ => []

/-- The call returned, and all that it changed of its output is the beginning
that it filled. -/
def Succeeds (self : ReadCall) : Prop :=
  ∃ chunk : Bytes,
    self.result = .ok chunk.length ∧
      self.filled = chunk ++ self.output.drop chunk.length

/-- The call reported the end of the plaintext. -/
def AtEnd (self : ReadCall) : Prop :=
  self.output ≠ [] ∧ self.result = .ok 0

end ReadCall

/-- The plaintext that a sequence of reads returned. -/
def delivered (calls : List ReadCall) : Bytes :=
  (calls.map ReadCall.delivered).flatten

@[simp] theorem delivered_cons (call : ReadCall) (calls : List ReadCall) :
    delivered (call :: calls) = call.delivered ++ delivered calls :=
  rfl

namespace DecryptReader

/-- Reads into these outputs in turn. -/
def readAll (platform : Platform) :
    DecryptReader → List Bytes → List ReadCall × DecryptReader
  | self, [] =>
      ([], self)
  | self, output :: outputs =>
      let answer := self.read platform output
      let later := readAll platform answer.2.1 outputs
      (⟨output, answer.1, answer.2.2⟩ :: later.1, later.2)

section Runs

variable {platform : Platform} {context : MessageContext}
  {start : Source IoPayload} {payloads : List Bytes} {ended : Bool}
  {pending released : Bytes} {reader : DecryptReader}

/-- A poisoned reader returns nothing more. -/
theorem readAll_failed
    (failed : reader.status = .failed)
    (outputs : List Bytes) :
    delivered (reader.readAll platform outputs).1 = [] ∧
      (∀ call ∈ (reader.readAll platform outputs).1, ¬ call.AtEnd) ∧
      (reader.readAll platform outputs).2.status = .failed := by
  induction outputs with
  | nil =>
      exact ⟨rfl, by simp [readAll], failed⟩
  | cons output outputs inductionHypothesis =>
      obtain ⟨nothing, unfinished, stillFailed⟩ := inductionHypothesis
      by_cases empty : output = []
      · have answer : reader.read platform output =
            (.ok 0, reader, output) := by
          simp only [read, empty, ↓reduceIte]
        simp only [readAll, answer, delivered_cons, nothing]
        refine ⟨rfl, ?_, stillFailed⟩
        intro call member
        rcases List.mem_cons.mp member with rfl | later
        · exact fun atEnd => atEnd.1 empty
        · exact unfinished call later
      · have answer : reader.read platform output =
            (.error (.err poisonedError), reader, output) := by
          simp only [read, empty, failed, ↓reduceIte]
        simp only [readAll, answer, delivered_cons, nothing]
        refine ⟨rfl, ?_, stillFailed⟩
        intro call member
        rcases List.mem_cons.mp member with rfl | later
        · exact fun atEnd => by cases atEnd.2
        · exact unfinished call later

/-- A read is at the end when it had room and handed out nothing. -/
theorem atEnd_handed
    {output chunk rest : Bytes}
    (atEnd : ReadCall.AtEnd ⟨output, .ok chunk.length, rest⟩) :
    output ≠ [] ∧ chunk = [] := by
  refine ⟨atEnd.1, List.length_eq_zero_iff.mp ?_⟩
  have zero := atEnd.2
  simp only [Except.ok.injEq] at zero
  exact zero

/-- What a run of reads returns and where it leaves the reader: in the middle of
the leading segments, behind the last segment, or poisoned where the leading
segments stop. -/
theorem Follows.readAll_spec
    (agree : platform.OpensAgree)
    (follows : reader.Follows platform context start payloads ended pending)
    (total : payloads.flatten = released ++ pending)
    (outputs : List Bytes) :
    (∃ all endedNext left,
        (reader.readAll platform outputs).2.Follows platform context start all
            endedNext left ∧
          all.flatten =
            released ++ delivered (reader.readAll platform outputs).1 ++
              left ∧
          (ended = true →
            endedNext = true ∧ (pending = [] → left = [])) ∧
          ∀ call ∈ (reader.readAll platform outputs).1,
            call.Succeeds ∧
              (call.AtEnd → endedNext = true ∧ left = [])) ∨
      ∃ all,
        (reader.readAll platform outputs).2.status = .failed ∧
          ended = false ∧
          (segmentStream platform context).scan 0 start.remaining =
            (all, none) ∧
          all.flatten =
            released ++ delivered (reader.readAll platform outputs).1 ∧
          ∀ call ∈ (reader.readAll platform outputs).1, ¬ call.AtEnd := by
  induction outputs generalizing reader payloads ended pending released with
  | nil =>
      refine .inl ⟨payloads, ended, pending, follows, ?_,
        fun ends => ⟨ends, id⟩, by simp [readAll]⟩
      simp only [readAll, delivered, List.map_nil, List.flatten_nil,
        List.append_nil]
      exact total
  | cons output outputs inductionHypothesis =>
      have step := follows.read_step agree output
      unfold readAll
      cases answer : reader.read platform output with
      | mk result rest =>
      rw [answer] at step
      cases step with
      | @handed next chunk left more endedNext nextFollows balance settled
          progress =>
          have call : ReadCall.delivered
              ⟨output, .ok chunk.length,
                chunk ++ output.drop chunk.length⟩ = chunk :=
            List.take_left
          have nextTotal :
              (payloads ++ more).flatten = released ++ chunk ++ left := by
            rw [List.flatten_append, total, List.append_assoc, balance,
              List.append_assoc]
          have first (atEnd : ReadCall.AtEnd
              ⟨output, .ok chunk.length,
                chunk ++ output.drop chunk.length⟩) :
              endedNext = true ∧ left = [] :=
            (progress (atEnd_handed atEnd).2).resolve_left
              (atEnd_handed atEnd).1
          simp only [delivered_cons, call]
          rcases @inductionHypothesis _ _ _ _ _ nextFollows nextTotal with
            ⟨all, endedLast, last, lastFollows, lastTotal, stays, later⟩ |
              ⟨all, failed, unfinished, scanned, lastTotal, noEnd⟩
          · refine .inl ⟨all, endedLast, last, lastFollows, ?_, ?_, ?_⟩
            · rw [lastTotal]
              simp only [List.append_assoc]
            · intro ends
              obtain ⟨endsNext, rfl⟩ := settled ends
              refine ⟨(stays endsNext).1, fun blank => ?_⟩
              rw [blank, List.flatten_nil] at balance
              exact (stays endsNext).2
                (List.append_eq_nil_iff.mp balance.symm).2
            · intro answered member
              rcases List.mem_cons.mp member with rfl | member
              · refine ⟨⟨chunk, rfl, rfl⟩, fun atEnd => ?_⟩
                obtain ⟨endsNext, blank⟩ := first atEnd
                exact ⟨(stays endsNext).1, (stays endsNext).2 blank⟩
              · exact later answered member
          · have opened : ended = false := by
              cases ended with
              | false => rfl
              | true =>
                  rw [(settled rfl).1] at unfinished
                  cases unfinished
            refine .inr ⟨all, failed, opened, scanned, ?_, ?_⟩
            · rw [lastTotal]
              simp only [List.append_assoc]
            · intro later member
              rcases List.mem_cons.mp member with rfl | member
              · intro atEnd
                rw [(first atEnd).1] at unfinished
                cases unfinished
              · exact noEnd later member
      | @refused next error untouched failed opened nothing missing =>
          subst opened nothing
          obtain ⟨blank, noEnd, stillFailed⟩ :=
            @readAll_failed platform next failed outputs
          have scanned := follows.passed.scan_eq
          rw [Nat.zero_add,
            (segmentStream platform context).scan_of_none missing] at scanned
          refine .inr ⟨payloads, stillFailed, rfl, ?_, ?_, ?_⟩
          · simpa using scanned
          · simp only [delivered_cons, blank, ReadCall.delivered,
              List.append_nil]
            rw [total, List.append_nil]
          · intro later member
            rcases List.mem_cons.mp member with rfl | member
            · exact fun atEnd => by cases atEnd.2
            · exact noEnd later member

/-- A poisoned reader cannot be finalized. -/
theorem tryFinish_failed
    (failed : reader.status = .failed) :
    (reader.tryFinish platform).1 = .error (.err poisonedError) := by
  simp only [tryFinish, drainMessage, drainLoop, failed, reduceCtorEq,
    ↓reduceIte]

/-- After any reads, finalizing succeeds exactly on a message. -/
theorem Follows.finishes_iff
    (agree : platform.OpensAgree)
    (follows : reader.Follows platform context start payloads ended pending)
    (total : payloads.flatten = released ++ pending)
    (outputs : List Bytes) :
    ((reader.readAll platform outputs).2.tryFinish platform).1 = .ok () ↔
      ∃ all,
        (segmentStream platform context).Message 0 start.remaining all := by
  rcases follows.readAll_spec agree total outputs with
    ⟨all, endedLast, left, lastFollows, _⟩ | ⟨all, failed, _, scanned, _⟩
  · obtain ⟨next, success | failure | trailing⟩ :=
      lastFollows.tryFinish_spec agree
    · obtain ⟨whole, result, isMessage, _⟩ := success
      rw [result]
      exact ⟨fun _ => ⟨whole, isMessage⟩, fun _ => rfl⟩
    · obtain ⟨⟨error, result⟩, closed⟩ := failure
      rw [result]
      constructor
      · exact fun impossible => by cases impossible
      · rintro ⟨whole, isMessage⟩
        rw [isMessage] at closed
        cases closed
    · obtain ⟨whole, rest, ⟨error, result⟩, scanned, more, _⟩ := trailing
      rw [result]
      constructor
      · exact fun impossible => by cases impossible
      · rintro ⟨whole', isMessage⟩
        rw [isMessage, Prod.mk.injEq, Option.some.injEq] at scanned
        exact (more scanned.2.symm).elim
  · rw [tryFinish_failed failed]
    constructor
    · exact fun impossible => by cases impossible
    · rintro ⟨whole, isMessage⟩
      rw [isMessage, Prod.mk.injEq] at scanned
      cases scanned.2

/-- What the reads of a newly opened reader return: a beginning of the plaintext
of the leading segments, and all of it once one of them reported the end, which
happens only behind the last segment.  Where there is a last segment, no read
fails. -/
theorem Follows.readAll_released
    (agree : platform.OpensAgree)
    (follows : reader.Follows platform context start [] false [])
    (outputs : List Bytes) :
    delivered (reader.readAll platform outputs).1 <+:
        ((segmentStream platform context).leading 0
          start.remaining).flatten ∧
      (∀ call ∈ (reader.readAll platform outputs).1, call.AtEnd →
        (reader.readAll platform outputs).2.isComplete = true ∧
          ∃ all rest,
            (segmentStream platform context).scan 0 start.remaining =
                (all, some rest) ∧
              delivered (reader.readAll platform outputs).1 =
                all.flatten) ∧
      ∀ all rest,
        (segmentStream platform context).scan 0 start.remaining =
            (all, some rest) →
          ∀ call ∈ (reader.readAll platform outputs).1, call.Succeeds := by
  rcases follows.readAll_spec agree
      (show ([] : List Bytes).flatten = [] ++ [] from rfl) outputs with
    ⟨all, ended, left, lastFollows, total, _, answered⟩ |
      ⟨all, _, _, scanned, total, noEnd⟩
  · rw [List.nil_append] at total
    refine ⟨?_, fun call member atEnd => ?_,
      fun _ _ _ call member => (answered call member).1⟩
    · obtain ⟨more, shape⟩ := lastFollows.passed.isPrefix_leading
      rw [← shape, List.flatten_append, total, List.append_assoc]
      exact List.prefix_append _ _
    · obtain ⟨rfl, rfl⟩ := (answered call member).2 atEnd
      have scanned := lastFollows.passed.scan_eq
      rw [if_pos rfl] at scanned
      rw [List.append_nil] at total
      refine ⟨?_, all, _, scanned, total.symm⟩
      simp only [isComplete, lastFollows.status, ↓reduceIte, true_or,
        decide_true]
  · rw [List.nil_append] at total
    refine ⟨⟨[], ?_⟩, fun call member atEnd => ?_,
      fun _ _ whole => ?_⟩
    · rw [List.append_nil, Framing.Parser.leading, scanned, total]
    · exact (noEnd call member atEnd).elim
    · rw [scanned] at whole
      cases whole

end Runs

/-! ## Opening a reader -/

section Construction

variable {platform : Platform} {key : Key} {aad : Bytes}
  {source : Source IoPayload}

/-- A reader that was opened stands behind the header that authenticates. -/
theorem new_spec
    (platform : Platform)
    (key : Key)
    (aad : Bytes)
    (honest : source.Honest) :
    (∃ header body context reader start,
        source.remaining = header.val ++ body ∧
          HeaderAuthenticates platform key aad header context ∧
          new platform source key aad = .ok reader ∧
          source.Advanced start headerLength ∧
          start.remaining = body ∧
          reader.Follows platform context start [] false []) ∨
      ((∃ error, new platform source key aad = .error (.err error)) ∧
        ∀ header body context,
          source.remaining = header.val ++ body →
            HeaderAuthenticates platform key aad header context →
              ∀ stream, parseSegment platform context 0 stream = none) := by
  rcases readHeader_honest honest with
    ⟨start, ⟨header, enough, lead, read, advanced⟩ | ⟨short, error, failed⟩⟩
  · have whole : source.remaining = header.val ++ start.remaining := by
      rw [lead, advanced.remaining_eq, List.take_append_drop]
    rcases startDecryptionInferred_spec platform key aad header with
      ⟨context, state, authentic, started, ready, _⟩ |
        ⟨⟨error, failed⟩, unscheduled⟩
    · let decryptor : Decryptor := { state, counter := SegmentCounter.new }
      have here : decryptor.At platform context 0 :=
        ⟨ready, rfl, by decide⟩
      left
      refine ⟨header, start.remaining, context,
        fromDecryptor start decryptor header, start, whole, authentic, ?_,
        advanced, rfl, ?_⟩
      · simp only [new, read, Decryptor.new, started, Outcome.ok_bind,
          Outcome.mapErr, decryptor]
      · have inside : start.cursor ≤ start.data.length := by
          rw [Source.remaining, List.length_drop] at enough
          rw [advanced.cursor, advanced.data]
          have positive : 0 < headerLength := by decide
          omega
        exact ⟨advanced.honest, rfl, inside, .start, ready.parameters_eq,
          SegmentBuffer.sized_new _, rfl,
          fun _ => ⟨decryptor, rfl, here⟩, .nothing rfl⟩
    · right
      constructor
      · simp only [new, read, Decryptor.new, failed, Outcome.error_bind,
          Outcome.mapErr]
        exact ⟨_, rfl⟩
      · intro other rest context same authentic stream
        obtain ⟨sameHeader, _⟩ :=
          List.append_inj (whole.symm.trans same)
            (header.length_val.trans other.length_val.symm)
        cases Subtype.ext sameHeader
        exact parseSegment_of_unscheduled (unscheduled context authentic)
  · right
    constructor
    · simp only [new, failed]
      exact ⟨_, rfl⟩
    · intro header body context same
      rw [same, List.length_append, header.length_val] at short
      omega

/-- A reader can be opened on a source that goes on with an accepted
message. -/
theorem new_of_accepted
    {message tail plaintext : Bytes}
    (honest : source.Honest)
    (accepted : decrypt platform key aad message = .ok plaintext)
    (lead : source.remaining = message ++ tail) :
    ∃ context body reader start payloads,
      message.length = headerLength + body.length ∧
        (segmentStream platform context).Message 0 body payloads ∧
        plaintext = payloads.flatten ∧
        new platform source key aad = .ok reader ∧
        source.Advanced start headerLength ∧
        start.remaining = body ++ tail ∧
        reader.Follows platform context start [] false [] := by
  obtain ⟨header, body, context, payloads, rfl, authentic, isMessage, rfl⟩ :=
    ((decrypt_spec platform key aad message).2 plaintext).mp accepted
  have parts : source.remaining = header.val ++ (body ++ tail) := by
    rw [lead, List.append_assoc]
  rcases new_spec platform key aad honest with
    ⟨other, rest, otherContext, reader, start, same, otherAuthentic, opened,
      advanced, remaining, follows⟩ | ⟨_, closed⟩
  · obtain ⟨sameHeader, sameRest⟩ :=
      List.append_inj (parts.symm.trans same)
        (header.length_val.trans other.length_val.symm)
    cases Subtype.ext sameHeader
    cases otherAuthentic.unique authentic
    refine ⟨context, body, reader, start, payloads, ?_, isMessage, rfl,
      opened, advanced, remaining.trans sameRest.symm, follows⟩
    rw [List.length_append, header.length_val]
  · exact ((segmentStream platform context).not_message_of_none
      (closed header (body ++ tail) context parts authentic body)
      isMessage).elim

end Construction

end DecryptReader

/-! ## Agreement with `decrypt` -/

/-- `DecryptReader` agrees with `decrypt` for every fragmentation of the source
and every sequence of reads.  Opening and finalizing succeed exactly when
`decrypt` accepts; then no read fails, and the reads return a beginning of the
plaintext, all of it once one of them reported the end.  On every stream the
bytes returned are a beginning of the plaintext of the leading segments, and the
end is reported only behind an authenticated final segment. -/
theorem decryptReader_agreesWithDecrypt
    {platform : Platform}
    {source : Source IoPayload}
    (key : Key)
    (aad : Bytes)
    (outputs : List Bytes)
    (agree : platform.OpensAgree)
    (honest : source.Honest) :
    ((∃ reader,
        DecryptReader.new platform source key aad = .ok reader ∧
          ((reader.readAll platform outputs).2.tryFinish platform).1 =
            .ok ()) ↔
      ∃ plaintext,
        decrypt platform key aad source.remaining = .ok plaintext) ∧
    ((∃ reader,
        DecryptReader.new platform source key aad = .ok reader ∧
          ((reader.readAll platform outputs).2.finish platform).1 =
            .ok ()) ↔
      ∃ plaintext,
        decrypt platform key aad source.remaining = .ok plaintext) ∧
    ∀ reader,
      DecryptReader.new platform source key aad = .ok reader →
        let calls := (reader.readAll platform outputs).1
        (∀ plaintext,
          decrypt platform key aad source.remaining = .ok plaintext →
            delivered calls <+: plaintext ∧
              (∀ call ∈ calls, call.Succeeds) ∧
              ∀ call ∈ calls, call.AtEnd → delivered calls = plaintext) ∧
        ∃ header body context,
          source.remaining = header.val ++ body ∧
            HeaderAuthenticates platform key aad header context ∧
            delivered calls <+:
              ((segmentStream platform context).leading 0 body).flatten ∧
            ∀ call ∈ calls, call.AtEnd →
              (reader.readAll platform outputs).2.isComplete = true ∧
                ∃ payloads rest,
                  (segmentStream platform context).scan 0 body =
                      (payloads, some rest) ∧
                    delivered calls = payloads.flatten := by
  rcases DecryptReader.new_spec platform key aad honest with
    ⟨header, body, context, reader, start, whole, authentic, opened, _,
      remaining, follows⟩ | ⟨⟨error, failed⟩, closed⟩
  · have accepts (plaintext : Bytes) :=
      @decrypt_iff_message _ _ _ _ _ plaintext _ _ authentic whole
    have completes :
        ((reader.readAll platform outputs).2.tryFinish platform).1 =
            .ok () ↔
          ∃ plaintext,
            decrypt platform key aad source.remaining = .ok plaintext := by
      rw [follows.finishes_iff agree
        (show ([] : List Bytes).flatten = [] ++ [] from rfl) outputs,
        remaining]
      constructor
      · rintro ⟨payloads, isMessage⟩
        exact ⟨payloads.flatten, (accepts _).mpr ⟨payloads, isMessage, rfl⟩⟩
      · rintro ⟨plaintext, accepted⟩
        obtain ⟨payloads, isMessage, _⟩ := (accepts plaintext).mp accepted
        exact ⟨payloads, isMessage⟩
    have only (holds : DecryptReader → Prop) :
        (∃ other,
            DecryptReader.new platform source key aad = .ok other ∧
              holds other) ↔
          holds reader := by
      simp only [opened, Except.ok.injEq, exists_eq_left']
    refine ⟨(only _).trans completes, (only _).trans completes, ?_⟩
    intro other same
    rw [opened, Except.ok.injEq] at same
    subst same
    obtain ⟨lead, atEnds, succeed⟩ := follows.readAll_released agree outputs
    rw [remaining] at lead atEnds succeed
    refine ⟨?_, header, body, context, whole, authentic, lead, atEnds⟩
    intro plaintext accepted
    obtain ⟨payloads, isMessage, rfl⟩ := (accepts plaintext).mp accepted
    rw [isMessage.leading_eq] at lead
    refine ⟨lead, succeed _ _ isMessage, fun call member atEnd => ?_⟩
    obtain ⟨_, all, rest, scanned, released⟩ := atEnds call member atEnd
    rw [isMessage, Prod.mk.injEq] at scanned
    rw [released, scanned.1]
  · have rejected (plaintext : Bytes) :
        decrypt platform key aad source.remaining ≠ .ok plaintext := by
      intro accepted
      obtain ⟨header, body, context, payloads, same, authentic, isMessage,
          _⟩ :=
        ((decrypt_spec platform key aad source.remaining).2 plaintext).mp
          accepted
      exact (segmentStream platform context).not_message_of_none
        (closed header body context same authentic body) isMessage
    simp only [failed, rejected, reduceCtorEq, false_and, exists_false,
      false_implies, implies_true, and_self]

set_option maxRecDepth 100000 in
/-- Both sides of the agreement hold of an accepted message in three pieces,
read by a small read, a large one and one that reports the end. -/
theorem decryptReader_agreesWithDecrypt_example :
    decrypt openPlatform zeroKey [] twoSegmentsSource.remaining =
        .ok (zeros 33) ∧
      ∃ reader,
        DecryptReader.new openPlatform twoSegmentsSource zeroKey [] =
            .ok reader ∧
          let reads :=
            reader.readAll openPlatform [zeros 5, zeros 64, zeros 1, zeros 1]
          (reads.2.tryFinish openPlatform).1 = .ok () ∧
            (reads.2.finish openPlatform).1 = .ok () ∧
            (∀ call ∈ reads.1, call.Succeeds) ∧
            delivered reads.1 <+: zeros 33 := by
  have honest : twoSegmentsSource.Honest := by
    simp [Source.Honest, twoSegmentsSource, SourceEvent.Fragments]
  have accepted :
      decrypt openPlatform zeroKey [] twoSegmentsSource.remaining =
        .ok (zeros 33) := rfl
  obtain ⟨finalizes, finishes, reads⟩ := decryptReader_agreesWithDecrypt
    zeroKey [] [zeros 5, zeros 64, zeros 1, zeros 1] transparent_opensAgree
    honest
  obtain ⟨reader, opened, finalized⟩ := finalizes.mpr ⟨_, accepted⟩
  obtain ⟨other, again, finished⟩ := finishes.mpr ⟨_, accepted⟩
  rw [opened, Except.ok.injEq] at again
  subst again
  obtain ⟨lead, succeed, _⟩ := (reads reader opened).1 _ accepted
  exact ⟨accepted, reader, opened, finalized, finished, succeed, lead⟩

end FastFloe
