import FastFloe.DecryptReaderRuns

namespace FastFloe

open Rust

/-!
# Frame boundaries

Messages that follow each other in one stream, each read through its own
`DecryptReader` and closed with `finish_frame`.  A reader never takes a byte
beyond its message, and `finish_frame` takes all that its caller left.
-/

/-- What a caller does with one message of a stream. -/
structure FrameUse where
  key : Key
  aad : Bytes
  outputs : List Bytes

/-- The reads of one message, the reader they left, and the source that
`finish_frame` gave back. -/
structure FrameReport where
  calls : List ReadCall
  reader : DecryptReader
  recovered : Source IoPayload

/-- Opens a reader, reads, and finishes the frame, for each message in turn. -/
def readFrames (platform : Platform) :
    Source IoPayload → List FrameUse → IoResult (List FrameReport)
  | _, [] =>
      .ok []
  | source, use :: uses => do
      let opened ← DecryptReader.new platform source use.key use.aad
      let (calls, reader) := opened.readAll platform use.outputs
      match reader.finishFrame platform with
      | (.error stop, _) => .error stop
      | (.ok (), recovered) =>
          let reports ← readFrames platform recovered uses
          .ok (⟨calls, reader, recovered⟩ :: reports)

/-- A message of a stream, its plaintext, and what is done with it. -/
structure StreamedFrame extends FrameUse where
  message : Bytes
  plaintext : Bytes

/-- The bytes of these messages, one behind the other. -/
def StreamedFrame.stream (frames : List StreamedFrame) : Bytes :=
  (frames.map StreamedFrame.message).flatten

/-- What the reads of a message returned, where `finish_frame` left the source,
and what `try_finish` does instead, for a message that ends at `stop` and has
`rest` behind it. -/
structure FrameReport.Exact (platform : Platform) (source : Source IoPayload)
    (plaintext : Bytes) (stop : Nat) (rest : Bytes) (report : FrameReport) :
    Prop where
  succeed : ∀ call ∈ report.calls, call.Succeeds
  lead : delivered report.calls <+: plaintext
  complete :
    ∀ call ∈ report.calls, call.AtEnd → delivered report.calls = plaintext
  data : report.recovered.data = source.data
  cursor : report.recovered.cursor = stop
  finishes :
    (report.reader.tryFinish platform).1 = .ok () ↔ rest = []
  overread :
    (report.reader.tryFinish platform).2.inner.cursor ≤ stop + 1

/-- One message: it can be opened, read in any way and finished, and the source
then stands right behind it. -/
theorem readFrame_exact
    {platform : Platform}
    {source : Source IoPayload}
    {key : Key}
    {aad message plaintext rest : Bytes}
    (outputs : List Bytes)
    (agree : platform.OpensAgree)
    (honest : source.Honest)
    (accepted : decrypt platform key aad message = .ok plaintext)
    (lead : source.remaining = message ++ rest) :
    ∃ reader recovered,
      DecryptReader.new platform source key aad = .ok reader ∧
        (reader.readAll platform outputs).2.finishFrame platform =
          (.ok (), recovered) ∧
        source.Advanced recovered message.length ∧
        recovered.remaining = rest ∧
        FrameReport.Exact platform source plaintext
          (source.cursor + message.length) rest
          ⟨(reader.readAll platform outputs).1,
            (reader.readAll platform outputs).2, recovered⟩ := by
  obtain ⟨context, body, reader, start, payloads, size, isMessage, rfl,
      opened, advanced, remaining, follows⟩ :=
    DecryptReader.new_of_accepted honest accepted lead
  have scanned := isMessage.scan_append rest
  rw [← remaining] at scanned
  -- Where the message ends, counted from the start of the data.
  have whole : start.data.length =
      source.cursor + message.length + rest.length := by
    have total := congrArg List.length remaining
    have inside := follows.inside
    have moved := advanced.cursor
    have length := congrArg List.length lead
    have positive : 0 < headerLength := by decide
    rw [Source.remaining, List.length_drop, List.length_append] at total
    rw [Source.remaining, List.length_drop, List.length_append,
      ← advanced.data] at length
    omega
  rcases follows.readAll_spec agree
      (show ([] : List Bytes).flatten = [] ++ [] from rfl) outputs with
    ⟨all, ended, left, lastFollows, total, _, answered⟩ |
      ⟨all, _, _, scanned', _, _⟩
  · rw [List.nil_append] at total
    have passed := lastFollows.passed
    rw [remaining] at passed
    obtain ⟨begun, closes⟩ := passed.of_message isMessage
    obtain ⟨drained, success | failure⟩ :=
      lastFollows.drainMessage_spec agree
    · obtain ⟨_, result, drainedFollows⟩ := success
      have passedAll := drainedFollows.passed
      rw [remaining] at passedAll
      obtain ⟨_, closesAll⟩ := passedAll.of_message isMessage
      obtain ⟨_, behind⟩ := closesAll rfl
      have cursor : drained.inner.cursor =
          source.cursor + message.length := by
        have inside := drainedFollows.inside
        have length := congrArg List.length behind
        rw [Source.remaining, List.length_drop, drainedFollows.data]
          at length
        omega
      have data : drained.inner.data = source.data :=
        drainedFollows.data.trans advanced.data
      refine ⟨reader, drained.inner, opened, ?_,
        ⟨data, cursor, drainedFollows.honest⟩, behind,
        ⟨fun call member => (answered call member).1, ?_, ?_, data, cursor,
          ?_, ?_⟩⟩
      · simp only [DecryptReader.finishFrame, DecryptReader.tryFinishFrame,
          result]
      · obtain ⟨more, shape⟩ := begun
        simp only
        rw [← shape, List.flatten_append, total, List.append_assoc]
        exact List.prefix_append _ _
      · intro call member atEnd
        obtain ⟨rfl, rfl⟩ := (answered call member).2 atEnd
        simp only
        rw [← (closes rfl).1, total, List.append_nil]
      · rw [follows.finishes_iff agree
          (show ([] : List Bytes).flatten = [] ++ [] from rfl) outputs,
          remaining]
        constructor
        · rintro ⟨others, longer⟩
          exact isMessage.append_eq_nil longer
        · rintro rfl
          rw [List.append_nil]
          exact ⟨payloads, isMessage⟩
      · obtain ⟨next, finished | failed | trailing⟩ :=
          lastFollows.tryFinish_spec agree
        · obtain ⟨others, finish, longer, within⟩ := finished
          rw [remaining] at longer
          have nothing := isMessage.append_eq_nil longer
          rw [nothing, List.length_nil] at whole
          rw [finish]
          simp only
          omega
        · rw [scanned] at failed
          cases failed.2
        · obtain ⟨others, trail, ⟨error, finish⟩, scanned', _, stands⟩ :=
            trailing
          rw [scanned, Prod.mk.injEq, Option.some.injEq] at scanned'
          rw [finish, ← scanned'.2] at *
          simp only
          omega
    · rw [scanned] at failure
      cases failure.2
  · rw [scanned, Prod.mk.injEq] at scanned'
    cases scanned'.2

/-- Frame boundaries are exact.  On a stream of accepted messages and any tail,
in any fragmentation, opening, reading in any way and `finish_frame` succeed for
every message in turn; the reads return a beginning of its plaintext, all of it
once one reported the end; and the source given back has been consumed up to
the end of the message.  `try_finish` instead succeeds exactly when nothing
follows, and takes at most one byte more. -/
theorem readFrames_exact
    {platform : Platform}
    {source : Source IoPayload}
    (frames : List StreamedFrame)
    (tail : Bytes)
    (agree : platform.OpensAgree)
    (honest : source.Honest)
    (accepted : ∀ frame ∈ frames,
      decrypt platform frame.key frame.aad frame.message =
        .ok frame.plaintext)
    (stream : source.remaining = StreamedFrame.stream frames ++ tail) :
    ∃ reports,
      readFrames platform source (frames.map StreamedFrame.toFrameUse) =
          .ok reports ∧
        reports.length = frames.length ∧
        ∀ index frame (report : FrameReport),
          frames[index]? = some frame →
            reports[index]? = some report →
              report.Exact platform source frame.plaintext
                (source.cursor +
                  (StreamedFrame.stream (frames.take (index + 1))).length)
                (StreamedFrame.stream (frames.drop (index + 1)) ++
                  tail) := by
  induction frames generalizing source with
  | nil =>
      exact ⟨[], rfl, rfl, by simp⟩
  | cons frame frames inductionHypothesis =>
      have lead : source.remaining =
          frame.message ++ (StreamedFrame.stream frames ++ tail) := by
        rw [stream, StreamedFrame.stream, List.map_cons, List.flatten_cons,
          List.append_assoc]
        rfl
      obtain ⟨reader, recovered, opened, finished, advanced, remaining,
          exact⟩ :=
        readFrame_exact frame.outputs agree honest
          (accepted frame List.mem_cons_self) lead
      obtain ⟨reports, read, count, all⟩ :=
        inductionHypothesis advanced.honest
          (fun later member => accepted later (List.mem_cons_of_mem _ member))
          remaining
      let first : FrameReport :=
        ⟨(reader.readAll platform frame.outputs).1,
          (reader.readAll platform frame.outputs).2, recovered⟩
      refine ⟨first :: reports, ?_, ?_, ?_⟩
      · simp only [List.map_cons, readFrames, opened, Outcome.ok_bind,
          finished, read]
        rfl
      · rw [List.length_cons, List.length_cons, count]
      · intro index
        cases index with
        | zero =>
            intro _ _ listed answer
            cases listed
            cases answer
            simpa [StreamedFrame.stream] using exact
        | succ index =>
            intro later report listed answer
            have here := all index later report listed answer
            refine ⟨here.succeed, here.lead, here.complete,
              here.data.trans advanced.data, ?_, here.finishes, ?_⟩
            · rw [here.cursor, advanced.cursor, List.take_succ_cons,
                StreamedFrame.stream, StreamedFrame.stream, List.map_cons,
                List.flatten_cons, List.length_append, Nat.add_assoc]
            · refine here.overread.trans (Nat.le_of_eq ?_)
              rw [advanced.cursor, List.take_succ_cons,
                StreamedFrame.stream, StreamedFrame.stream, List.map_cons,
                List.flatten_cons, List.length_append]
              omega

/-- Two messages, the first of them left unread and the second read by small and
by large reads. -/
def twoFrames : List StreamedFrame :=
  [⟨⟨zeroKey, [], []⟩, twoSegments, zeros 33⟩,
    ⟨⟨zeroKey, [], [zeros 5, zeros 64, zeros 1]⟩, twoSegments, zeros 33⟩]

set_option maxRecDepth 100000 in
/-- A source that stores them in front of one other byte. -/
def twoFramesSource : Source IoPayload where
  data := StreamedFrame.stream twoFrames ++ [7]
  addressable := by decide
  cursor := 0
  script := [.short 3, .interrupted, .short 0]

set_option maxRecDepth 100000 in
theorem readFrames_exact_example :
    ∃ reports,
      readFrames openPlatform twoFramesSource
          (twoFrames.map StreamedFrame.toFrameUse) = .ok reports ∧
        reports.length = twoFrames.length ∧
        ∀ index frame (report : FrameReport),
          twoFrames[index]? = some frame →
            reports[index]? = some report →
              report.Exact openPlatform twoFramesSource frame.plaintext
                (twoFramesSource.cursor +
                  (StreamedFrame.stream (twoFrames.take (index + 1))).length)
                (StreamedFrame.stream (twoFrames.drop (index + 1)) ++
                  [7]) := by
  have honest : twoFramesSource.Honest := by
    simp [Source.Honest, twoFramesSource, SourceEvent.Fragments]
  have accepted : ∀ frame ∈ twoFrames,
      decrypt openPlatform frame.key frame.aad frame.message =
        .ok frame.plaintext := by
    intro frame member
    have second :
        decrypt openPlatform zeroKey [] twoSegments = .ok (zeros 33) := rfl
    simp only [twoFrames, List.mem_cons, List.not_mem_nil, or_false]
      at member
    rcases member with rfl | rfl
    · exact second
    · exact second
  exact readFrames_exact twoFrames [7] transparent_opensAgree honest accepted
    rfl

end FastFloe
