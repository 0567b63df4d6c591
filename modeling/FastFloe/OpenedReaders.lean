import FastFloe.PlaintextReads
import FastFloe.Headers

namespace FastFloe

open Rust

/-!
# Opening a reader

The constructors take the message to be the bytes from the wrapped reader's
position on, under the context that its header stands for, and have opened its
final segment.
-/

theorem startDecryptionInferred_returns
    (platform : Platform)
    (key : Key)
    (aad : Bytes)
    (header : Header) :
    (startDecryptionInferred platform key aad header).Returns := by
  rcases startDecryptionInferred_spec platform key aad header with
    ⟨context, state, _, started, _⟩ | ⟨⟨error, failed⟩, _⟩
  · rw [started]
    exact Outcome.returns_ok _
  · rw [failed]
    exact Outcome.returns_err _

/-- The message that a reader serves. -/
structure StoredMessage.IsOf (message : StoredMessage) (reader : Reader) :
    Prop where
  context : message.context = reader.state.context
  layout : message.layout = reader.layout
  data : message.data = reader.inner.data
  start : message.start = reader.messageStart

/-- A stored message is determined by its context, its data and its place. -/
theorem StoredMessage.unique_of
    (message other : StoredMessage)
    (context : message.context = other.context)
    (data : message.data = other.data)
    (start : message.start = other.start)
    (length :
      message.layout.ciphertextLength = other.layout.ciphertextLength) :
    message = other := by
  have layout : message.layout = other.layout :=
    message.valid.unique other.valid
      (by rw [message.matching, other.matching, context]) length
  cases message
  cases other
  simp_all

theorem Reader.Coherent.isOf
    {platform : Platform}
    {message : StoredMessage}
    {reader : Reader}
    (coherent : reader.Coherent platform message) :
    message.IsOf reader :=
  ⟨coherent.state.context_eq.symm, coherent.layout.symm, coherent.data.symm,
    coherent.start.symm⟩

/-- A segment that opens ends inside the data, so the body starts inside. -/
theorem StoredMessage.OpensAt.bodyStart_le
    {platform : Platform}
    {message : StoredMessage}
    {position : Nat}
    {plaintext : Bytes}
    (opens : message.OpensAt platform position plaintext)
    (addressable : message.data.length ≤ u64Max) :
    message.start + headerLength ≤ u64Max := by
  have complete := opens.complete
  rw [StoredMessage.segment, List.length_take, List.length_drop] at complete
  simp only [MessageLayout.entry, headerLength_eq] at complete ⊢
  omega

namespace Reader

/-- The message whose final segment an opened reader has authenticated. -/
structure Opened (platform : Platform) (inner : Source IoPayload)
    (state : DecryptionState) (messageStart ciphertextLength : Nat)
    (message : StoredMessage) (reader : Reader) : Prop where
  coherent : reader.Coherent platform message
  context : message.context = state.context
  data : message.data = inner.data
  start : message.start = messageStart
  length : message.layout.ciphertextLength = ciphertextLength
  position : reader.plaintextPosition = 0
  final : ∃ plaintext,
    message.OpensAt platform (message.layout.segmentCount - 1) plaintext
  honest : inner.Honest → reader.inner.Honest

/-- `from_parts` opens the reader of a message whose final segment opens, or
reports an error. -/
theorem fromParts_spec
    {platform : Platform}
    {inner : Source IoPayload}
    {state : DecryptionState}
    (header : Header)
    (messageStart : Nat)
    {ciphertextLength : Nat}
    (agree : platform.OpensAgree)
    (ready : state.Ready platform state.context)
    (representable : ciphertextLength ≤ u64Max) :
    (∃ reader message,
        fromParts platform inner state header messageStart
            ciphertextLength = .ok reader ∧
          Opened platform inner state messageStart ciphertextLength message
            reader) ∨
      ((∃ error,
          fromParts platform inner state header messageStart
            ciphertextLength = .error (.err error)) ∧
        (inner.Honest → ∀ message : StoredMessage,
          message.context = state.context → message.data = inner.data →
            message.start = messageStart →
              message.layout.ciphertextLength = ciphertextLength →
                ∀ plaintext,
                  ¬ message.OpensAt platform
                    (message.layout.segmentCount - 1) plaintext)) := by
  unfold fromParts
  rcases state.parameters.ciphertextLayout_spec platform.target
      representable with
    ⟨layout, calculated, valid, parameters, length⟩ |
      ⟨⟨error, refused⟩, absent⟩
  · obtain ⟨message, message_eq⟩ :
        ∃ message : StoredMessage, message =
          ⟨state.context, layout, inner.data, messageStart, valid,
            parameters⟩ :=
      ⟨_, rfl⟩
    have context : message.context = state.context := by rw [message_eq]
    have data : message.data = inner.data := by rw [message_eq]
    have start : message.start = messageStart := by rw [message_eq]
    have same : message.layout = layout := by rw [message_eq]
    have positive := valid.count_pos
    simp only [calculated, Outcome.mapErr, Outcome.ok_bind,
      valid.finalSegment_eq platform.target]
    generalize initial_eq :
      Reader.mk inner state header layout messageStart
        (SegmentBuffer.new state.parameters) 0 none none = initial
    have coherent : initial.Coherent platform message := by
      subst initial_eq
      exact ⟨data.symm, context ▸ ready, same.symm, start.symm,
        SegmentBuffer.sized_new _, by rw [context]; rfl, by simp, by simp⟩
    have begins : initial.plaintextPosition = 0 := by rw [← initial_eq]
    have wrapped : initial.inner = inner := by rw [← initial_eq]
    obtain ⟨result, loaded, step, keeps, returns, cached, honest⟩ :=
      @Coherent.loadSegment_spec platform message initial
        (message.layout.segmentCount - 1) coherent agree
        (by rw [same]; omega)
    rw [wrapped] at honest
    rw [same] at step cached
    simp only [step]
    cases result with
    | error stop =>
        refine .inr ⟨?_, ?_⟩
        · obtain ⟨error, rfl⟩ := returns.stop_eq_err
          exact ⟨error, rfl⟩
        · intro isHonest other context' data' start' total plaintext opens
          obtain rfl := other.unique_of message (context'.trans context.symm)
            (data'.trans data.symm) (start'.trans start.symm)
            (total.trans (by rw [same, length]))
          cases honest isHonest ⟨plaintext, opens⟩
    | ok _ =>
        obtain ⟨plaintext, opens, _⟩ :=
          keeps.coherent.cached _ (cached rfl)
        have cleared :
            { loaded with
              scratch := loaded.scratch.clear
              cachedPosition := none }.Coherent platform message :=
          { keeps.coherent with
            sized := SegmentBuffer.sized_clear keeps.coherent.sized
            cached := by simp }
        have inside := opens.bodyStart_le (data ▸ inner.addressable)
        obtain ⟨result, after, sought, keeps', _, returns, _, honest⟩ :=
          cleared.seekToBodyStart_spec
        simp only [sought]
        cases result with
        | error stop =>
            refine .inr ⟨?_, ?_⟩
            · obtain ⟨error, rfl⟩ := returns.stop_eq_err
              exact ⟨error, rfl⟩
            · intro isHonest
              cases honest (keeps.honest (wrapped ▸ isHonest)) inside
        | ok _ =>
            refine .inl ⟨after, message, rfl, keeps'.coherent, context, data,
              start, by rw [same, length], ?_, ⟨plaintext, same ▸ opens⟩, ?_⟩
            · exact keeps'.position.trans (keeps.position.trans begins)
            · intro isHonest
              exact keeps'.honest (keeps.honest (wrapped ▸ isHonest))
  · refine .inr ⟨⟨decryptionError error, by simp [refused, Outcome.mapErr]⟩,
      ?_⟩
    intro _ message context data start total
    refine (absent message.layout message.valid ?_ total).elim
    rw [message.matching, context]
    rfl

/-- The common part of the constructors reads the header at the wrapped
reader's position and starts a state with it. -/
theorem openHeader_spec
    {start : Header → Result DecryptionState}
    (returns : ∀ header, (start header).Returns)
    (inner : Source IoPayload) :
    (∃ header state after,
        openHeader start inner = .ok (inner.cursor, header, state, after) ∧
          header.val = inner.remaining.take headerLength ∧
          start header = .ok state ∧ after.data = inner.data ∧
          (inner.Honest → after.Honest)) ∨
      ((∃ error, openHeader start inner = .error (.err error)) ∧
        (inner.Honest → headerLength ≤ inner.remaining.length →
          ∀ (header : Header) (state : DecryptionState),
            header.val = inner.remaining.take headerLength →
              start header ≠ .ok state)) := by
  have data := inner.seekTo_data inner.cursor
  have seekReturns := inner.seekTo_returns inner.cursor
  unfold openHeader Source.streamPosition
  cases sought : inner.seekTo inner.cursor with
  | mk result moved =>
      rw [sought] at data seekReturns
      cases result with
      | error stop =>
          obtain ⟨error, rfl⟩ := seekReturns.stop_eq_err
          refine .inr ⟨⟨error, rfl⟩, ?_⟩
          intro isHonest
          obtain ⟨_, shape, _⟩ := isHonest.seekTo inner.cursor
          rw [shape] at sought
          cases sought
      | ok landed =>
          obtain ⟨rfl, cursor⟩ := Source.seekTo_ok sought
          have remaining : moved.remaining = inner.remaining := by
            rw [Source.remaining, Source.remaining, data, cursor]
          have stillHonest (isHonest : inner.Honest) : moved.Honest := by
            obtain ⟨_, shape, honest, _⟩ := isHonest.seekTo inner.cursor
            rw [shape] at sought
            cases sought
            exact honest
          obtain ⟨result, after, read, afterData, readReturns, content,
              honest⟩ := readHeader_spec moved
          rw [remaining] at content honest
          simp only [read]
          cases result with
          | error stop =>
              obtain ⟨error, rfl⟩ := readReturns.stop_eq_err
              refine .inr ⟨⟨error, rfl⟩, ?_⟩
              intro isHonest enough
              obtain ⟨_, impossible⟩ :=
                (honest (stillHonest isHonest)).2.2 enough
              cases impossible
          | ok header =>
              have exact := content header rfl
              cases started : start header with
              | ok state =>
                  exact .inl ⟨header, state, after, by
                    simp [started, Outcome.mapErr], exact, started,
                    afterData.trans data,
                    fun isHonest => (honest (stillHonest isHonest)).1⟩
              | error stop =>
                  have startReturns := returns header
                  rw [started] at startReturns
                  obtain ⟨error, rfl⟩ := startReturns.stop_eq_err
                  refine .inr ⟨⟨decryptionError error, by
                    simp [started, Outcome.mapErr]⟩, ?_⟩
                  · intro _ _ other state same success
                    obtain rfl := Subtype.ext (same.trans exact.symm)
                    rw [started] at success
                    cases success

/-- A message that a constructor with this start function can open: its header
starts a state, and its final segment opens. -/
structure Openable (platform : Platform)
    (start : Header → Result DecryptionState) (inner : Source IoPayload)
    (ciphertextLength : Nat) (message : StoredMessage) : Prop where
  enough : headerLength ≤ inner.remaining.length
  header : ∃ (header : Header) (state : DecryptionState),
    header.val = inner.remaining.take headerLength ∧
      start header = .ok state ∧ message.context = state.context
  data : message.data = inner.data
  begins : message.start = inner.cursor
  length : message.layout.ciphertextLength = ciphertextLength
  final : ∃ plaintext,
    message.OpensAt platform (message.layout.segmentCount - 1) plaintext

/-- A constructor has opened a message. -/
structure Begun (platform : Platform) (start : Header → Result DecryptionState)
    (inner : Source IoPayload) (ciphertextLength : Nat)
    (message : StoredMessage) (reader : Reader) : Prop where
  openable : Openable platform start inner ciphertextLength message
  coherent : reader.Coherent platform message
  position : reader.plaintextPosition = 0
  honest : inner.Honest → reader.inner.Honest

/-- A constructor opens every message that it can open, unless the source
fails it, and nothing else. -/
def Opens (platform : Platform) (start : Header → Result DecryptionState)
    (inner : Source IoPayload) (ciphertextLength : Nat)
    (result : IoResult Reader) : Prop :=
  (∃ reader message,
      result = .ok reader ∧
        Begun platform start inner ciphertextLength message reader) ∨
    ((∃ error, result = .error (.err error)) ∧
      (inner.Honest → ∀ message,
        ¬ Openable platform start inner ciphertextLength message))

/-- A start function comes back, and with ready states only. -/
structure StartsReady (platform : Platform)
    (start : Header → Result DecryptionState) : Prop where
  returns : ∀ header, (start header).Returns
  ready : ∀ header state, start header = .ok state →
    state.Ready platform state.context

theorem startsReady_inferred
    (platform : Platform)
    (key : Key)
    (aad : Bytes) :
    StartsReady platform (startDecryptionInferred platform key aad) :=
  ⟨startDecryptionInferred_returns platform key aad,
    fun _ _ started => startDecryptionInferred_ready started⟩

theorem startsReady_parameters
    (platform : Platform)
    (key : Key)
    (aad : Bytes)
    (parameters : Parameters) :
    StartsReady platform (startDecryption platform key aad parameters) :=
  ⟨startDecryption_returns platform key aad parameters,
    fun _ _ started => startDecryption_ready started⟩

section Constructors

variable {platform : Platform} {start : Header → Result DecryptionState}
  {inner : Source IoPayload}

/-- `from_parts` on what the header gave. -/
theorem fromParts_opens
    {source : Source IoPayload}
    {header : Header}
    {state : DecryptionState}
    {ciphertextLength : Nat}
    (agree : platform.OpensAgree)
    (starts : StartsReady platform start)
    (representable : ciphertextLength ≤ u64Max)
    (content : header.val = inner.remaining.take headerLength)
    (started : start header = .ok state)
    (data : source.data = inner.data)
    (honest : inner.Honest → source.Honest) :
    Opens platform start inner ciphertextLength
      (fromParts platform source state header inner.cursor
        ciphertextLength) := by
  have enough : headerLength ≤ inner.remaining.length := by
    have width := congrArg List.length content
    rw [Octets.length_val, List.length_take] at width
    omega
  rcases @fromParts_spec platform source state header inner.cursor
      ciphertextLength agree (starts.ready header state started)
      representable with
    ⟨reader, message, result, opened⟩ | ⟨⟨error, failed⟩, closed⟩
  · exact .inl ⟨reader, message, result,
      ⟨enough, ⟨header, state, content, started, opened.context⟩,
        opened.data.trans data, opened.start, opened.length, opened.final⟩,
      opened.coherent, opened.position, opened.honest ∘ honest⟩
  · refine .inr ⟨⟨error, failed⟩, ?_⟩
    intro isHonest message openable
    obtain ⟨header', state', content', started', context⟩ := openable.header
    obtain rfl := Subtype.ext (content'.trans content.symm)
    rw [started] at started'
    cases started'
    obtain ⟨plaintext, opens⟩ := openable.final
    exact closed (honest isHonest) message context
      (openable.data.trans data.symm) openable.begins openable.length
      plaintext opens

/-- A constructor whose header does not start opens nothing. -/
theorem opens_of_unstarted
    {ciphertextLength : Nat}
    {result : IoResult Reader}
    (failed : ∃ error, result = .error (.err error))
    (unstarted :
      inner.Honest → headerLength ≤ inner.remaining.length →
        ∀ (header : Header) (state : DecryptionState),
          header.val = inner.remaining.take headerLength →
            start header ≠ .ok state) :
    Opens platform start inner ciphertextLength result := by
  refine .inr ⟨failed, ?_⟩
  intro isHonest message openable
  obtain ⟨header, state, content, started, _⟩ := openable.header
  exact unstarted isHonest openable.enough header state content started

/-- A constructor that is given the length opens the message of that
length. -/
theorem openWithLength_spec
    {ciphertextLength : Nat}
    (agree : platform.OpensAgree)
    (starts : StartsReady platform start)
    (representable : ciphertextLength ≤ u64Max) :
    Opens platform start inner ciphertextLength
      (openWithLength platform start inner ciphertextLength) := by
  unfold openWithLength validateHeaderBound
  by_cases short : ciphertextLength < headerLength
  · rw [if_pos short]
    refine .inr ⟨⟨_, rfl⟩, ?_⟩
    intro _ message openable
    have whole := message.valid.ciphertext_eq
    have length := openable.length
    rw [headerLength_eq] at short
    omega
  · rw [if_neg short]
    rcases openHeader_spec starts.returns inner with
      ⟨header, state, source, opened, content, started, data, honest⟩ |
        ⟨⟨error, failed⟩, unstarted⟩
    · simp only [opened, Outcome.ok_bind]
      exact fromParts_opens agree starts representable content started data
        honest
    · exact opens_of_unstarted ⟨error, by
        simp only [failed, Outcome.ok_bind, Outcome.error_bind]⟩ unstarted

/-- A constructor that takes the message to extend to the end of the source
opens the message of that length. -/
theorem openToEnd_spec
    (agree : platform.OpensAgree)
    (starts : StartsReady platform start) :
    Opens platform start inner (inner.data.length - inner.cursor)
      (openToEnd platform start inner) := by
  unfold openToEnd
  rcases openHeader_spec starts.returns inner with
    ⟨header, state, source, opened, content, started, data, honest⟩ |
      ⟨⟨error, failed⟩, unstarted⟩
  · have addressable := inner.addressable
    have enough : inner.cursor ≤ inner.data.length := by
      have width := congrArg List.length content
      rw [Octets.length_val, List.length_take, Source.remaining,
        List.length_drop, headerLength_eq] at width
      omega
    simp only [opened, Outcome.ok_bind, remainingLength, Source.seekEnd]
    have kept := source.seekTo_data source.data.length
    have returns := source.seekTo_returns source.data.length
    cases sought : source.seekTo source.data.length with
    | mk result moved =>
        rw [sought] at kept returns
        cases result with
        | error stop =>
            obtain ⟨error, rfl⟩ := returns.stop_eq_err
            refine .inr ⟨⟨error, rfl⟩, ?_⟩
            intro isHonest
            obtain ⟨_, shape, _⟩ :=
              (honest isHonest).seekTo source.data.length
            rw [shape] at sought
            cases sought
        | ok landed =>
            obtain ⟨rfl, _⟩ := Source.seekTo_ok sought
            have measured :
                checkedSub source.data.length inner.cursor =
                  some (inner.data.length - inner.cursor) := by
              rw [data, checkedSub, if_pos enough]
            simp only [measured, Outcome.okOr]
            refine fromParts_opens agree starts (by omega) content started
              (kept.trans data) ?_
            intro isHonest
            obtain ⟨_, shape, stillHonest, _⟩ :=
              (honest isHonest).seekTo source.data.length
            rw [shape] at sought
            cases sought
            exact stillHonest
  · exact opens_of_unstarted ⟨error, by
      simp only [failed, Outcome.error_bind]⟩ unstarted

end Constructors

end Reader

end FastFloe
