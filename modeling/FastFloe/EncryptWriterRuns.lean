import FastFloe.EncryptWriters

namespace FastFloe

open Rust

/-!
# Runs of calls on an encrypting writer

Any sequence of writes, flushes and finalizations, on a sink that may take a part
of its bytes or fail at any call.  The sink always holds a beginning of the
segments of the consecutive blocks of the plaintext.
-/

/-- A call on an encrypting writer. -/
inductive WriterCall where
  | write (input : Bytes)
  | flush
  | tryFinish
  deriving Repr, DecidableEq

/-- What the calls on a writer amount to so far. -/
structure WriterHistory where
  /-- The bytes that successful writes accepted. -/
  accepted : Bytes
  /-- The input of the write that failed on the open writer, if one did. -/
  refused : Bytes
  /-- The open writer was told to finish. -/
  closing : Bool
  deriving Repr, DecidableEq

namespace WriterHistory

/-- The history before the first call. -/
def start : WriterHistory :=
  ⟨[], [], false⟩

/-- The history after one more call, made on a writer of this status. -/
def record (self : WriterHistory) (status : StreamStatus) :
    WriterCall → IoResult Nat → WriterHistory
  | .write input, .ok count =>
      { self with accepted := self.accepted ++ input.take count }
  | .write input, .error _ =>
      if status = .opened then { self with refused := input } else self
  | .flush, _ =>
      self
  | .tryFinish, _ =>
      if status = .opened then { self with closing := true } else self

end WriterHistory

/-- Segments that encrypt the consecutive blocks of a plaintext, each at its own
position, the last one as the final segment when the message is closed. -/
def EncryptsBlocks (platform : Platform) (context : MessageContext)
    (plaintext : Bytes) (closed : Bool) (segments : List Bytes) : Prop :=
  ∀ index segment,
    segments[index]? = some segment →
      PositionAllows index
          (if closed then kindAt segments.length index else .nonFinal) ∧
        context.Seals platform index
          (if closed then kindAt segments.length index else .nonFinal)
          (Blocks.block context.parameters.plaintextSegmentLength index
            plaintext)
          segment

section Blocks

variable {platform : Platform} {context : MessageContext}
  {blocks : List (Bytes × Bytes)} {plaintext : Bytes}

/-- The plaintexts of a sealed run are full blocks. -/
theorem SealedRun.uniform
    {position : Nat}
    (run : SealedRun platform context position blocks) :
    Blocks.Uniform context.parameters.plaintextSegmentLength
      (blocks.map Prod.snd) := by
  intro part member
  obtain ⟨⟨segment, block⟩, listed, rfl⟩ := List.mem_map.mp member
  obtain ⟨index, found⟩ := List.mem_iff_getElem?.mp listed
  exact (run index segment block found).2.fits

/-- A sealed run encrypts the first blocks of the plaintext. -/
theorem SealedRun.encryptsBlocks
    (run : SealedRun platform context 0 blocks)
    (lead : (blocks.map Prod.snd).flatten <+: plaintext) :
    EncryptsBlocks platform context plaintext false
      (blocks.map Prod.fst) := by
  obtain ⟨rest, rfl⟩ := lead
  intro index segment found
  rw [List.getElem?_map, Option.map_eq_some_iff] at found
  obtain ⟨⟨other, block⟩, listed, rfl⟩ := found
  obtain ⟨allowed, seals⟩ := run index other block listed
  obtain ⟨inside, value⟩ := List.getElem?_eq_some_iff.mp listed
  have cut := @Blocks.block_flatten _ _ _ _ run.uniform
    (show index < (blocks.map Prod.snd).length by
      rw [List.length_map]
      exact inside) rest
  rw [List.getElem_map, value] at cut
  rw [Nat.zero_add] at allowed seals
  rw [cut]
  exact ⟨allowed, seals⟩

/-- A complete message encrypts all blocks of its plaintext. -/
theorem SealedMessage.encryptsBlocks
    {last lastPlaintext : Bytes}
    (message :
      SealedMessage platform context 0 blocks last lastPlaintext)
    (whole :
      (blocks.map Prod.snd).flatten ++ lastPlaintext = plaintext) :
    EncryptsBlocks platform context plaintext true
      (blocks.map Prod.fst ++ [last]) := by
  subst whole
  intro index segment found
  have uniform := message.run.uniform
  have length : (blocks.map Prod.fst ++ [last]).length =
      blocks.length + 1 := by
    rw [List.length_append, List.length_map, List.length_singleton]
  rw [length]
  have pairs : blocks.map Prod.fst ++ [last] =
      (blocks ++ [(last, lastPlaintext)]).map Prod.fst := by
    rw [List.map_append]
    rfl
  rw [pairs, List.getElem?_map, Option.map_eq_some_iff] at found
  obtain ⟨⟨other, block⟩, listed, rfl⟩ := found
  have sealedThere := message.seals_at listed
  have cut : Blocks.block context.parameters.plaintextSegmentLength index
      ((blocks.map Prod.snd).flatten ++ lastPlaintext) = block := by
    obtain ⟨inside, value⟩ := List.getElem?_eq_some_iff.mp listed
    rw [List.length_append, List.length_singleton] at inside
    by_cases before : index < blocks.length
    · rw [Blocks.block_flatten uniform (by
        rw [List.length_map]
        exact before), List.getElem_map]
      rw [List.getElem_append_left before] at value
      rw [value]
    · have here : index = blocks.length := by omega
      subst here
      have short := message.last.fits.le
      have last := Blocks.block_flatten_last uniform short
      rw [List.length_map] at last
      rw [last]
      simp at value
      exact value.2
  rw [cut]
  exact sealedThere

end Blocks

namespace EncryptWriter

/-- Makes one call. -/
def perform (platform : Platform) (self : EncryptWriter) :
    WriterCall → IoResult Nat × EncryptWriter
  | .write input =>
      self.write platform input
  | .flush =>
      match self.flush with
      | (result, self) => (result.map fun _ => 0, self)
  | .tryFinish =>
      match self.tryFinish platform with
      | (result, self) => (result.map fun _ => 0, self)

/-- Makes the calls in turn, and keeps their history. -/
def performAll (platform : Platform) :
    EncryptWriter → WriterHistory → List WriterCall →
      EncryptWriter × WriterHistory
  | self, history, [] =>
      (self, history)
  | self, history, call :: calls =>
      let answer := self.perform platform call
      performAll platform answer.2
        (history.record self.status call answer.1) calls

/-- The writer fails every call but an empty write and stays as it is, whichever
sink it has, so that it does not call the sink. -/
def Refuses (platform : Platform) (self : EncryptWriter) : Prop :=
  ∀ sink call,
    ({ self with inner := sink }.perform platform call).2 =
        { self with inner := sink } ∧
      (call ≠ .write [] →
        ({ self with inner := sink }.perform platform call).1 =
          .error (.err poisonedError))

/-- Where the calls so far have brought a writer: it is open and stages blocks,
it has emitted a complete message, or it failed somewhere in the middle. -/
inductive Stands (platform : Platform) (context : MessageContext)
    (origin : EncryptionState) (sent : Bytes) (history : WriterHistory)
    (writer : EncryptWriter) : Prop where
  | opened
      {blocks : List (Bytes × Bytes)}
      {held : Bytes}
      (stages : writer.Stages platform context origin sent blocks held)
      (accepted :
        (blocks.map Prod.snd).flatten ++ held = history.accepted)
      (unrefused : history.refused = []) :
      Stands platform context origin sent history writer
  | finished
      {blocks : List (Bytes × Bytes)}
      {held segment : Bytes}
      (status : writer.status = .finished)
      (message : SealedMessage platform context 0 blocks segment held)
      (accepted :
        (blocks.map Prod.snd).flatten ++ held = history.accepted)
      (unrefused : history.refused = [])
      (closing : history.closing = true)
      (whole :
        writer.inner.accepted =
          sent ++ ((blocks.map Prod.fst).flatten ++ segment)) :
      Stands platform context origin sent history writer
  | failed
      {segments : List Bytes}
      {closed : Bool}
      (status : writer.status = .failed)
      (encrypts :
        EncryptsBlocks platform context
          (history.accepted ++ history.refused) closed segments)
      (asked : closed = true → history.closing = true)
      (partly : writer.inner.accepted <+: sent ++ segments.flatten) :
      Stands platform context origin sent history writer

section Runs

variable {platform : Platform} {context : MessageContext}
  {origin : EncryptionState} {sent : Bytes} {history : WriterHistory}
  {writer : EncryptWriter}

/-- What the sink holds is a beginning of the segments of the blocks. -/
theorem Stands.emits
    (stands : writer.Stands platform context origin sent history) :
    ∃ segments closed,
      EncryptsBlocks platform context (history.accepted ++ history.refused)
          closed segments ∧
        (closed = true → history.closing = true) ∧
        writer.inner.accepted <+: sent ++ segments.flatten := by
  cases stands with
  | @opened blocks held stages accepted unrefused =>
      obtain ⟨_, _, _, chain⟩ := stages.encryptor
      have run := chain.run stages.ready
      refine ⟨blocks.map Prod.fst, false, run.encryptsBlocks ⟨held, ?_⟩,
        (fun impossible => by cases impossible), [], ?_⟩
      · rw [unrefused, List.append_nil]
        exact accepted
      · rw [List.append_nil]
        exact stages.accepted
  | @finished blocks held segment _ message accepted unrefused closing whole =>
      refine ⟨blocks.map Prod.fst ++ [segment], true,
        message.encryptsBlocks ?_, fun _ => closing, [], ?_⟩
      · rw [unrefused, List.append_nil]
        exact accepted
      · rw [List.append_nil, whole, List.flatten_append,
          List.flatten_singleton]
  | failed _ encrypts asked partly =>
      exact ⟨_, _, encrypts, asked, partly⟩

/-- An empty write does nothing. -/
theorem write_nil (platform : Platform) (writer : EncryptWriter) :
    writer.write platform [] = (.ok 0, writer) := by
  simp only [write, ↓reduceIte]

/-- A poisoned writer refuses every call but an empty write, and does
nothing. -/
theorem perform_failed
    (failed : writer.status = .failed)
    (call : WriterCall) :
    (writer.perform platform call).2 = writer ∧
      (call ≠ .write [] →
        (writer.perform platform call).1 = .error (.err poisonedError)) := by
  cases call with
  | write input =>
      by_cases empty : input = []
      · subst empty
        refine ⟨?_, fun some => (some rfl).elim⟩
        simp only [perform, write_nil]
      · have answer : writer.write platform input =
            (.error (.err poisonedError), writer) := by
          simp only [write, empty, failed, ↓reduceIte]
        simp only [perform, answer, implies_true, and_self]
  | flush =>
      have answer : writer.flush = (.error (.err poisonedError), writer) := by
        simp only [flush, failed, ↓reduceIte]
      simp only [perform, answer, Except.map, implies_true, and_self]
  | tryFinish =>
      have answer : writer.tryFinish platform =
          (.error (.err poisonedError), writer) := by
        simp only [tryFinish, failed]
      simp only [perform, answer, Except.map, implies_true, and_self]

/-- A finished writer accepts nothing more. -/
theorem write_finished
    {input : Bytes}
    (finished : writer.status = .finished)
    (some : input ≠ []) :
    writer.write platform input =
      (.error (.err alreadyFinishedError), writer) := by
  simp only [write, some, ↓reduceIte, finished]

/-- Flushing changes neither the status nor what was handed over. -/
theorem flush_kept (writer : EncryptWriter) :
    writer.flush.2.status = writer.status ∧
      writer.flush.2.encryptor = writer.encryptor ∧
      writer.flush.2.buffer = writer.buffer ∧
      writer.flush.2.inner.accepted = writer.inner.accepted := by
  by_cases failed : writer.status = .failed
  · simp only [flush, failed, ↓reduceIte, and_self]
  · obtain ⟨inner, accepted, flushed | ⟨error, refused⟩⟩ :=
      writer.inner.flush_spec
    · simp only [flush, failed, ↓reduceIte, flushed, accepted, and_self]
    · simp only [flush, failed, ↓reduceIte, refused, accepted, and_self]

/-- The blocks of an offer begin with what is accepted and offered. -/
theorem Stages.offered_blocks
    {blocks : List (Bytes × Bytes)}
    {held input : Bytes}
    {more : List (Bytes × Bytes)}
    (size : Nat)
    (accepted :
      (blocks.map Prod.snd).flatten ++ held = history.accepted)
    (only :
      more.map Prod.snd <+: (Staging.offer size held input).blocks) :
    ((blocks ++ more).map Prod.snd).flatten <+:
      history.accepted ++ input := by
  obtain ⟨rest, shape⟩ := only
  have balance := Staging.offer_balance size held input
  rw [← shape, List.flatten_append] at balance
  refine ⟨rest.flatten ++ (Staging.offer size held input).held ++
    input.drop (Staging.offer size held input).count, ?_⟩
  calc ((blocks ++ more).map Prod.snd).flatten ++
        (rest.flatten ++ (Staging.offer size held input).held ++
          input.drop (Staging.offer size held input).count)
      = (blocks.map Prod.snd).flatten ++
          ((more.map Prod.snd).flatten ++ rest.flatten ++
            (Staging.offer size held input).held) ++
          input.drop (Staging.offer size held input).count := by
        simp only [List.map_append, List.flatten_append, List.append_assoc]
    _ = (blocks.map Prod.snd).flatten ++
          (held ++ input.take (Staging.offer size held input).count) ++
          input.drop (Staging.offer size held input).count := by
        rw [balance]
    _ = history.accepted ++ input := by
        rw [← accepted]
        simp only [List.append_assoc, List.take_append_drop]

/-- A write on an open writer. -/
theorem Stages.write_stands
    {blocks : List (Bytes × Bytes)}
    {held input : Bytes}
    (agree : platform.SealsAgree)
    (stages : writer.Stages platform context origin sent blocks held)
    (accepted :
      (blocks.map Prod.snd).flatten ++ held = history.accepted)
    (unrefused : history.refused = [])
    (some : input ≠ []) :
    (writer.write platform input).2.Stands platform context origin sent
      (history.record writer.status (.write input)
        (writer.write platform input).1) := by
  have step := stages.write_step agree some
  cases answer : writer.write platform input with
  | mk result next =>
  rw [answer] at step
  cases step with
  | @taken next more nextStages emitted =>
      refine .opened nextStages ?_ unrefused
      have balance := Staging.offer_balance
        context.parameters.plaintextSegmentLength held input
      simp only [WriterHistory.record]
      rw [List.map_append, List.flatten_append, emitted, List.append_assoc,
        balance, ← List.append_assoc, accepted]
  | @stopped next error stopped =>
      obtain ⟨more, run, only, partly⟩ := stopped.partly
      refine @Stands.failed _ _ _ _ _ next _ false stopped.failed ?_
        (fun impossible => by cases impossible) partly
      simp only [WriterHistory.record, stages.opened, ↓reduceIte]
      exact run.encryptsBlocks (Stages.offered_blocks _ accepted only)

/-- The blocks and the final segment behind them are a complete message. -/
theorem Stages.sealedMessage
    {blocks : List (Bytes × Bytes)}
    {held segment : Bytes}
    {last state : EncryptionState}
    (stages : writer.Stages platform context origin sent blocks held)
    (ready : last.Ready platform context)
    (step :
      last.sealNext platform held blocks.length .final =
        (some segment, state)) :
    SealedMessage platform context 0 blocks segment held := by
  obtain ⟨_, _, here, chain⟩ := stages.encryptor
  have seals :=
    (EncryptionState.sealNext_spec held blocks.length .final
      (Kdf.FaultOf.refl platform.kdfExpand) ready).2 segment (by
        have step' :
            last.sealNext (platform.withKdf platform.kdfExpand) held
                blocks.length .final =
              (some segment, state) :=
          step
        rw [step'])
  refine ⟨chain.run stages.ready, ?_, ?_⟩
  · rw [Nat.zero_add]
    exact seals
  · rw [Nat.zero_add]
    exact here.inside

/-- A finalization of an open writer. -/
theorem Stages.tryFinish_stands
    {blocks : List (Bytes × Bytes)}
    {held : Bytes}
    (stages : writer.Stages platform context origin sent blocks held)
    (accepted :
      (blocks.map Prod.snd).flatten ++ held = history.accepted)
    (unrefused : history.refused = [])
    (result : IoResult Nat) :
    (writer.tryFinish platform).2.Stands platform context origin sent
      (history.record writer.status .tryFinish result) := by
  obtain ⟨_, _, _, chain⟩ := stages.encryptor
  have run := chain.run stages.ready
  have closing : (history.record writer.status .tryFinish result) =
      { history with closing := true } := by
    simp only [WriterHistory.record, stages.opened, ↓reduceIte]
  have taken : history.accepted ++ history.refused =
      (blocks.map Prod.snd).flatten ++ held := by
    rw [unrefused, List.append_nil, accepted]
  have step := stages.tryFinish_step
  rw [closing]
  cases answer : writer.tryFinish platform with
  | mk outcome next =>
  rw [answer] at step
  cases step with
  | @finished next last state segment status ready lastChain inside step
      whole =>
      exact .finished status (stages.sealedMessage ready step) accepted
        unrefused rfl whole
  | @stopped next error failed partly =>
      rcases partly with none | ⟨segment, seals, some⟩
      · exact @Stands.failed _ _ _ _ _ next _ false failed
          (run.encryptsBlocks ⟨held, taken.symm⟩)
          (fun impossible => by cases impossible) none
      · have inside : blocks.length < aeadMaxSegments := by
          obtain ⟨encryptor, _, here, _⟩ := stages.encryptor
          exact here.inside
        have message :
            SealedMessage platform context 0 blocks segment held := by
          refine ⟨run, ?_, ?_⟩
          · rw [Nat.zero_add]
            exact seals
          · rw [Nat.zero_add]
            exact inside
        refine .failed failed (message.encryptsBlocks taken.symm)
          (fun _ => rfl) ?_
        rw [List.flatten_append, List.flatten_singleton]
        exact some

/-- Nothing but the status, the encryptor, the buffer and what the sink holds
matters. -/
theorem Stands.of_kept
    {next : EncryptWriter}
    (stands : writer.Stands platform context origin sent history)
    (kept :
      next.status = writer.status ∧ next.encryptor = writer.encryptor ∧
        next.buffer = writer.buffer ∧
        next.inner.accepted = writer.inner.accepted) :
    next.Stands platform context origin sent history := by
  obtain ⟨status, encryptor, buffer, inner⟩ := kept
  cases stands with
  | opened stages accepted unrefused =>
      refine .opened ⟨⟨status.trans stages.opened, stages.ready, ?_, ?_, ?_,
        inner.trans stages.accepted⟩, ?_⟩ accepted unrefused
      · rw [encryptor]
        exact stages.encryptor
      · rw [buffer]
        exact stages.parameters
      · rw [buffer]
        exact stages.sized
      · rw [buffer]
        exact stages.holds
  | finished finished message accepted unrefused closing whole =>
      exact .finished (status.trans finished) message accepted unrefused
        closing (inner.trans whole)
  | failed failed encrypts asked partly =>
      refine .failed (status.trans failed) encrypts asked ?_
      rw [inner]
      exact partly

/-- A call that accepts nothing on a writer that is not open leaves the history
alone. -/
theorem record_settled
    {status : StreamStatus}
    {call : WriterCall}
    {result : IoResult Nat}
    (settled : status ≠ .opened)
    (nothing :
      ∀ input count, call = .write input → result = .ok count →
        input.take count = []) :
    history.record status call result = history := by
  cases call with
  | write input =>
      cases result with
      | ok count =>
          simp only [WriterHistory.record, nothing input count rfl rfl,
            List.append_nil]
      | error stop => simp only [WriterHistory.record, settled, ↓reduceIte]
  | flush => rfl
  | tryFinish => simp only [WriterHistory.record, settled, ↓reduceIte]

/-- A finished writer stays as it is, but for its sink's flushes. -/
theorem perform_finished
    (finished : writer.status = .finished)
    (call : WriterCall)
    (unflushed : call ≠ .flush) :
    (writer.perform platform call).2 = writer ∧
      ∀ input count, call = .write input →
        (writer.perform platform call).1 = .ok count →
          input.take count = [] := by
  cases call with
  | write input =>
      by_cases empty : input = []
      · subst empty
        simp only [perform, write_nil]
        refine ⟨trivial, ?_⟩
        intro input count same _
        cases same
        exact List.take_nil
      · simp only [perform, write_finished finished empty]
        refine ⟨trivial, ?_⟩
        intro _ _ _ impossible
        cases impossible
  | flush => exact (unflushed rfl).elim
  | tryFinish =>
      have answer : writer.tryFinish platform = (.ok (), writer) := by
        simp only [tryFinish, finished]
      simp only [perform, answer]
      refine ⟨trivial, ?_⟩
      intro _ _ impossible
      cases impossible

/-- Every call leads on. -/
theorem Stands.perform
    (agree : platform.SealsAgree)
    (stands : writer.Stands platform context origin sent history)
    (call : WriterCall) :
    (writer.perform platform call).2.Stands platform context origin sent
      (history.record writer.status call
        (writer.perform platform call).1) := by
  by_cases flushes : call = .flush
  · subst flushes
    refine stands.of_kept ?_
    have kept := writer.flush_kept
    cases answer : writer.flush with
    | mk result next =>
    rw [answer] at kept
    simp only [EncryptWriter.perform, answer]
    exact kept
  cases stands with
  | @opened blocks held stages accepted unrefused =>
      cases call with
      | write input =>
          by_cases empty : input = []
          · subst empty
            have same : history.record writer.status (.write [])
                (writer.perform platform (.write [])).1 = history := by
              simp only [EncryptWriter.perform, write_nil,
                WriterHistory.record, List.take_nil, List.append_nil]
            rw [same]
            simp only [EncryptWriter.perform, write_nil]
            exact .opened stages accepted unrefused
          · exact stages.write_stands agree accepted unrefused empty
      | flush => exact (flushes rfl).elim
      | tryFinish =>
          have next := stages.tryFinish_stands accepted unrefused
            (writer.perform platform .tryFinish).1
          cases answer : writer.tryFinish platform with
          | mk result after =>
          rw [answer] at next
          simp only [EncryptWriter.perform, answer] at next ⊢
          exact next
  | finished status message accepted unrefused closing whole =>
      obtain ⟨same, nothing⟩ :=
        @perform_finished platform writer status call flushes
      rw [same, record_settled (by rw [status]; simp) nothing]
      exact .finished status message accepted unrefused closing whole
  | failed status encrypts asked partly =>
      obtain ⟨same, refuses⟩ := @perform_failed platform writer status call
      rw [same, record_settled (by rw [status]; simp)]
      · exact .failed status encrypts asked partly
      · rintro input count rfl result
        by_cases empty : input = []
        · subst empty
          exact List.take_nil
        · rw [refuses (by simpa using empty)] at result
          cases result

/-- Every sequence of calls leads on. -/
theorem Stands.performAll
    (agree : platform.SealsAgree)
    (stands : writer.Stands platform context origin sent history)
    (calls : List WriterCall) :
    (writer.performAll platform history calls).1.Stands platform context
      origin sent (writer.performAll platform history calls).2 := by
  induction calls generalizing writer history with
  | nil =>
      exact stands
  | cons call calls inductionHypothesis =>
      exact inductionHypothesis (stands.perform agree call)

/-- No sequence of calls gets past a failure. -/
theorem performAll_failed
    (failed : writer.status = .failed)
    (history : WriterHistory)
    (calls : List WriterCall) :
    (writer.performAll platform history calls).1 = writer := by
  induction calls generalizing history with
  | nil =>
      rfl
  | cons call calls inductionHypothesis =>
      unfold EncryptWriter.performAll
      simp only [(@perform_failed platform writer failed call).1]
      exact inductionHypothesis _

/-- A failed writer refuses every call, whichever sink it has. -/
theorem refuses_of_failed
    (failed : writer.status = .failed) :
    writer.Refuses platform := by
  intro sink call
  exact @perform_failed platform { writer with inner := sink } failed call

/-- A finished writer adds nothing to what its sink holds. -/
theorem performAll_finished
    (finished : writer.status = .finished)
    (history : WriterHistory)
    (calls : List WriterCall) :
    (writer.performAll platform history calls).1.status = .finished ∧
      (writer.performAll platform history calls).1.inner.accepted =
        writer.inner.accepted := by
  induction calls generalizing writer history with
  | nil =>
      exact ⟨finished, rfl⟩
  | cons call calls inductionHypothesis =>
      have kept :
          (writer.perform platform call).2.status = writer.status ∧
            (writer.perform platform call).2.inner.accepted =
              writer.inner.accepted := by
        by_cases flushes : call = .flush
        · subst flushes
          obtain ⟨status, _, _, inner⟩ := writer.flush_kept
          exact ⟨status, inner⟩
        · rw [(@perform_finished platform writer finished call flushes).1]
          exact ⟨rfl, rfl⟩
      obtain ⟨status, inner⟩ :=
        inductionHypothesis (kept.1.trans finished)
          (history.record writer.status call
            (writer.perform platform call).1)
      exact ⟨status, inner.trans kept.2⟩

/-- A finished message is one that `decrypt` maps to the accepted plaintext. -/
theorem Stands.decrypt_eq
    {key : Key}
    {aad : Bytes}
    {header : Header}
    {prior : Bytes}
    (roundTrips : platform.RoundTrips)
    (authentic : HeaderAuthenticates platform key aad header context)
    (stands :
      writer.Stands platform context origin (prior ++ header.val) history)
    (finished : writer.status = .finished) :
    ∃ message,
      writer.inner.accepted = prior ++ message ∧
        decrypt platform key aad message = .ok history.accepted := by
  cases stands with
  | opened stages _ _ =>
      rw [stages.opened] at finished
      cases finished
  | @finished blocks held segment _ message accepted _ _ whole =>
      refine ⟨header.val ++ ((blocks.map Prod.fst).flatten ++ segment), ?_,
        ?_⟩
      · rw [whole, List.append_assoc]
      · rw [message.decrypt_eq roundTrips authentic, accepted]
  | failed status _ _ _ =>
      rw [status] at finished
      cases finished

/-- An open writer, or one that is finished, is finished after a successful
finalization. -/
theorem Stands.status_of_tryFinish
    (stands : writer.Stands platform context origin sent history)
    (finished : (writer.tryFinish platform).1 = .ok ()) :
    (writer.tryFinish platform).2.status = .finished := by
  cases stands with
  | opened stages _ _ =>
      have step := stages.tryFinish_step
      cases answer : writer.tryFinish platform with
      | mk result next =>
      rw [answer] at step finished
      cases step with
      | finished status _ _ _ _ _ => exact status
      | stopped _ _ => cases finished
  | finished status _ _ _ _ _ =>
      simp only [tryFinish, status]
  | failed status _ _ _ =>
      simp only [tryFinish, status] at finished
      cases finished

/-- Finalizing a finished writer does nothing. -/
theorem tryFinish_finished
    (finished : writer.status = .finished) :
    writer.tryFinish platform = (.ok (), writer) := by
  simp only [tryFinish, finished]

/-- Finalizing accepts no bytes. -/
@[simp]
theorem record_tryFinish_accepted
    (history : WriterHistory)
    (status : StreamStatus)
    (result : IoResult Nat) :
    (history.record status .tryFinish result).accepted = history.accepted := by
  by_cases opened : status = .opened
  · simp only [WriterHistory.record, opened, ↓reduceIte]
  · simp only [WriterHistory.record, opened, ↓reduceIte]

/-- Finishing finalizes and returns the sink. -/
theorem finish_eq (platform : Platform) (writer : EncryptWriter) :
    writer.finish platform =
      ((writer.tryFinish platform).1,
        (writer.tryFinish platform).2.inner) :=
  rfl

/-- A successful finalization leaves a message that `decrypt` maps to the
accepted plaintext. -/
theorem Stands.decrypt_eq_of_tryFinish
    {key : Key}
    {aad : Bytes}
    {header : Header}
    {prior : Bytes}
    (agree : platform.SealsAgree)
    (roundTrips : platform.RoundTrips)
    (authentic : HeaderAuthenticates platform key aad header context)
    (stands :
      writer.Stands platform context origin (prior ++ header.val) history)
    (finished : (writer.tryFinish platform).1 = .ok ()) :
    ∃ message,
      (writer.tryFinish platform).2.inner.accepted = prior ++ message ∧
        decrypt platform key aad message = .ok history.accepted := by
  have status := stands.status_of_tryFinish finished
  have next := stands.perform agree .tryFinish
  have same : (writer.perform platform .tryFinish).2 =
      (writer.tryFinish platform).2 :=
    rfl
  rw [same] at next
  obtain ⟨message, whole, decrypts⟩ :=
    next.decrypt_eq roundTrips authentic status
  rw [record_tryFinish_accepted] at decrypts
  exact ⟨message, whole, decrypts⟩

/-- A write of an open writer takes something, and at most one block. -/
theorem Stands.count_of_write
    {input : Bytes}
    {count : Nat}
    (agree : platform.SealsAgree)
    (stands : writer.Stands platform context origin sent history)
    (some : input ≠ [])
    (opened : writer.status = .opened)
    (wrote : (writer.write platform input).1 = .ok count) :
    0 < count ∧ count ≤ context.parameters.plaintextSegmentLength ∧
      count ≤ input.length := by
  cases stands with
  | @opened blocks held stages _ _ =>
      have step := stages.write_step agree some
      cases answer : writer.write platform input with
      | mk result next =>
      rw [answer] at step wrote
      cases step with
      | taken _ _ =>
          cases wrote
          have bounds := context.parameters.segmentLength_bounds
          exact Staging.offer_count (by omega) stages.length_held some
      | stopped _ => cases wrote
  | finished status _ _ _ _ _ =>
      rw [opened] at status
      cases status
  | failed status _ _ _ =>
      rw [opened] at status
      cases status

/-- A failed write of an unfinished writer, or a failed finalization, poisons
the writer. -/
theorem Stands.failed_of_error
    {call : WriterCall}
    {stop : Stop (IoError IoPayload)}
    (agree : platform.SealsAgree)
    (stands : writer.Stands platform context origin sent history)
    (stopped : (writer.perform platform call).1 = .error stop)
    (failing :
      call = .tryFinish ∨
        (∃ input, call = .write input) ∧ writer.status ≠ .finished) :
    (writer.perform platform call).2.status = .failed := by
  cases stands with
  | @opened blocks held stages _ _ =>
      rcases failing with rfl | ⟨⟨input, rfl⟩, _⟩
      · have step := stages.tryFinish_step
        cases answer : writer.tryFinish platform with
        | mk result next =>
        simp only [EncryptWriter.perform, answer] at step stopped ⊢
        cases step with
        | finished _ _ _ _ _ _ => cases stopped
        | stopped failed _ => exact failed
      · by_cases empty : input = []
        · subst empty
          simp only [EncryptWriter.perform, write_nil] at stopped
          cases stopped
        · have step := stages.write_step agree empty
          cases answer : writer.write platform input with
          | mk result next =>
          simp only [EncryptWriter.perform, answer] at step stopped ⊢
          cases step with
          | taken _ _ => cases stopped
          | stopped stopped => exact stopped.failed
  | finished status _ _ _ _ _ =>
      rcases failing with rfl | ⟨_, unfinished⟩
      · simp only [EncryptWriter.perform, tryFinish, status] at stopped
        cases stopped
      · exact (unfinished status).elim
  | failed status _ _ _ =>
      rw [(@perform_failed platform writer status call).1]
      exact status

end Runs

/-! ## Creating a writer -/

/-- `EncryptWriter::new` hands the header over before it returns a writer. -/
theorem new_eq_ok
    {platform : Platform}
    {key : Key}
    {aad : Bytes}
    {parameters : Parameters}
    {rng : ProviderRng}
    {sink left : Sink IoPayload}
    {writer : EncryptWriter}
    (created :
      EncryptWriter.new platform sink key aad parameters rng =
        (.ok writer, left)) :
    ∃ encryptor,
      Encryptor.new platform key aad parameters rng = .ok encryptor ∧
        sink.writeAll encryptor.header.val = (.ok (), left) ∧
        writer =
          { inner := left
            encryptor := some encryptor
            header := encryptor.header
            buffer := SegmentBuffer.new parameters
            status := .opened } := by
  unfold EncryptWriter.new at created
  cases started : Encryptor.new platform key aad parameters rng with
  | error stop =>
      rw [started] at created
      cases stop <;> cases created
  | ok encryptor =>
      rw [started] at created
      simp only [Outcome.mapErr] at created
      rcases wrote : sink.writeAll encryptor.header.val with
        ⟨stop | ⟨⟩, inner⟩
      · rw [wrote] at created
        cases created
      · rw [wrote] at created
        cases created
        exact ⟨encryptor, rfl, wrote, rfl⟩

/-- A new writer has handed over its header and holds nothing back. -/
theorem new_stands
    {platform : Platform}
    {key : Key}
    {aad : Bytes}
    {parameters : Parameters}
    {rng : ProviderRng}
    {sink left : Sink IoPayload}
    {writer : EncryptWriter}
    (created :
      EncryptWriter.new platform sink key aad parameters rng =
        (.ok writer, left)) :
    ∃ encryptor,
      Encryptor.new platform key aad parameters rng = .ok encryptor ∧
        writer.header = encryptor.header ∧
        writer.Stages platform encryptor.state.context encryptor.state
          (sink.accepted ++ encryptor.header.val) [] [] := by
  obtain ⟨encryptor, started, wrote, rfl⟩ := new_eq_ok created
  obtain ⟨_, own, here⟩ :=
    Encryptor.new_eq_ok (Kdf.FaultOf.refl platform.kdfExpand) started
  obtain ⟨taken, accepted, _, _, all⟩ :=
    sink.writeAll_spec encryptor.header.val
  rw [wrote] at accepted all
  refine ⟨encryptor, started, rfl, ⟨rfl, here.ready,
    ⟨encryptor, rfl, here, .nil⟩, own.symm, SegmentBuffer.sized_new _, ?_⟩,
    ?_⟩
  · rw [List.map_nil, List.flatten_nil, List.append_nil, accepted, all rfl]
  · exact @Holds.nothing _ .invalidBufferState rfl

end EncryptWriter

/-! ## Soundness -/

/-- `EncryptWriter` is sound over any sequence of calls and any sink.  A
successful write of an open writer takes something, and at most one segment's
worth.  What the sink has accepted is always a beginning of the header and the
segments that encrypt, at their own positions, the consecutive blocks of the
bytes accepted so far, followed by the input of the write that failed.  Once a
write of an unfinished writer or a finalization has failed, every later call but
an empty write fails without calling the sink.  After a successful finalization
the sink holds a complete message, which `decrypt` maps to the accepted bytes,
and later calls add nothing. -/
theorem encryptWriter_isSound
    {platform : Platform}
    {key : Key}
    {aad : Bytes}
    {parameters : Parameters}
    {rng : ProviderRng}
    {sink left : Sink IoPayload}
    {writer : EncryptWriter}
    (agree : platform.SealsAgree)
    (roundTrips : platform.RoundTrips)
    (created :
      EncryptWriter.new platform sink key aad parameters rng =
        (.ok writer, left))
    (calls : List WriterCall) :
    let reached := writer.performAll platform .start calls
    let current := reached.1
    let history := reached.2
    (∀ input count,
      input ≠ [] → current.status = .opened →
        (current.write platform input).1 = .ok count →
          0 < count ∧ count ≤ parameters.plaintextSegmentLength ∧
            count ≤ input.length) ∧
    (∃ context segments closed,
      HeaderAuthenticates platform key aad writer.header context ∧
        context.parameters = parameters ∧
        EncryptsBlocks platform context (history.accepted ++ history.refused)
          closed segments ∧
        (closed = true → history.closing = true) ∧
        current.inner.accepted <+:
          sink.accepted ++ writer.header.val ++ segments.flatten) ∧
    (∀ call stop,
      (current.perform platform call).1 = .error stop →
        (call = .tryFinish ∨
          (∃ input, call = .write input) ∧ current.status ≠ .finished) →
          (current.perform platform call).2.Refuses platform ∧
            ∀ history later,
              ((current.perform platform call).2.performAll platform history
                later).1 =
                (current.perform platform call).2) ∧
    ((current.tryFinish platform).1 = .ok () →
      ∃ message,
        decrypt platform key aad message = .ok history.accepted ∧
          (current.tryFinish platform).2.inner.accepted =
            sink.accepted ++ message ∧
          (current.finish platform).2.accepted = sink.accepted ++ message ∧
          ∀ history later,
            let last := ((current.tryFinish platform).2.performAll platform
              history later).1
            last.inner.accepted = sink.accepted ++ message ∧
              last.tryFinish platform = (.ok (), last)) ∧
    (current.finish platform).1 = (current.tryFinish platform).1 := by
  obtain ⟨encryptor, started, header, stages⟩ :=
    EncryptWriter.new_stands created
  obtain ⟨authentic, own, _⟩ :=
    Encryptor.new_eq_ok (Kdf.FaultOf.refl platform.kdfExpand) started
  have opened : writer.Stands platform encryptor.state.context encryptor.state
      (sink.accepted ++ encryptor.header.val) .start :=
    .opened stages rfl rfl
  have stands := opened.performAll agree calls
  intro reached current history
  refine ⟨?_, ?_, ?_, ?_, ?_⟩
  · intro input count some opened wrote
    rw [← own]
    exact stands.count_of_write agree some opened wrote
  · obtain ⟨segments, closed, encrypts, asked, partly⟩ := stands.emits
    rw [← header] at authentic partly
    exact ⟨encryptor.state.context, segments, closed, authentic, own,
      encrypts, asked, partly⟩
  · intro call stop stopped failing
    have failed := stands.failed_of_error agree stopped failing
    exact ⟨EncryptWriter.refuses_of_failed failed,
      fun history later => EncryptWriter.performAll_failed failed history later⟩
  · intro finished
    have status := stands.status_of_tryFinish finished
    obtain ⟨message, whole, decrypts⟩ :=
      stands.decrypt_eq_of_tryFinish agree roundTrips authentic finished
    refine ⟨message, decrypts, whole, ?_, ?_⟩
    · rw [EncryptWriter.finish_eq]
      exact whole
    · intro history later last
      obtain ⟨still, same⟩ :=
        @EncryptWriter.performAll_finished platform _ status history later
      refine ⟨same.trans whole, ?_⟩
      exact EncryptWriter.tryFinish_finished still
  · rw [EncryptWriter.finish_eq]

/-- A sink that takes five bytes, interrupts, and takes the rest. -/
def haltingSink : Sink IoPayload where
  accepted := []
  script := [.accept 5, .fail ⟨.interrupted, none⟩]

set_option maxRecDepth 100000 in
theorem encryptWriter_isSound_example :
    ∃ message,
      decrypt openPlatform zeroKey [] message =
        .ok (List.replicate 32 7) := by
  -- A direct write takes one segment of the forty bytes.
  obtain ⟨writer, left, created, finished, accepted⟩ :
      ∃ writer left,
        EncryptWriter.new openPlatform haltingSink zeroKey []
              shortestSegments zeroRng =
            (.ok writer, left) ∧
          ((writer.performAll openPlatform .start
              [.write (List.replicate 40 7), .flush]).1.tryFinish
                openPlatform).1 =
            .ok () ∧
          (writer.performAll openPlatform .start
              [.write (List.replicate 40 7), .flush]).2.accepted =
            List.replicate 32 7 :=
    ⟨_, _, rfl, rfl, rfl⟩
  obtain ⟨_, _, _, finishes, _⟩ :=
    encryptWriter_isSound transparent_sealsAgree transparent_roundTrips
      created [.write (List.replicate 40 7), .flush]
  obtain ⟨message, decrypts, _⟩ := finishes finished
  rw [accepted] at decrypts
  exact ⟨message, decrypts⟩

end FastFloe
