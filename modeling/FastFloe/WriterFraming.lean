import FastFloe.EncryptWriterRuns
import FastFloe.EncryptReaderRuns
import FastFloe.LayoutLengths

namespace FastFloe

open Rust

/-!
# The framing of an encrypting writer

A plaintext is written in any number of inputs, each of them to its end.  On a
sink and a provider that never fail, the number of segments depends on the length
of the plaintext and on the last input only: an input that ends a number of full
segments on the direct path leaves an empty final segment to be added.
-/

/-- A state that has drawn nothing but random bytes seals every payload that its
kind allows. -/
theorem Encryptor.At.sealNext_succeeds
    {platform : Platform}
    {context : MessageContext}
    {position : Nat}
    {encryptor : Encryptor}
    {kind : SegmentKind}
    {plaintext : Bytes}
    (healthy : platform.NeverFails)
    (here : encryptor.At platform context position)
    (random : encryptor.state.nonces.rng.NeverFails)
    (fits : FitsKind context.parameters kind plaintext.length) :
    ∃ segment state,
      encryptor.state.sealNext platform plaintext position kind =
          (some segment, state) ∧
        state.nonces.rng.NeverFails := by
  obtain ⟨segment, state, step, _⟩ :=
    EncryptionState.sealNext_specified healthy here.ready random here.inside
      fits
  exact ⟨segment, state, step,
    EncryptionState.sealNext_random here.ready.served random step⟩

/-- A generator that never fails still does not behind a new encryptor. -/
theorem Encryptor.new_random
    {platform : Platform}
    {key : Key}
    {aad : Bytes}
    {parameters : Parameters}
    {rng : ProviderRng}
    {encryptor : Encryptor}
    (healthy : platform.NeverFails)
    (random : rng.NeverFails)
    (created : Encryptor.new platform key aad parameters rng = .ok encryptor) :
    encryptor.state.nonces.rng.NeverFails := by
  unfold Encryptor.new at created
  obtain ⟨⟨state, header⟩, started, shape⟩ := Outcome.bind_eq_ok.mp created
  cases shape
  cases resolved : key.resolveProvider platform with
  | error stop =>
      simp only [startEncryption, resolved, Outcome.error_bind] at started
      cases started
  | ok provider =>
      obtain ⟨state', header', started', later⟩ :=
        @startEncryption_succeeds platform key parameters rng provider healthy
          random aad resolved
      rw [started] at started'
      cases started'
      exact later

namespace EncryptWriter

/-- A writer whose sink and generator never fail. -/
structure Thrives (writer : EncryptWriter) : Prop where
  reliable : writer.inner.Reliable
  random :
    ∀ encryptor,
      writer.encryptor = some encryptor →
        encryptor.state.nonces.rng.NeverFails

theorem Thrives.of_beside
    {writer other : EncryptWriter}
    (thrives : writer.Thrives)
    (beside : other.Beside writer) :
    other.Thrives := by
  refine ⟨?_, ?_⟩
  · rw [beside.inner]
    exact thrives.reliable
  · rw [beside.encryptor]
    exact thrives.random

section Progress

variable {platform : Platform} {context : MessageContext}
  {origin : EncryptionState} {sent held : Bytes}
  {blocks : List (Bytes × Bytes)} {writer : EncryptWriter}

/-- A reliable sink takes the segment in the buffer. -/
theorem emitBuffer_succeeds
    {segment : Bytes}
    (reliable : writer.inner.Reliable)
    (holds : writer.buffer.HoldsCiphertext segment) :
    ∃ inner,
      writer.emitBuffer = (.ok (), { writer with inner }) ∧
        inner.Reliable := by
  obtain ⟨inner, wrote, steady, _⟩ := reliable.writeAll segment
  refine ⟨inner, ?_, steady⟩
  simp only [emitBuffer, holds.ciphertext_eq, Outcome.mapErr, wrote]

/-- The block that is held back is emitted where the position allows it. -/
theorem Emitted.emitNonFinal_succeeds
    (healthy : platform.NeverFails)
    (emitted : writer.Emitted platform context origin sent blocks)
    (thrives : writer.Thrives)
    (holds : writer.buffer.HoldsPlaintext held)
    (full : held.length = context.parameters.plaintextSegmentLength)
    (allowed : PositionAllows blocks.length .nonFinal) :
    ∃ next,
      writer.emitNonFinal platform = (.ok (), next) ∧ next.Thrives := by
  obtain ⟨encryptor, present, here, _⟩ := emitted.encryptor
  obtain ⟨expected, after, steps, later⟩ :=
    @Encryptor.At.sealNext_succeeds _ _ _ _ .nonFinal held healthy here
      (thrives.random encryptor present) full
  rcases here.encryptNonFinalSegmentInPlace_spec writer.buffer
      (Kdf.FaultOf.refl platform.kdfExpand) with
    ⟨plaintext, segment, state, sealedBuffer, _, content, step, _, result, _,
      settled⟩ | ⟨error, state, failed, fails, _⟩
  · rw [holds.plaintext_eq] at content
    cases content
    cases steps.symm.trans step
    have result' :
        encryptor.encryptNonFinalSegmentInPlace platform writer.buffer =
          (.ok expected, encryptor.stepped after, sealedBuffer) :=
      result
    let between : EncryptWriter :=
      { writer with
        encryptor := some (encryptor.stepped after), buffer := sealedBuffer }
    obtain ⟨inner, emittedAll, steady⟩ :=
      @emitBuffer_succeeds between expected thrives.reliable
        (settled emitted.sized)
    refine ⟨{ between with inner }, ?_, steady, ?_⟩
    · simp only [between] at emittedAll
      simp only [emitNonFinal, poisonOnError, present, result', emittedAll,
        between]
    · intro current same
      cases same
      exact later
  · cases steps.symm.trans (fails held allowed holds emitted.parameters)

/-- A full block of input is emitted where the position allows it. -/
theorem Emitted.writeSegmentDirect_succeeds
    {chunk : Bytes}
    (agree : platform.SealsAgree)
    (healthy : platform.NeverFails)
    (emitted : writer.Emitted platform context origin sent blocks)
    (thrives : writer.Thrives)
    (full : chunk.length = context.parameters.plaintextSegmentLength)
    (allowed : PositionAllows blocks.length .nonFinal) :
    ∃ next,
      writer.writeSegmentDirect platform chunk = (.ok chunk.length, next) ∧
        next.Thrives := by
  obtain ⟨encryptor, present, here, _⟩ := emitted.encryptor
  obtain ⟨expected, after, steps, later⟩ :=
    @Encryptor.At.sealNext_succeeds _ _ _ _ .nonFinal chunk healthy here
      (thrives.random encryptor present) full
  have total := context.parameters.plaintextSegmentLength_add
  have storage := emitted.sized
  unfold SegmentBuffer.Sized at storage
  rw [emitted.parameters] at storage
  rcases here.encryptNonFinalSegmentInto_spec chunk writer.buffer.bytes
      (Kdf.FaultOf.refl platform.kdfExpand) agree with
    ⟨segment, state, _, step, length, room, _, result⟩ |
      ⟨error, state, failed, fails, _⟩
  · cases steps.symm.trans step
    have result' :
        encryptor.encryptNonFinalSegmentInto platform chunk
            writer.buffer.bytes =
          (.ok expected.length, encryptor.stepped after,
            expected ++ writer.buffer.bytes.drop expected.length) :=
      result
    let marked : SegmentBuffer :=
      (writer.buffer.withRaw
        (expected ++ writer.buffer.bytes.drop
          expected.length)).markCiphertext expected.length
    have sized : marked.Sized := by
      have length :
          (expected ++ writer.buffer.bytes.drop expected.length).length =
            writer.buffer.bytes.length := by
        rw [List.length_append, List.length_drop]
        omega
      exact emitted.sized.withRaw length
    let between : EncryptWriter :=
      { writer with
        encryptor := some (encryptor.stepped after), buffer := marked }
    obtain ⟨inner, emittedAll, steady⟩ :=
      @emitBuffer_succeeds between expected thrives.reliable
        ⟨sized, rfl, List.take_left⟩
    refine ⟨{ between with inner }, ?_, steady, ?_⟩
    · simp only [between, marked] at emittedAll
      simp only [writeSegmentDirect, poisonOnError, present, result',
        emittedAll, between, marked]
    · intro current same
      cases same
      exact later
  · rcases fails allowed with failed | ⟨_, impossible⟩
    · cases steps.symm.trans failed
    · omega

/-- The first full block of the input is emitted where the position allows
it. -/
theorem Emitted.writeFirstSegment_succeeds
    {input : Bytes}
    (agree : platform.SealsAgree)
    (healthy : platform.NeverFails)
    (emitted : writer.Emitted platform context origin sent blocks)
    (thrives : writer.Thrives)
    (enough : context.parameters.plaintextSegmentLength ≤ input.length)
    (allowed : PositionAllows blocks.length .nonFinal) :
    ∃ count next,
      writer.writeFirstSegment platform input
            context.parameters.plaintextSegmentLength =
          (.ok count, next) ∧
        next.Thrives := by
  have chunk :
      (slice input 0 context.parameters.plaintextSegmentLength :
          IoResult Bytes) =
        .ok (input.take context.parameters.plaintextSegmentLength) :=
    slice_zero enough
  have full := List.length_take_of_le enough
  obtain ⟨next, result, later⟩ :=
    @Emitted.writeSegmentDirect_succeeds _ _ _ _ _ _
      (input.take context.parameters.plaintextSegmentLength) agree healthy
      emitted thrives full allowed
  rw [full] at result
  refine ⟨context.parameters.plaintextSegmentLength, next, ?_, later⟩
  simp only [writeFirstSegment, chunk, result]

/-- Input that finds a full buffer is taken where the positions allow it. -/
theorem Stages.writeOpen_full_succeeds
    {input : Bytes}
    (agree : platform.SealsAgree)
    (healthy : platform.NeverFails)
    (stages : writer.Stages platform context origin sent blocks held)
    (thrives : writer.Thrives)
    (some : input ≠ [])
    (started : held ≠ [])
    (full : held.length = context.parameters.plaintextSegmentLength)
    (room :
      blocks.length +
          (Staging.offer context.parameters.plaintextSegmentLength held
            input).blocks.length <
        aeadMaxSegments) :
    ∃ count next,
      writer.writeOpen platform input = (.ok count, next) ∧
        next.Thrives := by
  have noRoom :
      ¬ held.length < context.parameters.plaintextSegmentLength := by
    omega
  obtain ⟨between, betweenStages, prepared, beside, succeeds, _⟩ :=
    @Stages.writeOpen_eq_full _ _ _ _ _ _ _ input stages started full
  have first : blocks.length + 1 < aeadMaxSegments := by
    by_cases enough :
        context.parameters.plaintextSegmentLength ≤ input.length
    · simp only [Staging.offer, started, noRoom, enough, false_and,
        ↓reduceIte, List.length_cons] at room
      omega
    · simp only [Staging.offer, started, noRoom, enough, false_and,
        ↓reduceIte, List.length_cons, List.length_nil] at room
      omega
  obtain ⟨next, emitted, later⟩ :=
    betweenStages.toEmitted.emitNonFinal_succeeds healthy
      (thrives.of_beside beside) prepared full first
  obtain ⟨_, ⟨segment, emitted', nextEmitted, idle⟩ |
      ⟨⟨error, refused⟩, _⟩⟩ :=
    betweenStages.toEmitted.emitNonFinal_spec prepared
  · cases emitted.symm.trans emitted'
    rw [succeeds next emitted]
    by_cases enough :
        context.parameters.plaintextSegmentLength ≤ input.length
    · simp only [Staging.offer, started, noRoom, enough, false_and,
        ↓reduceIte, List.length_cons, List.length_nil] at room
      rw [if_pos enough]
      refine nextEmitted.writeFirstSegment_succeeds agree healthy later enough
        ?_
      rw [List.length_append, List.length_singleton]
      exact room
    · rw [if_neg enough]
      have whole : input.take context.parameters.plaintextSegmentLength =
          input :=
        List.take_of_length_le (by omega)
      obtain ⟨last, extended, _, lastBeside⟩ :=
        @Stages.extend_spec _ _ _ _ _ _ _ input ⟨nextEmitted, idle⟩ (by
          rw [List.nil_append, List.length_nil, Nat.sub_zero, whole]
          exact some)
      exact ⟨_, last, extended, later.of_beside lastBeside⟩
  · cases emitted.symm.trans refused

/-- Every write is taken where the positions allow it. -/
theorem Stages.write_succeeds
    {input : Bytes}
    (agree : platform.SealsAgree)
    (healthy : platform.NeverFails)
    (stages : writer.Stages platform context origin sent blocks held)
    (thrives : writer.Thrives)
    (some : input ≠ [])
    (room :
      blocks.length +
          (Staging.offer context.parameters.plaintextSegmentLength held
            input).blocks.length <
        aeadMaxSegments) :
    ∃ count next,
      writer.write platform input = (.ok count, next) ∧ next.Thrives := by
  have bounds := context.parameters.segmentLength_bounds
  have length := stages.length_held
  rw [stages.write_eq_writeOpen some]
  by_cases direct :
      held = [] ∧ context.parameters.plaintextSegmentLength ≤ input.length
  · obtain ⟨rfl, enough⟩ := direct
    simp only [Staging.offer, enough, and_self, ↓reduceIte, List.length_cons,
      List.length_nil] at room
    rw [stages.writeOpen_eq_direct enough]
    exact stages.toEmitted.writeFirstSegment_succeeds agree healthy thrives
      enough room
  by_cases short : held.length < context.parameters.plaintextSegmentLength
  · obtain ⟨_, count, next, result, beside⟩ :=
      stages.writeOpen_topUp some direct short
    exact ⟨count, next, result, thrives.of_beside beside⟩
  · exact stages.writeOpen_full_succeeds agree healthy thrives some
      (List.ne_nil_of_length_pos (by omega)) (by omega) room

/-- The final segment is always sealed. -/
theorem Stages.tryFinish_succeeds
    (healthy : platform.NeverFails)
    (stages : writer.Stages platform context origin sent blocks held)
    (thrives : writer.Thrives) :
    (writer.tryFinish platform).1 = .ok () := by
  obtain ⟨encryptor, present, here, _⟩ := stages.encryptor
  obtain ⟨buffer, prepared, holds, same⟩ := stages.prepareFinal_spec
  have tries : writer.tryFinish platform =
      writer.poisonOnError (finishMessage platform) := by
    simp only [tryFinish, stages.opened]
  obtain ⟨expected, after, steps, _⟩ :=
    @Encryptor.At.sealNext_succeeds _ _ _ _ .final held healthy here
      (thrives.random encryptor present) stages.length_held
  rw [tries]
  rcases here.encryptFinalSegmentInPlace_spec buffer
      (Kdf.FaultOf.refl platform.kdfExpand) with
    ⟨plaintext, segment, state, sealedBuffer, content, step, result, _,
      settled⟩ | ⟨error, state, failed, fails, _⟩
  · rw [holds.plaintext_eq] at content
    cases content
    cases steps.symm.trans step
    have result' :
        encryptor.encryptFinalSegmentInPlace platform buffer =
          (.ok expected, sealedBuffer) :=
      result
    let between : EncryptWriter :=
      { writer with encryptor := none, buffer := sealedBuffer }
    obtain ⟨inner, emittedAll, steady⟩ :=
      @emitBuffer_succeeds between expected thrives.reliable
        (settled holds.sized)
    simp only [between] at emittedAll
    have flushes := steady.flush
    cases flushed : inner.flush with
    | mk outcome last =>
    rw [flushed] at flushes
    simp only at flushes
    subst flushes
    simp only [poisonOnError, finishMessage, present, prepared, result',
      emittedAll, flushed]
  · cases steps.symm.trans
      (fails held holds (same.trans stages.parameters))

/-- A successful finalization completes the blocks to a message, which is the
sealed stream of its plaintext unless its final segment is an empty one behind
others. -/
theorem Stages.message_of_tryFinish
    (stages : writer.Stages platform context origin sent blocks held)
    (finished : (writer.tryFinish platform).1 = .ok ()) :
    ∃ segment,
      SealedMessage platform context 0 blocks segment held ∧
        (writer.tryFinish platform).2.inner.accepted =
          sent ++ (blocks.map Prod.fst ++ [segment]).flatten ∧
        (held ≠ [] ∨ blocks = [] →
          origin.SealsStream platform 0
            ((blocks.map Prod.snd).flatten ++ held)
            (blocks.map Prod.fst ++ [segment]).flatten) := by
  have step := stages.tryFinish_step
  cases answer : writer.tryFinish platform with
  | mk result next =>
  rw [answer] at step finished
  cases step with
  | stopped _ _ => cases finished
  | @finished _ last state segment _ ready chain inside step accepted =>
      have joined :
          (blocks.map Prod.fst ++ [segment]).flatten =
            (blocks.map Prod.fst).flatten ++ segment := by
        rw [List.flatten_append, List.flatten_singleton]
      refine ⟨segment, stages.sealedMessage ready step, ?_, fun needed => ?_⟩
      · rw [joined]
        exact accepted
      · rw [joined]
        have inside' : 0 + blocks.length < aeadMaxSegments := by
          rw [Nat.zero_add]
          exact inside
        have step' :
            last.sealNext platform held (0 + blocks.length) .final =
              (some segment, state) := by
          rw [Nat.zero_add]
          exact step
        exact chain.sealsStream inside' step' needed

end Progress

/-! ## Writing whole inputs -/

/-- The loop of `Write::write_all`, which retries interrupted writes. -/
def writeAllLoop (platform : Platform) :
    Nat → EncryptWriter → Bytes → IoResult Unit × EncryptWriter
  | 0, self, _ =>
      (.error .diverge, self)
  | fuel + 1, self, input =>
      if input = [] then
        (.ok (), self)
      else
        match self.write platform input with
        | (.ok 0, self) =>
            (.error (.err ⟨.writeZero, none⟩), self)
        | (.ok (count + 1), self) =>
            writeAllLoop platform fuel self (input.drop (count + 1))
        | (.error (.err error), self) =>
            if error.kind = .interrupted then
              writeAllLoop platform fuel self input
            else
              (.error (.err error), self)
        | (.error .panic, self) =>
            (.error .panic, self)
        | (.error .diverge, self) =>
            (.error .diverge, self)

/-- `Write::write_all`.  Every turn of the loop accepts something, or leaves a
writer that fails the next turn, which bounds the number of turns. -/
def writeAll (platform : Platform) (self : EncryptWriter) (input : Bytes) :
    IoResult Unit × EncryptWriter :=
  writeAllLoop platform (input.length + 2) self input

/-- Writes the inputs in turn, each of them to its end. -/
def writeInputs (platform : Platform) :
    EncryptWriter → List Bytes → IoResult Unit × EncryptWriter
  | self, [] =>
      (.ok (), self)
  | self, input :: inputs =>
      match self.writeAll platform input with
      | (.error stop, self) => (.error stop, self)
      | (.ok (), self) => writeInputs platform self inputs

section Writing

variable {platform : Platform} {context : MessageContext}
  {origin : EncryptionState} {sent held input last : Bytes}
  {blocks : List (Bytes × Bytes)} {cut : List Bytes} {writer : EncryptWriter}

/-- A failed writer does not write anything any more. -/
theorem writeAllLoop_failed
    (failed : writer.status = .failed)
    (some : input ≠ [])
    (fuel : Nat) :
    (writer.writeAllLoop platform fuel input).1 ≠ .ok () := by
  cases fuel with
  | zero =>
      simp only [writeAllLoop]
      exact (fun impossible => by cases impossible)
  | succ fuel =>
      have answer : writer.write platform input =
          (.error (.err poisonedError), writer) := by
        simp only [write, some, failed, ↓reduceIte]
      simp only [writeAllLoop, some, answer, poisonedError, reduceCtorEq,
        ↓reduceIte]
      exact (fun impossible => by cases impossible)

/-- An input that was written to its end was cut into its blocks, and one is
written to its end where the positions allow it. -/
theorem Stages.writeAllLoop_feeds
    {fuel : Nat}
    (agree : platform.SealsAgree)
    (feeds :
      Staging.Feeds context.parameters.plaintextSegmentLength held input cut
        last)
    (stages : writer.Stages platform context origin sent blocks held)
    (enough : input.length < fuel) :
    ((writer.writeAllLoop platform fuel input).1 = .ok () →
        ∃ more,
          more.map Prod.snd = cut ∧
            (writer.writeAllLoop platform fuel input).2.Stages platform
              context origin sent (blocks ++ more) last) ∧
      (platform.NeverFails → writer.Thrives →
        blocks.length + cut.length < aeadMaxSegments →
          (writer.writeAllLoop platform fuel input).1 = .ok () ∧
            (writer.writeAllLoop platform fuel input).2.Thrives) := by
  induction feeds generalizing writer blocks fuel with
  | @done held =>
      obtain ⟨fuel, rfl⟩ : ∃ more, fuel = more + 1 := ⟨fuel - 1, by omega⟩
      simp only [writeAllLoop, ↓reduceIte]
      refine ⟨fun _ => ⟨[], rfl, ?_⟩, fun _ thrives _ => ⟨trivial, thrives⟩⟩
      rw [List.append_nil]
      exact stages
  | @more held input last rest some later inductionHypothesis =>
      obtain ⟨fuel, rfl⟩ : ∃ more, fuel = more + 1 := ⟨fuel - 1, by omega⟩
      have bounds := context.parameters.segmentLength_bounds
      obtain ⟨positive, _, within⟩ :=
        Staging.offer_count
          (show 0 < context.parameters.plaintextSegmentLength by omega)
          stages.length_held some
      have step := stages.write_step agree some
      cases answer : writer.write platform input with
      | mk result next =>
      rw [answer] at step
      cases step with
      | @taken _ more nextStages emitted =>
          obtain ⟨count, counted⟩ : ∃ count,
              (Staging.offer context.parameters.plaintextSegmentLength held
                input).count = count + 1 :=
            ⟨(Staging.offer context.parameters.plaintextSegmentLength held
              input).count - 1, by omega⟩
          rw [counted] at answer within inductionHypothesis
          have shape : writer.writeAllLoop platform (fuel + 1) input =
              next.writeAllLoop platform fuel (input.drop (count + 1)) := by
            simp only [writeAllLoop, some, answer, ↓reduceIte]
          obtain ⟨succeeded, succeeds⟩ :=
            @inductionHypothesis (blocks ++ more) next fuel nextStages (by
              rw [List.length_drop]
              omega)
          have counts : more.length =
              (Staging.offer context.parameters.plaintextSegmentLength held
                input).blocks.length := by
            rw [← emitted, List.length_map]
          rw [shape]
          refine ⟨fun ok => ?_, fun healthy thrives room => ?_⟩
          · obtain ⟨others, rfl, reached⟩ := succeeded ok
            rw [List.append_assoc] at reached
            refine ⟨more ++ others, ?_, reached⟩
            rw [List.map_append, emitted]
          · rw [List.length_append] at room
            obtain ⟨_, _, wrote, thriving⟩ :=
              stages.write_succeeds agree healthy thrives some (by omega)
            cases answer.symm.trans wrote
            refine succeeds healthy thriving ?_
            rw [List.length_append]
            omega
      | @stopped _ error stopped =>
          have failed := @writeAllLoop_failed platform input next
            stopped.failed some fuel
          refine ⟨fun ok => ?_, fun healthy thrives room => ?_⟩
          · simp only [writeAllLoop, some, answer, ↓reduceIte] at ok
            by_cases retry : error.kind = .interrupted
            · rw [if_pos retry] at ok
              exact (failed ok).elim
            · rw [if_neg retry] at ok
              cases ok
          · rw [List.length_append] at room
            obtain ⟨_, _, wrote, _⟩ :=
              stages.write_succeeds agree healthy thrives some (by omega)
            cases answer.symm.trans wrote

/-- Inputs that were written to their ends were cut into their blocks, and they
are written to their ends where the positions allow it. -/
theorem Stages.writeInputs_feeds
    {inputs : List Bytes}
    (agree : platform.SealsAgree)
    (feeds :
      Staging.FeedsAll context.parameters.plaintextSegmentLength held inputs
        cut last)
    (stages : writer.Stages platform context origin sent blocks held) :
    ((writer.writeInputs platform inputs).1 = .ok () →
        ∃ more,
          more.map Prod.snd = cut ∧
            (writer.writeInputs platform inputs).2.Stages platform context
              origin sent (blocks ++ more) last) ∧
      (platform.NeverFails → writer.Thrives →
        blocks.length + cut.length < aeadMaxSegments →
          (writer.writeInputs platform inputs).1 = .ok () ∧
            (writer.writeInputs platform inputs).2.Thrives) := by
  induction feeds generalizing writer blocks with
  | @nil held =>
      simp only [writeInputs]
      refine ⟨fun _ => ⟨[], rfl, ?_⟩, fun _ thrives _ => ⟨trivial, thrives⟩⟩
      rw [List.append_nil]
      exact stages
  | @cons held input middle last inputs first rest feed _
      inductionHypothesis =>
      obtain ⟨written, writes⟩ :=
        @Stages.writeAllLoop_feeds platform context origin sent held input
          middle blocks first writer (input.length + 2) agree feed stages
          (by omega)
      have loop : writer.writeAllLoop platform (input.length + 2) input =
          writer.writeAll platform input :=
        rfl
      rw [loop] at written writes
      cases answer : writer.writeAll platform input with
      | mk result next =>
      rw [answer] at written writes
      cases result with
      | error stop =>
          have shape : writer.writeInputs platform (input :: inputs) =
              (.error stop, next) := by
            simp only [writeInputs, answer]
          rw [shape]
          refine ⟨(fun impossible => by cases impossible),
            fun healthy thrives room => ?_⟩
          rw [List.length_append] at room
          cases (writes healthy thrives (by omega)).1
      | ok value =>
          have shape : writer.writeInputs platform (input :: inputs) =
              next.writeInputs platform inputs := by
            simp only [writeInputs, answer]
          rw [shape]
          obtain ⟨more, rfl, nextStages⟩ := written rfl
          obtain ⟨succeeded, succeeds⟩ := inductionHypothesis nextStages
          refine ⟨fun ok => ?_, fun healthy thrives room => ?_⟩
          · obtain ⟨others, rfl, reached⟩ := succeeded ok
            rw [List.append_assoc] at reached
            refine ⟨more ++ others, ?_, reached⟩
            rw [List.map_append]
          · rw [List.length_append, List.length_map] at room
            refine succeeds healthy
              (writes healthy thrives (by rw [List.length_map]; omega)).2 ?_
            rw [List.length_append]
            omega

end Writing

/-! ## Creating a writer -/

/-- A new writer on a reliable sink thrives. -/
theorem new_thrives
    {platform : Platform}
    {key : Key}
    {aad : Bytes}
    {parameters : Parameters}
    {rng : ProviderRng}
    {sink left : Sink IoPayload}
    {writer : EncryptWriter}
    (healthy : platform.NeverFails)
    (random : rng.NeverFails)
    (reliable : sink.Reliable)
    (created :
      EncryptWriter.new platform sink key aad parameters rng =
        (.ok writer, left)) :
    writer.Thrives := by
  obtain ⟨encryptor, started, wrote, rfl⟩ := new_eq_ok created
  obtain ⟨inner, wrote', steady, _⟩ :=
    reliable.writeAll encryptor.header.val
  cases wrote.symm.trans wrote'
  refine ⟨steady, fun current same => ?_⟩
  cases same
  exact Encryptor.new_random healthy random started

end EncryptWriter

/-! ## Counting segments -/

/-- The segments that a writer emits beyond those of the layout: one when the
last input that is not empty has a full segment at least and ends a number of
full segments. -/
def spareSegments (parameters : Parameters) (inputs : List Bytes) : Nat :=
  if inputs.flatten ≠ [] ∧
      parameters.plaintextSegmentLength ∣ inputs.flatten.length ∧
      parameters.plaintextSegmentLength ≤ (Staging.lastInput inputs).length
  then 1 else 0

section Counting

variable {platform : Platform} {context : MessageContext}
  {parameters : Parameters} {position : Nat}
  {blocks : List (Bytes × Bytes)} {inputs cut : List Bytes} {last : Bytes}

/-- The blocks of the inputs and the final segment are the segments that the
plaintext needs and the spare one, which is the one that is empty behind
others. -/
theorem segments_of_feedsAll
    (feeds :
      Staging.FeedsAll parameters.plaintextSegmentLength [] inputs cut
        last) :
    cut.length + 1 =
        parameters.segmentsNeeded inputs.flatten.length +
          spareSegments parameters inputs ∧
      (spareSegments parameters inputs = 0 → last ≠ [] ∨ cut = []) := by
  have bounds := parameters.segmentLength_bounds
  have positive : 0 < parameters.plaintextSegmentLength := by omega
  obtain ⟨uniform, short⟩ := feeds.uniform (Nat.zero_le _)
  have total := congrArg List.length feeds.balance
  rw [List.length_append, Blocks.length_flatten uniform, List.nil_append]
    at total
  rw [parameters.segmentsNeeded_eq]
  by_cases nothing : inputs.flatten = []
  · obtain ⟨rfl, rfl⟩ := feeds.of_flatten_eq_nil nothing
    have none : divCeil 0 parameters.plaintextSegmentLength = 0 :=
      Nat.div_eq_of_lt (by omega)
    simp [spareSegments, nothing, none]
  have emptied := feeds.last_eq_nil_iff positive (Nat.zero_le _) nothing
  rw [List.length_nil, Nat.zero_add] at emptied
  by_cases empty : last = []
  · obtain ⟨large, divides⟩ := emptied.mp empty
    have spare : spareSegments parameters inputs = 1 :=
      if_pos ⟨nothing, divides, large⟩
    rw [empty, List.length_nil, Nat.add_zero] at total
    have nonempty := List.length_pos_iff.mpr nothing
    obtain ⟨count, counted⟩ : ∃ count, cut.length = count + 1 := by
      cases shape : cut.length with
      | zero =>
          rw [shape, Nat.zero_mul] at total
          omega
      | succ count => exact ⟨count, rfl⟩
    rw [counted] at total
    have ceiling :=
      @divCeil_eq inputs.flatten.length parameters.plaintextSegmentLength
        count (by
          rw [← total, Nat.succ_mul]
          omega) (Nat.le_of_eq total.symm)
    rw [spare, ceiling, counted]
    exact ⟨by omega, (fun impossible => by cases impossible)⟩
  · have spare : spareSegments parameters inputs = 0 :=
      if_neg fun both => empty (emptied.mpr ⟨both.2.2, both.2.1⟩)
    have some := List.length_pos_iff.mpr empty
    have ceiling :=
      @divCeil_eq inputs.flatten.length parameters.plaintextSegmentLength
        cut.length (by omega) (by
          rw [Nat.succ_mul]
          omega)
    rw [spare, ceiling]
    exact ⟨by omega, fun _ => .inl empty⟩

/-- Every segment is 32 bytes longer than its plaintext. -/
theorem SealedRun.length_flatten
    (run : SealedRun platform context position blocks) :
    (blocks.map Prod.fst).flatten.length =
      (blocks.map Prod.snd).flatten.length + 32 * blocks.length := by
  refine length_flatten_segments ?_
  rintro ⟨segment, block⟩ member
  obtain ⟨index, found⟩ := List.mem_iff_getElem?.mp member
  exact (run index segment block found).2.framed.1

end Counting

/-! ## Agreement -/

/-- What `encrypt` and `EncryptReader` emit for a plaintext is this message. -/
structure EmittedAlike (platform : Platform) (key : Key) (aad : Bytes)
    (parameters : Parameters) (rng : ProviderRng)
    (plaintext message : Bytes) : Prop where
  encrypt :
    ∀ ciphertext,
      encrypt platform key aad parameters rng plaintext = .ok ciphertext →
        ciphertext = message
  reader :
    ∀ source,
      source.Honest → source.remaining = plaintext →
        ∃ reader,
          EncryptReader.new platform source key aad parameters rng =
              .ok reader ∧
            ∀ outputs,
              delivered (reader.readAll platform outputs).1 <+: message ∧
                ((reader.readAll platform outputs).2.isFinished = true ↔
                  delivered (reader.readAll platform outputs).1 = message)

/-- A sealed stream is what every adapter emits. -/
theorem emittedAlike_of_sealsStream
    {platform : Platform}
    {key : Key}
    {aad : Bytes}
    {parameters : Parameters}
    {rng : ProviderRng}
    {plaintext stream : Bytes}
    {encryptor : Encryptor}
    (agree : platform.SealsAgree)
    (created :
      Encryptor.new platform key aad parameters rng = .ok encryptor)
    (seals : encryptor.state.SealsStream platform 0 plaintext stream) :
    EmittedAlike platform key aad parameters rng plaintext
      (encryptor.header.val ++ stream) := by
  constructor
  · intro ciphertext encrypted
    obtain ⟨other, stream', created', seals', rfl⟩ :=
      encrypt_sealsStream agree encrypted
    rw [created] at created'
    cases created'
    rw [seals.unique seals']
  · rintro source honest rfl
    obtain ⟨reader, opened, emits⟩ :=
      EncryptReader.new_emits honest created seals
    refine ⟨reader, opened, fun outputs => ?_⟩
    obtain ⟨left, total, leftEmits, _⟩ := emits.readAll_spec agree outputs
    rw [leftEmits.isFinished_iff, total]
    refine ⟨List.prefix_append _ _, ?_, fun whole => ?_⟩
    · rintro rfl
      exact (List.append_nil _).symm
    · exact List.self_eq_append_right.mp whole

/-! ## The framing -/

/-- The framing of an `EncryptWriter` on a sink and a provider that never fail,
whatever the inputs are that the plaintext is written in.  All writes and the
finalization succeed exactly when the segments of the layout and a spare one are
no more than a message can have.  The message then has that many segments, which
encrypt the consecutive blocks of the plaintext, and the length of the layout and
32 bytes for a spare segment; without one it is the message that `encrypt` and
`EncryptReader` emit. -/
theorem encryptWriter_framing
    {platform : Platform}
    {key : Key}
    {aad : Bytes}
    {parameters : Parameters}
    {rng : ProviderRng}
    {sink left : Sink IoPayload}
    {writer : EncryptWriter}
    {layout : MessageLayout}
    (agree : platform.SealsAgree)
    (healthy : platform.NeverFails)
    (random : rng.NeverFails)
    (reliable : sink.Reliable)
    (created :
      EncryptWriter.new platform sink key aad parameters rng =
        (.ok writer, left))
    (inputs : List Bytes)
    (calculated :
      parameters.plaintextLayout inputs.flatten.length = .ok layout) :
    let written := writer.writeInputs platform inputs
    let finished := written.2.finish platform
    let needed := layout.segmentCount + spareSegments parameters inputs
    (written.1 = .ok () ∧ finished.1 = .ok () ↔ needed ≤ aeadMaxSegments) ∧
    (needed ≤ aeadMaxSegments →
      ∃ context segments,
        HeaderAuthenticates platform key aad writer.header context ∧
          context.parameters = parameters ∧
          EncryptsBlocks platform context inputs.flatten true segments ∧
          segments.length = needed ∧
          finished.2.accepted =
            sink.accepted ++ (writer.header.val ++ segments.flatten) ∧
          (writer.header.val ++ segments.flatten).length =
            layout.ciphertextLength +
              32 * spareSegments parameters inputs ∧
          (spareSegments parameters inputs = 0 →
            EmittedAlike platform key aad parameters rng inputs.flatten
              (writer.header.val ++ segments.flatten))) := by
  obtain ⟨encryptor, started, header, stages⟩ :=
    EncryptWriter.new_stands created
  have thrives := EncryptWriter.new_thrives healthy random reliable created
  obtain ⟨authentic, own, _⟩ :=
    Encryptor.new_eq_ok (Kdf.FaultOf.refl platform.kdfExpand) started
  subst own
  have bounds := encryptor.state.context.parameters.segmentLength_bounds
  obtain ⟨cut, last, feeds⟩ :=
    @Staging.exists_feedsAll UInt8
      encryptor.state.context.parameters.plaintextSegmentLength []
      (by omega) (Nat.zero_le _) inputs
  obtain ⟨counted, needed_last⟩ := segments_of_feedsAll feeds
  obtain ⟨succeeded, succeeds⟩ := stages.writeInputs_feeds agree feeds
  obtain ⟨size, count⟩ :
      layout.ciphertextLength =
          74 + inputs.flatten.length + 32 * layout.segmentCount ∧
        layout.segmentCount =
          encryptor.state.context.parameters.segmentsNeeded
            inputs.flatten.length := by
    obtain ⟨valid, _, whole, count⟩ :=
      Parameters.plaintextLayout_eq_ok calculated
    exact ⟨whole ▸ valid.ciphertext_eq, count⟩
  intro written finished needed
  have total : needed = cut.length + 1 := by
    rw [counted, ← count]
  have fits : needed ≤ aeadMaxSegments ↔
      ([] : List (Bytes × Bytes)).length + cut.length < aeadMaxSegments := by
    rw [total, List.length_nil, Nat.zero_add]
    rfl
  refine ⟨⟨?_, fun room => ?_⟩, fun room => ?_⟩
  · rintro ⟨wrote, _⟩
    obtain ⟨more, rfl, reached⟩ := succeeded wrote
    obtain ⟨_, _, here, _⟩ := reached.encryptor
    rw [fits, List.length_map, ← List.length_append]
    exact here.inside
  · obtain ⟨wrote, later⟩ := succeeds healthy thrives (fits.mp room)
    obtain ⟨more, _, reached⟩ := succeeded wrote
    exact ⟨wrote, reached.tryFinish_succeeds healthy later⟩
  · obtain ⟨wrote, later⟩ := succeeds healthy thrives (fits.mp room)
    obtain ⟨more, rfl, reached⟩ := succeeded wrote
    rw [List.nil_append] at reached
    have ended : finished =
        ((written.2.tryFinish platform).1,
          (written.2.tryFinish platform).2.inner) :=
      EncryptWriter.finish_eq platform written.2
    obtain ⟨segment, message, accepted, regular⟩ :=
      reached.message_of_tryFinish
        (reached.tryFinish_succeeds healthy later)
    have whole := feeds.balance
    rw [List.nil_append] at whole
    refine ⟨encryptor.state.context, more.map Prod.fst ++ [segment],
      header ▸ authentic, rfl, message.encryptsBlocks whole, ?_, ?_, ?_,
      fun unspared => ?_⟩
    · rw [total, List.length_append, List.length_map, List.length_map]
      rfl
    · rw [ended, accepted, header, List.append_assoc]
    · have start : writer.header.val.length = 74 :=
        writer.header.length_val
      have longer := message.run.length_flatten
      have width : segment.length = last.length + 32 :=
        message.last.framed.1
      have plain := congrArg List.length whole
      rw [List.length_append] at plain
      rw [List.length_map] at counted
      rw [List.length_append, List.flatten_append, List.flatten_singleton,
        List.length_append, start, longer, width, size]
      omega
    · rw [header, ← whole]
      refine emittedAlike_of_sealsStream agree started (regular ?_)
      rcases needed_last unspared with some | none
      · exact .inl some
      · exact .inr (List.map_eq_nil_iff.mp none)

/-- A sink that takes everything. -/
def openSink : Sink IoPayload where
  accepted := []
  script := []

set_option maxRecDepth 100000 in
/-- One full segment in one input is framed as two segments; in two inputs, it is
framed as the layout says. -/
theorem encryptWriter_sparesSegment :
    openPlatform.SealsAgree ∧ openPlatform.NeverFails ∧
      zeroRng.NeverFails ∧ openSink.Reliable ∧
      ∃ writer left layout,
        EncryptWriter.new openPlatform openSink zeroKey [] shortestSegments
              zeroRng =
            (.ok writer, left) ∧
          shortestSegments.plaintextLayout 32 = .ok layout ∧
          layout.segmentCount = 1 ∧
          (writer.writeInputs openPlatform [zeros 32]).1 = .ok () ∧
          ((writer.writeInputs openPlatform [zeros 32]).2.finish
            openPlatform).1 = .ok () ∧
          ((writer.writeInputs openPlatform [zeros 32]).2.finish
            openPlatform).2.accepted.length =
              layout.ciphertextLength + 32 ∧
          ((writer.writeInputs openPlatform
            [zeros 31, zeros 1]).2.finish openPlatform).2.accepted.length =
              layout.ciphertextLength := by
  refine ⟨transparent_sealsAgree, transparent_neverFails, fun _ => rfl, ?_,
    _, _, _, rfl, rfl, rfl, rfl, rfl, rfl, rfl⟩
  intro event member
  cases member

set_option maxRecDepth 100000 in
theorem encryptWriter_framing_example :
    ∃ writer left,
      EncryptWriter.new openPlatform openSink zeroKey [] shortestSegments
            zeroRng =
          (.ok writer, left) ∧
        (writer.writeInputs openPlatform [zeros 32, [], zeros 64]).1 =
          .ok () ∧
        ((writer.writeInputs openPlatform [zeros 32, [], zeros 64]).2.finish
          openPlatform).1 = .ok () := by
  obtain ⟨writer, left, created⟩ :
      ∃ writer left,
        EncryptWriter.new openPlatform openSink zeroKey [] shortestSegments
            zeroRng =
          (.ok writer, left) :=
    ⟨_, _, rfl⟩
  obtain ⟨layout, calculated, few⟩ :
      ∃ layout,
        shortestSegments.plaintextLayout 96 = .ok layout ∧
          layout.segmentCount = 3 :=
    ⟨_, rfl, rfl⟩
  have reliable : openSink.Reliable := by
    intro event member
    cases member
  have framing := encryptWriter_framing transparent_sealsAgree
    transparent_neverFails (fun _ => rfl) reliable created
    [zeros 32, [], zeros 64] calculated
  refine ⟨writer, left, created, framing.1.mpr ?_⟩
  rw [few]
  decide

end FastFloe
