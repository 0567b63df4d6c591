import FastFloe.SealedStreams
import FastFloe.Library.Staging
import FastFloe.Io

namespace FastFloe

open Rust

/-!
# The encrypting writer stages blocks

An open `EncryptWriter` has emitted full blocks and holds back up to one more in
its buffer.  A `write` takes one offer of the staging area, whichever of its four
exits it takes; a failure leaves it poisoned, with a part of the next segments
handed to the sink.
-/

namespace EncryptWriter

/-- The plaintext that a staging buffer holds back. -/
inductive Holds (buffer : SegmentBuffer) : Bytes → Prop where
  | nothing
      {error : Error}
      (idle : buffer.plaintextLength = .error (.err error)) :
      Holds buffer []
  | pending
      {held : Bytes}
      (holds : buffer.HoldsPlaintext held)
      (some : held ≠ []) :
      Holds buffer held

/-- An open writer that has handed these blocks to its sink, each segment paired
with its plaintext, after `sent`. -/
structure Emitted (platform : Platform) (context : MessageContext)
    (origin : EncryptionState) (sent : Bytes) (blocks : List (Bytes × Bytes))
    (writer : EncryptWriter) : Prop where
  opened : writer.status = .opened
  ready : origin.Ready platform context
  encryptor :
    ∃ encryptor,
      writer.encryptor = some encryptor ∧
        encryptor.At platform context blocks.length ∧
        origin.SealsBlocks platform 0 blocks encryptor.state
  parameters : writer.buffer.parameters = context.parameters
  sized : writer.buffer.Sized
  accepted :
    writer.inner.accepted = sent ++ (blocks.map Prod.fst).flatten

/-- An open writer that also holds plaintext back. -/
structure Stages (platform : Platform) (context : MessageContext)
    (origin : EncryptionState) (sent : Bytes) (blocks : List (Bytes × Bytes))
    (held : Bytes) (writer : EncryptWriter) : Prop
    extends Emitted platform context origin sent blocks writer where
  holds : Holds writer.buffer held

/-- A writer that failed on the way to emitting the upcoming blocks. -/
structure Stopped (platform : Platform) (context : MessageContext)
    (sent : Bytes) (blocks : List (Bytes × Bytes)) (upcoming : List Bytes)
    (writer : EncryptWriter) : Prop where
  failed : writer.status = .failed
  partly :
    ∃ more,
      SealedRun platform context 0 (blocks ++ more) ∧
        more.map Prod.snd <+: upcoming ∧
        writer.inner.accepted <+:
          sent ++ ((blocks ++ more).map Prod.fst).flatten

/-- Writers that differ in their buffers at most. -/
structure Beside (writer other : EncryptWriter) : Prop where
  inner : writer.inner = other.inner
  encryptor : writer.encryptor = other.encryptor

/-- A buffer that holds nothing back is not prepared with plaintext. -/
theorem Holds.current
    {buffer : SegmentBuffer}
    {held : Bytes}
    (holds : Holds buffer held) :
    buffer.state = .plaintext held.length ∨
      held = [] ∧ ∀ length, buffer.state ≠ .plaintext length := by
  cases holds with
  | nothing idle =>
      refine .inr ⟨rfl, fun length prepared => ?_⟩
      simp only [SegmentBuffer.plaintextLength, prepared] at idle
      cases idle
  | pending holds _ => exact .inl holds.state

/-- `extend_plaintext` behind the plaintext that is held back. -/
theorem Holds.extendPlaintext_eq
    {buffer : SegmentBuffer}
    {held input bytes : Bytes}
    {copied : Nat}
    (holds : Holds buffer held)
    (bounded :
      held.length ≤ buffer.parameters.plaintextSegmentLength)
    (counted :
      min input.length
          (buffer.parameters.plaintextSegmentLength - held.length) =
        copied)
    (written :
      (copyRange buffer.bytes (segmentPayloadOffset + held.length)
          (segmentPayloadOffset + held.length + copied)
          (input.take copied) : Result Bytes) =
        .ok bytes) :
    buffer.extendPlaintext input =
      (.ok copied,
        { buffer with bytes, state := .plaintext (held.length + copied) }) := by
  have left : (sub buffer.parameters.plaintextSegmentLength held.length :
      Result Nat) =
        .ok (buffer.parameters.plaintextSegmentLength - held.length) :=
    sub_eq bounded
  rcases holds.current with state | ⟨rfl, unprepared⟩
  · simp only [SegmentBuffer.extendPlaintext, state, left, counted, written]
  · rw [List.length_nil] at left counted written ⊢
    cases state : buffer.state with
    | plaintext length => exact (unprepared length state).elim
    | empty =>
        simp only [SegmentBuffer.extendPlaintext, state, left, counted,
          written]
    | ciphertext length =>
        simp only [SegmentBuffer.extendPlaintext, state, left, counted,
          written]

/-- What is held back is the beginning of the buffer's payload. -/
theorem Holds.content
    {buffer : SegmentBuffer}
    {held : Bytes}
    (holds : Holds buffer held) :
    (buffer.bytes.drop segmentPayloadOffset).take held.length = held ∧
      held.length ≤ buffer.parameters.plaintextSegmentLength := by
  cases holds with
  | nothing _ => exact ⟨rfl, Nat.zero_le _⟩
  | pending holds _ => exact ⟨holds.content, holds.fits⟩

/-- Topping a buffer up as far as one block goes. -/
theorem Holds.extendPlaintext_spec
    {buffer : SegmentBuffer}
    {held : Bytes}
    (holds : Holds buffer held)
    (input : Bytes)
    (sized : buffer.Sized) :
    ∃ next,
      buffer.extendPlaintext input =
          (.ok (min input.length
              (buffer.parameters.plaintextSegmentLength - held.length)),
            next) ∧
        next.HoldsPlaintext
          (held ++ input.take
            (buffer.parameters.plaintextSegmentLength - held.length)) ∧
        next.parameters = buffer.parameters := by
  have full := buffer.parameters.plaintextSegmentLength_add
  have storage := sized
  unfold SegmentBuffer.Sized at storage
  obtain ⟨content, bounded⟩ := holds.content
  generalize counted :
    min input.length
      (buffer.parameters.plaintextSegmentLength - held.length) = copied
  have same : input.take
      (buffer.parameters.plaintextSegmentLength - held.length) =
        input.take copied := by
    rw [List.take_eq_take_iff]
    omega
  have chunk : (input.take copied).length = copied := by
    rw [List.length_take]
    omega
  have inside : segmentPayloadOffset + held.length + copied ≤
      buffer.bytes.length := by
    rw [segmentPayloadOffset_eq]
    omega
  have length : (held ++ input.take copied).length = held.length + copied := by
    rw [List.length_append, chunk]
  have written :=
    holds.extendPlaintext_eq bounded counted
      (copyRange_eq (Nat.le_add_right _ _) inside (by
        rw [chunk, Nat.add_sub_cancel_left]))
  refine ⟨_, written, ?_, rfl⟩
  rw [same]
  refine ⟨?_, ?_, ?_, ?_⟩
  · exact (length_writeBack (by rw [chunk]; exact inside)).trans sized
  · rw [length]
  · have shape :
        (writeBack buffer.bytes (segmentPayloadOffset + held.length)
            (input.take copied)).drop segmentPayloadOffset =
          held ++ input.take copied ++
            buffer.bytes.drop
              (segmentPayloadOffset + held.length + copied) := by
      rw [writeBack, List.append_assoc, chunk,
        List.drop_append_of_le_length (by
          rw [List.length_take]
          omega), List.drop_take, Nat.add_sub_cancel_left, content,
        ← List.append_assoc]
    exact (congrArg _ shape).trans List.take_left
  · rw [length]
    change held.length + copied ≤ buffer.parameters.plaintextSegmentLength
    omega

section Emissions

variable {platform : Platform} {context : MessageContext}
  {origin : EncryptionState} {sent held : Bytes}
  {blocks : List (Bytes × Bytes)} {writer : EncryptWriter}

/-- Handing the segment in the buffer to the sink sends it, or fails after a part
of it. -/
theorem emitBuffer_spec
    {segment : Bytes}
    (holds : writer.buffer.HoldsCiphertext segment) :
    ∃ inner,
      (writer.emitBuffer = (.ok (), { writer with inner }) ∧
          inner.accepted = writer.inner.accepted ++ segment) ∨
        ((∃ error,
            writer.emitBuffer =
              (.error (.err error), { writer with inner })) ∧
          inner.accepted <+: writer.inner.accepted ++ segment) := by
  obtain ⟨taken, accepted, part, returns, all⟩ :=
    writer.inner.writeAll_spec segment
  cases wrote : writer.inner.writeAll segment with
  | mk result inner =>
  rw [wrote] at accepted returns all
  refine ⟨inner, ?_⟩
  cases result with
  | ok value =>
      left
      refine ⟨?_, ?_⟩
      · simp only [emitBuffer, holds.ciphertext_eq, Outcome.mapErr, wrote]
      · rw [accepted, all rfl]
  | error stop =>
      obtain ⟨error, rfl⟩ := Outcome.Returns.stop_eq_err returns
      right
      refine ⟨⟨error, ?_⟩, ?_⟩
      · simp only [emitBuffer, holds.ciphertext_eq, Outcome.mapErr, wrote]
      · rw [accepted]
        exact (List.prefix_append_right_inj _).mpr part

/-- The writer after one more block was emitted. -/
theorem Emitted.next
    {next : EncryptWriter}
    {encryptor : Encryptor}
    {state : EncryptionState}
    {block segment : Bytes}
    (emitted : writer.Emitted platform context origin sent blocks)
    (here : encryptor.At platform context blocks.length)
    (chain : origin.SealsBlocks platform 0 blocks encryptor.state)
    (allowed : PositionAllows blocks.length .nonFinal)
    (step :
      encryptor.state.sealNext platform block blocks.length .nonFinal =
        (some segment, state))
    (ready : state.Ready platform context)
    (opened : next.status = .opened)
    (present : next.encryptor = some (encryptor.stepped state))
    (kept : next.buffer.parameters = writer.buffer.parameters)
    (sized : next.buffer.Sized)
    (accepted : next.inner.accepted = writer.inner.accepted ++ segment) :
    next.Emitted platform context origin sent
      (blocks ++ [(segment, block)]) := by
  refine ⟨opened, emitted.ready, ⟨_, present, ?_, ?_⟩,
    kept.trans emitted.parameters, sized, ?_⟩
  · rw [List.length_append]
    exact here.stepped allowed ready
  · refine chain.snoc ?_ ?_
    · rw [Nat.zero_add]
      exact allowed
    · rw [Nat.zero_add]
      exact step
  · rw [accepted, emitted.accepted, List.append_assoc, List.map_append,
      List.flatten_append]
    simp only [List.map_cons, List.map_nil, List.flatten_singleton]

/-- A failure before anything of the next block was handed over. -/
theorem Emitted.stopped
    {next : EncryptWriter}
    (emitted : writer.Emitted platform context origin sent blocks)
    (failed : next.status = .failed)
    (accepted : next.inner.accepted = writer.inner.accepted)
    (upcoming : List Bytes) :
    next.Stopped platform context sent blocks upcoming := by
  obtain ⟨_, _, _, chain⟩ := emitted.encryptor
  refine ⟨failed, [], ?_, List.nil_prefix, [], ?_⟩
  · rw [List.append_nil]
    exact chain.run emitted.ready
  · rw [List.append_nil, accepted, emitted.accepted, List.append_nil]

/-- A failure while the next block was handed over. -/
theorem Emitted.stoppedIn
    {next : EncryptWriter}
    {block segment : Bytes}
    (emitted : writer.Emitted platform context origin sent blocks)
    (allowed : PositionAllows blocks.length .nonFinal)
    (seals : context.Seals platform blocks.length .nonFinal block segment)
    (failed : next.status = .failed)
    (accepted : next.inner.accepted <+: writer.inner.accepted ++ segment) :
    next.Stopped platform context sent blocks [block] := by
  obtain ⟨_, _, _, chain⟩ := emitted.encryptor
  have run := chain.run emitted.ready
  refine ⟨failed, [(segment, block)], ?_, List.prefix_refl _, ?_⟩
  · refine run.snoc ?_ ?_
    · rw [Nat.zero_add]
      exact allowed
    · rw [Nat.zero_add]
      exact seals
  · rw [List.map_append, List.flatten_append, ← List.append_assoc,
      ← emitted.accepted]
    simpa using accepted

/-- `emit_non_final` seals the block that is held back and hands it over. -/
theorem Emitted.emitNonFinal_spec
    (emitted : writer.Emitted platform context origin sent blocks)
    (holds : writer.buffer.HoldsPlaintext held) :
    ∃ next,
      (∃ segment,
          writer.emitNonFinal platform = (.ok (), next) ∧
            next.Emitted platform context origin sent
              (blocks ++ [(segment, held)]) ∧
            Holds next.buffer []) ∨
        ((∃ error,
            writer.emitNonFinal platform = (.error (.err error), next)) ∧
          next.Stopped platform context sent blocks [held]) := by
  obtain ⟨encryptor, present, here, chain⟩ := emitted.encryptor
  rcases here.encryptNonFinalSegmentInPlace_spec writer.buffer
      (Kdf.FaultOf.refl platform.kdfExpand) with
    ⟨plaintext, segment, state, sealedBuffer, allowed, content, step, ready,
      result, kept, settled⟩ | ⟨error, state, failed, _, _, result, _, _⟩
  · rw [holds.plaintext_eq] at content
    cases content
    have result' :
        encryptor.encryptNonFinalSegmentInPlace platform writer.buffer =
          (.ok segment, encryptor.stepped state, sealedBuffer) :=
      result
    have full := settled emitted.sized
    let between : EncryptWriter :=
      { writer with
        encryptor := some (encryptor.stepped state), buffer := sealedBuffer }
    obtain ⟨inner, ⟨emittedAll, accepted⟩ |
        ⟨⟨error, refused⟩, accepted⟩⟩ :=
      @emitBuffer_spec between segment full
    · refine ⟨{ between with inner }, .inl ⟨segment, ?_, ?_, ?_⟩⟩
      · simp only [between] at emittedAll
        simp only [emitNonFinal, poisonOnError, present, result', emittedAll,
          between]
      · exact emitted.next here chain allowed step ready emitted.opened rfl
          kept full.sized accepted
      · refine @Holds.nothing _ .invalidBufferState ?_
        simp only [between, SegmentBuffer.plaintextLength, full.state]
    · refine ⟨{ between with inner, status := .failed },
        .inr ⟨⟨error, ?_⟩, ?_⟩⟩
      · simp only [between] at refused
        simp only [emitNonFinal, poisonOnError, present, result', refused,
          between]
      · have seals :=
          (EncryptionState.sealNext_spec held blocks.length .nonFinal
            (Kdf.FaultOf.refl platform.kdfExpand) here.ready).2 segment
            (by rw [step])
        exact emitted.stoppedIn allowed seals rfl accepted
  · have result' :
        encryptor.encryptNonFinalSegmentInPlace platform writer.buffer =
          (.error (.err error), { encryptor with state }, failed) :=
      result
    let next : EncryptWriter :=
      { writer with
        encryptor := some { encryptor with state }
        buffer := failed
        status := .failed }
    refine ⟨next, .inr ⟨⟨encryptionError error, ?_⟩,
      @Emitted.stopped _ _ _ _ _ _ next emitted rfl rfl _⟩⟩
    simp only [emitNonFinal, poisonOnError, present, result', Outcome.mapErr,
      next]

/-- `write_segment_direct` seals a full block of the caller's input and hands it
over. -/
theorem Emitted.writeSegmentDirect_spec
    {chunk : Bytes}
    (agree : platform.SealsAgree)
    (emitted : writer.Emitted platform context origin sent blocks) :
    ∃ next,
      (∃ segment,
          writer.writeSegmentDirect platform chunk =
              (.ok chunk.length, next) ∧
            next.Emitted platform context origin sent
              (blocks ++ [(segment, chunk)]) ∧
            Holds next.buffer []) ∨
        ((∃ error,
            writer.writeSegmentDirect platform chunk =
              (.error (.err error), next)) ∧
          next.Stopped platform context sent blocks [chunk]) := by
  obtain ⟨encryptor, present, here, chain⟩ := emitted.encryptor
  rcases here.encryptNonFinalSegmentInto_spec chunk writer.buffer.bytes
      (Kdf.FaultOf.refl platform.kdfExpand) agree with
    ⟨segment, state, allowed, step, length, room, ready, result⟩ |
      ⟨error, state, failed, _, _, result, _⟩
  · have result' :
        encryptor.encryptNonFinalSegmentInto platform chunk
            writer.buffer.bytes =
          (.ok segment.length, encryptor.stepped state,
            segment ++ writer.buffer.bytes.drop segment.length) :=
      result
    let marked : SegmentBuffer :=
      (writer.buffer.withRaw
        (segment ++ writer.buffer.bytes.drop segment.length)).markCiphertext
        segment.length
    have sized : marked.Sized := by
      have length :
          (segment ++ writer.buffer.bytes.drop segment.length).length =
            writer.buffer.bytes.length := by
        rw [List.length_append, List.length_drop]
        omega
      exact emitted.sized.withRaw length
    have full : marked.HoldsCiphertext segment :=
      ⟨sized, rfl, List.take_left⟩
    let between : EncryptWriter :=
      { writer with
        encryptor := some (encryptor.stepped state), buffer := marked }
    obtain ⟨inner, ⟨emittedAll, accepted⟩ |
        ⟨⟨error, refused⟩, accepted⟩⟩ :=
      @emitBuffer_spec between segment full
    · refine ⟨{ between with inner }, .inl ⟨segment, ?_, ?_, ?_⟩⟩
      · simp only [between, marked] at emittedAll
        simp only [writeSegmentDirect, poisonOnError, present, result',
          emittedAll, between, marked]
      · exact emitted.next here chain allowed step ready emitted.opened rfl
          rfl full.sized accepted
      · exact @Holds.nothing _ .invalidBufferState rfl
    · refine ⟨{ between with inner, status := .failed },
        .inr ⟨⟨error, ?_⟩, ?_⟩⟩
      · simp only [between, marked] at refused
        simp only [writeSegmentDirect, poisonOnError, present, result',
          refused, between, marked]
      · have seals :=
          (EncryptionState.sealNext_spec chunk blocks.length .nonFinal
            (Kdf.FaultOf.refl platform.kdfExpand) here.ready).2 segment
            (by rw [step])
        exact emitted.stoppedIn allowed seals rfl accepted
  · have result' :
        encryptor.encryptNonFinalSegmentInto platform chunk
            writer.buffer.bytes =
          (.error (.err error), { encryptor with state }, failed) :=
      result
    let next : EncryptWriter :=
      { writer with
        encryptor := some { encryptor with state }
        buffer := writer.buffer.withRaw failed
        status := .failed }
    refine ⟨next, .inr ⟨⟨encryptionError error, ?_⟩,
      @Emitted.stopped _ _ _ _ _ _ next emitted rfl rfl _⟩⟩
    simp only [writeSegmentDirect, poisonOnError, present, result',
      Outcome.mapErr, next]

/-- No more than a block is held back. -/
theorem Stages.length_held
    (stages : writer.Stages platform context origin sent blocks held) :
    held.length ≤ context.parameters.plaintextSegmentLength := by
  cases stages.holds with
  | nothing _ => exact Nat.zero_le _
  | pending holds _ =>
      rw [← stages.parameters]
      exact holds.fits

/-- The size of a block. -/
theorem Emitted.plaintextSegmentLength_eq
    (emitted : writer.Emitted platform context origin sent blocks) :
    writer.parameters.plaintextSegmentLength =
      context.parameters.plaintextSegmentLength := by
  rw [← emitted.parameters]
  rfl

/-- `has_pending` tells whether plaintext is held back. -/
theorem Stages.hasPending_iff
    (stages : writer.Stages platform context origin sent blocks held) :
    writer.hasPending = true ↔ held ≠ [] := by
  cases stages.holds with
  | nothing idle => simp [hasPending, idle]
  | pending holds some => simp [hasPending, holds.plaintextLength_eq, some]

/-- `extend_plaintext` tops the block up that is held back. -/
theorem Stages.extend_spec
    {input : Bytes}
    (stages : writer.Stages platform context origin sent blocks held)
    (some :
      held ++ input.take
        (context.parameters.plaintextSegmentLength - held.length) ≠ []) :
    ∃ next,
      writer.extend input =
          (.ok (min input.length
              (context.parameters.plaintextSegmentLength - held.length)),
            next) ∧
        next.Stages platform context origin sent blocks
          (held ++ input.take
            (context.parameters.plaintextSegmentLength - held.length)) ∧
        next.Beside writer := by
  obtain ⟨next, result, holds, same⟩ :=
    stages.holds.extendPlaintext_spec input stages.sized
  rw [stages.parameters] at result holds
  let extended : EncryptWriter := { writer with buffer := next }
  refine ⟨extended, ?_, ⟨⟨stages.opened, stages.ready, stages.encryptor,
    same.trans stages.parameters, holds.sized, stages.accepted⟩,
    .pending holds some⟩, rfl, rfl⟩
  simp only [extend, result, Outcome.mapErr, extended]

/-- A failure that may have come earlier. -/
theorem Stopped.weaken
    {upcoming more : List Bytes}
    (stopped : writer.Stopped platform context sent blocks upcoming) :
    writer.Stopped platform context sent blocks (upcoming ++ more) := by
  obtain ⟨done, run, only, accepted⟩ := stopped.partly
  exact ⟨stopped.failed, done, run,
    only.trans (List.prefix_append _ _), accepted⟩

/-- A failure after one more block was emitted. -/
theorem Stopped.after
    {upcoming : List Bytes}
    {block segment : Bytes}
    (stopped :
      writer.Stopped platform context sent (blocks ++ [(segment, block)])
        upcoming) :
    writer.Stopped platform context sent blocks (block :: upcoming) := by
  obtain ⟨done, run, only, accepted⟩ := stopped.partly
  rw [List.append_assoc] at run accepted
  refine ⟨stopped.failed, (segment, block) :: done, run, ?_, accepted⟩
  exact (List.prefix_cons_inj block).mpr only

/-- The direct path takes the first full block of the input. -/
theorem Emitted.writeFirstSegment_spec
    {input : Bytes}
    {size : Nat}
    (agree : platform.SealsAgree)
    (emitted : writer.Emitted platform context origin sent blocks)
    (enough : size ≤ input.length) :
    ∃ next,
      (∃ segment,
          writer.writeFirstSegment platform input size = (.ok size, next) ∧
            next.Stages platform context origin sent
              (blocks ++ [(segment, input.take size)]) []) ∨
        ((∃ error,
            writer.writeFirstSegment platform input size =
              (.error (.err error), next)) ∧
          next.Stopped platform context sent blocks [input.take size]) := by
  have chunk : (slice input 0 size : IoResult Bytes) =
      .ok (input.take size) :=
    slice_zero enough
  have length : (input.take size).length = size := by
    rw [List.length_take, Nat.min_eq_left enough]
  obtain ⟨next, ⟨segment, result, nextEmitted, idle⟩ |
      ⟨⟨error, result⟩, stopped⟩⟩ :=
    @Emitted.writeSegmentDirect_spec _ _ _ _ _ _ (input.take size) agree
      emitted
  · rw [length] at result
    refine ⟨next, .inl ⟨segment, ?_, ⟨nextEmitted, idle⟩⟩⟩
    simp only [writeFirstSegment, chunk, result]
  · refine ⟨next, .inr ⟨⟨error, ?_⟩, stopped⟩⟩
    simp only [writeFirstSegment, chunk, result]

/-- What one `write` of an open writer may do: it takes an offer of the staging
area, or it fails on the way to emitting the blocks of that offer. -/
inductive WriteStep (platform : Platform) (context : MessageContext)
    (origin : EncryptionState) (sent : Bytes) (blocks : List (Bytes × Bytes))
    (outcome : Staging.Outcome UInt8) :
    IoResult Nat × EncryptWriter → Prop where
  | taken
      {next : EncryptWriter} {more : List (Bytes × Bytes)}
      (stages :
        next.Stages platform context origin sent (blocks ++ more)
          outcome.held)
      (emitted : more.map Prod.snd = outcome.blocks) :
      WriteStep platform context origin sent blocks outcome
        (.ok outcome.count, next)
  | stopped
      {next : EncryptWriter} {error : IoError IoPayload}
      (stopped :
        next.Stopped platform context sent blocks outcome.blocks) :
      WriteStep platform context origin sent blocks outcome
        (.error (.err error), next)

/-- A full block of input passes an empty buffer by. -/
theorem Stages.writeOpen_eq_direct
    {input : Bytes}
    (stages : writer.Stages platform context origin sent blocks [])
    (enough :
      context.parameters.plaintextSegmentLength ≤ input.length) :
    writer.writeOpen platform input =
      writer.writeFirstSegment platform input
        context.parameters.plaintextSegmentLength := by
  have idle : writer.hasPending = false := by
    simpa using stages.hasPending_iff
  simp only [writeOpen, stages.toEmitted.plaintextSegmentLength_eq, enough,
    idle, Bool.false_eq_true, not_false_eq_true, and_self, ↓reduceIte]

theorem Stages.writeOpen_direct
    {input : Bytes}
    (agree : platform.SealsAgree)
    (stages : writer.Stages platform context origin sent blocks [])
    (enough :
      context.parameters.plaintextSegmentLength ≤ input.length) :
    WriteStep platform context origin sent blocks
      (Staging.offer context.parameters.plaintextSegmentLength [] input)
      (writer.writeOpen platform input) := by
  have offered :
      Staging.offer context.parameters.plaintextSegmentLength [] input =
        ⟨context.parameters.plaintextSegmentLength,
          [input.take context.parameters.plaintextSegmentLength], []⟩ := by
    simp only [Staging.offer, enough, and_self, ↓reduceIte]
  rw [stages.writeOpen_eq_direct enough, offered]
  obtain ⟨next, ⟨segment, result, nextStages⟩ |
      ⟨⟨error, result⟩, stopped⟩⟩ :=
    stages.toEmitted.writeFirstSegment_spec agree enough
  · rw [result]
    exact @WriteStep.taken _ _ _ _ _
      ⟨_, [input.take context.parameters.plaintextSegmentLength], []⟩ next
      [(segment, _)] nextStages rfl
  · rw [result]
    exact .stopped stopped

/-- Input that does not pass by tops up a buffer that is not full. -/
theorem Stages.writeOpen_topUp
    {input : Bytes}
    (stages : writer.Stages platform context origin sent blocks held)
    (some : input ≠ [])
    (behind :
      ¬ (held = [] ∧
        context.parameters.plaintextSegmentLength ≤ input.length))
    (room : held.length < context.parameters.plaintextSegmentLength) :
    WriteStep platform context origin sent blocks
        (Staging.offer context.parameters.plaintextSegmentLength held input)
        (writer.writeOpen platform input) ∧
      ∃ count next,
        writer.writeOpen platform input = (.ok count, next) ∧
          next.Beside writer := by
  have wanted := List.length_pos_iff.mpr some
  have staged :
      ¬ (input.length ≥ context.parameters.plaintextSegmentLength ∧
        ¬ writer.hasPending = true) := by
    rw [stages.hasPending_iff, ne_eq, not_not]
    exact fun both => behind ⟨both.2, both.1⟩
  have topped : held ++ input.take
      (context.parameters.plaintextSegmentLength - held.length) ≠ [] := by
    refine List.ne_nil_of_length_pos ?_
    rw [List.length_append, List.length_take]
    omega
  obtain ⟨next, result, nextStages, beside⟩ := stages.extend_spec topped
  have offered :
      Staging.offer context.parameters.plaintextSegmentLength held input =
        ⟨min input.length
            (context.parameters.plaintextSegmentLength - held.length), [],
          held ++ input.take
            (context.parameters.plaintextSegmentLength - held.length)⟩ := by
    simp only [Staging.offer, behind, room, ↓reduceIte]
  obtain ⟨copied, counted⟩ :
      ∃ copied,
        min input.length
            (context.parameters.plaintextSegmentLength - held.length) =
          copied + 1 :=
    ⟨min input.length
      (context.parameters.plaintextSegmentLength - held.length) - 1, by
        omega⟩
  rw [counted] at result offered
  have answer : writer.writeOpen platform input = (.ok (copied + 1), next) := by
    simp only [writeOpen, stages.toEmitted.plaintextSegmentLength_eq, staged,
      ↓reduceIte, result]
  refine ⟨?_, _, next, answer, beside⟩
  rw [answer, offered]
  refine @WriteStep.taken _ _ _ _ _ ⟨copied + 1, [], _⟩ next [] ?_ rfl
  rw [List.append_nil]
  exact nextStages

/-- Input that finds a full buffer has it emitted first. -/
theorem Stages.writeOpen_eq_full
    {input : Bytes}
    (stages : writer.Stages platform context origin sent blocks held)
    (started : held ≠ [])
    (full : held.length = context.parameters.plaintextSegmentLength) :
    ∃ between : EncryptWriter,
      between.Stages platform context origin sent blocks held ∧
        between.buffer.HoldsPlaintext held ∧ between.Beside writer ∧
        (∀ next,
          between.emitNonFinal platform = (.ok (), next) →
            writer.writeOpen platform input =
              if context.parameters.plaintextSegmentLength ≤ input.length then
                next.writeFirstSegment platform input
                  context.parameters.plaintextSegmentLength
              else
                next.extend input) ∧
        ∀ error next,
          between.emitNonFinal platform = (.error (.err error), next) →
            writer.writeOpen platform input =
              (.error (.err error), next) := by
  have busy : writer.hasPending = true := stages.hasPending_iff.mpr started
  have own := stages.toEmitted.plaintextSegmentLength_eq
  obtain ⟨between, result, betweenStages, beside⟩ :=
    @Stages.extend_spec _ _ _ _ _ _ _ input stages (by
      simp only [ne_eq, List.append_eq_nil_iff, started, false_and,
        not_false_eq_true])
  rw [full, Nat.sub_self, Nat.min_zero] at result
  rw [full, Nat.sub_self, List.take_zero, List.append_nil] at betweenStages
  have prepared : between.buffer.HoldsPlaintext held := by
    cases betweenStages.holds with
    | nothing _ => exact (started rfl).elim
    | pending holds _ => exact holds
  refine ⟨between, betweenStages, prepared, beside, fun next emitted => ?_,
    fun error next refused => ?_⟩
  · simp only [writeOpen, own, busy, not_true_eq_false, and_false,
      ↓reduceIte, result, emitted, ge_iff_le]
  · simp only [writeOpen, own, busy, not_true_eq_false, and_false,
      ↓reduceIte, result, refused]

theorem Stages.writeOpen_full
    {input : Bytes}
    (agree : platform.SealsAgree)
    (stages : writer.Stages platform context origin sent blocks held)
    (some : input ≠ [])
    (started : held ≠ [])
    (full : held.length = context.parameters.plaintextSegmentLength) :
    WriteStep platform context origin sent blocks
      (Staging.offer context.parameters.plaintextSegmentLength held input)
      (writer.writeOpen platform input) := by
  have noRoom :
      ¬ held.length < context.parameters.plaintextSegmentLength := by
    omega
  obtain ⟨between, betweenStages, prepared, _, succeeds, fails⟩ :=
    @Stages.writeOpen_eq_full _ _ _ _ _ _ _ input stages started full
  obtain ⟨next, ⟨segment, emitted, nextEmitted, idle⟩ |
      ⟨⟨error, refused⟩, stopped⟩⟩ :=
    betweenStages.toEmitted.emitNonFinal_spec prepared
  · rw [succeeds next emitted]
    by_cases enough :
        context.parameters.plaintextSegmentLength ≤ input.length
    · have offered :
          Staging.offer context.parameters.plaintextSegmentLength held
              input =
            ⟨context.parameters.plaintextSegmentLength,
              [held, input.take context.parameters.plaintextSegmentLength],
              []⟩ := by
        simp only [Staging.offer, started, noRoom, enough, false_and,
          ↓reduceIte]
      rw [if_pos enough, offered]
      obtain ⟨last, ⟨lastSegment, written, lastStages⟩ |
          ⟨⟨error, refused⟩, stopped⟩⟩ :=
        nextEmitted.writeFirstSegment_spec agree enough
      · rw [List.append_assoc] at lastStages
        rw [written]
        exact @WriteStep.taken _ _ _ _ _ ⟨_, [held, _], []⟩ last
          [(segment, held), (lastSegment, _)] lastStages rfl
      · rw [refused]
        exact .stopped stopped.after
    · have offered :
          Staging.offer context.parameters.plaintextSegmentLength held
              input =
            ⟨input.length, [held], input⟩ := by
        simp only [Staging.offer, started, noRoom, enough, false_and,
          ↓reduceIte]
      have whole : input.take context.parameters.plaintextSegmentLength =
          input :=
        List.take_of_length_le (by omega)
      obtain ⟨last, extended, lastStages, _⟩ :=
        @Stages.extend_spec _ _ _ _ _ _ _ input ⟨nextEmitted, idle⟩ (by
          rw [List.nil_append, List.length_nil, Nat.sub_zero, whole]
          exact some)
      rw [List.length_nil, Nat.sub_zero, Nat.min_eq_left (by omega)]
        at extended
      rw [List.length_nil, Nat.sub_zero, List.nil_append, whole]
        at lastStages
      rw [if_neg enough, extended, offered]
      exact @WriteStep.taken _ _ _ _ _ ⟨_, [held], input⟩ last
        [(segment, held)] lastStages rfl
  · -- Whatever is behind the block held back, nothing of it was emitted.
    obtain ⟨more, shape⟩ : ∃ more,
        (Staging.offer context.parameters.plaintextSegmentLength held
          input).blocks = [held] ++ more := by
      by_cases enough :
          context.parameters.plaintextSegmentLength ≤ input.length
      · exact ⟨[input.take context.parameters.plaintextSegmentLength], by
          simp only [Staging.offer, started, noRoom, enough, false_and,
            ↓reduceIte, List.cons_append, List.nil_append]⟩
      · exact ⟨[], by
          simp only [Staging.offer, started, noRoom, enough, false_and,
            ↓reduceIte, List.append_nil]⟩
    rw [fails error next refused]
    refine .stopped ?_
    rw [shape]
    exact stopped.weaken

/-- An open writer writes what is not empty. -/
theorem Stages.write_eq_writeOpen
    {input : Bytes}
    (stages : writer.Stages platform context origin sent blocks held)
    (some : input ≠ []) :
    writer.write platform input = writer.writeOpen platform input := by
  simp only [write, some, ↓reduceIte, stages.opened]

/-- A `write` of an open writer takes one offer of the staging area, or fails on
the way to emitting its blocks. -/
theorem Stages.write_step
    {input : Bytes}
    (agree : platform.SealsAgree)
    (stages : writer.Stages platform context origin sent blocks held)
    (some : input ≠ []) :
    WriteStep platform context origin sent blocks
      (Staging.offer context.parameters.plaintextSegmentLength held input)
      (writer.write platform input) := by
  have bounds := context.parameters.segmentLength_bounds
  have length := stages.length_held
  rw [stages.write_eq_writeOpen some]
  by_cases direct :
      held = [] ∧ context.parameters.plaintextSegmentLength ≤ input.length
  · obtain ⟨rfl, enough⟩ := direct
    exact stages.writeOpen_direct agree enough
  by_cases room : held.length < context.parameters.plaintextSegmentLength
  · exact (stages.writeOpen_topUp some direct room).1
  · exact stages.writeOpen_full agree some
      (List.ne_nil_of_length_pos (by omega)) (by omega)

/-! ## Finishing -/

/-- What one `try_finish` of an open writer may do: the plaintext held back
becomes the final segment, or the call fails with at most that segment handed
over. -/
inductive FinishStep (platform : Platform) (context : MessageContext)
    (origin : EncryptionState) (sent : Bytes) (blocks : List (Bytes × Bytes))
    (held : Bytes) : IoResult Unit × EncryptWriter → Prop where
  | finished
      {next : EncryptWriter} {last state : EncryptionState} {segment : Bytes}
      (status : next.status = .finished)
      (ready : last.Ready platform context)
      (chain : origin.SealsBlocks platform 0 blocks last)
      (inside : blocks.length < aeadMaxSegments)
      (step :
        last.sealNext platform held blocks.length .final =
          (some segment, state))
      (accepted :
        next.inner.accepted =
          sent ++ ((blocks.map Prod.fst).flatten ++ segment)) :
      FinishStep platform context origin sent blocks held (.ok (), next)
  | stopped
      {next : EncryptWriter} {error : IoError IoPayload}
      (failed : next.status = .failed)
      (partly :
        next.inner.accepted <+: sent ++ (blocks.map Prod.fst).flatten ∨
          ∃ segment,
            context.Seals platform blocks.length .final held segment ∧
              next.inner.accepted <+:
                sent ++ ((blocks.map Prod.fst).flatten ++ segment)) :
      FinishStep platform context origin sent blocks held
        (.error (.err error), next)

/-- The final payload is what is held back, also when that is nothing. -/
theorem Stages.prepareFinal_spec
    (stages : writer.Stages platform context origin sent blocks held) :
    ∃ buffer,
      { writer with encryptor := none }.prepareFinal =
          (.ok (), { writer with encryptor := none, buffer }) ∧
        buffer.HoldsPlaintext held ∧
        buffer.parameters = writer.buffer.parameters := by
  cases stages.holds with
  | @nothing error idle =>
      have sized := stages.sized
      have total := writer.buffer.parameters.plaintextSegmentLength_add
      unfold SegmentBuffer.Sized at sized
      have sliced :
          (slice writer.buffer.bytes segmentPayloadOffset
              (segmentPayloadOffset + 0) : Result Bytes) =
            .ok [] := by
        rw [Nat.add_zero, slice_eq (Nat.le_refl _) (by
          rw [segmentPayloadOffset_eq]
          omega), Nat.sub_self, List.take_zero]
      refine ⟨{ writer.buffer with state := .plaintext 0 }, ?_,
        ⟨stages.sized, rfl, rfl, Nat.zero_le _⟩, rfl⟩
      simp only [prepareFinal, idle, SegmentBuffer.preparePlaintext,
        gt_iff_lt, Nat.not_lt_zero, ↓reduceIte, sliced]
      rfl
  | pending holds _ =>
      refine ⟨writer.buffer, ?_, holds, rfl⟩
      simp only [prepareFinal, holds.plaintextLength_eq]

/-- A `try_finish` of an open writer. -/
theorem Stages.tryFinish_step
    (stages : writer.Stages platform context origin sent blocks held) :
    FinishStep platform context origin sent blocks held
      (writer.tryFinish platform) := by
  obtain ⟨encryptor, present, here, chain⟩ := stages.encryptor
  obtain ⟨buffer, prepared, holds, same⟩ := stages.prepareFinal_spec
  have tries : writer.tryFinish platform =
      writer.poisonOnError (finishMessage platform) := by
    simp only [tryFinish, stages.opened]
  rw [tries]
  rcases here.encryptFinalSegmentInPlace_spec buffer
      (Kdf.FaultOf.refl platform.kdfExpand) with
    ⟨plaintext, segment, state, sealedBuffer, content, step, result, _,
      settled⟩ | ⟨error, state, failed, _, _, result, _, _⟩
  · rw [holds.plaintext_eq] at content
    cases content
    have result' :
        encryptor.encryptFinalSegmentInPlace platform buffer =
          (.ok segment, sealedBuffer) :=
      result
    have seals :=
      (EncryptionState.sealNext_spec held blocks.length .final
        (Kdf.FaultOf.refl platform.kdfExpand) here.ready).2 segment
        (by rw [step])
    have full := settled holds.sized
    let between : EncryptWriter :=
      { writer with encryptor := none, buffer := sealedBuffer }
    obtain ⟨inner, ⟨emittedAll, accepted⟩ | ⟨⟨error, refused⟩, accepted⟩⟩ :=
      @emitBuffer_spec between segment full
    · have whole : inner.accepted =
          sent ++ ((blocks.map Prod.fst).flatten ++ segment) := by
        rw [accepted, ← List.append_assoc, ← stages.accepted]
      simp only [between] at emittedAll
      obtain ⟨after, kept, flushed | ⟨error, unflushed⟩⟩ := inner.flush_spec
      · let next : EncryptWriter :=
          { between with inner := after, status := .finished }
        have answer : writer.poisonOnError (finishMessage platform) =
            (.ok (), next) := by
          simp only [poisonOnError, finishMessage, present, prepared, result',
            emittedAll, flushed, next, between]
        rw [answer]
        exact .finished rfl here.ready chain here.inside step
          (kept.trans whole)
      · let next : EncryptWriter :=
          { between with inner := after, status := .failed }
        have answer : writer.poisonOnError (finishMessage platform) =
            (.error (.err error), next) := by
          simp only [poisonOnError, finishMessage, present, prepared, result',
            emittedAll, unflushed, next, between]
        rw [answer]
        refine .stopped rfl (.inr ⟨segment, seals, [], ?_⟩)
        rw [List.append_nil]
        exact kept.trans whole
    · let next : EncryptWriter :=
        { between with inner, status := .failed }
      simp only [between] at refused
      have answer : writer.poisonOnError (finishMessage platform) =
          (.error (.err error), next) := by
        simp only [poisonOnError, finishMessage, present, prepared, result',
          refused, next, between]
      rw [answer]
      refine .stopped rfl (.inr ⟨segment, seals, ?_⟩)
      rw [← List.append_assoc, ← stages.accepted]
      exact accepted
  · have result' :
        encryptor.encryptFinalSegmentInPlace platform buffer =
          (.error (.err ⟨{ encryptor with state }, error⟩), failed) :=
      result
    let next : EncryptWriter :=
      { writer with encryptor := none, buffer := failed, status := .failed }
    have answer : writer.poisonOnError (finishMessage platform) =
        (.error (.err (encryptionError error)), next) := by
      simp only [poisonOnError, finishMessage, present, prepared, result',
        Outcome.mapErr, FinalEncryptError.intoError, next]
    rw [answer]
    refine .stopped rfl (.inl ⟨[], ?_⟩)
    rw [List.append_nil]
    exact stages.accepted

end Emissions

end EncryptWriter

end FastFloe
