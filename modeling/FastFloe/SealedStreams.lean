import FastFloe.OneShotEncryption
import FastFloe.SealedMessages

namespace FastFloe

open Rust

/-!
# The sealed stream of a plaintext

Behind the header, a message is decided by the state it starts from: a full
segment as long as more than one segment is left, and then the rest as the final
segment.  `encrypt` emits this stream, and so do the stream adapters.
-/

/-- The ciphertext that a state seals a plaintext to, from a position on. -/
inductive EncryptionState.SealsStream (platform : Platform) :
    EncryptionState → Nat → Bytes → Bytes → Prop where
  /-- What fits into one segment is the final one. -/
  | last {state next : EncryptionState} {position : Nat}
      {plaintext segment : Bytes}
      (inside : position < aeadMaxSegments)
      (step :
        state.sealNext platform plaintext position .final =
          (some segment, next)) :
      SealsStream platform state position plaintext segment
  /-- What does not fit starts with a full non-final segment. -/
  | more {state next : EncryptionState} {position : Nat}
      {plaintext segment later : Bytes}
      (longer :
        state.context.parameters.plaintextSegmentLength < plaintext.length)
      (allowed : PositionAllows position .nonFinal)
      (step :
        state.sealNext platform
            (plaintext.take state.context.parameters.plaintextSegmentLength)
            position .nonFinal =
          (some segment, next))
      (rest :
        SealsStream platform next (position + 1)
          (plaintext.drop state.context.parameters.plaintextSegmentLength)
          later) :
      SealsStream platform state position plaintext (segment ++ later)

section Streams

variable {platform : Platform} {state : EncryptionState} {position : Nat}
  {plaintext : Bytes}

/-- A successful step had an allowed payload. -/
theorem EncryptionState.fitsKind_of_sealNext
    {kind : SegmentKind}
    {segment : Bytes}
    {next : EncryptionState}
    (step :
      state.sealNext platform plaintext position kind =
        (some segment, next)) :
    FitsKind state.context.parameters kind plaintext.length := by
  by_contra misfit
  rw [state.sealNext_misfit platform position misfit] at step
  cases step

/-- A state seals a plaintext to one stream only. -/
theorem EncryptionState.SealsStream.unique
    {stream other : Bytes}
    (seals : state.SealsStream platform position plaintext stream)
    (otherwise : state.SealsStream platform position plaintext other) :
    stream = other := by
  induction seals generalizing other with
  | last inside step =>
      have fits := (EncryptionState.fitsKind_of_sealNext step).le
      cases otherwise with
      | last _ otherStep =>
          rw [step] at otherStep
          cases otherStep
          rfl
      | more longer _ _ _ =>
          omega
  | more longer _ step _ inductionHypothesis =>
      cases otherwise with
      | last _ otherStep =>
          have fits := (EncryptionState.fitsKind_of_sealNext otherStep).le
          omega
      | more _ _ otherStep otherRest =>
          rw [step] at otherStep
          cases otherStep
          rw [inductionHypothesis otherRest]

end Streams

/-! ## One-shot encryption -/

section OneShot

variable {platform : Platform} {context : MessageContext}
  {layout : MessageLayout} {plaintext : Bytes} {position : Nat}

/-- A turn that succeeds has sealed its chunk. -/
theorem sealTurn_eq_ok
    {kind : SegmentKind}
    {encryptor : Encryptor}
    {chunk output ciphertext result : Bytes}
    {outputStart : Nat}
    {next : Option Encryptor}
    (agree : platform.SealsAgree)
    (here : encryptor.At platform context position)
    (room : output.length = chunk.length + 32)
    (turned :
      sealTurn platform kind encryptor chunk output ciphertext outputStart =
        .ok (next, result)) :
    ∃ segment state,
      encryptor.state.sealNext platform chunk position kind =
          (some segment, state) ∧
        segment.length = chunk.length + 32 ∧
        result = writeBack ciphertext outputStart segment ∧
        PositionAllows position kind ∧
        (kind = .nonFinal →
          next = some (encryptor.stepped state) ∧
            (encryptor.stepped state).At platform context (position + 1)) := by
  have sound := Kdf.FaultOf.refl platform.kdfExpand
  have exhausted {segment : Bytes}
      (length : segment.length = chunk.length + 32) :
      segment ++ output.drop segment.length = segment := by
    rw [List.drop_eq_nil_of_le (by omega), List.append_nil]
  cases kind with
  | nonFinal =>
      rcases here.encryptNonFinalSegmentInto_spec chunk output sound agree with
        ⟨segment, state, allowed, step, length, _, ready, sealed⟩ |
          ⟨error, state, failed, _, _, refused, _⟩
      · have sealed' :
            encryptor.encryptNonFinalSegmentInto platform chunk output =
              (.ok segment.length, encryptor.stepped state,
                segment ++ output.drop segment.length) :=
          sealed
        rw [exhausted length] at sealed'
        simp only [sealTurn, sealed'] at turned
        cases turned
        exact ⟨segment, state, step, length, rfl, allowed,
          fun _ => ⟨rfl, here.stepped allowed ready⟩⟩
      · have refused' :
            encryptor.encryptNonFinalSegmentInto platform chunk output =
              (.error (.err error), { encryptor with state }, failed) :=
          refused
        simp only [sealTurn, refused'] at turned
        cases turned
  | final =>
      rcases here.encryptFinalSegmentInto_spec chunk output sound agree with
        ⟨segment, state, step, length, _, sealed⟩ |
          ⟨error, state, failed, _, _, refused, _⟩
      · have sealed' :
            encryptor.encryptFinalSegmentInto platform chunk output =
              (.ok segment.length,
                segment ++ output.drop segment.length) :=
          sealed
        rw [exhausted length] at sealed'
        simp only [sealTurn, sealed'] at turned
        cases turned
        exact ⟨segment, state, step, length, rfl, here.inside,
          (fun impossible => by cases impossible)⟩
      · have refused' :
            encryptor.encryptFinalSegmentInto platform chunk output =
              (.error (.err ⟨{ encryptor with state }, error⟩), failed) :=
          refused
        simp only [sealTurn, refused'] at turned
        cases turned

/-- A turn that succeeds has appended the segment of its payload. -/
theorem encryptTurn_eq_ok
    {encryptor : Encryptor}
    {next : Option Encryptor}
    {before after : Bytes}
    (agree : platform.SealsAgree)
    (valid : layout.Valid)
    (whole : plaintext.length = layout.plaintextLength)
    (inside : position < layout.segmentCount)
    (representable : layout.ciphertextLength ≤ platform.target.usizeMax)
    (here : encryptor.At platform context position)
    (aligned : before.length = layout.reach position)
    (turned :
      encryptTurn platform layout plaintext position (some encryptor)
          before =
        .ok (next, after)) :
    ∃ segment state,
      encryptor.state.sealNext platform
            ((layout.entry position).payload plaintext) position
            (layout.entry position).kind =
          (some segment, state) ∧
        after = before ++ segment ∧
        after.length = layout.reach (position + 1) ∧
        ((layout.entry position).kind = .nonFinal →
          PositionAllows position .nonFinal ∧
            next = some (encryptor.stepped state) ∧
            (encryptor.stepped state).At platform context
              (position + 1)) := by
  have payload := valid.length_payload whole inside
  have overhead : (layout.entry position).ciphertextLength =
      (layout.entry position).plaintextLength + 32 :=
    rfl
  rw [encryptTurn_prepared valid whole inside representable aligned] at turned
  obtain ⟨segment, state, step, length, rfl, allowed, later⟩ :=
    sealTurn_eq_ok agree here
      (show (zeros (layout.entry position).ciphertextLength).length =
          ((layout.entry position).payload plaintext).length + 32 by
        rw [length_zeros, overhead, payload])
      turned
  have exact : segment.length = (layout.entry position).ciphertextLength := by
    rw [length, payload, overhead]
  have appended :
      writeBack (before ++ zeros (layout.entry position).ciphertextLength)
          before.length segment =
        before ++ segment := by
    have replaced :
        (zeros (layout.entry position).ciphertextLength).drop
          segment.length = [] :=
      List.drop_eq_nil_of_le (by rw [length_zeros, exact])
    rw [writeBack_append rfl, replaced, List.append_nil]
  refine ⟨segment, state, step, appended, ?_, ?_⟩
  · rw [appended, List.length_append, aligned, exact, valid.reach_succ inside]
  · intro nonFinal
    rw [nonFinal] at allowed
    exact ⟨allowed, later nonFinal⟩

/-- The loop appends the stream of the plaintext that is left, when the layout
has no more segments than needed. -/
theorem encryptBodyLoop_sealsStream
    {encryptor : Encryptor}
    {before ciphertext : Bytes}
    (agree : platform.SealsAgree)
    (valid : layout.Valid)
    (sameParameters : layout.parameters = context.parameters)
    (whole : plaintext.length = layout.plaintextLength)
    (needed :
      layout.segmentCount = 1 ∨
        (layout.segmentCount - 1) * layout.parameters.plaintextSegmentLength <
          layout.plaintextLength)
    (representable : layout.ciphertextLength ≤ platform.target.usizeMax)
    (remaining : Nat)
    (within : position + remaining + 1 = layout.segmentCount)
    (here : encryptor.At platform context position)
    (aligned : before.length = layout.reach position)
    (looped :
      encryptBodyLoop platform layout plaintext (remaining + 1) position
          (some encryptor) before =
        .ok ciphertext) :
    ∃ stream,
      encryptor.state.SealsStream platform position
          (plaintext.drop
            (position * layout.parameters.plaintextSegmentLength)) stream ∧
        ciphertext = before ++ stream := by
  have own : encryptor.state.context.parameters = layout.parameters := by
    rw [here.ready.context_eq, sameParameters]
  induction remaining generalizing position encryptor before with
  | zero =>
      rw [encryptBodyLoop_succ] at looped
      obtain ⟨⟨next, after⟩, turned, done⟩ := Outcome.bind_eq_ok.mp looped
      obtain ⟨segment, state, step, rfl, _⟩ :=
        encryptTurn_eq_ok agree valid whole (by omega) representable here
          aligned turned
      have last := valid.last (show position + 1 = layout.segmentCount by
        omega)
      have kind : (layout.entry position).kind = .final :=
        if_pos (by omega)
      have payload : (layout.entry position).payload plaintext =
          plaintext.drop
            (position * layout.parameters.plaintextSegmentLength) := by
        rw [SegmentLayout.payload, last.2, ← whole]
        exact List.take_of_length_le (by
          rw [List.length_drop]
          exact Nat.le_refl _)
      rw [kind, payload] at step
      refine ⟨segment, .last here.inside step, ?_⟩
      cases done
      rfl
  | succ remaining inductionHypothesis =>
      rw [encryptBodyLoop_succ] at looped
      obtain ⟨⟨next, after⟩, turned, rest⟩ := Outcome.bind_eq_ok.mp looped
      obtain ⟨segment, state, step, rfl, length, nonFinal⟩ :=
        encryptTurn_eq_ok agree valid whole (by omega) representable here
          aligned turned
      have kind : (layout.entry position).kind = .nonFinal :=
        if_neg (by omega)
      have full := (valid.full (show position + 1 < layout.segmentCount by
        omega)).1
      have payload : (layout.entry position).payload plaintext =
          (plaintext.drop
            (position * layout.parameters.plaintextSegmentLength)).take
            encryptor.state.context.parameters.plaintextSegmentLength := by
        rw [SegmentLayout.payload, full, own]
        rfl
      obtain ⟨allowed, rfl, there⟩ := nonFinal kind
      rw [kind, payload] at step
      obtain ⟨stream, seals, rfl⟩ :=
        inductionHypothesis (by omega) there length rest (by
          rw [there.ready.context_eq, sameParameters])
      refine ⟨segment ++ stream, .more ?_ allowed step ?_,
        List.append_assoc _ _ _⟩
      · have scaled :=
          Nat.mul_le_mul_right layout.parameters.plaintextSegmentLength
            (show position + 1 ≤ layout.segmentCount - 1 by omega)
        rw [Nat.succ_mul] at scaled
        rw [own, List.length_drop, whole]
        omega
      · rw [own, List.drop_drop, ← Nat.succ_mul]
        exact seals

/-- A layout of a plaintext has no more segments than needed. -/
theorem Parameters.plaintextLayout_needed
    {parameters : Parameters}
    {length : Nat}
    (calculated : parameters.plaintextLayout length = .ok layout) :
    layout.segmentCount = 1 ∨
      (layout.segmentCount - 1) * layout.parameters.plaintextSegmentLength <
        layout.plaintextLength := by
  obtain ⟨_, same, whole, count⟩ :=
    Parameters.plaintextLayout_eq_ok calculated
  have bounds := parameters.segmentLength_bounds
  rcases Nat.eq_zero_or_pos length with empty | nonzero
  · left
    rw [count, empty]
    have none : divCeil 0 parameters.plaintextSegmentLength = 0 :=
      Nat.div_eq_of_lt (by omega)
    rw [none]
    rfl
  · right
    obtain ⟨some, below, _⟩ :=
      divCeil_bounds
        (show 0 < parameters.plaintextSegmentLength by omega) nonzero
    rw [count, same, whole, Nat.max_eq_left some]
    exact below

/-- What `encrypt` returns is the header and the stream of the plaintext. -/
theorem encrypt_sealsStream
    {key : Key}
    {aad : Bytes}
    {parameters : Parameters}
    {rng : ProviderRng}
    {ciphertext : Bytes}
    (agree : platform.SealsAgree)
    (encrypted :
      encrypt platform key aad parameters rng plaintext = .ok ciphertext) :
    ∃ encryptor stream,
      Encryptor.new platform key aad parameters rng = .ok encryptor ∧
        encryptor.state.SealsStream platform 0 plaintext stream ∧
        ciphertext = encryptor.header.val ++ stream := by
  unfold encrypt at encrypted
  obtain ⟨encryptor, created, body⟩ := Outcome.bind_eq_ok.mp encrypted
  unfold encryptBody at body
  obtain ⟨layout, calculated, reserved⟩ := Outcome.bind_eq_ok.mp body
  obtain ⟨capacity, fits, looped⟩ := Outcome.bind_eq_ok.mp reserved
  have representable : layout.ciphertextLength ≤ platform.target.usizeMax := by
    by_contra large
    simp only [Target.tryFromU64, large, ↓reduceIte, Outcome.okOr] at fits
    cases fits
  obtain ⟨_, ofParameters, here⟩ :=
    Encryptor.new_eq_ok (Kdf.FaultOf.refl platform.kdfExpand) created
  have own : encryptor.parameters = parameters := ofParameters
  rw [own] at calculated
  obtain ⟨valid, same, whole, count⟩ :=
    Parameters.plaintextLayout_eq_ok calculated
  have positive := valid.count_pos
  have needed := Parameters.plaintextLayout_needed calculated
  obtain ⟨remaining, shape⟩ :
      ∃ remaining, layout.segmentCount = remaining + 1 :=
    ⟨layout.segmentCount - 1, by omega⟩
  rw [shape] at looped
  have start : encryptor.header.val.length = layout.reach 0 := by
    rw [layout.reach_zero]
    exact encryptor.header.property
  obtain ⟨stream, seals, rfl⟩ :=
    encryptBodyLoop_sealsStream agree valid (by rw [same, ofParameters])
      whole.symm needed representable remaining (by omega) here start
      looped
  rw [Nat.zero_mul, List.drop_zero] at seals
  exact ⟨encryptor, stream, created, seals, rfl⟩

end OneShot

/-! ## Taking a step that succeeds -/

section Steps

variable {platform : Platform} {context : MessageContext} {position : Nat}
  {encryptor : Encryptor} {plaintext segment : Bytes}
  {state : EncryptionState}

/-- A non-final step where the plaintext stands. -/
theorem Encryptor.At.stepInPlace
    {buffer : SegmentBuffer}
    (here : encryptor.At platform context position)
    (allowed : PositionAllows position .nonFinal)
    (holds : buffer.HoldsPlaintext plaintext)
    (same : buffer.parameters = context.parameters)
    (step :
      encryptor.state.sealNext platform plaintext position .nonFinal =
        (some segment, state)) :
    ∃ sealedBuffer,
      encryptor.encryptNonFinalSegmentInPlace platform buffer =
          (.ok segment, encryptor.stepped state, sealedBuffer) ∧
        sealedBuffer.HoldsCiphertext segment ∧
        sealedBuffer.parameters = buffer.parameters ∧
        (encryptor.stepped state).At platform context (position + 1) := by
  rcases here.encryptNonFinalSegmentInPlace_spec buffer
      (Kdf.FaultOf.refl platform.kdfExpand) with
    ⟨held, sealedSegment, next, sealedBuffer, _, content, taken, ready,
      result, kept, settled⟩ | ⟨error, next, failed, fails, _⟩
  · rw [holds.plaintext_eq] at content
    cases content
    cases step.symm.trans taken
    exact ⟨sealedBuffer, result, settled holds.sized, kept,
      here.stepped allowed ready⟩
  · cases step.symm.trans (fails plaintext allowed holds same)

/-- The final step where the plaintext stands. -/
theorem Encryptor.At.lastInPlace
    {buffer : SegmentBuffer}
    (here : encryptor.At platform context position)
    (holds : buffer.HoldsPlaintext plaintext)
    (same : buffer.parameters = context.parameters)
    (step :
      encryptor.state.sealNext platform plaintext position .final =
        (some segment, state)) :
    ∃ sealedBuffer,
      encryptor.encryptFinalSegmentInPlace platform buffer =
          (.ok segment, sealedBuffer) ∧
        sealedBuffer.HoldsCiphertext segment ∧
        sealedBuffer.parameters = buffer.parameters := by
  rcases here.encryptFinalSegmentInPlace_spec buffer
      (Kdf.FaultOf.refl platform.kdfExpand) with
    ⟨held, sealedSegment, next, sealedBuffer, content, taken, result, kept,
      settled⟩ | ⟨error, next, failed, fails, _⟩
  · rw [holds.plaintext_eq] at content
    cases content
    cases step.symm.trans taken
    exact ⟨sealedBuffer, result, settled holds.sized, kept⟩
  · cases step.symm.trans (fails plaintext holds same)

/-- A non-final step into an output with room for it. -/
theorem Encryptor.At.stepInto
    {output : Bytes}
    (agree : platform.SealsAgree)
    (here : encryptor.At platform context position)
    (allowed : PositionAllows position .nonFinal)
    (room : plaintext.length + 32 ≤ output.length)
    (step :
      encryptor.state.sealNext platform plaintext position .nonFinal =
        (some segment, state)) :
    encryptor.encryptNonFinalSegmentInto platform plaintext output =
        (.ok segment.length, encryptor.stepped state,
          segment ++ output.drop segment.length) ∧
      (encryptor.stepped state).At platform context (position + 1) := by
  rcases here.encryptNonFinalSegmentInto_spec plaintext output
      (Kdf.FaultOf.refl platform.kdfExpand) agree with
    ⟨sealedSegment, next, _, taken, _, _, ready, result⟩ |
      ⟨error, next, failed, fails, _⟩
  · cases step.symm.trans taken
    exact ⟨result, here.stepped allowed ready⟩
  · rcases fails allowed with refused | ⟨_, narrow⟩
    · cases step.symm.trans refused
    · omega

/-- The final step into an output with room for it. -/
theorem Encryptor.At.lastInto
    {output : Bytes}
    (agree : platform.SealsAgree)
    (here : encryptor.At platform context position)
    (room : plaintext.length + 32 ≤ output.length)
    (step :
      encryptor.state.sealNext platform plaintext position .final =
        (some segment, state)) :
    encryptor.encryptFinalSegmentInto platform plaintext output =
      (.ok segment.length, segment ++ output.drop segment.length) := by
  rcases here.encryptFinalSegmentInto_spec plaintext output
      (Kdf.FaultOf.refl platform.kdfExpand) agree with
    ⟨sealedSegment, next, taken, _, _, result⟩ |
      ⟨error, next, failed, fails, _⟩
  · cases step.symm.trans taken
    exact result
  · rcases fails with refused | ⟨_, narrow⟩
    · cases step.symm.trans refused
    · omega

/-- The segment of a step is as long as its payload and the overhead. -/
theorem Encryptor.At.length_step
    {kind : SegmentKind}
    (here : encryptor.At platform context position)
    (step :
      encryptor.state.sealNext platform plaintext position kind =
        (some segment, state)) :
    segment.length = plaintext.length + 32 := by
  have seals :=
    (EncryptionState.sealNext_spec plaintext position kind
      (Kdf.FaultOf.refl platform.kdfExpand) here.ready).2 segment (by
        have step' :
            encryptor.state.sealNext (platform.withKdf platform.kdfExpand)
                plaintext position kind =
              (some segment, state) :=
          step
        rw [step'])
  exact seals.framed.1

/-- A stream is never empty. -/
theorem Encryptor.At.stream_ne_nil
    {stream : Bytes}
    (here : encryptor.At platform context position)
    (seals :
      encryptor.state.SealsStream platform position plaintext stream) :
    stream ≠ [] := by
  intro empty
  cases seals with
  | last _ step =>
      have length := here.length_step step
      rw [empty] at length
      simp at length
  | more _ _ step _ =>
      have length := here.length_step step
      rw [(List.append_eq_nil_iff.mp empty).1] at length
      simp at length

end Steps

/-! ## Segments sealed one after the other -/

/-- Full segments, each paired with its plaintext, that a state seals one after
the other from a position on, and the state after them. -/
inductive EncryptionState.SealsBlocks (platform : Platform) :
    EncryptionState → Nat → List (Bytes × Bytes) → EncryptionState →
      Prop where
  | nil {state : EncryptionState} {position : Nat} :
      SealsBlocks platform state position [] state
  | cons {state next last : EncryptionState} {position : Nat}
      {plaintext segment : Bytes} {rest : List (Bytes × Bytes)}
      (allowed : PositionAllows position .nonFinal)
      (step :
        state.sealNext platform plaintext position .nonFinal =
          (some segment, next))
      (later : SealsBlocks platform next (position + 1) rest last) :
      SealsBlocks platform state position ((segment, plaintext) :: rest) last

section BlockRuns

variable {platform : Platform} {context : MessageContext}
  {state last next : EncryptionState} {position : Nat}
  {blocks : List (Bytes × Bytes)} {plaintext segment : Bytes}

/-- One more block after the others. -/
theorem EncryptionState.SealsBlocks.snoc
    (seals : state.SealsBlocks platform position blocks last)
    (allowed : PositionAllows (position + blocks.length) .nonFinal)
    (step :
      last.sealNext platform plaintext (position + blocks.length) .nonFinal =
        (some segment, next)) :
    state.SealsBlocks platform position (blocks ++ [(segment, plaintext)])
      next := by
  induction seals with
  | nil =>
      exact .cons allowed step .nil
  | @cons _ _ _ position _ _ rest first firstStep _ inductionHypothesis =>
      have shift : position + 1 + rest.length =
          position + (rest.length + 1) := by
        omega
      rw [List.length_cons, ← shift] at allowed step
      exact .cons first firstStep (inductionHypothesis allowed step)

/-- Blocks sealed one after the other are a sealed run. -/
theorem EncryptionState.SealsBlocks.run
    (seals : state.SealsBlocks platform position blocks last)
    (ready : state.Ready platform context) :
    SealedRun platform context position blocks := by
  induction seals with
  | nil =>
      exact sealedRun_nil platform context _
  | @cons state next _ position plaintext segment _ allowed step _
      inductionHypothesis =>
      obtain ⟨readyNext, sealed⟩ :=
        EncryptionState.sealNext_spec plaintext position .nonFinal
          (Kdf.FaultOf.refl platform.kdfExpand) ready
      have step' :
          state.sealNext (platform.withKdf platform.kdfExpand) plaintext
              position .nonFinal =
            (some segment, next) :=
        step
      rw [step'] at readyNext sealed
      exact .cons allowed (sealed segment rfl)
        (inductionHypothesis readyNext)

/-- A sealed stream is a complete sealed message of its plaintext. -/
theorem EncryptionState.SealsStream.sealedMessage
    {stream : Bytes}
    (seals : state.SealsStream platform position plaintext stream)
    (ready : state.Ready platform context) :
    ∃ (middle : List (Bytes × Bytes)) (final finalPlaintext : Bytes),
      stream = (middle.map Prod.fst).flatten ++ final ∧
        plaintext = (middle.map Prod.snd).flatten ++ finalPlaintext ∧
        SealedMessage platform context position middle final
          finalPlaintext := by
  induction seals with
  | @last state next position plaintext segment inside step =>
      obtain ⟨_, sealed⟩ :=
        EncryptionState.sealNext_spec plaintext position .final
          (Kdf.FaultOf.refl platform.kdfExpand) ready
      have step' :
          state.sealNext (platform.withKdf platform.kdfExpand) plaintext
              position .final =
            (some segment, next) :=
        step
      rw [step'] at sealed
      exact ⟨[], segment, plaintext, rfl, rfl,
        sealedRun_nil platform context position, sealed segment rfl, inside⟩
  | @more state next position plaintext segment _ longer allowed step _
      inductionHypothesis =>
      obtain ⟨readyNext, sealed⟩ :=
        EncryptionState.sealNext_spec
          (plaintext.take state.context.parameters.plaintextSegmentLength)
          position .nonFinal (Kdf.FaultOf.refl platform.kdfExpand) ready
      have step' :
          state.sealNext (platform.withKdf platform.kdfExpand)
              (plaintext.take state.context.parameters.plaintextSegmentLength)
              position .nonFinal =
            (some segment, next) :=
        step
      rw [step'] at readyNext sealed
      obtain ⟨middle, final, finalPlaintext, rfl, rest, message⟩ :=
        inductionHypothesis readyNext
      refine ⟨(segment,
          plaintext.take state.context.parameters.plaintextSegmentLength) ::
        middle, final, finalPlaintext, ?_, ?_,
        .cons allowed (sealed segment rfl) message⟩
      · rw [List.map_cons, List.flatten_cons, List.append_assoc]
      · rw [List.map_cons, List.flatten_cons, List.append_assoc, ← rest,
          List.take_append_drop]

/-- Blocks and a final segment make up the sealed stream, when the final segment
is not empty or the only one. -/
theorem EncryptionState.SealsBlocks.sealsStream
    (seals : state.SealsBlocks platform position blocks last)
    (inside : position + blocks.length < aeadMaxSegments)
    (step :
      last.sealNext platform plaintext (position + blocks.length) .final =
        (some segment, next))
    (needed : plaintext ≠ [] ∨ blocks = []) :
    state.SealsStream platform position
      ((blocks.map Prod.snd).flatten ++ plaintext)
      ((blocks.map Prod.fst).flatten ++ segment) := by
  induction seals with
  | nil =>
      exact .last inside step
  | @cons state between _ position block sealed rest allowed first later
      inductionHypothesis =>
      have some : plaintext ≠ [] := by
        rcases needed with some | impossible
        · exact some
        · cases impossible
      have full : block.length =
          state.context.parameters.plaintextSegmentLength :=
        EncryptionState.fitsKind_of_sealNext first
      have shift : position + (rest.length + 1) =
          position + 1 + rest.length := by
        omega
      rw [List.length_cons, shift] at inside step
      have stream := inductionHypothesis inside step (.inl some)
      rw [List.map_cons, List.flatten_cons, List.append_assoc, List.map_cons,
        List.flatten_cons, List.append_assoc]
      have longer : state.context.parameters.plaintextSegmentLength <
          (block ++ ((rest.map Prod.snd).flatten ++ plaintext)).length := by
        have nonempty := List.length_pos_iff.mpr some
        simp only [List.length_append]
        omega
      refine @EncryptionState.SealsStream.more platform state between position
        (block ++ ((rest.map Prod.snd).flatten ++ plaintext)) sealed
        ((rest.map Prod.fst).flatten ++ segment) longer allowed ?_ ?_
      · rw [List.take_left' full]
        exact first
      · rw [List.drop_left' full]
        exact stream

end BlockRuns

end FastFloe
