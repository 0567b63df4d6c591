import FastFloe.EncryptionPaths
import FastFloe.Encryptors
import FastFloe.LayoutTilings

namespace FastFloe

open Rust

/-!
# One-shot encryption conforms to its layout

`encrypt` keeps three accounts of where it stands: the offsets of its layout,
the vector it appends to, and the counter of its encryptor.  They stay in step
for every plaintext length, so every turn of its loop seals exactly the segment
that the layout describes at that position.
-/

/-! ## States on one nonce tape -/

/-- The nonce behind `count` others on a tape. -/
def nonceAt (tape : Nat → UInt8) (count : Nat) : Octets aeadIvLength :=
  ⟨(List.range aeadIvLength).map fun index =>
    tape (index + count * aeadIvLength), by simp⟩

/-- A state of the message that has drawn `count` nonces of a tape. -/
structure EncryptionState.Draws (platform : Platform)
    (context : MessageContext) (tape : Nat → UInt8) (count : Nat)
    (state : EncryptionState) : Prop where
  ready : state.Ready platform context
  random : state.nonces.rng.NeverFails
  remaining : ∀ index,
    state.nonces.tape index = tape (index + count * aeadIvLength)

section Draws

variable {platform : Platform} {context : MessageContext}
  {state next : EncryptionState} {plaintext segment : Bytes}
  {position : Nat} {kind : SegmentKind}

/-- A successful step leaves a generator that does not fail. -/
theorem EncryptionState.sealNext_random
    (served : state.nonces.WellFormed)
    (random : state.nonces.rng.NeverFails)
    (step :
      state.sealNext platform plaintext position kind =
        (some segment, next)) :
    next.nonces.rng.NeverFails := by
  obtain ⟨nonces, drawn, later, _, _⟩ :=
    NonceGenerator.draw_tape served random
  unfold sealNext at step
  by_cases fits : FitsKind state.context.parameters kind plaintext.length
  · simp only [fits, ↓reduceIte, drawn] at step
    rcases found :
        state.keys.keyForPosition platform state.context position with
      ⟨stop | key, keys⟩
    · rw [found] at step
      cases step
    · rw [found] at step
      simp only [Prod.mk.injEq] at step
      rw [← step.2]
      exact later
  · simp only [fits, ↓reduceIte] at step
    cases step

variable {tape : Nat → UInt8} {count : Nat}

theorem EncryptionState.Draws.upcoming_eq
    (draws : state.Draws platform context tape count) :
    state.nonces.upcoming = nonceAt tape count := by
  apply Subtype.ext
  simp only [NonceGenerator.upcoming, nonceAt, funext draws.remaining]

/-- A state draws from its own tape. -/
theorem EncryptionState.draws_self
    (ready : state.Ready platform context)
    (random : state.nonces.rng.NeverFails) :
    state.Draws platform context state.nonces.tape 0 := by
  refine ⟨ready, random, ?_⟩
  intro index
  rw [Nat.zero_mul, Nat.add_zero]

/-- A step on an allowed payload seals the specification's segment under the
next nonce of the tape, and moves on by one. -/
theorem EncryptionState.Draws.sealNext
    (healthy : platform.NeverFails)
    (draws : state.Draws platform context tape count)
    (inside : position < aeadMaxSegments)
    (fits : FitsKind context.parameters kind plaintext.length) :
    ∃ segment next,
      state.sealNext platform plaintext position kind =
          (some segment, next) ∧
        specifiedSegment platform context position kind (nonceAt tape count)
            plaintext = some segment ∧
        (next.Ready platform context →
          next.Draws platform context tape (count + 1)) := by
  obtain ⟨segment, next, step, specified, drew⟩ :=
    EncryptionState.sealNext_specified healthy draws.ready draws.random
      inside fits
  rw [draws.upcoming_eq] at specified
  refine ⟨segment, next, step, specified, fun ready => ⟨ready, ?_, ?_⟩⟩
  · exact EncryptionState.sealNext_random draws.ready.served draws.random
      step
  · intro index
    rw [drew index, draws.remaining, Nat.succ_mul]
    congr 1
    omega

/-- The fresh-vector encryption of an allowed payload. -/
theorem EncryptionState.Draws.encryptSegmentAt
    (agree : platform.SealsAgree)
    (healthy : platform.NeverFails)
    (draws : state.Draws platform context tape count)
    (inside : position < aeadMaxSegments)
    (fits : FitsKind context.parameters kind plaintext.length) :
    ∃ segment next,
      state.encryptSegmentAt platform plaintext position kind =
          (.ok segment, next) ∧
        specifiedSegment platform context position kind (nonceAt tape count)
            plaintext = some segment ∧
        next.Draws platform context tape (count + 1) := by
  obtain ⟨segment, next, step, specified, moves⟩ :=
    draws.sealNext healthy inside fits
  obtain ⟨after, ready, ⟨written, taken, result⟩ | ⟨error, failed, _⟩⟩ :=
    EncryptionState.encryptSegmentAt_spec plaintext position kind
      (Kdf.FaultOf.refl platform.kdfExpand) agree draws.ready
  · cases step.symm.trans taken
    exact ⟨segment, next, result, specified, moves ready⟩
  · cases step.symm.trans failed

end Draws

/-! ## The segments of a layout -/

section Payloads

variable {layout : MessageLayout} {plaintext : Bytes} {position : Nat}

/-- The part of a plaintext that a segment of its layout encrypts. -/
def SegmentLayout.payload (segment : SegmentLayout) (plaintext : Bytes) :
    Bytes :=
  (plaintext.drop segment.plaintextOffset).take segment.plaintextLength

/-- The part of a ciphertext that a segment of its layout occupies. -/
def SegmentLayout.segment (segment : SegmentLayout) (ciphertext : Bytes) :
    Bytes :=
  (ciphertext.drop segment.ciphertextOffset).take segment.ciphertextLength

theorem MessageLayout.Valid.length_payload
    (valid : layout.Valid)
    (whole : plaintext.length = layout.plaintextLength)
    (inside : position < layout.segmentCount) :
    ((layout.entry position).payload plaintext).length =
      (layout.entry position).plaintextLength := by
  have bounds := (valid.entry_bounds inside).1
  have offset : (layout.entry position).plaintextOffset =
      position * layout.parameters.plaintextSegmentLength :=
    rfl
  rw [SegmentLayout.payload, List.length_take, List.length_drop, offset]
  omega

/-- The payload of every segment fits its kind. -/
theorem MessageLayout.Valid.fitsKind
    (valid : layout.Valid)
    (inside : position < layout.segmentCount) :
    FitsKind layout.parameters (layout.entry position).kind
      (layout.entry position).plaintextLength := by
  have here : (layout.entry position).kind =
      kindAt layout.segmentCount position :=
    rfl
  rw [here]
  by_cases isLast : position + 1 = layout.segmentCount
  · rw [kindAt, if_pos isLast]
    exact Nat.min_le_left _ _
  · rw [kindAt, if_neg isLast]
    exact (valid.full (by omega)).1

/-- Where the segments before a position end in the message. -/
def MessageLayout.reach (layout : MessageLayout) (position : Nat) : Nat :=
  74 + min (position * layout.parameters.plaintextSegmentLength)
    layout.plaintextLength + 32 * position

theorem MessageLayout.reach_zero (layout : MessageLayout) :
    layout.reach 0 = 74 := by
  simp only [reach, Nat.zero_mul, Nat.zero_min, Nat.add_zero, Nat.mul_zero]

theorem MessageLayout.reach_mono
    (layout : MessageLayout)
    {earlier later : Nat}
    (before : earlier ≤ later) :
    layout.reach earlier ≤ layout.reach later := by
  have scaled :=
    Nat.mul_le_mul_right layout.parameters.plaintextSegmentLength before
  simp only [reach]
  omega

theorem MessageLayout.Valid.reach_last
    (valid : layout.Valid) :
    layout.reach layout.segmentCount = layout.ciphertextLength := by
  rw [reach, Nat.min_eq_right valid.within, valid.ciphertext_eq]

theorem MessageLayout.Valid.reach_le
    (valid : layout.Valid)
    (within : position ≤ layout.segmentCount) :
    layout.reach position ≤ layout.ciphertextLength := by
  have whole := valid.ciphertext_eq
  simp only [reach]
  omega

/-- Every segment starts where the ones before it end. -/
theorem MessageLayout.Valid.reach_eq
    (valid : layout.Valid)
    (inside : position < layout.segmentCount) :
    layout.reach position = (layout.entry position).ciphertextOffset := by
  have bounds := (valid.entry_bounds inside).1
  have scaled := layout.parameters.mul_segmentLength position
  simp only [reach, entry]
  omega

theorem MessageLayout.Valid.reach_succ
    (valid : layout.Valid)
    (inside : position < layout.segmentCount) :
    layout.reach (position + 1) =
      layout.reach position + (layout.entry position).ciphertextLength := by
  have bounds := (valid.entry_bounds inside).1
  simp only [reach, entry, Nat.succ_mul]
  omega

end Payloads

/-! ## Turns of the loop -/

/-- The second half of a turn, in which the encryptor seals the chunk into the
new end of the vector. -/
def sealTurn (platform : Platform) (kind : SegmentKind) (encryptor : Encryptor)
    (chunk output ciphertext : Bytes) (outputStart : Nat) :
    Result (Option Encryptor × Bytes) :=
  match kind with
  | .nonFinal =>
      match encryptor.encryptNonFinalSegmentInto platform chunk output with
      | (.error stop, _, _) =>
          .error stop
      | (.ok _, encryptor, output) =>
          .ok (some encryptor, writeBack ciphertext outputStart output)
  | .final =>
      match encryptor.encryptFinalSegmentInto platform chunk output with
      | (.error stop, _) =>
          Outcome.mapErr FinalEncryptError.intoError (.error stop)
      | (.ok _, output) =>
          .ok (none, writeBack ciphertext outputStart output)

/-- One turn of the loop of `encrypt_body`. -/
def encryptTurn (platform : Platform) (layout : MessageLayout)
    (plaintext : Bytes) (position : Nat) (encryptor : Option Encryptor)
    (ciphertext : Bytes) : Result (Option Encryptor × Bytes) := do
  let segment ← layout.segmentAt platform.target position
  let plaintextStart ← Outcome.okOr .lengthOverflow
    (platform.target.tryFromU64 segment.plaintextOffset)
  let plaintextEnd ← Outcome.okOr .lengthOverflow
    (checkedAdd platform.target.usizeMax plaintextStart
      segment.plaintextLength)
  let outputStart := ciphertext.length
  let outputEnd ← Outcome.okOr .lengthOverflow
    (checkedAdd platform.target.usizeMax outputStart
      segment.ciphertextLength)
  let ciphertext := ciphertext ++ zeros (outputEnd - outputStart)
  let chunk ← slice plaintext plaintextStart plaintextEnd
  let output ← slice ciphertext outputStart ciphertext.length
  let encryptor ← Outcome.expect encryptor
  sealTurn platform segment.kind encryptor chunk output ciphertext
    outputStart

/-- The encryptor and the vector after the first turns of the loop. -/
def encryptTurns (platform : Platform) (layout : MessageLayout)
    (plaintext : Bytes) (encryptor : Encryptor) :
    Nat → Result (Option Encryptor × Bytes)
  | 0 =>
      .ok (some encryptor, encryptor.header.val)
  | turns + 1 => do
      let (encryptor, ciphertext) ←
        encryptTurns platform layout plaintext encryptor turns
      encryptTurn platform layout plaintext turns encryptor ciphertext

section Turns

variable {platform : Platform} {layout : MessageLayout} {plaintext : Bytes}

/-- The loop is a turn, and then the loop over the segments that remain. -/
theorem encryptBodyLoop_succ
    (remaining position : Nat)
    (encryptor : Option Encryptor)
    (ciphertext : Bytes) :
    encryptBodyLoop platform layout plaintext (remaining + 1) position
        encryptor ciphertext =
      (do
        let (encryptor, ciphertext) ←
          encryptTurn platform layout plaintext position encryptor ciphertext
        encryptBodyLoop platform layout plaintext remaining (position + 1)
          encryptor ciphertext) := by
  simp only [encryptBodyLoop, encryptTurn, bind_assoc]
  congr 1
  funext segment
  congr 1
  funext plaintextStart
  congr 1
  funext plaintextEnd
  congr 1
  funext outputEnd
  congr 1
  funext chunk
  congr 1
  funext output
  congr 1
  funext current
  unfold sealTurn
  cases segment.kind with
  | nonFinal =>
      simp only
      rcases current.encryptNonFinalSegmentInto platform chunk output with
        ⟨stop | written, next, left⟩
      · rfl
      · rfl
  | final =>
      simp only
      rcases current.encryptFinalSegmentInto platform chunk output with
        ⟨stop | written, left⟩
      · cases stop <;> rfl
      · rfl

/-- The loop ends with the vector of its last turn, when none of its turns
fails. -/
theorem encryptBodyLoop_eq
    {encryptor : Encryptor}
    {last : Option Encryptor}
    {ciphertext : Bytes}
    (remaining : Nat)
    {position : Nat}
    {current : Option Encryptor}
    {before : Bytes}
    (succeed : ∀ turns, turns ≤ position + remaining →
      ∃ stage,
        encryptTurns platform layout plaintext encryptor turns = .ok stage)
    (reached :
      encryptTurns platform layout plaintext encryptor position =
        .ok (current, before))
    (ended :
      encryptTurns platform layout plaintext encryptor
          (position + remaining) =
        .ok (last, ciphertext)) :
    encryptBodyLoop platform layout plaintext remaining position current
        before =
      .ok ciphertext := by
  induction remaining generalizing position current before with
  | zero =>
      rw [Nat.add_zero, reached] at ended
      cases ended
      rfl
  | succ remaining inductionHypothesis =>
      have later : position + (remaining + 1) = position + 1 + remaining := by
        omega
      rw [later] at ended succeed
      obtain ⟨⟨next, after⟩, result⟩ := succeed (position + 1) (by omega)
      have turned := result
      simp only [encryptTurns, reached, Outcome.ok_bind] at turned
      rw [encryptBodyLoop_succ, turned, Outcome.ok_bind]
      exact inductionHypothesis succeed result ended

/-! ### One turn -/

section Seal

variable {context : MessageContext} {tape : Nat → UInt8} {position : Nat}
  {encryptor : Encryptor} {chunk output : Bytes}

/-- Sealing a chunk that fits its kind, at the encryptor's own position. -/
theorem sealTurn_spec
    (agree : platform.SealsAgree)
    (healthy : platform.NeverFails)
    (here : encryptor.At platform context position)
    (draws : encryptor.state.Draws platform context tape position)
    {kind : SegmentKind}
    (allowed : PositionAllows position kind)
    (fits : FitsKind context.parameters kind chunk.length)
    (room : output.length = chunk.length + 32)
    (ciphertext : Bytes)
    (outputStart : Nat) :
    ∃ segment next,
      sealTurn platform kind encryptor chunk output ciphertext outputStart =
          .ok (next, writeBack ciphertext outputStart segment) ∧
        segment.length = chunk.length + 32 ∧
        specifiedSegment platform context position kind
            (nonceAt tape position) chunk = some segment ∧
        (kind = .nonFinal →
          ∃ current, next = some current ∧
            current.At platform context (position + 1) ∧
            current.state.Draws platform context tape (position + 1)) := by
  have sound := Kdf.FaultOf.refl platform.kdfExpand
  obtain ⟨segment, state, step, specified, moves⟩ :=
    draws.sealNext healthy here.inside fits
  cases kind with
  | nonFinal =>
      rcases here.encryptNonFinalSegmentInto_spec chunk output sound agree with
        ⟨written, after, _, taken, length, _, ready, result⟩ |
          ⟨error, after, failed, fails, _⟩
      · cases step.symm.trans taken
        have exhausted : output.drop segment.length = [] :=
          List.drop_eq_nil_of_le (by omega)
        have result' :
            encryptor.encryptNonFinalSegmentInto platform chunk output =
              (.ok segment.length, encryptor.stepped state,
                segment ++ output.drop segment.length) :=
          result
        rw [exhausted, List.append_nil] at result'
        refine ⟨segment, some (encryptor.stepped state), ?_, length,
          specified, fun _ => ⟨_, rfl, here.stepped allowed ready, ?_⟩⟩
        · simp only [sealTurn, result']
        · exact moves ready
      · rcases fails allowed with failed | ⟨_, impossible⟩
        · cases step.symm.trans failed
        · omega
  | final =>
      rcases here.encryptFinalSegmentInto_spec chunk output sound agree with
        ⟨written, after, taken, length, _, result⟩ |
          ⟨error, after, failed, fails, _⟩
      · cases step.symm.trans taken
        have exhausted : output.drop segment.length = [] :=
          List.drop_eq_nil_of_le (by omega)
        have result' :
            encryptor.encryptFinalSegmentInto platform chunk output =
              (.ok segment.length, segment ++ output.drop segment.length) :=
          result
        rw [exhausted, List.append_nil] at result'
        refine ⟨segment, none, ?_, length, specified, ?_⟩
        · simp only [sealTurn, result']
        · intro impossible
          cases impossible
      · rcases fails with failed | ⟨_, impossible⟩
        · cases step.symm.trans failed
        · omega

end Seal

/-- No offset of a turn overflows and both its slices are in range, as long as
the vector ends where the segment starts. -/
theorem encryptTurn_prepared
    {position : Nat}
    {encryptor : Encryptor}
    {ciphertext : Bytes}
    (valid : layout.Valid)
    (whole : plaintext.length = layout.plaintextLength)
    (inside : position < layout.segmentCount)
    (representable : layout.ciphertextLength ≤ platform.target.usizeMax)
    (aligned : ciphertext.length = layout.reach position) :
    encryptTurn platform layout plaintext position (some encryptor)
        ciphertext =
      sealTurn platform (layout.entry position).kind encryptor
        ((layout.entry position).payload plaintext)
        (zeros (layout.entry position).ciphertextLength)
        (ciphertext ++ zeros (layout.entry position).ciphertextLength)
        ciphertext.length := by
  have bounds := valid.entry_bounds inside
  have size := valid.ciphertext_eq
  have offset : (layout.entry position).plaintextOffset =
      position * layout.parameters.plaintextSegmentLength :=
    rfl
  rw [← valid.reach_eq inside, ← aligned, ← offset] at bounds
  have found :
      layout.segmentAt platform.target position =
        .ok (layout.entry position) := by
    simp only [MessageLayout.segmentAt, Outcome.ok_bind, Outcome.expect,
      valid.segmentForPosition_eq platform.target inside]
  have start : (layout.entry position).plaintextOffset ≤
      platform.target.usizeMax := by
    omega
  have stop : (layout.entry position).plaintextOffset +
      (layout.entry position).plaintextLength ≤
        platform.target.usizeMax := by
    omega
  have outputStop : ciphertext.length +
      (layout.entry position).ciphertextLength ≤
        platform.target.usizeMax := by
    omega
  have chunk :
      (slice plaintext (layout.entry position).plaintextOffset
          ((layout.entry position).plaintextOffset +
            (layout.entry position).plaintextLength) : Result Bytes) =
        .ok ((layout.entry position).payload plaintext) := by
    rw [slice_eq (Nat.le_add_right _ _) (by omega), Nat.add_sub_cancel_left]
    rfl
  have output :
      (slice (ciphertext ++ zeros (layout.entry position).ciphertextLength)
          ciphertext.length
          (ciphertext ++
            zeros (layout.entry position).ciphertextLength).length :
          Result Bytes) =
        .ok (zeros (layout.entry position).ciphertextLength) := by
    rw [slice_eq (by rw [List.length_append]; omega) (Nat.le_refl _),
      List.drop_left, List.length_append, Nat.add_sub_cancel_left,
      List.take_of_length_le (Nat.le_refl _)]
  simp only [encryptTurn, found, Outcome.ok_bind, Target.tryFromU64, start,
    ↓reduceIte, Outcome.okOr, checkedAdd, stop, outputStop,
    Nat.add_sub_cancel_left, chunk, output, Outcome.expect]

/-! ### The accounts in step -/

/-- After the turns before a position, the vector ends where the next segment
starts, the encryptor stands at that position of the nonce tape, and every
segment before it is the specification's. -/
structure EncryptStage (platform : Platform) (context : MessageContext)
    (tape : Nat → UInt8) (header : Header) (layout : MessageLayout)
    (plaintext : Bytes) (position : Nat) (encryptor : Option Encryptor)
    (ciphertext : Bytes) : Prop where
  aligned : ciphertext.length = layout.reach position
  begins : ciphertext.take headerLength = header.val
  running :
    position < layout.segmentCount →
      ∃ current, encryptor = some current ∧
        current.At platform context position ∧
        current.state.Draws platform context tape position
  written :
    ∀ earlier, earlier < position →
      specifiedSegment platform context earlier (layout.entry earlier).kind
          (nonceAt tape earlier) ((layout.entry earlier).payload plaintext) =
        some ((layout.entry earlier).segment ciphertext)

section Stages

variable {context : MessageContext} {tape : Nat → UInt8} {header : Header}

/-- The loop starts with the header and a new encryptor. -/
theorem EncryptStage.start
    {encryptor : Encryptor}
    (here : encryptor.At platform context 0)
    (draws : encryptor.state.Draws platform context tape 0) :
    EncryptStage platform context tape encryptor.header layout plaintext 0
      (some encryptor) encryptor.header.val := by
  have length : encryptor.header.val.length = headerLength :=
    encryptor.header.property
  refine ⟨?_, List.take_of_length_le (Nat.le_of_eq length), ?_, ?_⟩
  · rw [layout.reach_zero, length, headerLength_eq]
  · exact fun _ => ⟨encryptor, rfl, here, draws⟩
  · intro earlier before
    exact (Nat.not_lt_zero earlier before).elim

/-- A turn never fails, and takes the accounts to the next position. -/
theorem EncryptStage.turn
    {position : Nat}
    {encryptor : Option Encryptor}
    {ciphertext : Bytes}
    (agree : platform.SealsAgree)
    (healthy : platform.NeverFails)
    (valid : layout.Valid)
    (sameParameters : layout.parameters = context.parameters)
    (whole : plaintext.length = layout.plaintextLength)
    (representable : layout.ciphertextLength ≤ platform.target.usizeMax)
    (inside : position < layout.segmentCount)
    (stage :
      EncryptStage platform context tape header layout plaintext position
        encryptor ciphertext) :
    ∃ next segment,
      encryptTurn platform layout plaintext position encryptor ciphertext =
          .ok (next, ciphertext ++ segment) ∧
        EncryptStage platform context tape header layout plaintext
          (position + 1) next (ciphertext ++ segment) := by
  obtain ⟨current, rfl, here, draws⟩ := stage.running inside
  have payload := valid.length_payload whole inside
  have fits := valid.fitsKind inside
  have overhead : (layout.entry position).ciphertextLength =
      (layout.entry position).plaintextLength + 32 :=
    rfl
  rw [← payload, sameParameters] at fits
  have bound := valid.count_le
  have allowed : PositionAllows position (layout.entry position).kind := by
    have kind : (layout.entry position).kind =
        kindAt layout.segmentCount position :=
      rfl
    rw [kind, kindAt]
    split
    · exact Nat.lt_of_lt_of_le inside bound
    · exact Nat.lt_of_lt_of_le (show position + 1 < layout.segmentCount by
        omega) bound
  obtain ⟨segment, next, sealed, length, specified, later⟩ :=
    sealTurn_spec agree healthy here draws allowed fits
      (show (zeros (layout.entry position).ciphertextLength).length =
          ((layout.entry position).payload plaintext).length + 32 by
        rw [length_zeros, overhead, payload])
      (ciphertext ++ zeros (layout.entry position).ciphertextLength)
      ciphertext.length
  have exact : segment.length = (layout.entry position).ciphertextLength := by
    rw [length, payload, overhead]
  have appended :
      writeBack
          (ciphertext ++ zeros (layout.entry position).ciphertextLength)
          ciphertext.length segment =
        ciphertext ++ segment := by
    have replaced :
        (zeros (layout.entry position).ciphertextLength).drop
          segment.length = [] :=
      List.drop_eq_nil_of_le (by
        rw [length_zeros, exact])
    rw [writeBack_append rfl, replaced, List.append_nil]
  have aligned : (ciphertext ++ segment).length =
      layout.reach (position + 1) := by
    rw [List.length_append, stage.aligned, exact, valid.reach_succ inside]
  refine ⟨next, segment, ?_, aligned, ?_, ?_, ?_⟩
  · rw [encryptTurn_prepared valid whole inside representable stage.aligned,
      sealed, appended]
  · have enough : headerLength ≤ ciphertext.length := by
      rw [stage.aligned, headerLength_eq, MessageLayout.reach]
      omega
    rw [List.take_append_of_le_length enough]
    exact stage.begins
  · intro more
    refine later ?_
    exact if_neg (by omega)
  · intro earlier before
    by_cases same : earlier = position
    · subst same
      rw [specified, SegmentLayout.segment, ← valid.reach_eq inside,
        ← stage.aligned, List.drop_left,
        List.take_of_length_le (Nat.le_of_eq exact)]
    · have past : earlier < position := by omega
      have ends := valid.reach_succ (show earlier < layout.segmentCount by
        omega)
      have behind := layout.reach_mono (show earlier + 1 ≤ position from past)
      rw [ends, valid.reach_eq (by omega), ← stage.aligned] at behind
      rw [stage.written earlier past, SegmentLayout.segment,
        SegmentLayout.segment, List.drop_append_of_le_length (by omega),
        List.take_append_of_le_length (by rw [List.length_drop]; omega)]

/-- Every turn of the loop keeps the accounts in step. -/
theorem encryptTurns_stage
    {encryptor : Encryptor}
    (agree : platform.SealsAgree)
    (healthy : platform.NeverFails)
    (valid : layout.Valid)
    (sameParameters : layout.parameters = context.parameters)
    (whole : plaintext.length = layout.plaintextLength)
    (representable : layout.ciphertextLength ≤ platform.target.usizeMax)
    (here : encryptor.At platform context 0)
    (draws : encryptor.state.Draws platform context tape 0)
    {position : Nat}
    (within : position ≤ layout.segmentCount) :
    ∃ current ciphertext,
      encryptTurns platform layout plaintext encryptor position =
          .ok (current, ciphertext) ∧
        EncryptStage platform context tape encryptor.header layout plaintext
          position current ciphertext := by
  induction position with
  | zero =>
      exact ⟨_, _, rfl, EncryptStage.start here draws⟩
  | succ position inductionHypothesis =>
      obtain ⟨current, ciphertext, reached, stage⟩ :=
        inductionHypothesis (by omega)
      obtain ⟨next, segment, turned, later⟩ :=
        stage.turn agree healthy valid sameParameters whole representable
          (by omega)
      refine ⟨next, ciphertext ++ segment, ?_, later⟩
      simp only [encryptTurns, reached, Outcome.ok_bind, turned]

end Stages

end Turns

/-! ## The segments of the message -/

/-- Encrypts the segments of a layout one after the other. -/
def EncryptionState.encryptSegments (platform : Platform)
    (plaintext : Bytes) :
    List SegmentLayout → EncryptionState → Result (List Bytes)
  | [], _ =>
      .ok []
  | segment :: later, state =>
      match state.encryptSegment platform (segment.payload plaintext)
          segment with
      | (.error stop, _) =>
          .error stop
      | (.ok ciphertext, state) => do
          let rest ← encryptSegments platform plaintext later state
          .ok (ciphertext :: rest)

section Segments

variable {platform : Platform} {context : MessageContext}
  {layout : MessageLayout} {plaintext ciphertext : Bytes}
  {tape other : Nat → UInt8} {state : EncryptionState} {position count : Nat}

/-- A state at the nonce of a segment encrypts that segment of the layout to
the specification's bytes. -/
theorem EncryptionState.Draws.encryptSegment
    (agree : platform.SealsAgree)
    (healthy : platform.NeverFails)
    (valid : layout.Valid)
    (sameParameters : layout.parameters = context.parameters)
    (whole : plaintext.length = layout.plaintextLength)
    (inside : position < layout.segmentCount)
    (written :
      specifiedSegment platform context position (layout.entry position).kind
          (nonceAt tape position)
          ((layout.entry position).payload plaintext) =
        some ((layout.entry position).segment ciphertext))
    (draws : state.Draws platform context other count)
    (same : nonceAt other count = nonceAt tape position) :
    ∃ next,
      state.encryptSegment platform
            ((layout.entry position).payload plaintext)
            (layout.entry position) =
          (.ok ((layout.entry position).segment ciphertext), next) ∧
        next.Draws platform context other (count + 1) := by
  have payload := valid.length_payload whole inside
  have fits := valid.fitsKind inside
  rw [← payload, sameParameters] at fits
  have bounded : position < aeadMaxSegments :=
    Nat.lt_of_lt_of_le inside valid.count_le
  obtain ⟨segment, next, result, specified, moved⟩ :=
    draws.encryptSegmentAt agree healthy bounded fits
  rw [same, written, Option.some.injEq] at specified
  have validated :
      state.validatePlaintextLayout
          ((layout.entry position).payload plaintext).length
          (layout.entry position) = .ok () := by
    have parameters : (layout.entry position).parameters =
        state.context.parameters := by
      rw [draws.ready.context_eq, ← sameParameters]
      rfl
    simp only [validatePlaintextLayout, validateLayout, parameters,
      ↓reduceIte, Outcome.ok_bind, payload]
  have placed : (layout.entry position).position = position := rfl
  refine ⟨next, ?_, moved⟩
  simp only [EncryptionState.encryptSegment, validated, placed, result,
    specified]

/-- The segments from a position on, encrypted one after the other. -/
theorem EncryptionState.Draws.encryptSegments
    (agree : platform.SealsAgree)
    (healthy : platform.NeverFails)
    (valid : layout.Valid)
    (sameParameters : layout.parameters = context.parameters)
    (whole : plaintext.length = layout.plaintextLength)
    (written : ∀ position, position < layout.segmentCount →
      specifiedSegment platform context position (layout.entry position).kind
          (nonceAt tape position)
          ((layout.entry position).payload plaintext) =
        some ((layout.entry position).segment ciphertext))
    (remaining : Nat)
    (within : position + remaining = layout.segmentCount)
    (draws : state.Draws platform context tape position) :
    state.encryptSegments platform plaintext
        ((List.range' position remaining).map layout.entry) =
      .ok (((List.range' position remaining).map layout.entry).map
        fun segment => segment.segment ciphertext) := by
  induction remaining generalizing position state with
  | zero =>
      rfl
  | succ remaining inductionHypothesis =>
      have inside : position < layout.segmentCount := by omega
      obtain ⟨next, result, moved⟩ :=
        draws.encryptSegment agree healthy valid sameParameters whole inside
          (written position inside) rfl
      have rest := inductionHypothesis
        (show position + 1 + remaining = layout.segmentCount by omega) moved
      simp only [List.range'_succ, List.map_cons,
        EncryptionState.encryptSegments, result, rest, Outcome.ok_bind]

end Segments

/-! ## Starting -/

section Start

variable {platform : Platform} {key : Key} {parameters : Parameters}
  {rng : ProviderRng}

/-- With a provider that does not fail, a key that resolves starts a
message. -/
theorem startEncryption_succeeds
    {provider : Provider}
    (healthy : platform.NeverFails)
    (random : rng.NeverFails)
    (aad : Bytes)
    (resolved : key.resolveProvider platform = .ok provider) :
    ∃ state header,
      startEncryption platform key aad parameters rng =
          .ok (state, header) ∧
        state.nonces.rng.NeverFails := by
  have filled : rng.fill floeIvLength =
      (.ok (), (List.range floeIvLength).map (rng 0).bytes,
        fun index => rng (index + 1)) := by
    simp only [ProviderRng.fill, random 0, ↓reduceIte]
  have width :
      ((List.range floeIvLength).map (rng 0).bytes).length = floeIvLength := by
    rw [List.length_map, List.length_range]
  obtain ⟨tag, tagged⟩ := healthy.derives provider headerTagLength
    key.bytes.val [parameters.encode.val,
      (List.range floeIvLength).map (rng 0).bytes, headerTagPurpose, aad]
    (by decide)
  obtain ⟨messageKey, derived⟩ := healthy.derives provider 48
    key.bytes.val [parameters.encode.val,
      (List.range floeIvLength).map (rng 0).bytes, messageKeyPurpose, aad]
    (by decide)
  let context : MessageContext :=
    ⟨provider, parameters, messageKey, ⟨_, width⟩, aad⟩
  obtain ⟨segmentKey, scheduled, _⟩ :=
    context.exists_segmentKey healthy (show 0 < aeadMaxSegments by decide)
  obtain ⟨keys, created⟩ :
      ∃ keys, KeyCache.new platform context = .ok keys := by
    rcases KeyCache.new_spec platform context with
      ⟨keys, created, _⟩ | ⟨_, missing⟩
    · exact ⟨keys, created⟩
    · rw [scheduled] at missing
      cases missing
  refine ⟨⟨context, keys, NonceGenerator.new fun index => rng (index + 1)⟩,
    Header.fromFields parameters.encode ⟨_, width⟩ tag, ?_, ?_⟩
  · simp only [startEncryption, resolved, filled, Outcome.ok_bind,
      Octets.ofSlice?_of_length width, Outcome.expect, deriveHeaderTag,
      deriveMessageKey, Platform.expand, tagged, derived, liftBackend]
    simp only [context] at created
    simp only [created, Outcome.ok_bind, context]
  · intro index
    exact random (index + 1)

end Start

/-! ## Whole messages -/

/-- A ciphertext follows the layout of its plaintext: it has the layout's
length, which is also the capacity reserved for it, and at each segment's offset
it holds what an encryption state at the same place of the nonce tape returns
for that segment. -/
structure FollowsLayout (platform : Platform) (state : EncryptionState)
    (header : Header) (layout : MessageLayout)
    (plaintext ciphertext : Bytes) : Prop where
  length : ciphertext.length = layout.ciphertextLength
  /-- No turn of the loop fails or lets the vector outgrow its capacity. -/
  reserved :
    ∀ turns, turns ≤ layout.segmentCount →
      ∃ encryptor vector,
        encryptTurns platform layout plaintext
            ⟨state, header, SegmentCounter.new⟩ turns =
          .ok (encryptor, vector) ∧
        vector.length ≤ layout.ciphertextLength
  begins : ciphertext.take headerLength = header.val
  segments :
    ∃ segments,
      layout.segments platform.target = .ok segments ∧
        state.encryptSegments platform plaintext segments =
          .ok (segments.map fun segment => segment.segment ciphertext) ∧
        ∀ segment ∈ segments, ∀ other : EncryptionState,
          other.Reached platform state.context →
            other.nonces.rng.NeverFails →
              other.nonces.upcoming =
                  nonceAt state.nonces.tape segment.position →
                (other.encryptSegment platform (segment.payload plaintext)
                    segment).1 =
                  .ok (segment.segment ciphertext)

section Messages

variable {platform : Platform} {key : Key} {aad : Bytes}
  {parameters : Parameters} {rng : ProviderRng} {plaintext : Bytes}

/-- A started encryptor encrypts every plaintext whose layout fits into
memory. -/
theorem encryptBody_followsLayout
    {state : EncryptionState}
    {header : Header}
    {layout : MessageLayout}
    (agree : platform.SealsAgree)
    (healthy : platform.NeverFails)
    (started :
      startEncryption platform key aad parameters rng = .ok (state, header))
    (random : state.nonces.rng.NeverFails)
    (calculated : parameters.plaintextLayout plaintext.length = .ok layout)
    (representable : layout.ciphertextLength ≤ platform.target.usizeMax) :
    ∃ ciphertext,
      encryptBody platform ⟨state, header, SegmentCounter.new⟩ plaintext =
          .ok ciphertext ∧
        FollowsLayout platform state header layout plaintext ciphertext := by
  have created :
      Encryptor.new platform key aad parameters rng =
        .ok ⟨state, header, SegmentCounter.new⟩ := by
    simp only [Encryptor.new, started, Outcome.ok_bind]
  obtain ⟨_, ofParameters, here⟩ :=
    Encryptor.new_eq_ok (Kdf.FaultOf.refl platform.kdfExpand) created
  simp only at ofParameters here
  obtain ⟨valid, sameParameters, whole, _⟩ :=
    Parameters.plaintextLayout_eq_ok calculated
  have ofContext : layout.parameters = state.context.parameters := by
    rw [sameParameters, ofParameters]
  have draws := EncryptionState.draws_self here.ready random
  have stages (turns : Nat) (within : turns ≤ layout.segmentCount) :=
    @encryptTurns_stage platform layout plaintext state.context
      state.nonces.tape ⟨state, header, SegmentCounter.new⟩ agree healthy
      valid ofContext whole.symm representable here draws turns within
  obtain ⟨last, ciphertext, ended, stage⟩ := stages _ (Nat.le_refl _)
  have loop := @encryptBodyLoop_eq platform layout plaintext
    ⟨state, header, SegmentCounter.new⟩ last ciphertext layout.segmentCount 0
    (some ⟨state, header, SegmentCounter.new⟩) header.val
    (fun turns within => by
      rw [Nat.zero_add] at within
      obtain ⟨current, vector, reached, _⟩ := stages turns within
      exact ⟨_, reached⟩)
    rfl (by rw [Nat.zero_add]; exact ended)
  refine ⟨ciphertext, ?_, ?_, ?_, stage.begins,
    _, valid.segments_eq platform.target, ?_, ?_⟩
  · have own : (⟨state, header, SegmentCounter.new⟩ : Encryptor).parameters =
        parameters :=
      ofParameters
    simp only [encryptBody, own, calculated, Outcome.ok_bind,
      Target.tryFromU64, representable, ↓reduceIte, Outcome.okOr, loop]
  · rw [stage.aligned, valid.reach_last]
  · intro turns within
    obtain ⟨current, vector, reached, earlier⟩ := stages turns within
    refine ⟨current, vector, reached, ?_⟩
    rw [earlier.aligned]
    exact valid.reach_le within
  · rw [List.range_eq_range']
    exact draws.encryptSegments agree healthy valid ofContext whole.symm
      stage.written layout.segmentCount (Nat.zero_add _)
  · intro segment member other reached steady upcoming
    obtain ⟨position, listed, rfl⟩ := List.mem_map.mp member
    have inside := List.mem_range.mp listed
    have ready := reached.ready agree
    have own := EncryptionState.draws_self ready steady
    obtain ⟨next, result, _⟩ :=
      own.encryptSegment agree healthy valid ofContext whole.symm inside
        (stage.written position inside)
        (own.upcoming_eq.symm.trans upcoming)
    rw [result]

/-- Everything that `encrypt` can do. -/
theorem encrypt_cases
    (agree : platform.SealsAgree)
    (healthy : platform.NeverFails)
    (random : rng.NeverFails)
    (key : Key)
    (aad : Bytes)
    (parameters : Parameters)
    (plaintext : Bytes) :
    (∃ layout state header ciphertext,
        (∃ provider, key.resolveProvider platform = .ok provider) ∧
          parameters.plaintextLayout plaintext.length = .ok layout ∧
          layout.ciphertextLength ≤ platform.target.usizeMax ∧
          startEncryption platform key aad parameters rng =
            .ok (state, header) ∧
          encrypt platform key aad parameters rng plaintext =
            .ok ciphertext ∧
          FollowsLayout platform state header layout plaintext
            ciphertext) ∨
      (∃ error,
          encrypt platform key aad parameters rng plaintext =
            .error (.err error)) ∧
        ¬ ((∃ provider, key.resolveProvider platform = .ok provider) ∧
          ∃ layout,
            parameters.plaintextLayout plaintext.length = .ok layout ∧
              layout.ciphertextLength ≤ platform.target.usizeMax) := by
  cases resolved : key.resolveProvider platform with
  | error stop =>
      have returns := resolveProvider_returns platform key
      rw [resolved] at returns
      obtain ⟨error, rfl⟩ := returns.stop_eq_err
      refine .inr ⟨⟨error, ?_⟩, ?_⟩
      · simp only [encrypt, Encryptor.new, startEncryption, resolved,
          Outcome.error_bind]
      · rintro ⟨⟨provider, impossible⟩, _⟩
        cases impossible
  | ok provider =>
      obtain ⟨state, header, started, steady⟩ :=
        @startEncryption_succeeds platform key parameters rng provider healthy
          random aad resolved
      have created :
          Encryptor.new platform key aad parameters rng =
            .ok ⟨state, header, SegmentCounter.new⟩ := by
        simp only [Encryptor.new, started, Outcome.ok_bind]
      obtain ⟨_, ofParameters, _⟩ :=
        Encryptor.new_eq_ok (Kdf.FaultOf.refl platform.kdfExpand) created
      have own :
          (⟨state, header, SegmentCounter.new⟩ : Encryptor).parameters =
            parameters :=
        ofParameters
      cases calculated : parameters.plaintextLayout plaintext.length with
      | error stop =>
          obtain ⟨error, rfl⟩ : ∃ error, stop = .err error := by
            rcases parameters.plaintextLayout_spec plaintext.length with
              ⟨layout, calculated', _⟩ | ⟨⟨error, refused⟩, _⟩
            · rw [calculated'] at calculated
              cases calculated
            · rw [refused] at calculated
              cases calculated
              exact ⟨error, rfl⟩
          refine .inr ⟨⟨error, ?_⟩, ?_⟩
          · simp only [encrypt, created, encryptBody, own, calculated,
              Outcome.ok_bind, Outcome.error_bind]
          · rintro ⟨_, layout, impossible, _⟩
            cases impossible
      | ok layout =>
          by_cases representable :
              layout.ciphertextLength ≤ platform.target.usizeMax
          · obtain ⟨ciphertext, encrypted, follows⟩ :=
              encryptBody_followsLayout agree healthy started steady
                calculated representable
            refine .inl ⟨layout, state, header, ciphertext,
              ⟨provider, rfl⟩, rfl, representable, started, ?_, follows⟩
            simp only [encrypt, created, Outcome.ok_bind, encrypted]
          · refine .inr ⟨⟨.lengthOverflow, ?_⟩, ?_⟩
            · simp only [encrypt, created, encryptBody, own, calculated,
                Outcome.ok_bind, Target.tryFromU64, representable,
                ↓reduceIte, Outcome.okOr, Outcome.error_bind]
            · rintro ⟨_, other, same, fits⟩
              cases same
              exact representable fits

/-- One-shot encryption conforms to its layout: with a key that resolves to a
provider, it succeeds exactly on the plaintexts whose layout can be calculated
and fits into memory, it never panics, and its result follows that layout. -/
theorem encrypt_followsLayout
    (agree : platform.SealsAgree)
    (healthy : platform.NeverFails)
    (random : rng.NeverFails)
    (key : Key)
    (aad : Bytes)
    (parameters : Parameters)
    (plaintext : Bytes) :
    ((∃ ciphertext,
        encrypt platform key aad parameters rng plaintext =
          .ok ciphertext) ↔
        (∃ provider, key.resolveProvider platform = .ok provider) ∧
          ∃ layout,
            parameters.plaintextLayout plaintext.length = .ok layout ∧
              layout.ciphertextLength ≤ platform.target.usizeMax) ∧
      (encrypt platform key aad parameters rng plaintext).Returns ∧
      ∀ ciphertext,
        encrypt platform key aad parameters rng plaintext = .ok ciphertext →
          ∃ layout state header,
            parameters.plaintextLayout plaintext.length = .ok layout ∧
              startEncryption platform key aad parameters rng =
                .ok (state, header) ∧
              FollowsLayout platform state header layout plaintext
                ciphertext := by
  rcases encrypt_cases agree healthy random key aad parameters plaintext with
    ⟨layout, state, header, ciphertext, resolves, calculated, representable,
      started, encrypted, follows⟩ | ⟨⟨error, refused⟩, lacking⟩
  · refine ⟨⟨fun _ => ⟨resolves, layout, calculated, representable⟩,
      fun _ => ⟨ciphertext, encrypted⟩⟩, ?_, ?_⟩
    · rw [encrypted]
      exact Outcome.returns_ok _
    · intro result same
      rw [encrypted] at same
      cases same
      exact ⟨layout, state, header, calculated, started, follows⟩
  · refine ⟨⟨?_, fun holds => (lacking holds).elim⟩, ?_, ?_⟩
    · rintro ⟨ciphertext, encrypted⟩
      rw [refused] at encrypted
      cases encrypted
    · rw [refused]
      exact Outcome.returns_err _
    · intro ciphertext encrypted
      rw [refused] at encrypted
      cases encrypted

end Messages

/-- A build of two providers, which has no default. -/
def twoProviders : Platform :=
  { openPlatform with compiled := [.ring, .rustCrypto] }

/-- A key that names no provider encrypts nothing in a build of two providers,
although the layout of the empty plaintext fits and nothing fails. -/
theorem encrypt_needsProvider :
    twoProviders.SealsAgree ∧ twoProviders.NeverFails ∧
      zeroRng.NeverFails ∧
      (∃ layout,
        shortestSegments.plaintextLayout 0 = .ok layout ∧
          layout.ciphertextLength ≤ twoProviders.target.usizeMax) ∧
      encrypt twoProviders zeroKey [] shortestSegments zeroRng [] =
        .error (.err .providerSelectionRequired) := by
  have agree := @transparent_sealsAgree fun _ _ _ => true
  have healthy := @transparent_neverFails fun _ _ _ => true
  exact ⟨agree, ⟨healthy.derives, healthy.accepts, healthy.seals⟩,
    fun _ => rfl, ⟨_, rfl, by decide⟩, rfl⟩

/-- A plaintext of one full segment and one more byte. -/
theorem encrypt_followsLayout_example :
    ∃ ciphertext layout state header,
      encrypt openPlatform zeroKey [] shortestSegments zeroRng
            (List.replicate 33 7) = .ok ciphertext ∧
        ciphertext.length = 171 ∧
        FollowsLayout openPlatform state header layout
          (List.replicate 33 7) ciphertext := by
  have conforms := @encrypt_followsLayout openPlatform zeroRng
    transparent_sealsAgree transparent_neverFails (fun _ => rfl) zeroKey []
    shortestSegments (List.replicate 33 7)
  obtain ⟨ciphertext, encrypted⟩ :=
    conforms.1.mpr ⟨⟨.rustCrypto, rfl⟩, _, rfl, by decide⟩
  obtain ⟨layout, state, header, calculated, _, follows⟩ :=
    conforms.2.2 ciphertext encrypted
  refine ⟨ciphertext, layout, state, header, encrypted, ?_, follows⟩
  have length := follows.length
  cases calculated
  exact length

end FastFloe
