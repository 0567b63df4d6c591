import FastFloe.FileOutcomes
import FastFloe.FileReads
import FastFloe.PlaintextStreams

namespace FastFloe

open Rust

/-!
# Encrypting a file segment by segment

The loop of `manual_file` reads the next payload of the layout, encrypts it in
the buffer and appends the segment to the output.  Whatever the system answers,
the output is a beginning of a sealed message of the input; and where `encrypt`
has an answer, it is a beginning of that answer.
-/

/-- What the iterator over a valid layout yields at a position. -/
theorem MessageLayout.Valid.next_eq
    {layout : MessageLayout}
    (valid : layout.Valid)
    (target : Target)
    (position : Nat) :
    Segments.next target ⟨layout, position, layout.segmentCount⟩ =
      if position < layout.segmentCount then
        (.ok (some (layout.entry position)),
          ⟨layout, position + 1, layout.segmentCount⟩)
      else
        (.ok none, ⟨layout, position, layout.segmentCount⟩) := by
  have within :
      Segments.Within ⟨layout, position, layout.segmentCount⟩ :=
    ⟨valid, Nat.le_refl _⟩
  by_cases more : position < layout.segmentCount
  · simp only [Segments.next, more, ↓reduceIte,
      within.segmentAt_eq target more, Except.map]
  · simp only [Segments.next, more, ↓reduceIte]

/-- The AEAD admits the kind of every segment of a valid layout at its
position. -/
theorem MessageLayout.Valid.positionAllows
    {layout : MessageLayout}
    {position : Nat}
    (valid : layout.Valid)
    (inside : position < layout.segmentCount) :
    PositionAllows position (layout.entry position).kind := by
  have bound := valid.count_le
  change PositionAllows position (kindAt layout.segmentCount position)
  unfold kindAt
  split
  · exact Nat.lt_of_lt_of_le inside bound
  · change position + 1 < aeadMaxSegments
    omega

/-- The last segment of a layout is the final one. -/
theorem MessageLayout.isFinal_entry
    (layout : MessageLayout)
    (position : Nat) :
    (layout.entry position).kind.isFinal =
      decide (position + 1 = layout.segmentCount) := by
  change (kindAt layout.segmentCount position).isFinal = _
  unfold kindAt
  split <;> simp_all [SegmentKind.isFinal]

/-- `encrypt_segment_in_place` takes the step of a segment of the message's
layout on the payload that its buffer holds. -/
theorem EncryptionState.encryptSegmentInPlace_spec
    {platform : Platform}
    {context : MessageContext}
    {state : EncryptionState}
    {buffer : SegmentBuffer}
    {segment : SegmentLayout}
    {payload : Bytes}
    (ready : state.Ready platform context)
    (holds : buffer.HoldsPlaintext payload)
    (parameters : buffer.parameters = context.parameters)
    (matching : segment.parameters = context.parameters)
    (length : payload.length = segment.plaintextLength) :
    ∃ next after,
      next.Ready platform context ∧
        ((∃ encrypted,
            state.sealNext platform payload segment.position segment.kind =
                (some encrypted, next) ∧
              state.encryptSegmentInPlace platform buffer segment =
                (.ok encrypted, next, after) ∧
              after.Sized ∧ after.parameters = context.parameters) ∨
          ∃ error,
            state.sealNext platform payload segment.position segment.kind =
                (none, next) ∧
              state.encryptSegmentInPlace platform buffer segment =
                (.error (.err error), next, after)) := by
  have validated :
      state.validatePlaintextLayout payload.length segment = .ok () := by
    simp only [EncryptionState.validatePlaintextLayout, validateLayout,
      ready.context_eq, matching, length, ↓reduceIte]
    rfl
  have reduces :
      state.encryptSegmentInPlace platform buffer segment =
        state.encryptSegmentInPlaceAt platform buffer segment.position
          segment.kind := by
    simp only [EncryptionState.encryptSegmentInPlace,
      holds.plaintextLength_eq, validated]
  rw [reduces]
  obtain ⟨next, nextReady,
      ⟨held, encrypted, after, read, step, result, same, settled⟩ |
        ⟨error, failed, step, result, _⟩⟩ :=
    EncryptionState.encryptSegmentInPlaceAt_spec buffer segment.position
      segment.kind (Kdf.FaultOf.refl platform.kdfExpand) ready
  · rw [holds.plaintext_eq] at read
    cases read
    exact ⟨next, after, nextReady, .inl ⟨encrypted, step, result,
      (settled holds.sized).sized, same.trans parameters⟩⟩
  · exact ⟨next, failed, nextReady,
      .inr ⟨error, step payload holds parameters, result⟩⟩

/-- What is left of a plaintext at a segment is its payload and what is left
behind it. -/
theorem MessageLayout.drop_eq
    {layout : MessageLayout}
    {plaintext : Bytes}
    (whole : plaintext.length = layout.plaintextLength)
    (position : Nat) :
    plaintext.drop (position * layout.parameters.plaintextSegmentLength) =
      (layout.entry position).payload plaintext ++
        plaintext.drop
          ((position + 1) * layout.parameters.plaintextSegmentLength) := by
  have payload :
      (layout.entry position).payload plaintext =
        (plaintext.drop
          (position * layout.parameters.plaintextSegmentLength)).take
            layout.parameters.plaintextSegmentLength := by
    rw [List.take_eq_take_min, List.length_drop, whole]
    rfl
  rw [payload, Nat.succ_mul, ← List.drop_drop, List.take_append_drop]

/-- The step that seals the segment of a layout at a position. -/
def EncryptionState.sealEntry (platform : Platform) (state : EncryptionState)
    (layout : MessageLayout) (plaintext : Bytes) (position : Nat) :
    Option Bytes × EncryptionState :=
  state.sealNext platform ((layout.entry position).payload plaintext) position
    (layout.entry position).kind

/-- The stream that a state seals starts with the segment of the layout's next
entry and goes on with what the next state seals. -/
theorem EncryptionState.SealsStream.sealEntry
    {platform : Platform}
    {state : EncryptionState}
    {layout : MessageLayout}
    {plaintext stream : Bytes}
    {position : Nat}
    (valid : layout.Valid)
    (own : state.context.parameters = layout.parameters)
    (whole : plaintext.length = layout.plaintextLength)
    (needed :
      layout.segmentCount = 1 ∨
        (layout.segmentCount - 1) * layout.parameters.plaintextSegmentLength <
          layout.plaintextLength)
    (inside : position < layout.segmentCount)
    (seals :
      state.SealsStream platform position
        (plaintext.drop (position * layout.parameters.plaintextSegmentLength))
        stream) :
    ∃ segment next later,
      state.sealEntry platform layout plaintext position =
          (some segment, next) ∧
        stream = segment ++ later ∧
        (position + 1 = layout.segmentCount → later = []) ∧
        (position + 1 ≠ layout.segmentCount →
          next.SealsStream platform (position + 1)
            (plaintext.drop
              ((position + 1) * layout.parameters.plaintextSegmentLength))
            later) := by
  have short (isLast : position + 1 = layout.segmentCount) :
      (plaintext.drop
          (position * layout.parameters.plaintextSegmentLength)).length ≤
        layout.parameters.plaintextSegmentLength := by
    have within := valid.within
    rw [← isLast, Nat.succ_mul] at within
    rw [List.length_drop, whole]
    omega
  have long (more : position + 1 ≠ layout.segmentCount) :
      layout.parameters.plaintextSegmentLength <
        (plaintext.drop
          (position * layout.parameters.plaintextSegmentLength)).length := by
    have scaled :=
      Nat.mul_le_mul_right layout.parameters.plaintextSegmentLength
        (show position + 1 ≤ layout.segmentCount - 1 by omega)
    rw [Nat.succ_mul] at scaled
    rw [List.length_drop, whole]
    omega
  have payload :
      (layout.entry position).payload plaintext =
        (plaintext.drop
          (position * layout.parameters.plaintextSegmentLength)).take
            layout.parameters.plaintextSegmentLength := by
    rw [List.take_eq_take_min, List.length_drop, whole]
    rfl
  by_cases isLast : position + 1 = layout.segmentCount
  · have kind : (layout.entry position).kind = .final := if_pos isLast
    cases seals with
    | @last state next _ _ segment _ step =>
        refine ⟨stream, next, [], ?_, (List.append_nil _).symm, fun _ => rfl,
          fun more => (more isLast).elim⟩
        rw [EncryptionState.sealEntry, payload, kind,
          List.take_of_length_le (short isLast)]
        exact step
    | more longer _ _ _ =>
        rw [own] at longer
        exact (Nat.not_lt.mpr (short isLast) longer).elim
  · have kind : (layout.entry position).kind = .nonFinal := if_neg isLast
    cases seals with
    | last _ step =>
        have fits := (EncryptionState.fitsKind_of_sealNext step).le
        rw [own] at fits
        exact (Nat.not_lt.mpr fits (long isLast)).elim
    | @more _ next _ _ segment later _ _ step rest =>
        refine ⟨segment, next, later, ?_, rfl,
          fun ends => (isLast ends).elim, fun _ => ?_⟩
        · rw [EncryptionState.sealEntry, payload, kind, ← own]
          rw [own] at step ⊢
          exact step
        · rw [own, List.drop_drop, ← Nat.succ_mul] at rest
          exact rest

/-- A started encryption is ready under the header that it returns. -/
theorem startEncryption_ready
    {platform : Platform}
    {key : Key}
    {aad : Bytes}
    {parameters : Parameters}
    {rng : ProviderRng}
    {state : EncryptionState}
    {header : Header}
    (started :
      startEncryption platform key aad parameters rng = .ok (state, header)) :
    HeaderAuthenticates platform key aad header state.context ∧
      state.context.parameters = parameters ∧
      state.Ready platform state.context := by
  obtain ⟨authentic, own, coherent, _, _, nonces⟩ :=
    startEncryption_eq_ok (Kdf.FaultOf.refl platform.kdfExpand) started
  refine ⟨authentic, own, rfl, coherent, ?_⟩
  rw [nonces]
  exact NonceGenerator.wellFormed_new _

/-- Where `encrypt` has an answer, `start_encryption` succeeds and its state
seals the plaintext to the rest of the answer. -/
theorem encrypt_startsStream
    {platform : Platform}
    {key : Key}
    {aad plaintext : Bytes}
    {parameters : Parameters}
    {rng : ProviderRng}
    {ciphertext : Bytes}
    (agree : platform.SealsAgree)
    (encrypted :
      encrypt platform key aad parameters rng plaintext = .ok ciphertext) :
    ∃ (encryptor : Encryptor) (stream : Bytes) (layout : MessageLayout),
      startEncryption platform key aad parameters rng =
          .ok (encryptor.state, encryptor.header) ∧
        parameters.plaintextLayout plaintext.length = .ok layout ∧
        encryptor.state.SealsStream platform 0 plaintext stream ∧
        ciphertext = encryptor.header.val ++ stream := by
  obtain ⟨encryptor, stream, created, seals, rfl⟩ :=
    encrypt_sealsStream agree encrypted
  obtain ⟨⟨state, header⟩, begun, shape⟩ := Outcome.bind_eq_ok.mp created
  cases shape
  obtain ⟨_, own, _⟩ := startEncryption_ready begun
  simp only [encrypt, created, Outcome.ok_bind, encryptBody,
    Outcome.bind_eq_ok] at encrypted
  obtain ⟨layout, calculated, _⟩ := encrypted
  have same :
      (⟨state, header, SegmentCounter.new⟩ : Encryptor).parameters =
        parameters :=
    own
  rw [same] at calculated
  exact ⟨_, stream, layout, begun, calculated, seals, rfl⟩

namespace ManualFile

section Encryption

variable {platform : Platform} {context : MessageContext}
  {layout : MessageLayout} {plaintext : Bytes} {position : Nat}
  {encryption : EncryptionState} {buffer : SegmentBuffer}
  {input : Source IoPayload}

/-- The loop of `encrypt_file` before the segment at a position. -/
structure Encrypting (platform : Platform) (context : MessageContext)
    (layout : MessageLayout) (plaintext : Bytes) (position : Nat)
    (encryption : EncryptionState) (buffer : SegmentBuffer)
    (input : Source IoPayload) : Prop where
  ready : encryption.Ready platform context
  sized : buffer.Sized
  parameters : buffer.parameters = context.parameters
  left :
    input.remaining =
      plaintext.drop (position * layout.parameters.plaintextSegmentLength)

/-- The read of the next payload: an honest source fills the buffer with the
payload that the layout has here, and stands behind it. -/
theorem Encrypting.readEntry
    (valid : layout.Valid)
    (matching : layout.parameters = context.parameters)
    (whole : plaintext.length = layout.plaintextLength)
    (inside : position < layout.segmentCount)
    (encrypting :
      Encrypting platform context layout plaintext position encryption buffer
        input) :
    ∃ region result filled following,
      buffer.preparePlaintext (layout.entry position).plaintextLength =
          (.ok region,
            { buffer with
              state := .plaintext (layout.entry position).plaintextLength }) ∧
        readExact input region = (result, filled, following) ∧
        result.Returns ∧
        (input.Honest → result = .ok () ∧ following.Honest) ∧
        (result = .ok () →
          (SegmentBuffer.withRaw
              { buffer with
                state := .plaintext (layout.entry position).plaintextLength }
              (writeBack buffer.bytes segmentPayloadOffset
                filled)).HoldsPlaintext
              ((layout.entry position).payload plaintext) ∧
            following.remaining =
              plaintext.drop
                ((position + 1) *
                  layout.parameters.plaintextSegmentLength)) := by
  have size := valid.length_payload whole inside
  have bounds := (valid.entry_bounds inside).1
  have fits : (layout.entry position).plaintextLength ≤
      buffer.parameters.plaintextSegmentLength := by
    rw [encrypting.parameters, ← matching]
    exact Nat.min_le_left _ _
  obtain ⟨region, prepared, length⟩ := encrypting.sized.preparePlaintext fits
  obtain ⟨result, filled, following, read, returns, exactly, honest⟩ :=
    readExact_spec input region
  have enough : region.length ≤ input.remaining.length := by
    rw [length, encrypting.left, List.length_drop, whole]
    omega
  refine ⟨region, result, filled, following, prepared, read, returns,
    fun isHonest => honest isHonest enough, fun ok => ?_⟩
  obtain ⟨filledLength, taken⟩ := exactly ok
  rw [encrypting.left] at taken
  have content : filled = (layout.entry position).payload plaintext := by
    rw [SegmentLayout.payload, ← length, ← filledLength]
    change filled = (plaintext.drop (position * _)).take filled.length
    rw [← taken, List.take_left]
  have holds := @SegmentBuffer.Sized.filled buffer filled filled.length
    encrypting.sized (by rwa [filledLength, length]) (Nat.le_refl _)
  rw [List.take_length, filledLength, length] at holds
  refine ⟨content ▸ holds, ?_⟩
  rw [MessageLayout.drop_eq whole, ← content] at taken
  exact List.append_cancel_left taken

/-- One turn of the loop of `encrypt_file`: it appends the segment of its step
and goes on, or fails with at most a part of that segment written. -/
theorem Encrypting.turn
    (valid : layout.Valid)
    (matching : layout.parameters = context.parameters)
    (whole : plaintext.length = layout.plaintextLength)
    (inside : position < layout.segmentCount)
    (encrypting :
      Encrypting platform context layout plaintext position encryption buffer
        input)
    (fuel : Nat)
    (output : Sink IoPayload) :
    (∃ segment next after following written,
        encryption.sealEntry platform layout plaintext position =
            (some segment, next) ∧
          encryptLoop platform (fuel + 1)
              ⟨layout, position, layout.segmentCount⟩ encryption buffer input
              output =
            encryptLoop platform fuel
              ⟨layout, position + 1, layout.segmentCount⟩ next after following
              written ∧
          Encrypting platform context layout plaintext (position + 1) next
            after following ∧
          written.accepted = output.accepted ++ segment ∧
          (input.Honest → following.Honest) ∧
          (output.Reliable → written.Reliable)) ∨
      ∃ error written,
        encryptLoop platform (fuel + 1)
              ⟨layout, position, layout.segmentCount⟩ encryption buffer input
              output =
            (.error (.err error), written) ∧
          ((written.accepted = output.accepted ∧
              (input.Honest →
                (encryption.sealEntry platform layout plaintext position).1 =
                  none)) ∨
            ∃ segment part,
              (encryption.sealEntry platform layout plaintext position).1 =
                  some segment ∧
                part <+: segment ∧
                written.accepted = output.accepted ++ part ∧
                ¬ output.Reliable) := by
  obtain ⟨region, result, filled, following, prepared, read, returns, honest,
      exactly⟩ :=
    encrypting.readEntry valid matching whole inside
  cases result with
  | error stop =>
      obtain ⟨error, rfl⟩ := returns.stop_eq_err
      right
      refine ⟨.io error, output, ?_, .inl ⟨rfl, fun isHonest => ?_⟩⟩
      · simp only [encryptLoop, valid.next_eq, inside, ↓reduceIte, prepared,
          read, Outcome.mapErr]
      · cases (honest isHonest).1
  | ok _ =>
      obtain ⟨holds, rest⟩ := exactly rfl
      obtain ⟨next, after, ready, outcome⟩ :=
        @EncryptionState.encryptSegmentInPlace_spec _ _ _ _
          (layout.entry position) _ encrypting.ready holds
          encrypting.parameters matching (valid.length_payload whole inside)
      have step :
          encryption.sealNext platform
              ((layout.entry position).payload plaintext)
              (layout.entry position).position (layout.entry position).kind =
            encryption.sealEntry platform layout plaintext position :=
        rfl
      rw [step] at outcome
      rcases outcome with ⟨segment, sealed, result, sized, same⟩ |
          ⟨error, refused, result⟩
      · rcases output.writeAll_cases segment with
          ⟨written, wrote, accepted, steady⟩ |
            ⟨error, written, part, wrote, lead, accepted, unreliable⟩
        · left
          refine ⟨segment, next, after, following, written, sealed, ?_,
            ⟨ready, sized, same, rest⟩, accepted,
            fun isHonest => (honest isHonest).2, steady⟩
          simp only [encryptLoop, valid.next_eq, inside, ↓reduceIte, prepared,
            read]
          simp only [show encryption.encryptSegmentInPlace platform _ _ = _
            from result, wrote]
        · right
          refine ⟨.io error, written, ?_, .inr ⟨segment, part,
            by rw [sealed], lead, accepted, unreliable⟩⟩
          simp only [encryptLoop, valid.next_eq, inside, ↓reduceIte, prepared,
            read]
          simp only [show encryption.encryptSegmentInPlace platform _ _ = _
            from result, wrote, Outcome.mapErr]
      · right
        refine ⟨.floe error, output, ?_, .inl ⟨rfl, fun _ => by
          rw [refused]⟩⟩
        simp only [encryptLoop, valid.next_eq, inside, ↓reduceIte, prepared,
          read]
        simp only [show encryption.encryptSegmentInPlace platform _ _ = _
          from result, Outcome.mapErr]

/-- What has been sealed when the loop is before a position. -/
structure Sealed (platform : Platform) (context : MessageContext)
    (layout : MessageLayout) (plaintext : Bytes) (position : Nat)
    (body : Bytes) (payloads : List Bytes) : Prop where
  passed :
    (segmentStream platform context).Passed 0 body payloads
      (decide (position = layout.segmentCount)) []
  count : payloads.length = position
  content :
    payloads.flatten ++
        plaintext.drop (position * layout.parameters.plaintextSegmentLength) =
      plaintext

/-- The next segment is sealed behind those before. -/
theorem Sealed.next
    {body segment : Bytes}
    {payloads : List Bytes}
    {following : EncryptionState}
    (roundTrips : platform.RoundTrips)
    (valid : layout.Valid)
    (whole : plaintext.length = layout.plaintextLength)
    (inside : position < layout.segmentCount)
    (ready : encryption.Ready platform context)
    (sealed : Sealed platform context layout plaintext position body payloads)
    (step :
      encryption.sealEntry platform layout plaintext position =
        (some segment, following)) :
    Sealed platform context layout plaintext (position + 1) (body ++ segment)
      (payloads ++ [(layout.entry position).payload plaintext]) := by
  have opens := (EncryptReader.seals_of_sealNext ready step).opens roundTrips
  have isFrame := isFrame_iff.mpr ⟨valid.positionAllows inside, opens⟩
  have before : decide (position = layout.segmentCount) = false :=
    decide_eq_false (Nat.ne_of_lt inside)
  obtain ⟨passed, count, content⟩ := sealed
  rw [before] at passed
  rw [MessageLayout.isFinal_entry] at isFrame
  refine ⟨passed.frame (by rwa [Nat.zero_add, count]), ?_, ?_⟩
  · rw [List.length_append, count, List.length_singleton]
  · rw [List.flatten_append, List.flatten_singleton, List.append_assoc,
      ← MessageLayout.drop_eq whole]
    exact content

/-- The loop of `encrypt_file` comes back, and leaves a beginning of a sealed
message. -/
theorem Encrypting.encryptLoop_leaves
    {header : Header}
    {body : Bytes}
    {payloads : List Bytes}
    {output : Sink IoPayload}
    {fuel left : Nat}
    (roundTrips : platform.RoundTrips)
    (valid : layout.Valid)
    (matching : layout.parameters = context.parameters)
    (whole : plaintext.length = layout.plaintextLength)
    (here : position + left = layout.segmentCount)
    (enough : left < fuel)
    (encrypting :
      Encrypting platform context layout plaintext position encryption buffer
        input)
    (sealed : Sealed platform context layout plaintext position body payloads)
    (accepted : output.accepted = header.val ++ body) :
    LeavesSealed platform context header plaintext
      (encryptLoop platform fuel ⟨layout, position, layout.segmentCount⟩
        encryption buffer input output).1
      (encryptLoop platform fuel ⟨layout, position, layout.segmentCount⟩
        encryption buffer input output).2.accepted := by
  induction left generalizing position encryption buffer input output body
      payloads fuel with
  | zero =>
      obtain ⟨fuel, rfl⟩ : ∃ more, fuel = more + 1 := ⟨fuel - 1, by omega⟩
      have done : ¬ position < layout.segmentCount := by omega
      have last : position = layout.segmentCount := here
      obtain ⟨passed, _, content⟩ := sealed
      have nothing :
          plaintext.drop
            (position * layout.parameters.plaintextSegmentLength) = [] := by
        apply List.drop_eq_nil_of_le
        rw [whole, last]
        exact valid.within
      rw [nothing, List.append_nil] at content
      rw [decide_eq_true last] at passed
      simp only [encryptLoop, valid.next_eq, done, ↓reduceIte]
      refine ⟨Outcome.returns_ok _, body, payloads, true, passed, ?_,
        fun _ => content, ?_, fun _ => ⟨accepted, rfl⟩⟩
      · exact content ▸ List.prefix_rfl
      · exact accepted ▸ List.prefix_rfl
  | succ left inductionHypothesis =>
      obtain ⟨fuel, rfl⟩ : ∃ more, fuel = more + 1 := ⟨fuel - 1, by omega⟩
      have inside : position < layout.segmentCount := by omega
      have lead : payloads.flatten <+: plaintext :=
        ⟨_, sealed.content⟩
      rcases encrypting.turn valid matching whole inside fuel output with
        ⟨segment, next, after, following, written, step, goesOn, onward,
          longer, _⟩ | ⟨error, written, failed, stopped⟩
      · have further :=
          sealed.next roundTrips valid whole inside encrypting.ready step
        rw [goesOn]
        apply inductionHypothesis (by omega) (by omega) onward further
        rw [longer, accepted, List.append_assoc]
      · rw [failed]
        rcases stopped with ⟨unchanged, _⟩ |
            ⟨segment, part, step, begins, longer, _⟩
        · refine ⟨Outcome.returns_err _, body, payloads, _, sealed.passed,
            lead, fun complete => ?_, ?_, (fun impossible => by
              cases impossible)⟩
          · have last := of_decide_eq_true complete
            omega
          · simp only [unchanged, accepted, List.prefix_rfl]
        · have further :=
            sealed.next roundTrips valid whole inside encrypting.ready
              (Prod.ext step rfl)
          obtain ⟨passed, count, content⟩ := further
          refine ⟨Outcome.returns_err _, body ++ segment, _, _, passed,
            ⟨_, content⟩, fun complete => ?_, ?_, (fun impossible => by
              cases impossible)⟩
          · have nothing : plaintext.drop
                ((position + 1) *
                  layout.parameters.plaintextSegmentLength) = [] := by
              apply List.drop_eq_nil_of_le
              rw [whole, of_decide_eq_true complete]
              exact valid.within
            rwa [nothing, List.append_nil] at content
          · simp only [longer, accepted, List.append_assoc]
            exact (List.prefix_append_right_inj _).mpr
              ((List.prefix_append_right_inj _).mpr begins)

/-- The loop of `encrypt_file` appends a beginning of the sealed stream, all of
it when it succeeds, which it does when the calls to the system do. -/
theorem Encrypting.encryptLoop_streams
    {stream : Bytes}
    {output : Sink IoPayload}
    {fuel left : Nat}
    (valid : layout.Valid)
    (matching : layout.parameters = context.parameters)
    (whole : plaintext.length = layout.plaintextLength)
    (needed :
      layout.segmentCount = 1 ∨
        (layout.segmentCount - 1) * layout.parameters.plaintextSegmentLength <
          layout.plaintextLength)
    (here : position + left = layout.segmentCount)
    (enough : left < fuel)
    (encrypting :
      Encrypting platform context layout plaintext position encryption buffer
        input)
    (ended : position = layout.segmentCount → stream = [])
    (seals :
      position ≠ layout.segmentCount →
        encryption.SealsStream platform position
          (plaintext.drop
            (position * layout.parameters.plaintextSegmentLength)) stream) :
    ∃ result written after,
      encryptLoop platform fuel ⟨layout, position, layout.segmentCount⟩
          encryption buffer input output =
          (result, after) ∧
        after.accepted = output.accepted ++ written ∧
        written <+: stream ∧
        (result = .ok () → written = stream) ∧
        (input.Honest → output.Reliable → result = .ok ()) := by
  induction left generalizing position encryption buffer input output stream
      fuel with
  | zero =>
      obtain ⟨fuel, rfl⟩ : ∃ more, fuel = more + 1 := ⟨fuel - 1, by omega⟩
      have done : ¬ position < layout.segmentCount := by omega
      refine ⟨.ok (), [], output, ?_, (List.append_nil _).symm,
        List.nil_prefix, fun _ => (ended here).symm, fun _ _ => rfl⟩
      simp only [encryptLoop, valid.next_eq, done, ↓reduceIte]
  | succ left inductionHypothesis =>
      obtain ⟨fuel, rfl⟩ : ∃ more, fuel = more + 1 := ⟨fuel - 1, by omega⟩
      have inside : position < layout.segmentCount := by omega
      have own : encryption.context.parameters = layout.parameters := by
        rw [encrypting.ready.context_eq, matching]
      obtain ⟨segment, next, later, step, rfl, ends, goes⟩ :=
        (seals (Nat.ne_of_lt inside)).sealEntry valid own whole needed inside
      rcases encrypting.turn valid matching whole inside fuel output with
        ⟨_, _, after, following, sink, sealed, goesOn, onward, longer, honest,
          reliable⟩ | ⟨error, sink, failed, stopped⟩
      · rw [step] at sealed
        cases sealed
        obtain ⟨result, written, final, looped, accepted, isPrefix, complete,
            succeeds⟩ :=
          @inductionHypothesis _ _ _ _ _ sink fuel (by omega) (by omega)
            onward ends goes
        refine ⟨result, segment ++ written, final, goesOn.trans looped, ?_,
          (List.prefix_append_right_inj _).mpr isPrefix, fun ok => ?_,
          fun isHonest isReliable =>
            succeeds (honest isHonest) (reliable isReliable)⟩
        · rw [accepted, longer, List.append_assoc]
        · rw [complete ok]
      · rw [step] at stopped
        rcases stopped with ⟨unchanged, refused⟩ |
            ⟨_, part, same, begins, longer, unreliable⟩
        · refine ⟨_, [], sink, failed, ?_, List.nil_prefix,
            (fun impossible => by cases impossible), fun isHonest _ => ?_⟩
          · rw [unchanged, List.append_nil]
          · cases refused isHonest
        · cases same
          exact ⟨_, part, sink, failed, longer,
            begins.trans (List.prefix_append _ _),
            (fun impossible => by cases impossible),
            fun _ isReliable => (unreliable isReliable).elim⟩

/-- The loop of `encrypt_file` starts before the first segment. -/
theorem Encrypting.start
    (ready : encryption.Ready platform context)
    (whole : input.remaining = plaintext) :
    Encrypting platform context layout plaintext 0 encryption
      (SegmentBuffer.new context.parameters) input := by
  refine ⟨ready, SegmentBuffer.sized_new _, rfl, ?_⟩
  rw [Nat.zero_mul, List.drop_zero]
  exact whole

/-- What `encrypt_file` writes into the file that it created. -/
theorem encryptInto_leaves
    {output : Sink IoPayload}
    (roundTrips : platform.RoundTrips)
    (header : Header)
    (ready : encryption.Ready platform context)
    (whole : input.remaining = plaintext)
    (fresh : output.accepted = []) :
    LeavesSealed platform context header plaintext
      (encryptInto platform encryption header context.parameters
        plaintext.length input output).1
      (encryptInto platform encryption header context.parameters
        plaintext.length input output).2.accepted := by
  obtain ⟨part, accepted, lead, returns, all⟩ := output.writeAll_spec header.val
  rw [fresh, List.nil_append] at accepted
  -- Nothing has been sealed yet.
  have early {result : AnyResult Unit} {contents : Bytes}
      (same : contents = part)
      (comesBack : result.Returns)
      (failed : result ≠ .ok ()) :
      LeavesSealed platform context header plaintext result contents := by
    subst same
    refine ⟨comesBack, [], [], false, .start, List.nil_prefix,
      (fun impossible => by cases impossible), ?_,
      fun ok => (failed ok).elim⟩
    rw [List.append_nil]
    exact lead
  unfold encryptInto
  rcases wrote : output.writeAll header.val with ⟨stop | _, after⟩
  · rw [wrote] at accepted returns
    obtain ⟨error, rfl⟩ := returns.stop_eq_err
    exact early accepted (Outcome.returns_err _) (by simp [Outcome.mapErr])
  · rw [wrote] at accepted all
    cases calculated : context.parameters.plaintextLayout plaintext.length with
    | error stop =>
        obtain ⟨error, rfl⟩ : ∃ error, stop = .err error := by
          rcases context.parameters.plaintextLayout_spec plaintext.length with
            ⟨_, calculated', _⟩ | ⟨⟨error, refused⟩, _⟩
          · rw [calculated'] at calculated
            cases calculated
          · rw [refused] at calculated
            cases calculated
            exact ⟨error, rfl⟩
        exact early accepted (Outcome.returns_err _)
          (by simp [Outcome.mapErr])
    | ok layout =>
        obtain ⟨valid, same, length, _⟩ :=
          Parameters.plaintextLayout_eq_ok calculated
        have positive := valid.count_pos
        have unfinished : decide (0 = layout.segmentCount) = false :=
          decide_eq_false (Nat.ne_of_lt positive)
        have nothing :
            Sealed platform context layout plaintext 0 [] [] := by
          refine ⟨?_, rfl, by simp⟩
          rw [unfinished]
          exact .start
        apply Encrypting.encryptLoop_leaves roundTrips valid same
          length.symm (Nat.zero_add layout.segmentCount) (Nat.lt_succ_self _)
          (.start ready whole) nothing
        rw [accepted, all rfl, List.append_nil]

/-- What `encrypt_file` writes is a beginning of what `encrypt` returns. -/
theorem encryptInto_streams
    {output : Sink IoPayload}
    {stream : Bytes}
    (header : Header)
    (ready : encryption.Ready platform context)
    (calculated :
      context.parameters.plaintextLayout plaintext.length = .ok layout)
    (seals : encryption.SealsStream platform 0 plaintext stream)
    (whole : input.remaining = plaintext)
    (fresh : output.accepted = []) :
    ∃ result after,
      encryptInto platform encryption header context.parameters
          plaintext.length input output =
          (result, after) ∧
        after.accepted <+: header.val ++ stream ∧
        (result = .ok () → after.accepted = header.val ++ stream) ∧
        (input.Honest → output.Reliable → result = .ok ()) := by
  unfold encryptInto
  rcases output.writeAll_cases header.val with
    ⟨after, wrote, accepted, steady⟩ |
      ⟨error, after, part, wrote, lead, accepted, unreliable⟩
  · rw [fresh, List.nil_append] at accepted
    simp only [wrote]
    obtain ⟨valid, same, length, _⟩ :=
      Parameters.plaintextLayout_eq_ok calculated
    have positive := valid.count_pos
    obtain ⟨result, written, final, looped, longer, isPrefix, complete,
        succeeds⟩ :=
      @Encrypting.encryptLoop_streams platform context layout plaintext 0
        encryption (SegmentBuffer.new context.parameters) input stream after
        (layout.segmentCount + 1) layout.segmentCount valid same length.symm
        (Parameters.plaintextLayout_needed calculated)
        (Nat.zero_add _) (Nat.lt_succ_self _) (.start ready whole)
        (fun none => by omega)
        (fun _ => by rwa [Nat.zero_mul, List.drop_zero])
    have looped' :
        encryptLoop platform (layout.segmentCount + 1) layout.intoIter
            encryption (SegmentBuffer.new context.parameters) input after =
          (result, final) :=
      looped
    refine ⟨result, final, ?_, ?_, fun ok => ?_, fun honest reliable => ?_⟩
    · simp only [calculated, looped']
    · rw [longer, accepted]
      exact (List.prefix_append_right_inj _).mpr isPrefix
    · rw [longer, accepted, complete ok]
    · exact succeeds honest (steady reliable)
  · rw [fresh, List.nil_append] at accepted
    simp only [wrote]
    refine ⟨_, after, rfl, ?_, (fun impossible => by cases impossible),
      fun _ reliable => (unreliable reliable).elim⟩
    rw [accepted]
    exact lead.trans (List.prefix_append _ _)

/-- `encrypt_file` fails without an effect, or gets to writing its output. -/
theorem encryptFile_cases
    (platform : Platform)
    (environment : Environment IoPayload)
    (rng : ProviderRng)
    (disk : Disk)
    (inputPath outputPath : Path)
    (key : Key)
    (parameters : Parameters) :
    (∃ error,
        encryptFile platform environment rng disk inputPath outputPath key
            parameters =
          (.error (.err error), disk) ∧
        (environment.Faultless → disk.file outputPath = none →
          ∀ started plaintext,
            startEncryption platform key fileAad parameters rng =
                .ok started →
              disk.file inputPath = some plaintext →
              u64Max < plaintext.length)) ∨
      ∃ state header source plaintext,
        startEncryption platform key fileAad parameters rng =
            .ok (state, header) ∧
          disk.file inputPath = some plaintext ∧
          disk.file outputPath = none ∧
          source.remaining = plaintext ∧
          (environment.Faultless → source.Honest) ∧
          encryptFile platform environment rng disk inputPath outputPath key
              parameters =
            ((encryptInto platform state header parameters plaintext.length
                source ⟨[], environment.writes⟩).1,
              disk.put outputPath
                (encryptInto platform state header parameters plaintext.length
                  source ⟨[], environment.writes⟩).2.accepted) := by
  unfold encryptFile
  cases begun : startEncryption platform key fileAad parameters rng with
  | error stop =>
      have returns :=
        startEncryption_returns platform key fileAad parameters rng
      rw [begun] at returns
      obtain ⟨error, rfl⟩ := returns.stop_eq_err
      exact .inl ⟨.floe error, rfl, fun _ _ _ _ impossible => by
        cases impossible⟩
  | ok started =>
      obtain ⟨state, header⟩ := started
      rcases @openFile_spec _ environment disk inputPath with
        ⟨plaintext, source, opened, present, data, cursor, script⟩ |
          ⟨⟨error, refused⟩, large⟩
      · have measured := @metadataLen_spec _ environment source
        have created := @createNew_spec _ environment disk outputPath
        simp only [opened, Outcome.mapErr, Outcome.ok_bind]
        rcases measured with measured | ⟨⟨error, refused⟩, faulty⟩
        · rcases created with ⟨created, absent⟩ | ⟨⟨error, refused⟩, occupied⟩
          · right
            refine ⟨state, header, source, plaintext, rfl, present, absent, ?_,
              fun faultless event member => ?_, ?_⟩
            · rw [Source.remaining, data, cursor, List.drop_zero]
            · rw [script] at member
              exact faultless.reads event member
            · simp only [measured, created, Outcome.ok_bind, data,
                Disk.put_put]
          · left
            refine ⟨.io error, ?_, fun faultless absent => ?_⟩
            · simp only [measured, refused, Outcome.ok_bind,
                Outcome.error_bind]
            · exact (occupied faultless.creates absent).elim
        · left
          refine ⟨.io error, ?_, fun faultless => ?_⟩
          · simp only [refused, Outcome.error_bind]
          · exact (faulty faultless.measures).elim
      · left
        refine ⟨.io error, ?_, fun faultless _ _ plaintext _ present => ?_⟩
        · simp only [refused, Outcome.mapErr, Outcome.ok_bind,
            Outcome.error_bind]
        · exact large faultless.opens plaintext present

/-- `encrypt_file` under any answers of the system. -/
theorem encryptFile_encryptsFile
    (roundTrips : platform.RoundTrips)
    (environment : Environment IoPayload)
    (rng : ProviderRng)
    (disk : Disk)
    (inputPath outputPath : Path)
    (key : Key)
    (parameters : Parameters) :
    EncryptsFile platform key parameters disk inputPath outputPath
      (encryptFile platform environment rng disk inputPath outputPath key
        parameters) := by
  rcases encryptFile_cases platform environment rng disk inputPath outputPath
      key parameters with
    ⟨error, failed, _⟩ |
      ⟨state, header, source, contents, started, present, absent, whole, _,
        computed⟩
  · rw [failed]
    exact .inl ⟨Outcome.returns_err _, by simp, rfl⟩
  · obtain ⟨authentic, rfl, ready⟩ := startEncryption_ready started
    rw [computed]
    exact .inr ⟨contents, header, state.context, _, present, absent, rfl,
      authentic, rfl, encryptInto_leaves roundTrips header ready whole rfl⟩

/-- `encrypt_file` on a file for which `encrypt` has an answer. -/
theorem encryptFile_answersFile
    {environment : Environment IoPayload}
    {rng : ProviderRng}
    {disk : Disk}
    {inputPath outputPath : Path}
    {key : Key}
    {parameters : Parameters}
    {ciphertext : Bytes}
    (agree : platform.SealsAgree)
    (present : disk.file inputPath = some plaintext)
    (absent : disk.file outputPath = none)
    (encrypted :
      encrypt platform key fileAad parameters rng plaintext =
        .ok ciphertext) :
    AnswersFile disk outputPath ciphertext
        (encryptFile platform environment rng disk inputPath outputPath key
          parameters) ∧
      (environment.Faultless →
        (encryptFile platform environment rng disk inputPath outputPath key
          parameters).1 = .ok ()) := by
  obtain ⟨encryptor, stream, layout, begun, calculated, seals, same⟩ :=
    encrypt_startsStream agree encrypted
  rcases encryptFile_cases platform environment rng disk inputPath outputPath
      key parameters with
    ⟨error, failed, large⟩ |
      ⟨state, header, source, contents, started, found, _, whole, honest,
        computed⟩
  · rw [failed]
    refine ⟨.inl ⟨by simp, rfl⟩, fun faultless => ?_⟩
    have size := large faultless absent _ plaintext begun present
    have addressable := encrypt_addressable encrypted
    omega
  · rw [present] at found
    cases found
    rw [begun] at started
    cases started
    obtain ⟨_, rfl, ready⟩ := startEncryption_ready begun
    obtain ⟨result, after, wrote, isPrefix, complete, succeeds⟩ :=
      encryptInto_streams encryptor.header ready calculated seals whole
        (show (⟨[], environment.writes⟩ : Sink IoPayload).accepted = [] from
          rfl)
    rw [computed, wrote, same]
    exact ⟨.inr ⟨after.accepted, rfl, isPrefix, complete⟩,
      fun faultless => succeeds (honest faultless) faultless.writes⟩

end Encryption

end ManualFile

end FastFloe
