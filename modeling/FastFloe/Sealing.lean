import FastFloe.Segment

namespace FastFloe

open Rust

/-!
# The encryption operations seal segments

`EncryptionState.sealNext` is one encryption step as a value: the segment, if
the step succeeds, and the state it leaves.  Every encryption operation of
`State` takes that step, whether it writes to a vector, to an output or where
the plaintext stands.
-/

instance (parameters : Parameters) (kind : SegmentKind) (length : Nat) :
    Decidable (FitsKind parameters kind length) := by
  cases kind
  · exact inferInstanceAs (Decidable (_ = _))
  · exact inferInstanceAs (Decidable (_ ≤ _))

/-! ## Nonces -/

/-- The generator has served a whole number of nonces from its batch. -/
def NonceGenerator.WellFormed (self : NonceGenerator) : Prop :=
  ∃ served, served ≤ nonceBatchSize ∧ self.next = aeadIvLength * served

theorem NonceGenerator.wellFormed_new (rng : ProviderRng) :
    (NonceGenerator.new rng).WellFormed :=
  ⟨nonceBatchSize, Nat.le_refl _, rfl⟩

/-- Serving from a batch that is not used up gives a nonce. -/
theorem NonceGenerator.serve_spec
    (nonces : NonceGenerator)
    {served : Nat}
    (left : served < nonceBatchSize)
    (position : nonces.next = aeadIvLength * served) :
    ∃ nonce next,
      nonces.serve = (.ok nonce, next) ∧ next.WellFormed := by
  have total :
      nonces.bytes.val.length = aeadIvLength * nonceBatchSize :=
    nonces.bytes.property
  have inside : nonces.next + aeadIvLength ≤ nonces.bytes.val.length := by
    rw [total, position, ← Nat.mul_succ]
    exact Nat.mul_le_mul_left aeadIvLength left
  have sliced :
      (slice nonces.bytes.val nonces.next (nonces.next + aeadIvLength) :
          Result Bytes) =
        .ok ((nonces.bytes.val.drop nonces.next).take aeadIvLength) := by
    rw [slice_eq (Nat.le_add_right _ _) inside, Nat.add_sub_cancel_left]
  have exact :
      ((nonces.bytes.val.drop nonces.next).take aeadIvLength).length =
        aeadIvLength := by
    rw [List.length_take, List.length_drop]
    omega
  refine ⟨⟨_, exact⟩, { nonces with next := nonces.next + aeadIvLength },
    ?_, served + 1, left, ?_⟩
  · simp only [serve, sliced, Octets.ofSlice?_of_length exact,
      Outcome.expect]
  · simp only [position, Nat.mul_succ]

/-- Filling a batch comes back and keeps the serving position. -/
theorem NonceGenerator.refill_spec (nonces : NonceGenerator) :
    ∃ refilled, refilled.next = nonces.next ∧
      (nonces.refill = (.ok (), refilled) ∨
        nonces.refill = (.error (.err .rngFailure), refilled)) := by
  refine ⟨nonces.refill.2, rfl, ?_⟩
  cases succeeds : (nonces.rng 0).succeeds with
  | true =>
      left
      refine Prod.ext ?_ rfl
      simp [refill, ProviderRng.fill, succeeds]
  | false =>
      right
      refine Prod.ext ?_ rfl
      simp [refill, ProviderRng.fill, succeeds]

/-- Drawing a nonce comes back with one, or fails because the generator did. -/
theorem NonceGenerator.draw_spec
    {nonces : NonceGenerator}
    (wellFormed : nonces.WellFormed) :
    ∃ next, next.WellFormed ∧
      ((∃ nonce, nonces.draw = (.ok nonce, next)) ∨
        ∃ error, nonces.draw = (.error (.err error), next)) := by
  obtain ⟨served, bound, position⟩ := wellFormed
  unfold NonceGenerator.draw
  by_cases used : nonces.next = nonceBatchLength
  · simp only [used, ↓reduceIte]
    obtain ⟨refilled, kept, success | failure⟩ := nonces.refill_spec
    · obtain ⟨nonce, next, result, nextWellFormed⟩ :=
        NonceGenerator.serve_spec { refilled with next := 0 }
          (Nat.zero_lt_succ 255) rfl
      simp only [success]
      exact ⟨next, nextWellFormed, .inl ⟨nonce, result⟩⟩
    · simp only [failure]
      exact ⟨refilled, ⟨served, bound, kept.trans position⟩,
        .inr ⟨_, rfl⟩⟩
  · have left : served < nonceBatchSize := by
      have different : served ≠ nonceBatchSize := by
        rintro rfl
        exact used position
      omega
    obtain ⟨nonce, next, result, nextWellFormed⟩ :=
      NonceGenerator.serve_spec nonces left position
    rw [if_neg used]
    exact ⟨next, nextWellFormed, .inl ⟨nonce, result⟩⟩

/-! ## One encryption step -/

/-- An encryption state of a message whose caches are coherent. -/
structure EncryptionState.Ready (platform : Platform)
    (context : MessageContext) (state : EncryptionState) : Prop where
  context_eq : state.context = context
  coherent : state.keys.Coherent platform context
  served : state.nonces.WellFormed

/-- A forked state is ready before its first call. -/
theorem SharedEncryptionContext.fork_ready
    (platform : Platform)
    (shared : SharedEncryptionContext)
    (rng : ProviderRng) :
    (shared.fork rng).Ready platform shared.context :=
  ⟨rfl, KeyCache.coherent_empty platform shared.context,
    NonceGenerator.wellFormed_new rng⟩

/-- The segment that a sealed payload is assembled to. -/
def assembleSegment (kind : SegmentKind) (plaintextLength : Nat)
    (nonce : Octets aeadIvLength)
    (payload : Bytes × Octets aeadTagLength) : Bytes :=
  lengthPrefixOf kind (plaintextLength + segmentOverhead) ++ nonce.val ++
    payload.1 ++ payload.2.val

/-- One encryption step: the segment, unless the step fails, and the state
after it. -/
def EncryptionState.sealNext (platform : Platform) (state : EncryptionState)
    (plaintext : Bytes) (position : Nat) (kind : SegmentKind) :
    Option Bytes × EncryptionState :=
  if FitsKind state.context.parameters kind plaintext.length then
    match state.nonces.draw with
    | (.error _, nonces) =>
        (none, { state with nonces })
    | (.ok nonce, nonces) =>
        match state.keys.keyForPosition platform state.context position with
        | (.error _, keys) =>
            (none, { state with keys, nonces })
        | (.ok key, keys) =>
            ((key.sealed platform nonce (segmentAad position kind)
                plaintext).map
                (assembleSegment kind plaintext.length nonce),
              { state with keys, nonces })
  else
    (none, state)

/-- `ciphertext_segment_size` allows exactly the payload lengths of the
kind. -/
theorem ciphertextSegmentSize_spec
    (platform : Platform)
    (context : MessageContext)
    (plaintextLength : Nat)
    (kind : SegmentKind) :
    (FitsKind context.parameters kind plaintextLength ∧
        ciphertextSegmentSize platform context plaintextLength kind =
          .ok (plaintextLength + 32)) ∨
      (¬ FitsKind context.parameters kind plaintextLength ∧
        ∃ error,
          ciphertextSegmentSize platform context plaintextLength kind =
            .error (.err error)) := by
  have total := context.parameters.plaintextSegmentLength_add
  have maximum := context.parameters.lt_maximum
  have wide := platform.target.u32Max_le_usizeMax
  unfold ciphertextSegmentSize FitsKind
  cases kind with
  | nonFinal =>
      by_cases exact :
          plaintextLength = context.parameters.plaintextSegmentLength
      · simp only [exact, ↓reduceIte, total, and_self, not_true_eq_false,
          false_and, or_false]
      · simp only [exact, ↓reduceIte, false_and, not_false_eq_true, true_and,
          false_or]
        exact ⟨_, rfl⟩
  | final =>
      by_cases fits :
          plaintextLength ≤ context.parameters.plaintextSegmentLength
      · have room :
            32 + plaintextLength ≤ platform.target.usizeMax := by
          omega
        simp only [fits, ↓reduceIte, checkedAdd, segmentOverhead_eq, room,
          Outcome.okOr, true_and, not_true_eq_false, false_and, or_false]
        rw [Nat.add_comm]
      · simp only [fits, ↓reduceIte, false_and, not_false_eq_true, true_and,
          false_or]
        exact ⟨_, rfl⟩

/-- `write_segment_framing` writes the prefix and a drawn nonce. -/
theorem writeSegmentFraming_spec
    {nonces : NonceGenerator}
    {output : Bytes}
    (kind : SegmentKind)
    {required : Nat}
    (served : nonces.WellFormed)
    (bounded : required ≤ u32Max)
    (room : 16 ≤ output.length) :
    ∃ next, next.WellFormed ∧
      ((∃ nonce,
          nonces.draw = (.ok nonce, next) ∧
            writeSegmentFraming nonces output kind required =
              (.ok nonce, next,
                lengthPrefixOf kind required ++
                  (nonce.val ++ output.drop 16))) ∨
        ∃ error failed,
          nonces.draw = (.error (.err error), next) ∧
            writeSegmentFraming nonces output kind required =
              (.error (.err error), next, failed) ∧
            failed.length = output.length) := by
  obtain ⟨lengthPrefix, chosen, encoded⟩ : ∃ lengthPrefix,
      framingPrefix kind required = .ok lengthPrefix ∧
        beBytes 4 lengthPrefix = lengthPrefixOf kind required := by
    cases kind with
    | nonFinal => exact ⟨u32Max, rfl, rfl⟩
    | final => exact ⟨required, by simp [framingPrefix, bounded], rfl⟩
  have lead :
      (copyRange output 0 segmentPrefixLength (beBytes 4 lengthPrefix) :
          Result Bytes) =
        .ok (lengthPrefixOf kind required ++ output.drop 4) := by
    rw [copyRange_eq (Nat.zero_le _)
      (by rw [segmentPrefixLength_eq]; omega)
      (by rw [length_beBytes, segmentPrefixLength_eq]),
      encoded, writeBack_zero, length_lengthPrefixOf]
  have follow (nonce : Octets aeadIvLength) :
      (copyRange (lengthPrefixOf kind required ++ output.drop 4)
          segmentPrefixLength segmentPayloadOffset nonce.val :
          Result Bytes) =
        .ok (lengthPrefixOf kind required ++
          (nonce.val ++ output.drop 16)) := by
    have width : nonce.val.length = 12 := nonce.property
    rw [copyRange_eq (by decide) (by
        rw [segmentPayloadOffset_eq, List.length_append,
          length_lengthPrefixOf, List.length_drop]
        omega) (by rw [width]; rfl),
      segmentPrefixLength_eq,
      writeBack_append (length_lengthPrefixOf kind required).symm, width,
      List.drop_drop]
  unfold writeSegmentFraming
  simp only [chosen, lead]
  obtain ⟨next, wellFormed, ⟨nonce, drawn⟩ | ⟨error, failed⟩⟩ :=
    NonceGenerator.draw_spec served
  · refine ⟨next, wellFormed, .inl ⟨nonce, drawn, ?_⟩⟩
    simp only [drawn, follow]
  · refine ⟨next, wellFormed,
      .inr ⟨error, lengthPrefixOf kind required ++ output.drop 4, failed, ?_,
        ?_⟩⟩
    · simp only [failed]
    · rw [List.length_append, length_lengthPrefixOf, List.length_drop]
      omega

section Steps

variable {platform : Platform} {faulty : Kdf} {context : MessageContext}
  {state : EncryptionState}

/-- A step keeps the state ready, and the segment it returns encrypts its
plaintext. -/
theorem EncryptionState.sealNext_spec
    (plaintext : Bytes)
    (position : Nat)
    (kind : SegmentKind)
    (sound : faulty.FaultOf platform.kdfExpand)
    (ready : state.Ready platform context) :
    (state.sealNext (platform.withKdf faulty) plaintext position kind).2.Ready
        platform context ∧
      ∀ segment,
        (state.sealNext (platform.withKdf faulty) plaintext position
            kind).1 = some segment →
          context.Seals platform position kind plaintext segment := by
  obtain ⟨rfl, coherent, served⟩ := ready
  unfold sealNext
  by_cases fits : FitsKind state.context.parameters kind plaintext.length
  · simp only [fits, ↓reduceIte]
    obtain ⟨nonces, wellFormed, ⟨nonce, drawn⟩ | ⟨error, failed⟩⟩ :=
      NonceGenerator.draw_spec served
    · simp only [drawn]
      obtain ⟨keys, nextCoherent, ⟨key, scheduled, found⟩ |
          ⟨error, _, failed⟩⟩ :=
        KeyCache.keyForPosition_spec sound coherent position
      · simp only [found]
        refine ⟨⟨rfl, nextCoherent, wellFormed⟩, ?_⟩
        intro segment success
        simp only [Option.map_eq_some_iff] at success
        obtain ⟨⟨ciphertext, tag⟩, sealed, rfl⟩ := success
        refine ⟨fits, nonce, ?_⟩
        have sealed' :
            key.sealed platform nonce (segmentAad position kind) plaintext =
              some (ciphertext, tag) :=
          sealed
        simp only [MessageContext.sealSegment, scheduled, sealed',
          Option.bind_eq_bind, Option.bind_some, assembleSegment]
      · simp only [failed]
        exact ⟨⟨rfl, nextCoherent, wellFormed⟩, fun _ success => by
          cases success⟩
    · simp only [failed]
      exact ⟨⟨rfl, coherent, wellFormed⟩, fun _ success => by
        cases success⟩
  · simp only [fits, ↓reduceIte]
    exact ⟨⟨rfl, coherent, served⟩, fun _ success => by cases success⟩

/-- `begin_segment_encryption` writes the framing and takes the nonce and the
key that the step takes. -/
theorem EncryptionState.begin_spec
    {output : Bytes}
    {plaintextLength : Nat}
    (position : Nat)
    {kind : SegmentKind}
    (sound : faulty.FaultOf platform.kdfExpand)
    (ready : state.Ready platform context)
    (fits : FitsKind context.parameters kind plaintextLength)
    (room : plaintextLength + 32 ≤ output.length) :
    ∃ next : EncryptionState, next.Ready platform context ∧
      ((∃ nonce key,
          beginSegmentEncryption (platform.withKdf faulty) state.context
              state.keys state.nonces output plaintextLength position kind =
            (.ok ⟨plaintextLength + 32, nonce, key,
                segmentAad position kind⟩, next.keys, next.nonces,
              lengthPrefixOf kind (plaintextLength + 32) ++
                (nonce.val ++ output.drop 16)) ∧
          ∀ plaintext : Bytes, plaintext.length = plaintextLength →
            state.sealNext (platform.withKdf faulty) plaintext position
                kind =
              ((key.sealed platform nonce (segmentAad position kind)
                  plaintext).map
                  (assembleSegment kind plaintext.length nonce), next)) ∨
        ∃ error failed,
          beginSegmentEncryption (platform.withKdf faulty) state.context
              state.keys state.nonces output plaintextLength position kind =
            (.error (.err error), next.keys, next.nonces, failed) ∧
          failed.length = output.length ∧
          ∀ plaintext : Bytes, plaintext.length = plaintextLength →
            state.sealNext (platform.withKdf faulty) plaintext position
                kind = (none, next)) := by
  obtain ⟨rfl, coherent, served⟩ := ready
  have total := state.context.parameters.plaintextSegmentLength_add
  have maximum := state.context.parameters.lt_maximum
  have small := fits.le
  have size :
      ciphertextSegmentSize (platform.withKdf faulty) state.context
          plaintextLength kind = .ok (plaintextLength + 32) := by
    rcases ciphertextSegmentSize_spec (platform.withKdf faulty)
        state.context plaintextLength kind with
      ⟨_, size⟩ | ⟨misfit, _⟩
    · exact size
    · exact (misfit fits).elim
  unfold beginSegmentEncryption
  simp only [size, Nat.not_lt.mpr room, ↓reduceIte]
  obtain ⟨nonces, wellFormed, ⟨nonce, drawn, framed⟩ |
      ⟨error, failed, drawn, framed, length⟩⟩ :=
    writeSegmentFraming_spec kind served
      (show plaintextLength + 32 ≤ u32Max by omega)
      (show 16 ≤ output.length by omega)
  · simp only [framed]
    obtain ⟨keys, nextCoherent, ⟨key, scheduled, found⟩ |
        ⟨error, _, failed⟩⟩ :=
      KeyCache.keyForPosition_spec sound coherent position
    · simp only [found]
      refine ⟨{ state with keys, nonces }, ⟨rfl, nextCoherent, wellFormed⟩,
        .inl ⟨nonce, key, rfl, ?_⟩⟩
      rintro plaintext rfl
      simp only [sealNext, fits, ↓reduceIte, drawn, found]
      rfl
    · simp only [failed]
      refine ⟨{ state with keys, nonces }, ⟨rfl, nextCoherent, wellFormed⟩,
        .inr ⟨error, _, rfl, ?_, ?_⟩⟩
      · simp only [List.length_append, length_lengthPrefixOf,
          Octets.length_val, aeadIvLength_eq, List.length_drop]
        omega
      · rintro plaintext rfl
        simp only [sealNext, fits, ↓reduceIte, drawn, failed]
  · simp only [framed]
    refine ⟨{ state with nonces }, ⟨rfl, coherent, wellFormed⟩,
      .inr ⟨error, failed, rfl, length, ?_⟩⟩
    rintro plaintext rfl
    simp only [sealNext, fits, ↓reduceIte, drawn]

end Steps

/-! ## Sealing with a key -/

/-- Sealing into an output of ciphertext and tag computes `sealed`. -/
theorem AeadKey.sealInto_spec
    {platform : Platform}
    {plaintext output : Bytes}
    (key : AeadKey)
    (nonce : Octets aeadIvLength)
    (aad : Bytes)
    (agree : platform.SealsAgree)
    (exact : output.length = plaintext.length + aeadTagLength)
    (fits : plaintext.length + aeadTagLength ≤ platform.target.usizeMax) :
    (∃ ciphertext tag,
        key.sealed platform nonce aad plaintext = some (ciphertext, tag) ∧
          key.sealInto platform nonce aad plaintext output =
            (.ok (), ciphertext ++ tag.val)) ∨
      ∃ error failed,
        key.sealed platform nonce aad plaintext = none ∧
          key.sealInto platform nonce aad plaintext output =
            (.error (.err error), failed) ∧
          failed.length = output.length := by
  have computes (result : Bytes) :
      key.sealInto platform nonce aad plaintext output = (.ok (), result) ↔
        ∃ ciphertext tag,
          key.sealed platform nonce aad plaintext = some (ciphertext, tag) ∧
            result = ciphertext ++ tag.val :=
    AeadKey.sealInto_eq_ok agree exact fits
  have returns := key.returns_sealInto platform nonce aad plaintext output
  have kept := key.length_sealInto platform nonce aad plaintext output
  match shape : key.sealInto platform nonce aad plaintext output, returns,
      kept with
  | (.ok (), result), _, _ =>
      obtain ⟨ciphertext, tag, sealed, rfl⟩ := (computes result).mp shape
      exact .inl ⟨ciphertext, tag, sealed, rfl⟩
  | (.error (.err error), failed), _, kept =>
      refine .inr ⟨error, failed, ?_, rfl, kept⟩
      cases sealed : key.sealed platform nonce aad plaintext with
      | none => rfl
      | some payload =>
          have success :=
            (computes _).mpr ⟨payload.1, payload.2, sealed, rfl⟩
          rw [shape] at success
          cases success

/-- Sealing in place is what `sealed` is read off. -/
theorem AeadKey.sealInPlace_spec
    {plaintext : Bytes}
    (platform : Platform)
    (key : AeadKey)
    (nonce : Octets aeadIvLength)
    (aad : Bytes) :
    (∃ ciphertext tag,
        key.sealed platform nonce aad plaintext = some (ciphertext, tag) ∧
          key.sealInPlace platform nonce aad plaintext =
            (.ok tag, ciphertext)) ∨
      ∃ error failed,
        key.sealed platform nonce aad plaintext = none ∧
          key.sealInPlace platform nonce aad plaintext =
            (.error (.err error), failed) ∧
          failed.length = plaintext.length := by
  have returns := key.returns_sealInPlace platform nonce aad plaintext
  have kept := key.length_sealInPlace platform nonce aad plaintext
  unfold AeadKey.sealed
  match shape : key.sealInPlace platform nonce aad plaintext, returns,
      kept with
  | (.ok tag, ciphertext), _, _ =>
      exact .inl ⟨ciphertext, tag, rfl, rfl⟩
  | (.error (.err error), failed), _, kept =>
      exact .inr ⟨error, failed, rfl, rfl, kept⟩

/-! ## The operations take the step -/

/-- An assembled segment is as long as its payload and the overhead. -/
theorem length_assembleSegment
    {kind : SegmentKind}
    {plaintextLength : Nat}
    {nonce : Octets aeadIvLength}
    {payload : Bytes × Octets aeadTagLength}
    (length : payload.1.length = plaintextLength) :
    (assembleSegment kind plaintextLength nonce payload).length =
      plaintextLength + 32 := by
  simp only [assembleSegment, List.length_append, length_lengthPrefixOf,
    Octets.length_val, aeadIvLength_eq, aeadTagLength_eq, length]
  omega

/-- A step that is not taken for want of room leaves its state; any other step
is `sealNext`. -/
def EncryptionState.FailsTo (platform : Platform) (state : EncryptionState)
    (plaintext : Bytes) (position : Nat) (kind : SegmentKind) (room : Nat)
    (next : EncryptionState) : Prop :=
  state.sealNext platform plaintext position kind = (none, next) ∨
    (next = state ∧ room < plaintext.length + 32)

section Operations

variable {platform : Platform} {faulty : Kdf} {context : MessageContext}
  {state : EncryptionState}

/-- The storage behind the framing that `begin_segment_encryption` writes. -/
theorem drop_framing
    (kind : SegmentKind)
    (required : Nat)
    (nonce : Octets aeadIvLength)
    (rest : Bytes) :
    (lengthPrefixOf kind required ++ (nonce.val ++ rest)).drop 16 = rest := by
  have width : nonce.val.length = 12 := nonce.property
  rw [← List.append_assoc]
  exact List.drop_left' (by
    rw [List.length_append, length_lengthPrefixOf, width])

/-- Writing behind the framing. -/
theorem writeBack_framing
    (kind : SegmentKind)
    (required : Nat)
    (nonce : Octets aeadIvLength)
    (rest chunk : Bytes) :
    writeBack (lengthPrefixOf kind required ++ (nonce.val ++ rest)) 16
        chunk =
      lengthPrefixOf kind required ++ nonce.val ++
        (chunk ++ rest.drop chunk.length) := by
  have width : nonce.val.length = 12 := nonce.property
  rw [← List.append_assoc]
  exact writeBack_append (by
    rw [List.length_append, length_lengthPrefixOf, width])

/-- The payload's part of the storage behind the framing. -/
theorem slice_framing
    {stop count : Nat}
    {rest : Bytes}
    (kind : SegmentKind)
    (required : Nat)
    (nonce : Octets aeadIvLength)
    (ends : stop = 16 + count)
    (inside : count ≤ rest.length) :
    (slice (lengthPrefixOf kind required ++ (nonce.val ++ rest))
        segmentPayloadOffset stop : Result Bytes) = .ok (rest.take count) := by
  have width : nonce.val.length = 12 := nonce.property
  rw [segmentPayloadOffset_eq, slice_eq (by omega) (by
      simp only [List.length_append, length_lengthPrefixOf, width]
      omega), drop_framing, ends, Nat.add_sub_cancel_left]

/-- Writing behind the framing keeps the length of the storage. -/
theorem length_writeBack_framing
    {output chunk : Bytes}
    (kind : SegmentKind)
    (required : Nat)
    (nonce : Octets aeadIvLength)
    (inside : 16 + chunk.length ≤ output.length) :
    (writeBack
        (lengthPrefixOf kind required ++ (nonce.val ++ output.drop 16))
        segmentPayloadOffset chunk).length =
      output.length := by
  rw [segmentPayloadOffset_eq, writeBack_framing]
  simp only [List.length_append, length_lengthPrefixOf, Octets.length_val,
    aeadIvLength_eq, List.length_drop]
  omega

/-- Ciphertext and tag written at once make the segment. -/
theorem writeBack_sealed
    {plaintextLength : Nat}
    {ciphertext : Bytes}
    (kind : SegmentKind)
    (nonce : Octets aeadIvLength)
    (tag : Octets aeadTagLength)
    (output : Bytes)
    (length : ciphertext.length = plaintextLength) :
    writeBack (lengthPrefixOf kind (plaintextLength + 32) ++
        (nonce.val ++ output.drop 16)) segmentPayloadOffset
        (ciphertext ++ tag.val) =
      assembleSegment kind plaintextLength nonce (ciphertext, tag) ++
        output.drop (plaintextLength + 32) := by
  have tagLength : tag.val.length = 16 := tag.property
  rw [segmentPayloadOffset_eq, writeBack_framing, List.drop_drop,
    List.length_append, length, tagLength]
  simp only [assembleSegment, segmentOverhead_eq, List.append_assoc]
  congr 5
  omega

/-- A tag copied behind the ciphertext makes the segment. -/
theorem copyRange_tag
    {plaintextLength : Nat}
    {buffer ciphertext : Bytes}
    (kind : SegmentKind)
    (nonce : Octets aeadIvLength)
    (tag : Octets aeadTagLength)
    (room : plaintextLength + 32 ≤ buffer.length)
    (length : ciphertext.length = plaintextLength) :
    (copyRange
        (writeBack (lengthPrefixOf kind (plaintextLength + 32) ++
          (nonce.val ++ buffer.drop 16)) segmentPayloadOffset ciphertext)
        (segmentPayloadOffset + plaintextLength) (plaintextLength + 32)
        tag.val : Result Bytes) =
      .ok (assembleSegment kind plaintextLength nonce (ciphertext, tag) ++
        buffer.drop (plaintextLength + 32)) := by
  have width : nonce.val.length = 12 := nonce.property
  have tagLength : tag.val.length = 16 := tag.property
  rw [segmentPayloadOffset_eq, writeBack_framing,
    copyRange_eq (by omega) (by
      simp only [List.length_append, length_lengthPrefixOf, width,
        List.length_drop, length]
      omega) (by omega),
    ← List.append_assoc, writeBack_append (by
      simp only [List.length_append, length_lengthPrefixOf, width, length]),
    List.drop_drop, List.drop_drop, length, tagLength]
  simp only [assembleSegment, segmentOverhead_eq, List.append_assoc]
  congr 6
  omega

/-- An operation changes the key cache and the nonces of its state. -/
theorem EncryptionState.Ready.rebuild
    {next : EncryptionState}
    (ready : next.Ready platform state.context) :
    ({ state with keys := next.keys, nonces := next.nonces } :
        EncryptionState) = next := by
  rw [← ready.context_eq]

/-- A step with an impossible payload length goes nowhere. -/
theorem EncryptionState.sealNext_misfit
    {plaintext : Bytes}
    {kind : SegmentKind}
    (platform : Platform)
    (position : Nat)
    (misfit :
      ¬ FitsKind state.context.parameters kind plaintext.length) :
    state.sealNext platform plaintext position kind = (none, state) := by
  simp only [sealNext, misfit, ↓reduceIte]

/-- `encrypt_segment_into_at` writes the step's segment to the start of its
output and leaves the rest of the output alone. -/
theorem EncryptionState.encryptSegmentIntoAt_spec
    (plaintext : Bytes)
    (position : Nat)
    (kind : SegmentKind)
    (output : Bytes)
    (sound : faulty.FaultOf platform.kdfExpand)
    (agree : platform.SealsAgree)
    (ready : state.Ready platform context) :
    ∃ next, next.Ready platform context ∧
      ((∃ segment,
          state.sealNext (platform.withKdf faulty) plaintext position kind =
              (some segment, next) ∧
            segment.length = plaintext.length + 32 ∧
            segment.length ≤ output.length ∧
            state.encryptSegmentIntoAt (platform.withKdf faulty) plaintext
                position kind output =
              (.ok segment.length, next,
                segment ++ output.drop segment.length)) ∨
        ∃ error failed,
          state.FailsTo (platform.withKdf faulty) plaintext position kind
              output.length next ∧
            state.encryptSegmentIntoAt (platform.withKdf faulty) plaintext
                position kind output =
              (.error (.err error), next, failed) ∧
            failed.length = output.length) := by
  obtain rfl := ready.context_eq
  have total := state.context.parameters.plaintextSegmentLength_add
  have maximum := state.context.parameters.lt_maximum
  have wide := platform.target.u32Max_le_usizeMax
  rcases ciphertextSegmentSize_spec (platform.withKdf faulty) state.context
      plaintext.length kind with
    ⟨fits, size⟩ | ⟨misfit, error, size⟩
  · by_cases room : plaintext.length + 32 ≤ output.length
    · have small := fits.le
      obtain ⟨next, nextReady, ⟨nonce, key, started, step⟩ |
          ⟨error, failed, started, length, step⟩⟩ :=
        EncryptionState.begin_spec position sound ready fits room
      · have region :
            (slice (lengthPrefixOf kind (plaintext.length + 32) ++
                (nonce.val ++ output.drop 16)) segmentPayloadOffset
                (plaintext.length + 32) : Result Bytes) =
              .ok ((output.drop 16).take (plaintext.length + 16)) :=
          slice_framing kind _ nonce (by omega) (by
            rw [List.length_drop]
            omega)
        have regionLength :
            ((output.drop 16).take (plaintext.length + 16)).length =
              plaintext.length + aeadTagLength := by
          rw [List.length_take, List.length_drop, aeadTagLength_eq]
          omega
        refine ⟨next, nextReady, ?_⟩
        rcases AeadKey.sealInto_spec key nonce (segmentAad position kind)
            agree regionLength (by rw [aeadTagLength_eq]; omega) with
          ⟨ciphertext, tag, sealed, written⟩ |
            ⟨error, failed, unsealed, written, kept⟩
        · have length := AeadKey.length_of_sealed sealed
          have written' :
              key.sealInto (platform.withKdf faulty) nonce
                  (segmentAad position kind) plaintext
                  ((output.drop 16).take (plaintext.length + 16)) =
                (.ok (), ciphertext ++ tag.val) :=
            written
          have assembled := writeBack_sealed kind nonce tag output length
          left
          refine ⟨assembleSegment kind plaintext.length nonce
            (ciphertext, tag), ?_, length_assembleSegment length, ?_, ?_⟩
          · rw [step plaintext rfl, sealed]
            rfl
          · rw [length_assembleSegment length]
            exact room
          · rw [length_assembleSegment length]
            simp only [encryptSegmentIntoAt, encryptSegmentIntoInner,
              started, region, written', assembled, nextReady.rebuild]
        · have written' :
              key.sealInto (platform.withKdf faulty) nonce
                  (segmentAad position kind) plaintext
                  ((output.drop 16).take (plaintext.length + 16)) =
                (.error (.err error), failed) :=
            written
          right
          refine ⟨error, writeBack
            (lengthPrefixOf kind (plaintext.length + 32) ++
              (nonce.val ++ output.drop 16)) segmentPayloadOffset failed,
            .inl ?_, ?_, ?_⟩
          · rw [step plaintext rfl, unsealed]
            rfl
          · simp only [encryptSegmentIntoAt, encryptSegmentIntoInner,
              started, region, written', nextReady.rebuild]
          · rw [regionLength, aeadTagLength_eq] at kept
            exact length_writeBack_framing kind _ nonce (by omega)
      · refine ⟨next, nextReady,
          .inr ⟨error, failed, .inl (step plaintext rfl), ?_, length⟩⟩
        simp only [encryptSegmentIntoAt, encryptSegmentIntoInner, started,
          nextReady.rebuild]
    · refine ⟨state, ready, .inr
        ⟨.outputTooSmall output.length (plaintext.length + 32), output,
          .inr ⟨rfl, by omega⟩, ?_, rfl⟩⟩
      simp only [encryptSegmentIntoAt, encryptSegmentIntoInner,
        beginSegmentEncryption, size, Nat.lt_of_not_le room, ↓reduceIte]
  · refine ⟨state, ready, .inr ⟨error, output,
      .inl (state.sealNext_misfit _ position misfit), ?_, rfl⟩⟩
    simp only [encryptSegmentIntoAt, encryptSegmentIntoInner,
      beginSegmentEncryption, size]

/-- `encrypt_segment_in_place_raw_at` seals the payload behind the framing
where it stands. -/
theorem EncryptionState.encryptSegmentInPlaceRawAt_spec
    (buffer : Bytes)
    (plaintextLength position : Nat)
    (kind : SegmentKind)
    (sound : faulty.FaultOf platform.kdfExpand)
    (ready : state.Ready platform context) :
    ∃ next, next.Ready platform context ∧
      ((∃ segment,
          16 + plaintextLength ≤ buffer.length ∧
            state.sealNext (platform.withKdf faulty)
                ((buffer.drop 16).take plaintextLength) position kind =
              (some segment, next) ∧
            segment.length = plaintextLength + 32 ∧
            segment.length ≤ buffer.length ∧
            state.encryptSegmentInPlaceRawAt (platform.withKdf faulty) buffer
                plaintextLength position kind =
              (.ok segment.length, next,
                segment ++ buffer.drop segment.length)) ∨
        ∃ error failed,
          (16 + plaintextLength ≤ buffer.length →
            state.FailsTo (platform.withKdf faulty)
              ((buffer.drop 16).take plaintextLength) position kind
              buffer.length next) ∧
            state.encryptSegmentInPlaceRawAt (platform.withKdf faulty) buffer
                plaintextLength position kind =
              (.error (.err error), next, failed) ∧
            failed.length = buffer.length) := by
  obtain rfl := ready.context_eq
  rcases ciphertextSegmentSize_spec (platform.withKdf faulty) state.context
      plaintextLength kind with
    ⟨fits, size⟩ | ⟨misfit, error, size⟩
  · by_cases room : plaintextLength + 32 ≤ buffer.length
    · have payloadLength :
          ((buffer.drop 16).take plaintextLength).length =
            plaintextLength := by
        rw [List.length_take, List.length_drop]
        omega
      obtain ⟨next, nextReady, ⟨nonce, key, started, step⟩ |
          ⟨error, failed, started, length, step⟩⟩ :=
        EncryptionState.begin_spec position sound ready fits room
      · have region :
            (slice (lengthPrefixOf kind (plaintextLength + 32) ++
                (nonce.val ++ buffer.drop 16)) segmentPayloadOffset
                (segmentPayloadOffset + plaintextLength) : Result Bytes) =
              .ok ((buffer.drop 16).take plaintextLength) :=
          slice_framing kind _ nonce (by rw [segmentPayloadOffset_eq]) (by
            rw [List.length_drop]
            omega)
        refine ⟨next, nextReady, ?_⟩
        rcases key.sealInPlace_spec platform nonce
            (segmentAad position kind) with
          ⟨ciphertext, tag, sealed, written⟩ |
            ⟨error, failed, unsealed, written, kept⟩
        · have length := AeadKey.length_of_sealed sealed
          rw [payloadLength] at length
          have tagged := copyRange_tag kind nonce tag room length
          left
          refine ⟨assembleSegment kind plaintextLength nonce
            (ciphertext, tag), by omega, ?_, length_assembleSegment length,
            ?_, ?_⟩
          · rw [step _ payloadLength, sealed, payloadLength]
            rfl
          · rw [length_assembleSegment length]
            exact room
          · rw [length_assembleSegment length]
            simp only [encryptSegmentInPlaceRawAt,
              encryptSegmentInPlaceInner, started, region,
              show key.sealInPlace (platform.withKdf faulty) _ _ _ = _
                from written,
              tagged, nextReady.rebuild]
        · right
          refine ⟨error, writeBack
            (lengthPrefixOf kind (plaintextLength + 32) ++
              (nonce.val ++ buffer.drop 16)) segmentPayloadOffset failed,
            fun _ => .inl ?_, ?_, ?_⟩
          · rw [step _ payloadLength, unsealed]
            rfl
          · simp only [encryptSegmentInPlaceRawAt,
              encryptSegmentInPlaceInner, started, region,
              show key.sealInPlace (platform.withKdf faulty) _ _ _ = _
                from written,
              nextReady.rebuild]
          · rw [payloadLength] at kept
            exact length_writeBack_framing kind _ nonce (by omega)
      · refine ⟨next, nextReady, .inr
          ⟨error, failed, fun _ => .inl (step _ payloadLength), ?_, length⟩⟩
        simp only [encryptSegmentInPlaceRawAt, encryptSegmentInPlaceInner,
          started, nextReady.rebuild]
    · refine ⟨state, ready, .inr
        ⟨.outputTooSmall buffer.length (plaintextLength + 32), buffer,
          fun inside => .inr ⟨rfl, ?_⟩, ?_, rfl⟩⟩
      · rw [List.length_take, List.length_drop]
        omega
      · simp only [encryptSegmentInPlaceRawAt, encryptSegmentInPlaceInner,
          beginSegmentEncryption, size, Nat.lt_of_not_le room, ↓reduceIte]
  · refine ⟨state, ready, .inr ⟨error, buffer, fun inside => .inl ?_, ?_,
      rfl⟩⟩
    · refine state.sealNext_misfit _ position ?_
      rwa [List.length_take, List.length_drop,
        Nat.min_eq_left (by omega)]
    · simp only [encryptSegmentInPlaceRawAt, encryptSegmentInPlaceInner,
        beginSegmentEncryption, size]

/-- `encrypt_segment_at` returns the step's segment. -/
theorem EncryptionState.encryptSegmentAt_spec
    (plaintext : Bytes)
    (position : Nat)
    (kind : SegmentKind)
    (sound : faulty.FaultOf platform.kdfExpand)
    (agree : platform.SealsAgree)
    (ready : state.Ready platform context) :
    ∃ next, next.Ready platform context ∧
      ((∃ segment,
          state.sealNext (platform.withKdf faulty) plaintext position kind =
              (some segment, next) ∧
            state.encryptSegmentAt (platform.withKdf faulty) plaintext
                position kind = (.ok segment, next)) ∨
        ∃ error,
          state.sealNext (platform.withKdf faulty) plaintext position kind =
              (none, next) ∧
            state.encryptSegmentAt (platform.withKdf faulty) plaintext
                position kind = (.error (.err error), next)) := by
  rcases ciphertextSegmentSize_spec (platform.withKdf faulty) state.context
      plaintext.length kind with
    ⟨fits, size⟩ | ⟨misfit, error, size⟩
  · obtain ⟨next, nextReady, ⟨segment, step, length, _, result⟩ |
        ⟨error, failed, step, result, _⟩⟩ :=
      EncryptionState.encryptSegmentIntoAt_spec plaintext position kind
        (zeros (plaintext.length + 32)) sound agree ready
    · refine ⟨next, nextReady, .inl ⟨segment, step, ?_⟩⟩
      have exhausted :
          (zeros (plaintext.length + 32)).drop segment.length = [] :=
        List.drop_eq_nil_of_le
          (Nat.le_of_eq ((length_zeros _).trans length.symm))
      simp only [encryptSegmentAt, size, result, exhausted, List.append_nil]
    · refine ⟨next, nextReady, .inr ⟨error, ?_, ?_⟩⟩
      · rcases step with step | ⟨_, impossible⟩
        · exact step
        · rw [length_zeros] at impossible
          omega
      · simp only [encryptSegmentAt, size, result]
  · refine ⟨state, ready, .inr ⟨error,
      state.sealNext_misfit _ position misfit, ?_⟩⟩
    simp only [encryptSegmentAt, size]

/-- A buffer whose storage begins with a segment holds it once it is marked. -/
theorem SegmentBuffer.Sized.holdsCiphertext_sealed
    {buffer : SegmentBuffer}
    {segment : Bytes}
    (sized : buffer.Sized)
    (room : segment.length ≤ buffer.bytes.length) :
    ((buffer.withRaw (segment ++ buffer.bytes.drop
      segment.length)).markCiphertext segment.length).HoldsCiphertext
        segment := by
  have holds := sized.holdsCiphertext room
  rwa [writeBack_zero] at holds

/-- A buffer that is not prepared with a plaintext has none to seal. -/
theorem EncryptionState.encryptSegmentInPlaceAt_unprepared
    {buffer : SegmentBuffer}
    (position : Nat)
    (kind : SegmentKind)
    (same : buffer.hasParameters state.parameters = true)
    (unprepared : ∀ length, buffer.state ≠ .plaintext length) :
    (∀ plaintext, ¬ buffer.HoldsPlaintext plaintext) ∧
      state.encryptSegmentInPlaceAt (platform.withKdf faulty) buffer
          position kind =
        (.error (.err .invalidBufferState), state, buffer) := by
  refine ⟨fun plaintext holds => unprepared _ holds.state, ?_⟩
  cases prepared : buffer.state with
  | plaintext length => exact (unprepared length prepared).elim
  | empty =>
      simp only [encryptSegmentInPlaceAt, same, not_true_eq_false,
        ↓reduceIte, SegmentBuffer.plaintextLength, prepared]
  | ciphertext length =>
      simp only [encryptSegmentInPlaceAt, same, not_true_eq_false,
        ↓reduceIte, SegmentBuffer.plaintextLength, prepared]

/-- `encrypt_segment_in_place_at` takes the step on the plaintext that its
buffer holds. -/
theorem EncryptionState.encryptSegmentInPlaceAt_spec
    (buffer : SegmentBuffer)
    (position : Nat)
    (kind : SegmentKind)
    (sound : faulty.FaultOf platform.kdfExpand)
    (ready : state.Ready platform context) :
    ∃ next, next.Ready platform context ∧
      ((∃ plaintext segment sealedBuffer,
          buffer.plaintext = .ok plaintext ∧
            state.sealNext (platform.withKdf faulty) plaintext position
                kind = (some segment, next) ∧
            state.encryptSegmentInPlaceAt (platform.withKdf faulty) buffer
                position kind = (.ok segment, next, sealedBuffer) ∧
            sealedBuffer.parameters = buffer.parameters ∧
            (buffer.Sized → sealedBuffer.HoldsCiphertext segment)) ∨
        ∃ error failed,
          (∀ plaintext,
            buffer.HoldsPlaintext plaintext →
              buffer.parameters = context.parameters →
                state.sealNext (platform.withKdf faulty) plaintext position
                    kind = (none, next)) ∧
            state.encryptSegmentInPlaceAt (platform.withKdf faulty) buffer
                position kind = (.error (.err error), next, failed) ∧
            failed.parameters = buffer.parameters ∧
            (buffer.Sized → failed.Sized)) := by
  obtain rfl := ready.context_eq
  by_cases parameters : buffer.parameters = state.context.parameters
  · have same : buffer.hasParameters state.parameters = true := by
      simp [SegmentBuffer.hasParameters, EncryptionState.parameters,
        parameters]
    cases prepared : buffer.state with
    | plaintext plaintextLength =>
        have held : buffer.plaintextLength = .ok plaintextLength := by
          simp only [SegmentBuffer.plaintextLength, prepared]
        obtain ⟨next, nextReady,
            ⟨segment, inside, step, length, room, result⟩ |
            ⟨error, failed, step, result, length⟩⟩ :=
          EncryptionState.encryptSegmentInPlaceRawAt_spec buffer.bytes
            plaintextLength position kind sound ready
        · refine ⟨next, nextReady, .inl
            ⟨(buffer.bytes.drop 16).take plaintextLength, segment,
              (buffer.withRaw
                (segment ++ buffer.bytes.drop segment.length)).markCiphertext
                segment.length, ?_, step, ?_, rfl, ?_⟩⟩
          · simp only [SegmentBuffer.plaintext, prepared]
            rw [slice_eq (Nat.le_add_right _ _)
              (by rw [segmentPayloadOffset_eq]; exact inside),
              Nat.add_sub_cancel_left, segmentPayloadOffset_eq]
          · have sliced :
                (slice (segment ++ buffer.bytes.drop segment.length) 0
                    segment.length : Result Bytes) = .ok segment := by
              rw [slice_zero (by rw [List.length_append]; omega),
                List.take_left]
            simp only [encryptSegmentInPlaceAt, same, not_true_eq_false,
              ↓reduceIte, held, result, SegmentBuffer.ciphertext,
              SegmentBuffer.markCiphertext, SegmentBuffer.withRaw, sliced]
          · exact fun sized => sized.holdsCiphertext_sealed room
        · refine ⟨next, nextReady, .inr
            ⟨error, (buffer.withRaw failed).clear, ?_, ?_, rfl, ?_⟩⟩
          · intro plaintext holds _
            have exact := holds.state
            rw [prepared] at exact
            cases exact
            have sized := holds.sized
            have fits := holds.fits
            have total := buffer.parameters.plaintextSegmentLength_add
            unfold SegmentBuffer.Sized at sized
            have content := holds.content
            rw [segmentPayloadOffset_eq] at content
            have failure := step (by omega)
            rw [content] at failure
            rcases failure with step | ⟨_, impossible⟩
            · exact step
            · omega
          · simp only [encryptSegmentInPlaceAt, same, not_true_eq_false,
              ↓reduceIte, held, result]
          · intro sized
            exact SegmentBuffer.sized_clear (sized.withRaw length)
    | empty | ciphertext _ =>
        obtain ⟨holdsNone, result⟩ :=
          @EncryptionState.encryptSegmentInPlaceAt_unprepared platform faulty
            state buffer position kind same (by simp [prepared])
        exact ⟨state, ready, .inr ⟨.invalidBufferState, buffer,
          fun plaintext holds => (holdsNone plaintext holds).elim, result, rfl,
          id⟩⟩
  · have different : buffer.hasParameters state.parameters = false := by
      simp [SegmentBuffer.hasParameters, EncryptionState.parameters,
        parameters]
    refine ⟨state, ready, .inr
      ⟨.invalidParameters, buffer, ?_, ?_, rfl, id⟩⟩
    · intro _ _ impossible
      exact (parameters impossible).elim
    · simp only [encryptSegmentInPlaceAt, different, Bool.false_eq_true,
        not_false_eq_true, ↓reduceIte]

end Operations

end FastFloe
