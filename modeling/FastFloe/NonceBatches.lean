import FastFloe.EncryptionPaths

namespace FastFloe

open Rust

/-!
# Nonces under failing fills

Any fill of a batch may fail, and may overwrite the batch when it does.  The
nonces that a generator hands out are nonetheless the consecutive twelve-byte
pieces of the batches that were filled, because a batch whose fill failed counts
as used up.
-/

namespace ProviderRng

/-- What a fill of a batch adds: its bytes, or nothing when it fails. -/
def batch (self : ProviderRng) (index : Nat) : Bytes :=
  if (self index).succeeds then
    (List.range nonceBatchLength).map (self index).bytes
  else
    []

/-- The batches that were filled by this many fills, one after the other. -/
def filled (self : ProviderRng) (fills : Nat) : Bytes :=
  (List.range fills).flatMap self.batch

/-- The generator after this many fills. -/
def after (self : ProviderRng) (fills : Nat) : ProviderRng :=
  fun index => self (index + fills)

variable {self : ProviderRng} {fills : Nat}

theorem filled_succ (self : ProviderRng) (fills : Nat) :
    self.filled (fills + 1) = self.filled fills ++ self.batch fills := by
  simp only [filled, List.range_succ, List.flatMap_append,
    List.flatMap_singleton]

/-- Later fills only add to what was filled. -/
theorem filled_le
    {more : Nat}
    (self : ProviderRng)
    (later : fills ≤ more) :
    self.filled fills <+: self.filled more := by
  induction more with
  | zero =>
      obtain rfl := Nat.le_zero.mp later
      exact List.prefix_refl _
  | succ more inductionHypothesis =>
      rcases Nat.le_succ_iff.mp later with before | rfl
      · rw [filled_succ]
        exact (inductionHypothesis before).trans (List.prefix_append _ _)
      · exact List.prefix_refl _

/-- The block of twelve bytes at this place of what was filled. -/
def block (self : ProviderRng) (fills index : Nat) : Bytes :=
  ((self.filled fills).drop (aeadIvLength * index)).take aeadIvLength

/-- A block that was filled stays what it is. -/
theorem block_le
    {more index : Nat}
    (self : ProviderRng)
    (inside :
      aeadIvLength * (index + 1) ≤ (self.filled fills).length)
    (later : fills ≤ more) :
    self.block more index = self.block fills index := by
  obtain ⟨rest, shape⟩ := self.filled_le later
  have start : aeadIvLength * index ≤ (self.filled fills).length := by
    rw [Nat.mul_succ] at inside
    omega
  rw [block, block, ← shape, List.drop_append_of_le_length start,
    List.take_append_of_le_length]
  rw [Nat.mul_succ] at inside
  rw [List.length_drop]
  omega

end ProviderRng

namespace NonceGenerator

/-- After `fills` fills the generator has handed out `count` nonces, and what is
left of its batch are the next bytes of what was filled. -/
structure Serves (rng : ProviderRng) (fills count : Nat)
    (nonces : NonceGenerator) : Prop where
  rng_eq : nonces.rng = rng.after fills
  served : nonces.WellFormed
  inside : aeadIvLength * count ≤ (rng.filled fills).length
  left :
    (rng.filled fills).drop (aeadIvLength * count) =
      nonces.bytes.val.drop nonces.next

theorem serves_new (rng : ProviderRng) : (new rng).Serves rng 0 0 := by
  refine ⟨rfl, wellFormed_new rng, Nat.le_refl _, ?_⟩
  have used : (new rng).bytes.val.length ≤ (new rng).next := by
    rw [(new rng).bytes.property]
    exact Nat.le_refl _
  rw [List.drop_eq_nil_of_le used]
  rfl

variable {rng : ProviderRng} {fills count : Nat} {nonces : NonceGenerator}

/-- Serving from a batch that is not used up hands out the next block. -/
theorem Serves.serve
    (serves : nonces.Serves rng fills count)
    (more : nonces.next ≠ nonceBatchLength) :
    ∃ nonce next,
      nonces.serve = (.ok nonce, next) ∧
        next.Serves rng fills (count + 1) ∧
        nonce.val = rng.block fills count := by
  obtain ⟨turns, bound, position⟩ := serves.served
  have total : nonces.bytes.val.length = nonceBatchLength :=
    nonces.bytes.property
  have room : nonces.next + aeadIvLength ≤ nonceBatchLength := by
    have below : turns < nonceBatchSize := by
      have different : turns ≠ nonceBatchSize := by
        rintro rfl
        exact more position
      omega
    rw [position, ← Nat.mul_succ]
    exact Nat.mul_le_mul_left aeadIvLength below
  have sliced :
      (slice nonces.bytes.val nonces.next (nonces.next + aeadIvLength) :
          Result Bytes) = .ok (rng.block fills count) := by
    rw [slice_eq (Nat.le_add_right _ _) (by rwa [total]),
      Nat.add_sub_cancel_left, ← serves.left]
    rfl
  have remaining := congrArg List.length serves.left
  rw [List.length_drop, List.length_drop, total] at remaining
  have width : (rng.block fills count).length = aeadIvLength := by
    rw [ProviderRng.block, List.length_take, List.length_drop]
    omega
  refine ⟨⟨_, width⟩, { nonces with next := nonces.next + aeadIvLength }, ?_,
    ⟨serves.rng_eq, ⟨turns + 1, ?_, ?_⟩, ?_, ?_⟩, rfl⟩
  · simp only [NonceGenerator.serve, sliced, Octets.ofSlice?_of_length width,
      Outcome.expect]
  · unfold nonceBatchLength at room
    rw [position, ← Nat.mul_succ] at room
    exact Nat.le_of_mul_le_mul_left room (by decide)
  · simp only [position, Nat.mul_succ]
  · have inside := serves.inside
    rw [Nat.mul_succ]
    omega
  · rw [Nat.mul_succ, ← List.drop_drop, serves.left, List.drop_drop]

/-- A used up generator has handed out everything that was filled. -/
theorem Serves.exhausted
    (serves : nonces.Serves rng fills count)
    (used : nonces.next = nonceBatchLength) :
    aeadIvLength * count = (rng.filled fills).length := by
  have total : nonces.bytes.val.length = nonceBatchLength :=
    nonces.bytes.property
  have remaining := congrArg List.length serves.left
  have inside := serves.inside
  rw [List.length_drop, List.length_drop, total, used] at remaining
  omega

/-- Filling the batch of a used up generator adds a batch, or leaves it used
up. -/
theorem Serves.refill
    (serves : nonces.Serves rng fills count)
    (used : nonces.next = nonceBatchLength) :
    (∃ next,
        nonces.refill = (.ok (), next) ∧ (rng fills).succeeds = true ∧
          ({ next with next := 0 } : NonceGenerator).Serves rng (fills + 1)
            count) ∨
      ∃ next,
        nonces.refill = (.error (.err .rngFailure), next) ∧
          (rng fills).succeeds = false ∧ next.next = nonceBatchLength ∧
          next.Serves rng (fills + 1) count := by
  have whole := serves.exhausted used
  have now : nonces.rng 0 = rng fills := by
    rw [serves.rng_eq, ProviderRng.after, Nat.zero_add]
  have later : nonces.refill.2.rng = rng.after (fills + 1) := by
    have rest (outcome : Bool) :
        nonces.refill.2.rng = fun index => nonces.rng (index + 1) := by
      unfold NonceGenerator.refill ProviderRng.fill
      cases succeeds : (nonces.rng 0).succeeds <;>
        simp only [succeeds, Bool.false_eq_true, ↓reduceIte]
    rw [rest true, serves.rng_eq]
    funext index
    rw [ProviderRng.after, ProviderRng.after, Nat.add_assoc,
      Nat.add_comm 1 fills]
  have bytes : nonces.refill.2.bytes.val =
      (List.range nonceBatchLength).map (rng fills).bytes := by
    unfold NonceGenerator.refill ProviderRng.fill
    rw [← now]
    cases succeeds : (nonces.rng 0).succeeds <;>
      simp only [succeeds, Bool.false_eq_true, ↓reduceIte]
  cases succeeds : (rng fills).succeeds with
  | true =>
      left
      refine ⟨nonces.refill.2, ?_, rfl, later, ⟨0, Nat.zero_le _, rfl⟩, ?_, ?_⟩
      · refine Prod.ext ?_ rfl
        simp only [NonceGenerator.refill, ProviderRng.fill, now, succeeds,
          ↓reduceIte]
      · rw [ProviderRng.filled_succ, List.length_append]
        omega
      · rw [ProviderRng.filled_succ, whole, List.drop_left, List.drop_zero,
          bytes, ProviderRng.batch, if_pos succeeds]
  | false =>
      right
      have nothing : rng.batch fills = [] := by
        simp only [ProviderRng.batch, succeeds, Bool.false_eq_true,
          ↓reduceIte]
      obtain ⟨turns, bound, position⟩ := serves.served
      refine ⟨nonces.refill.2, ?_, rfl, used, later,
        ⟨turns, bound, position⟩, ?_, ?_⟩
      · refine Prod.ext ?_ rfl
        simp only [NonceGenerator.refill, ProviderRng.fill, now, succeeds,
          Bool.false_eq_true, ↓reduceIte]
      · rw [ProviderRng.filled_succ, nothing, List.append_nil]
        exact serves.inside
      · have still : nonces.refill.2.next = nonces.bytes.val.length := by
          rw [nonces.bytes.property]
          exact used
        rw [ProviderRng.filled_succ, nothing, List.append_nil, whole,
          List.drop_length, List.drop_eq_nil_of_le]
        rw [nonces.refill.2.bytes.property]
        exact Nat.le_of_eq used.symm

/-- What one draw may do: it hands out the next block, from a new batch if the
last one was used up, or the fill of a new batch fails. -/
theorem Serves.draw
    (serves : nonces.Serves rng fills count) :
    (∃ nonce next fills',
        nonces.draw = (.ok nonce, next) ∧ fills ≤ fills' ∧
          next.Serves rng fills' (count + 1) ∧
          nonce.val = rng.block fills' count ∧
          (nonces.next = nonceBatchLength →
            (rng fills).succeeds = true ∧
              nonce.val = (rng.batch fills).take aeadIvLength)) ∨
      ∃ next,
        nonces.draw = (.error (.err .rngFailure), next) ∧
          nonces.next = nonceBatchLength ∧ (rng fills).succeeds = false ∧
          next.next = nonceBatchLength ∧
          next.Serves rng (fills + 1) count := by
  by_cases used : nonces.next = nonceBatchLength
  · have whole := serves.exhausted used
    rcases serves.refill used with
      ⟨refilled, filled, succeeds, refilledServes⟩ |
        ⟨next, failed, fails, stillUsed, nextServes⟩
    · obtain ⟨nonce, next, served, nextServes, value⟩ :=
        refilledServes.serve (show 0 ≠ nonceBatchLength by decide)
      refine .inl ⟨nonce, next, fills + 1, ?_, Nat.le_succ _, nextServes,
        value, fun _ => ⟨succeeds, ?_⟩⟩
      · simp only [NonceGenerator.draw, used, ↓reduceIte, filled, served]
      · rw [value, ProviderRng.block, ProviderRng.filled_succ, whole,
          List.drop_left]
    · refine .inr ⟨next, ?_, used, fails, stillUsed, nextServes⟩
      simp only [NonceGenerator.draw, used, ↓reduceIte, failed]
  · obtain ⟨nonce, next, served, nextServes, value⟩ := serves.serve used
    refine .inl ⟨nonce, next, fills, ?_, Nat.le_refl _, nextServes, value,
      fun other => (used other).elim⟩
    simp only [NonceGenerator.draw, used, ↓reduceIte, served]

/-- Draws a number of nonces in turn, and keeps every answer. -/
def drawAll : Nat → NonceGenerator →
    List (Result (Octets aeadIvLength)) × NonceGenerator
  | 0, nonces =>
      ([], nonces)
  | calls + 1, nonces =>
      let answer := nonces.draw
      let rest := drawAll calls answer.2
      (answer.1 :: rest.1, rest.2)

/-- A sequence of draws hands out the next blocks, one after the other. -/
theorem Serves.drawAll
    (serves : nonces.Serves rng fills count)
    (calls : Nat) :
    ∃ fills',
      fills ≤ fills' ∧
        (nonces.drawAll calls).2.Serves rng fills'
          (count +
            ((nonces.drawAll calls).1.filterMap Except.toOption).length) ∧
        (∀ result ∈ (nonces.drawAll calls).1,
          result.toOption = none →
            result = .error (.err .rngFailure)) ∧
        ∀ index nonce,
          ((nonces.drawAll calls).1.filterMap Except.toOption)[index]? =
              some nonce →
            nonce.val = rng.block fills' (count + index) := by
  induction calls generalizing nonces fills count with
  | zero =>
      refine ⟨fills, Nat.le_refl _, serves, ?_, ?_⟩
      · intro result member
        cases member
      · intro index nonce found
        cases found
  | succ calls inductionHypothesis =>
      unfold NonceGenerator.drawAll
      rcases serves.draw with
        ⟨nonce, next, middle, drawn, later, nextServes, value, _⟩ |
          ⟨next, drawn, _, _, _, nextServes⟩
      · obtain ⟨last, after, lastServes, failures, blocks⟩ :=
          inductionHypothesis nextServes
        simp only [drawn, List.filterMap_cons, Except.toOption]
        refine ⟨last, Nat.le_trans later after, ?_, ?_, ?_⟩
        · rw [List.length_cons, Nat.add_comm _ 1, ← Nat.add_assoc]
          exact lastServes
        · intro result member failed
          rcases List.mem_cons.mp member with rfl | other
          · cases failed
          · exact failures result other failed
        · rintro (_ | index) other found
          · simp only [List.getElem?_cons_zero, Option.some.injEq] at found
            subst found
            rw [value, Nat.add_zero]
            exact (rng.block_le nextServes.inside after).symm
          · rw [List.getElem?_cons_succ] at found
            rw [blocks index other found, Nat.add_assoc, Nat.add_comm 1]
      · obtain ⟨last, after, lastServes, failures, blocks⟩ :=
          inductionHypothesis nextServes
        simp only [drawn, List.filterMap_cons, Except.toOption]
        refine ⟨last, by omega, lastServes, ?_, blocks⟩
        intro result member failed
        rcases List.mem_cons.mp member with rfl | other
        · rfl
        · exact failures result other failed

end NonceGenerator

/-! ## Nonces in segments -/

/-- The nonce that a segment carries. -/
def segmentNonce (segment : Bytes) : Bytes :=
  (segment.take segmentPayloadOffset).drop segmentPrefixLength

/-- The segment that a call returns, if it succeeds. -/
def EncryptionCall.segment? (platform : Platform) (state : EncryptionState) :
    EncryptionCall → Option Bytes
  | .allocating plaintext position kind =>
      (state.encryptSegmentAt platform plaintext position kind).1.toOption
  | .into plaintext position kind output =>
      let answer :=
        state.encryptSegmentIntoAt platform plaintext position kind output
      answer.1.toOption.map fun written => answer.2.2.take written
  | .inPlace buffer position kind =>
      (state.encryptSegmentInPlaceAt platform buffer position kind).1.toOption
  | .inPlaceRaw buffer plaintextLength position kind =>
      let answer :=
        state.encryptSegmentInPlaceRawAt platform buffer plaintextLength
          position kind
      answer.1.toOption.map fun written => answer.2.2.take written

/-- Makes calls in turn, each at a moment when the backends behave in a way of
their own, and keeps the segments of those that succeed. -/
def EncryptionState.encryptAll :
    EncryptionState → List (Platform × EncryptionCall) →
      List Bytes × EncryptionState
  | state, [] =>
      ([], state)
  | state, (platform, call) :: calls =>
      let rest :=
        encryptAll (call.stateAfter platform state) calls
      ((call.segment? platform state).toList ++ rest.1, rest.2)

/-- No nonce was drawn, or one was. -/
def NonceGenerator.AtMostOne (before after : NonceGenerator) : Prop :=
  after = before ∨ after = before.draw.2

section Segments

variable {platform : Platform} {context : MessageContext} {keys : KeyCache}
  {nonces : NonceGenerator}

theorem segmentNonce_take
    {segment : Bytes}
    {length : Nat}
    (long : segmentPayloadOffset ≤ length) :
    segmentNonce (segment.take length) = segmentNonce segment := by
  rw [segmentNonce, segmentNonce, List.take_take, Nat.min_eq_left long]

/-- Writing behind the framing leaves the nonce alone. -/
theorem segmentNonce_writeBack
    {segment chunk : Bytes}
    {start : Nat}
    (behind : segmentPayloadOffset ≤ start)
    (inside : segmentPayloadOffset ≤ segment.length) :
    segmentNonce (writeBack segment start chunk) = segmentNonce segment := by
  rw [segmentNonce, segmentNonce, writeBack, List.append_assoc,
    List.take_append_of_le_length (by
      rw [List.length_take]
      omega), List.take_take, Nat.min_eq_left behind]

/-- `write_segment_framing` draws the nonce that it writes. -/
theorem writeSegmentFraming_drew
    (nonces : NonceGenerator)
    (output : Bytes)
    (kind : SegmentKind)
    (required : Nat) :
    ∃ result next framed,
      writeSegmentFraming nonces output kind required =
          (result, next, framed) ∧
        nonces.AtMostOne next ∧
        ∀ nonce, result = .ok nonce →
          nonces.draw = (.ok nonce, next) ∧
            segmentNonce framed = nonce.val ∧
            segmentPayloadOffset ≤ framed.length := by
  unfold writeSegmentFraming
  cases chosen : framingPrefix kind required with
  | error stop =>
      exact ⟨.error stop, nonces, output, rfl, .inl rfl,
        fun nonce impossible => by cases impossible⟩
  | ok lengthPrefix =>
  cases led : (copyRange output 0 segmentPrefixLength
      (beBytes 4 lengthPrefix) : Result Bytes) with
  | error stop =>
      exact ⟨.error stop, nonces, output, by simp only [led], .inl rfl,
        fun nonce impossible => by cases impossible⟩
  | ok begun =>
  cases drawn : nonces.draw with
  | mk result next =>
  cases result with
  | error stop =>
      exact ⟨.error stop, next, begun, by simp only [led],
        .inr (by rw [drawn]), fun nonce impossible => by cases impossible⟩
  | ok nonce =>
  cases followed : (copyRange begun segmentPrefixLength
      segmentPayloadOffset nonce.val : Result Bytes) with
  | error stop =>
      exact ⟨.error stop, next, begun, by simp only [led, followed],
        .inr (by rw [drawn]), fun nonce impossible => by cases impossible⟩
  | ok framed =>
      obtain ⟨_, inside, _, shape⟩ := copyRange_eq_ok followed
      refine ⟨.ok nonce, next, framed, by simp only [led, followed],
        .inr (by rw [drawn]), ?_⟩
      intro other same
      cases same
      subst shape
      refine ⟨rfl, ?_, ?_⟩
      · have total : segmentPrefixLength + nonce.val.length =
            segmentPayloadOffset := by
          rw [nonce.length_val]
          rfl
        have lead : (begun.take segmentPrefixLength).length =
            segmentPrefixLength := by
          rw [List.length_take, Nat.min_eq_left]
          omega
        rw [segmentNonce, writeBack, List.take_left' (by
          rw [List.length_append, lead, total]), List.drop_left' lead]
      · rw [length_writeBack (by
          rw [nonce.length_val]
          exact inside)]
        exact inside

/-- `begin_segment_encryption` draws the nonce that it returns. -/
theorem beginSegmentEncryption_drew
    (platform : Platform)
    (context : MessageContext)
    (keys : KeyCache)
    (nonces : NonceGenerator)
    (output : Bytes)
    (plaintextLength position : Nat)
    (kind : SegmentKind) :
    ∃ result keys' next framed,
      beginSegmentEncryption platform context keys nonces output
            plaintextLength position kind =
          (result, keys', next, framed) ∧
        nonces.AtMostOne next ∧
        ∀ inputs, result = .ok inputs →
          nonces.draw = (.ok inputs.nonce, next) ∧
            segmentNonce framed = inputs.nonce.val ∧
            segmentPayloadOffset ≤ framed.length ∧
            segmentPayloadOffset ≤ inputs.required := by
  unfold beginSegmentEncryption
  rcases ciphertextSegmentSize_spec platform context plaintextLength kind with
    ⟨_, size⟩ | ⟨_, error, size⟩
  · by_cases small : output.length < plaintextLength + 32
    · exact ⟨.error (.err (.outputTooSmall output.length
        (plaintextLength + 32))), keys, nonces, output, by
          simp only [size, small, ↓reduceIte],
        .inl rfl, fun inputs impossible => by cases impossible⟩
    obtain ⟨result, next, framed, written, once, drew⟩ :=
      writeSegmentFraming_drew nonces output kind (plaintextLength + 32)
    cases result with
    | error stop =>
        exact ⟨.error stop, keys, next, framed, by
          simp only [size, small, ↓reduceIte, written], once,
          fun inputs impossible => by cases impossible⟩
    | ok nonce =>
        obtain ⟨drawn, carried, long⟩ := drew nonce rfl
        cases found : keys.keyForPosition platform context position with
        | mk outcome keys' =>
        cases outcome with
        | error stop =>
            exact ⟨.error stop, keys', next, framed, by
              simp only [size, small, ↓reduceIte, written], once,
              fun inputs impossible => by cases impossible⟩
        | ok key =>
            refine ⟨.ok ⟨plaintextLength + 32, nonce, key,
              segmentAad position kind⟩, keys', next, framed, by
                simp only [size, small, ↓reduceIte, written], once,
              ?_⟩
            intro inputs same
            cases same
            refine ⟨drawn, carried, long, ?_⟩
            change segmentPayloadOffset ≤ plaintextLength + 32
            rw [segmentPayloadOffset_eq]
            omega
  · exact ⟨.error (.err error), keys, nonces, output, by simp only [size],
      .inl rfl, fun inputs impossible => by cases impossible⟩

/-- What an encryption of one segment does to the nonces: it draws at most one,
and a segment that it returns carries the nonce it drew. -/
structure DrewFor (before after : NonceGenerator) (segment : Option Bytes) :
    Prop where
  once : before.AtMostOne after
  carried :
    ∀ bytes, segment = some bytes →
      ∃ nonce,
        before.draw = (.ok nonce, after) ∧ segmentNonce bytes = nonce.val

/-- What writing one segment does to the nonces: it draws at most one, and a
segment whose length it returns carries the nonce it drew. -/
structure Wrote (before after : NonceGenerator) (result : Result Nat)
    (written : Bytes) : Prop where
  once : before.AtMostOne after
  carried :
    ∀ length, result = .ok length →
      segmentPayloadOffset ≤ length ∧
        ∃ nonce,
          before.draw = (.ok nonce, after) ∧
            segmentNonce written = nonce.val

theorem Wrote.of_error
    {before after : NonceGenerator}
    {stop : Stop Error}
    {written : Bytes}
    (once : before.AtMostOne after) :
    Wrote before after (.error stop) written where
  once := once
  carried _ impossible := by cases impossible

/-- The returned length cuts the segment out of what was written. -/
theorem Wrote.drewFor
    {before after : NonceGenerator}
    {result : Result Nat}
    {written : Bytes}
    (wrote : Wrote before after result written) :
    DrewFor before after
      (result.toOption.map fun length => written.take length) where
  once := wrote.once
  carried bytes same := by
    cases result with
    | error stop => cases same
    | ok length =>
        cases same
        obtain ⟨long, nonce, drawn, carried⟩ := wrote.carried length rfl
        exact ⟨nonce, drawn, (segmentNonce_take long).trans carried⟩

/-- `encrypt_segment_into_inner` writes behind the framing. -/
theorem encryptSegmentIntoInner_drew
    (platform : Platform)
    (context : MessageContext)
    (keys : KeyCache)
    (nonces : NonceGenerator)
    (plaintext : Bytes)
    (position : Nat)
    (kind : SegmentKind)
    (output : Bytes) :
    ∃ result keys' next written,
      encryptSegmentIntoInner platform context keys nonces plaintext position
            kind output =
          (result, keys', next, written) ∧
        Wrote nonces next result written := by
  obtain ⟨result, keys', next, framed, begun, once, drew⟩ :=
    beginSegmentEncryption_drew platform context keys nonces output
      plaintext.length position kind
  unfold encryptSegmentIntoInner
  cases result with
  | error stop =>
      exact ⟨.error stop, keys', next, framed, by simp only [begun],
        .of_error once⟩
  | ok inputs =>
  obtain ⟨drawn, carried, long, enough⟩ := drew inputs rfl
  cases sliced : (slice framed segmentPayloadOffset inputs.required :
      Result Bytes) with
  | error stop =>
      exact ⟨.error stop, keys', next, framed, by simp only [begun, sliced],
        .of_error once⟩
  | ok region =>
  cases sealedInto : inputs.key.sealInto platform inputs.nonce inputs.aad
      plaintext region with
  | mk outcome region' =>
  cases outcome with
  | error stop =>
      exact ⟨.error stop, keys', next,
        writeBack framed segmentPayloadOffset region', by
          simp only [begun, sliced, sealedInto],
        .of_error once⟩
  | ok value =>
      refine ⟨.ok inputs.required, keys', next,
        writeBack framed segmentPayloadOffset region', by
          simp only [begun, sliced, sealedInto], once, ?_⟩
      intro length same
      cases same
      refine ⟨enough, inputs.nonce, drawn, ?_⟩
      rw [segmentNonce_writeBack (Nat.le_refl _) long]
      exact carried

/-- `encrypt_segment_in_place_inner` writes behind the framing. -/
theorem encryptSegmentInPlaceInner_drew
    (platform : Platform)
    (context : MessageContext)
    (keys : KeyCache)
    (nonces : NonceGenerator)
    (buffer : Bytes)
    (plaintextLength position : Nat)
    (kind : SegmentKind) :
    ∃ result keys' next written,
      encryptSegmentInPlaceInner platform context keys nonces buffer
            plaintextLength position kind =
          (result, keys', next, written) ∧
        Wrote nonces next result written := by
  obtain ⟨result, keys', next, framed, begun, once, drew⟩ :=
    beginSegmentEncryption_drew platform context keys nonces buffer
      plaintextLength position kind
  unfold encryptSegmentInPlaceInner
  cases result with
  | error stop =>
      exact ⟨.error stop, keys', next, framed, by simp only [begun],
        .of_error once⟩
  | ok inputs =>
  obtain ⟨drawn, carried, long, enough⟩ := drew inputs rfl
  cases sliced : (slice framed segmentPayloadOffset
      (segmentPayloadOffset + plaintextLength) : Result Bytes) with
  | error stop =>
      exact ⟨.error stop, keys', next, framed, by simp only [begun, sliced],
        .of_error once⟩
  | ok region =>
  cases sealedThere : inputs.key.sealInPlace platform inputs.nonce inputs.aad
      region with
  | mk outcome region' =>
  cases outcome with
  | error stop =>
      exact ⟨.error stop, keys', next,
        writeBack framed segmentPayloadOffset region', by
          simp only [begun, sliced, sealedThere],
        .of_error once⟩
  | ok tag =>
  cases copied : (copyRange (writeBack framed segmentPayloadOffset region')
      (segmentPayloadOffset + plaintextLength) inputs.required tag.val :
        Result Bytes) with
  | error stop =>
      exact ⟨.error stop, keys', next,
        writeBack framed segmentPayloadOffset region', by
          simp only [begun, sliced, sealedThere, copied],
        .of_error once⟩
  | ok written =>
      refine ⟨.ok inputs.required, keys', next, written, by
        simp only [begun, sliced, sealedThere, copied], once, ?_⟩
      intro length same
      cases same
      obtain ⟨_, inside, _, rfl⟩ := copyRange_eq_ok copied
      refine ⟨enough, inputs.nonce, drawn, ?_⟩
      rw [segmentNonce_writeBack (Nat.le_add_right _ _) (by omega),
        segmentNonce_writeBack (Nat.le_refl _) long]
      exact carried

/-- A call that returns no segment. -/
theorem DrewFor.of_none
    {before after : NonceGenerator}
    (once : before.AtMostOne after) :
    DrewFor before after none where
  once := once
  carried bytes impossible := by cases impossible

/-- `encrypt_segment_into_at` returns what it wrote. -/
theorem encryptSegmentIntoAt_drew
    (platform : Platform)
    (state : EncryptionState)
    (plaintext : Bytes)
    (position : Nat)
    (kind : SegmentKind)
    (output : Bytes) :
    ∃ result next written,
      state.encryptSegmentIntoAt platform plaintext position kind output =
          (result, next, written) ∧
        Wrote state.nonces next.nonces result written := by
  obtain ⟨result, keys, nonces, written, inner, wrote⟩ :=
    encryptSegmentIntoInner_drew platform state.context state.keys
      state.nonces plaintext position kind output
  exact ⟨result, { state with keys, nonces }, written, by
    simp only [EncryptionState.encryptSegmentIntoAt, inner], wrote⟩

/-- `encrypt_segment_in_place_raw_at` returns what it wrote. -/
theorem encryptSegmentInPlaceRawAt_drew
    (platform : Platform)
    (state : EncryptionState)
    (buffer : Bytes)
    (plaintextLength position : Nat)
    (kind : SegmentKind) :
    ∃ result next written,
      state.encryptSegmentInPlaceRawAt platform buffer plaintextLength
            position kind =
          (result, next, written) ∧
        Wrote state.nonces next.nonces result written := by
  obtain ⟨result, keys, nonces, written, inner, wrote⟩ :=
    encryptSegmentInPlaceInner_drew platform state.context state.keys
      state.nonces buffer plaintextLength position kind
  exact ⟨result, { state with keys, nonces }, written, by
    simp only [EncryptionState.encryptSegmentInPlaceRawAt, inner],
    wrote⟩

/-- `encrypt_segment_at` returns the nonce that it draws in its segment. -/
theorem EncryptionCall.drew_allocating
    (platform : Platform)
    (state : EncryptionState)
    (plaintext : Bytes)
    (position : Nat)
    (kind : SegmentKind) :
    DrewFor state.nonces
      ((EncryptionCall.allocating plaintext position kind).stateAfter platform
        state).nonces
      ((EncryptionCall.allocating plaintext position kind).segment? platform
        state) := by
  rcases ciphertextSegmentSize_spec platform state.context
      plaintext.length kind with ⟨_, size⟩ | ⟨_, error, size⟩
  · obtain ⟨result, next, written, into, wrote⟩ :=
      encryptSegmentIntoAt_drew platform state plaintext position kind
        (zeros (plaintext.length + 32))
    cases result with
    | error stop =>
        have answer : state.encryptSegmentAt platform plaintext position
            kind = (.error stop, next) := by
          simp only [EncryptionState.encryptSegmentAt, size, into]
        simp only [stateAfter, segment?, answer, Except.toOption]
        exact .of_none wrote.once
    | ok length =>
        have answer : state.encryptSegmentAt platform plaintext position
            kind = (.ok written, next) := by
          simp only [EncryptionState.encryptSegmentAt, size, into]
        simp only [stateAfter, segment?, answer, Except.toOption]
        refine ⟨wrote.once, ?_⟩
        intro bytes same
        cases same
        exact (wrote.carried length rfl).2
  · have answer : state.encryptSegmentAt platform plaintext position
        kind = (.error (.err error), state) := by
      simp only [EncryptionState.encryptSegmentAt, size]
    simp only [stateAfter, segment?, answer, Except.toOption]
    exact .of_none (.inl rfl)

/-- `encrypt_segment_in_place_at` returns the nonce that it draws in its
segment. -/
theorem EncryptionCall.drew_inPlace
    (platform : Platform)
    (state : EncryptionState)
    (buffer : SegmentBuffer)
    (position : Nat)
    (kind : SegmentKind) :
    DrewFor state.nonces
      ((EncryptionCall.inPlace buffer position kind).stateAfter platform
        state).nonces
      ((EncryptionCall.inPlace buffer position kind).segment? platform
        state) := by
  by_cases matching : buffer.hasParameters state.parameters = true
  · cases prepared : buffer.plaintextLength with
    | error stop =>
        have answer : state.encryptSegmentInPlaceAt platform buffer
            position kind = (.error stop, state, buffer) := by
          simp only [EncryptionState.encryptSegmentInPlaceAt, matching,
            not_true_eq_false, ↓reduceIte, prepared]
        simp only [stateAfter, segment?, answer, Except.toOption]
        exact .of_none (.inl rfl)
    | ok plaintextLength =>
    obtain ⟨result, next, written, raw, wrote⟩ :=
      encryptSegmentInPlaceRawAt_drew platform state buffer.bytes
        plaintextLength position kind
    cases result with
    | error stop =>
        obtain ⟨left, answer⟩ : ∃ left,
            state.encryptSegmentInPlaceAt platform buffer position
              kind = (.error stop, next, left) := by
          cases stop <;> exact ⟨_, by
            simp only [EncryptionState.encryptSegmentInPlaceAt, matching,
              not_true_eq_false, ↓reduceIte, prepared, raw]
            rfl⟩
        simp only [stateAfter, segment?, answer, Except.toOption]
        exact .of_none wrote.once
    | ok length =>
        obtain ⟨long, nonce, drawn, carried⟩ := wrote.carried length rfl
        have answer : state.encryptSegmentInPlaceAt platform buffer
            position kind =
            (((buffer.withRaw written).markCiphertext length).ciphertext,
              next,
              (buffer.withRaw written).markCiphertext length) := by
          simp only [EncryptionState.encryptSegmentInPlaceAt, matching,
            not_true_eq_false, ↓reduceIte, prepared, raw]
        simp only [stateAfter, segment?, answer]
        refine ⟨wrote.once, ?_⟩
        intro bytes same
        simp only [SegmentBuffer.ciphertext,
          SegmentBuffer.markCiphertext, SegmentBuffer.withRaw] at same
        cases sliced : (slice written 0 length : Result Bytes) with
        | error stop =>
            rw [sliced] at same
            cases same
        | ok chunk =>
            rw [sliced] at same
            cases same
            refine ⟨nonce, drawn, ?_⟩
            unfold slice at sliced
            split at sliced
            · cases sliced
              rw [List.drop_zero, Nat.sub_zero, segmentNonce_take long]
              exact carried
            · cases sliced
  · have answer : state.encryptSegmentInPlaceAt platform buffer
        position kind =
        (.error (.err .invalidParameters), state, buffer) := by
      simp only [EncryptionState.encryptSegmentInPlaceAt, matching,
        Bool.false_eq_true, not_false_eq_true, ↓reduceIte]
    simp only [stateAfter, segment?, answer, Except.toOption]
    exact .of_none (.inl rfl)

/-- Every call draws at most one nonce, and returns it in its segment. -/
theorem EncryptionCall.drew
    (platform : Platform)
    (state : EncryptionState)
    (call : EncryptionCall) :
    DrewFor state.nonces (call.stateAfter platform state).nonces
      (call.segment? platform state) := by
  cases call with
  | allocating plaintext position kind =>
      exact drew_allocating platform state plaintext position kind
  | into plaintext position kind output =>
      obtain ⟨result, next, written, into, wrote⟩ :=
        encryptSegmentIntoAt_drew platform state plaintext position kind
          output
      simp only [stateAfter, segment?, into]
      exact wrote.drewFor
  | inPlace buffer position kind =>
      exact drew_inPlace platform state buffer position kind
  | inPlaceRaw buffer plaintextLength position kind =>
      obtain ⟨result, next, written, raw, wrote⟩ :=
        encryptSegmentInPlaceRawAt_drew platform state buffer plaintextLength
          position kind
      simp only [stateAfter, segment?, raw]
      exact wrote.drewFor

/-- A call hands out no block, or the next one. -/
theorem DrewFor.serves
    {rng : ProviderRng}
    {before after : NonceGenerator}
    {segment : Option Bytes}
    {fills count : Nat}
    (drew : DrewFor before after segment)
    (serves : before.Serves rng fills count) :
    ∃ fills' count',
      fills ≤ fills' ∧ count ≤ count' ∧ after.Serves rng fills' count' ∧
        ∀ bytes, segment = some bytes →
          count < count' ∧ segmentNonce bytes = rng.block fills' count := by
  have answer := serves.draw
  cases segment with
  | none =>
      have nothing {fills' count' : Nat} :
          ∀ bytes : Bytes, none = some bytes →
            count < count' ∧
              segmentNonce bytes = rng.block fills' count := by
        intro bytes impossible
        cases impossible
      rcases drew.once with rfl | rfl
      · exact ⟨fills, count, Nat.le_refl _, Nat.le_refl _, serves, nothing⟩
      · rcases answer with
          ⟨nonce, next, fills', drawn, later, nextServes, _⟩ |
            ⟨next, drawn, _, _, _, nextServes⟩
        · rw [drawn]
          exact ⟨fills', count + 1, later, Nat.le_succ _, nextServes,
            nothing⟩
        · rw [drawn]
          exact ⟨fills + 1, count, Nat.le_succ _, Nat.le_refl _, nextServes,
            nothing⟩
  | some segment =>
      obtain ⟨nonce, drawn, carried⟩ := drew.carried segment rfl
      rcases answer with
        ⟨other, next, fills', same, later, nextServes, value, _⟩ |
          ⟨next, failed, _⟩
      · rw [drawn, Prod.mk.injEq, Except.ok.injEq] at same
        obtain ⟨rfl, rfl⟩ := same
        refine ⟨fills', count + 1, later, Nat.le_succ _, nextServes, ?_⟩
        intro bytes same
        cases same
        exact ⟨Nat.lt_succ_self _, carried.trans value⟩
      · rw [drawn, Prod.mk.injEq] at failed
        cases failed.1

/-- The segments of a run of calls carry blocks in increasing order. -/
theorem EncryptionState.encryptAll_spec
    {rng : ProviderRng}
    {state : EncryptionState}
    {fills count : Nat}
    (serves : state.nonces.Serves rng fills count)
    (calls : List (Platform × EncryptionCall)) :
    ∃ fills' count', ∃ blocks : List Nat,
      fills ≤ fills' ∧ count ≤ count' ∧
        (state.encryptAll calls).2.nonces.Serves rng fills' count' ∧
        (state.encryptAll calls).1.map segmentNonce =
          blocks.map (rng.block fills') ∧
        blocks.Pairwise (· < ·) ∧
        ∀ block ∈ blocks, count ≤ block ∧ block < count' := by
  induction calls generalizing state fills count with
  | nil =>
      refine ⟨fills, count, [], Nat.le_refl _, Nat.le_refl _, serves, rfl,
        .nil, ?_⟩
      intro block member
      cases member
  | cons first calls inductionHypothesis =>
      obtain ⟨platform, call⟩ := first
      obtain ⟨middle, next, later, more, nextServes, carried⟩ :=
        (call.drew platform state).serves serves
      obtain ⟨last, total, blocks, lastLater, lastMore, lastServes, nonces,
        ordered, within⟩ := inductionHypothesis nextServes
      unfold encryptAll
      cases segment : call.segment? platform state with
      | none =>
          refine ⟨last, total, blocks, by omega, by omega, lastServes,
            nonces, ordered, ?_⟩
          intro block member
          obtain ⟨above, below⟩ := within block member
          exact ⟨by omega, below⟩
      | some bytes =>
          obtain ⟨advanced, nonce⟩ := carried bytes segment
          have inside : aeadIvLength * (count + 1) ≤
              (rng.filled middle).length :=
            Nat.le_trans (Nat.mul_le_mul_left _ advanced) nextServes.inside
          refine ⟨last, total, count :: blocks, by omega, by omega,
            lastServes, ?_, ?_, ?_⟩
          · simp only [Option.toList_some, List.singleton_append,
              List.map_cons, nonces, nonce,
              rng.block_le inside lastLater]
          · refine List.pairwise_cons.mpr ⟨?_, ordered⟩
            intro block member
            have above := (within block member).1
            omega
          · intro block member
            rcases List.mem_cons.mp member with rfl | other
            · exact ⟨Nat.le_refl _, by omega⟩
            · obtain ⟨above, below⟩ := within block other
              exact ⟨by omega, below⟩

end Segments

/-! ## Freshness -/

/-- A nonce generator hands out no random byte twice and none that was not
filled.  Over any sequence of draws and any pattern of failing fills, draws
return a nonce or report the failure of a fill; the nonces are the consecutive
twelve-byte blocks of what the successful fills brought; and a draw behind a
failed one fills a new batch before it serves.  So over any run of encryptions on
one state, which may fail, the nonces in the segments are different blocks of
what was filled, in order. -/
theorem nonces_areFresh (rng : ProviderRng) :
    (∀ calls,
      let run := (NonceGenerator.new rng).drawAll calls
      let nonces := run.1.filterMap Except.toOption
      (∀ result ∈ run.1,
        (∃ nonce, result = .ok nonce) ∨
          result = .error (.err .rngFailure)) ∧
      ∃ fills,
        run.2.rng = rng.after fills ∧
          (∀ index nonce,
            nonces[index]? = some nonce →
              aeadIvLength * index + aeadIvLength ≤
                  (rng.filled fills).length ∧
                nonce.val =
                  ((rng.filled fills).drop (aeadIvLength * index)).take
                    aeadIvLength) ∧
          ∀ stop failed,
            run.2.draw = (.error stop, failed) →
              (rng fills).succeeds = false ∧
                ∀ nonce next,
                  failed.draw = (.ok nonce, next) →
                    (rng (fills + 1)).succeeds = true ∧
                      nonce.val =
                        (rng.batch (fills + 1)).take aeadIvLength) ∧
    (∀ state : EncryptionState,
      state.nonces = NonceGenerator.new rng →
        ∀ calls,
          let run := state.encryptAll calls
          ∃ fills, ∃ blocks : List Nat,
            run.2.nonces.rng = rng.after fills ∧
              run.1.map segmentNonce =
                blocks.map (fun block =>
                  ((rng.filled fills).drop (aeadIvLength * block)).take
                    aeadIvLength) ∧
              blocks.Pairwise (· < ·) ∧
              ∀ block ∈ blocks,
                aeadIvLength * block + aeadIvLength ≤
                  (rng.filled fills).length) := by
  constructor
  · intro calls run nonces
    obtain ⟨fills, _, serves, failures, blocks⟩ :=
      (NonceGenerator.serves_new rng).drawAll calls
    refine ⟨?_, fills, serves.rng_eq, ?_, ?_⟩
    · intro result member
      cases result with
      | ok nonce => exact .inl ⟨nonce, rfl⟩
      | error stop => exact .inr (failures _ member rfl)
    · intro index nonce found
      have listed := (List.getElem?_eq_some_iff.mp found).1
      have inside := serves.inside
      rw [Nat.zero_add] at inside
      have value := blocks index nonce found
      rw [Nat.zero_add] at value
      refine ⟨?_, value⟩
      rw [← Nat.mul_succ]
      exact Nat.le_trans (Nat.mul_le_mul_left _ listed) inside
    · intro stop failed answer
      rcases serves.draw with
        ⟨_, _, _, drawn, _⟩ | ⟨next, drawn, _, fails, used, nextServes⟩
      · rw [drawn] at answer
        cases answer
      · rw [drawn, Prod.mk.injEq] at answer
        obtain ⟨_, rfl⟩ := answer
        refine ⟨fails, ?_⟩
        intro nonce last answer
        rcases nextServes.draw with
          ⟨other, after, _, drawn, _, _, _, refills⟩ | ⟨_, drawn, _⟩
        · rw [drawn, Prod.mk.injEq, Except.ok.injEq] at answer
          obtain ⟨rfl, _⟩ := answer
          exact refills used
        · rw [drawn] at answer
          cases answer
  · intro state fresh calls run
    have serves : state.nonces.Serves rng 0 0 := by
      rw [fresh]
      exact NonceGenerator.serves_new rng
    obtain ⟨fills, count, blocks, _, _, last, nonces, ordered, within⟩ :=
      state.encryptAll_spec serves calls
    refine ⟨fills, blocks, last.rng_eq, nonces, ordered, ?_⟩
    intro block member
    rw [← Nat.mul_succ]
    exact Nat.le_trans (Nat.mul_le_mul_left _ (within block member).2)
      last.inside

/-- A generator whose first fill fails. -/
def failingFirst : ProviderRng :=
  fun fill => ⟨fill ≠ 0, UInt8.ofNat⟩

/-- A state over this generator. -/
def failingState : EncryptionState where
  context := transparentContext
  keys := KeyCache.empty
  nonces := NonceGenerator.new failingFirst

/-- Calls of which the first finds no nonce, and the second has a plaintext of a
wrong length. -/
def failingCalls : List (Platform × EncryptionCall) :=
  [(openPlatform, .allocating (zeros 32) 0 .nonFinal),
    (openPlatform, .allocating [1] 0 .nonFinal),
    (openPlatform, .allocating (zeros 32) 0 .nonFinal),
    (openPlatform, .into [2] 1 .final (zeros 40))]

set_option maxRecDepth 100000 in
theorem exists_failedDraw :
    ∃ failed nonce next,
      (NonceGenerator.new failingFirst).draw =
          (.error (.err .rngFailure), failed) ∧
        failed.draw = (.ok nonce, next) ∧
        (failingState.encryptAll failingCalls).1.length = 2 :=
  ⟨_, _, _, rfl, rfl, by decide +kernel⟩

/-- A draw that fails is followed by one that fills again, and two of four
encryptions take the first blocks. -/
theorem nonces_areFresh_example :
    ∃ failed nonce next fills, ∃ blocks : List Nat,
      (NonceGenerator.new failingFirst).draw =
          (.error (.err .rngFailure), failed) ∧
        failed.draw = (.ok nonce, next) ∧
        nonce.val = (failingFirst.batch 1).take aeadIvLength ∧
        (failingState.encryptAll failingCalls).1.map segmentNonce =
          blocks.map (fun block =>
            ((failingFirst.filled fills).drop (aeadIvLength * block)).take
              aeadIvLength) ∧
        blocks.length = 2 ∧ blocks.Pairwise (· < ·) := by
  obtain ⟨failed, nonce, next, fails, drawn, count⟩ := exists_failedDraw
  obtain ⟨draws, encryptions⟩ := nonces_areFresh failingFirst
  obtain ⟨_, first, _, _, refill⟩ := draws 0
  obtain ⟨unfilled, served⟩ := refill _ failed fails
  obtain ⟨fills, blocks, _, nonces, ordered, _⟩ :=
    encryptions failingState rfl failingCalls
  obtain rfl : first = 0 := by
    simpa [failingFirst] using unfilled
  have same := congrArg List.length nonces
  rw [List.length_map, List.length_map, count] at same
  exact ⟨failed, nonce, next, fills, blocks, fails, drawn,
    (served nonce next drawn).2, nonces, same.symm, ordered⟩

end FastFloe
