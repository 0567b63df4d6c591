import FastFloe.Rust.Vec
import FastFloe.Decryptors
import FastFloe.Transparent

namespace FastFloe

open Rust

/-!
# Memory of the one-shot decryptor

`decrypt_body` collects plaintext in one guarded vector whose capacity it
reserves up front.  Each segment needs less room than it took off the body, so
the vector never moves, and the guard zeroes all the memory that ever held
plaintext.
-/

/-- Where the loop of `decrypt_body` stands, with a count of the segments that
it has split off. -/
structure BodyState where
  decryptor : Decryptor
  body : Bytes
  plaintext : Vec UInt8
  split : Nat

namespace BodyState

/-- Before the first turn. -/
def start (decryptor : Decryptor) (body : Bytes) : BodyState where
  decryptor := decryptor
  body := body
  plaintext := Vec.withCapacity body.length
  split := 0

/-- The first half of a turn: splits a segment off the body and resizes the
vector for its plaintext.  Also returns where that plaintext starts. -/
def splitSegment (parameters : Parameters) (self : BodyState) :
    Result (SegmentFraming × Bytes × Nat × BodyState) := do
  let lengthPrefix ← segmentPrefix self.body parameters
  let framing ← SegmentFraming.decode parameters lengthPrefix
  let segmentLength := framing.ciphertextLength
  if self.body.length < segmentLength then
    .error (.err (.invalidCiphertextLength self.body.length
      (.atLeast segmentLength)))
  else if framing.kind.isFinal ∧ segmentLength ≠ self.body.length then
    .error (.err (.invalidCiphertextLength self.body.length
      (.exactly segmentLength)))
  else
    let (segment, rest) ← splitAt self.body segmentLength
    let start := self.plaintext.items.length
    let plaintext :=
      self.plaintext.resize (start + framing.plaintextLength) 0
    .ok (framing, segment, start,
      { self with body := rest, plaintext, split := self.split + 1 })

/-- The second half of a turn: opens the segment into the vector. -/
def openSegment (platform : Platform) (framing : SegmentFraming)
    (segment : Bytes) (start : Nat) (self : BodyState) :
    Result Unit × BodyState :=
  match (slice self.plaintext.items start self.plaintext.items.length :
      Result Bytes) with
  | .error stop =>
      (.error stop, self)
  | .ok output =>
      match self.decryptor.decryptSegmentIntoFramed platform segment framing
          output with
      | (.error stop, decryptor, output) =>
          (.error stop,
            { self with
              decryptor, plaintext := self.plaintext.writeBack start output })
      | (.ok _, decryptor, output) =>
          (.ok (),
            { self with
              decryptor, plaintext := self.plaintext.writeBack start output })

/-- One turn of the loop on a body that is not empty. -/
def turn (platform : Platform) (parameters : Parameters)
    (self : BodyState) : Result Unit × BodyState :=
  match self.splitSegment parameters with
  | .error stop =>
      (.error stop, self)
  | .ok (framing, segment, start, self) =>
      self.openSegment platform framing segment start

/-- The loop of `decrypt_body`. -/
def loop (platform : Platform) (parameters : Parameters) :
    Nat → BodyState → Result Unit × BodyState
  | 0, self =>
      (.error .diverge, self)
  | fuel + 1, self =>
      if self.body = [] then
        (.ok (), self)
      else
        match self.turn platform parameters with
        | (.error stop, self) => (.error stop, self)
        | (.ok (), self) => loop platform parameters fuel self

/-- The state in which a turn starts, if the loop gets to it. -/
def beforeTurn (platform : Platform) (parameters : Parameters) :
    Nat → BodyState → Option BodyState
  | 0, self =>
      some self
  | count + 1, self =>
      if self.body = [] then
        none
      else
        match self.turn platform parameters with
        | (.error _, _) => none
        | (.ok (), self) => beforeTurn platform parameters count self

end BodyState

/-- `decrypt_body` with the vector that its guard holds when it returns.  On
success the vector is moved out and the guard holds an empty one. -/
def decryptBodyGuarded (platform : Platform) (decryptor : Decryptor)
    (body : Bytes) : Result Bytes × Vec UInt8 :=
  match (BodyState.start decryptor body).loop platform decryptor.parameters
      (body.length + 1) with
  | (.error stop, state) =>
      (.error stop, state.plaintext)
  | (.ok (), state) =>
      match state.decryptor.finish with
      | .error stop => (.error stop, state.plaintext)
      | .ok () => (.ok state.plaintext.items, Vec.withCapacity 0)

/-- An output keeps its length, whether or not a segment is opened into it. -/
theorem Decryptor.length_decryptSegmentIntoFramed
    (platform : Platform)
    (decryptor : Decryptor)
    (segment : Bytes)
    (framing : SegmentFraming)
    (output : Bytes) :
    (decryptor.decryptSegmentIntoFramed platform segment framing
        output).2.2.length = output.length := by
  have inner (state : DecryptionState) (position plaintextLength : Nat) :
      (state.openInto platform segment position framing.kind plaintextLength
          output).2.2.length = output.length := by
    unfold DecryptionState.openInto decryptSegmentIntoInner
    by_cases small : output.length < plaintextLength
    · simp only [small, ↓reduceIte]
    simp only [small, ↓reduceIte]
    cases found : state.keys.keyForPosition platform state.context
        position with
    | mk outcome keys =>
    cases outcome with
    | error stop => rfl
    | ok key =>
    cases cut : splitForOpen segment with
    | error stop => rfl
    | ok parts =>
    obtain ⟨nonce, ciphertext, tag⟩ := parts
    have sliced : (slice output 0 plaintextLength : Result Bytes) =
        .ok (output.take plaintextLength) :=
      slice_zero (by omega)
    simp only [sliced]
    have kept := key.length_openInto platform nonce
      (segmentAad position framing.kind) ciphertext
      (output.take plaintextLength) tag
    cases opened : key.openInto platform nonce
        (segmentAad position framing.kind) ciphertext tag
        (output.take plaintextLength) with
    | mk outcome region =>
    rw [opened, List.length_take] at kept
    have whole : (writeBack output 0 region).length = output.length :=
      length_writeBack (by
        simp only at kept
        omega)
    cases outcome with
    | error stop => exact whole
    | ok value => exact whole
  unfold decryptSegmentIntoFramed advance
  cases reserved : decryptor.counter.positionFor framing.kind with
  | error stop => rfl
  | ok position =>
  simp only [DecryptionState.decryptSegmentIntoAtFramed]
  cases valid : validateFramedLength segment.length framing with
  | error stop => rfl
  | ok plaintextLength =>
  have kept := inner decryptor.state position plaintextLength
  simp only
  cases opened : decryptor.state.openInto platform segment position
      framing.kind plaintextLength output with
  | mk outcome left =>
  rw [opened] at kept
  cases outcome with
  | error stop => exact kept
  | ok value => exact kept

namespace BodyState

section Turns

variable {platform : Platform} {parameters : Parameters}
  {state : BodyState}

/-- The vector has exactly the room that the segments split off so far take up,
and has never moved. -/
structure Fits (initial : Nat) (state : BodyState) : Prop where
  balance :
    state.plaintext.items.length + state.body.length + 32 * state.split =
      initial
  capacity : state.plaintext.capacity = initial
  unmoved : state.plaintext.released = []

theorem fits_start (decryptor : Decryptor) (body : Bytes) :
    (start decryptor body).Fits body.length where
  balance := by
    simp [start, Vec.withCapacity]
  capacity := rfl
  unmoved := rfl

/-- All that is left behind such a vector is one zeroed allocation. -/
theorem Fits.zeroized
    {initial : Nat}
    (fits : state.Fits initial) :
    state.plaintext.zeroized = [zeros initial] := by
  rw [Vec.zeroized, fits.unmoved, fits.capacity, List.nil_append]

/-- What splitting a segment off does to the body and the vector. -/
theorem splitSegment_eq_ok
    {framing : SegmentFraming}
    {segment : Bytes}
    {start : Nat}
    {next : BodyState}
    (cut :
      state.splitSegment parameters = .ok (framing, segment, start, next)) :
    framing.plaintextLength + 32 = framing.ciphertextLength ∧
      framing.ciphertextLength ≤ state.body.length ∧
      start = state.plaintext.items.length ∧
      next =
        { state with
          body := state.body.drop framing.ciphertextLength
          plaintext :=
            state.plaintext.resize (start + framing.plaintextLength) 0
          split := state.split + 1 } := by
  unfold splitSegment at cut
  obtain ⟨lengthPrefix, _, cut⟩ := Outcome.bind_eq_ok.mp cut
  obtain ⟨other, decoded, cut⟩ := Outcome.bind_eq_ok.mp cut
  have valid : other.Valid parameters := by
    rcases SegmentFraming.decode_spec parameters lengthPrefix with
      ⟨_, same, valid, _⟩ | ⟨⟨_, failed⟩, _⟩
    · rw [decoded] at same
      cases same
      exact valid
    · rw [decoded] at failed
      cases failed
  by_cases short : state.body.length < other.ciphertextLength
  · simp only [short, ↓reduceIte] at cut
    cases cut
  simp only [short, ↓reduceIte] at cut
  by_cases early : other.kind.isFinal ∧
      other.ciphertextLength ≠ state.body.length
  · rw [if_pos early] at cut
    cases cut
  rw [if_neg early, splitAt_eq (by omega)] at cut
  cases cut
  exact ⟨valid.payload, by omega, rfl, rfl⟩

/-- Splitting a segment off makes no more room than the segment took up. -/
theorem Fits.splitSegment
    {initial start : Nat}
    {framing : SegmentFraming}
    {segment : Bytes}
    {next : BodyState}
    (fits : state.Fits initial)
    (cut :
      state.splitSegment parameters = .ok (framing, segment, start, next)) :
    next.Fits initial ∧ next.split = state.split + 1 ∧
      start ≤ next.plaintext.items.length := by
  obtain ⟨payload, inside, rfl, rfl⟩ := splitSegment_eq_ok cut
  have balance := fits.balance
  have capacity := fits.capacity
  have grown := @Vec.resize_of_le _ state.plaintext
    (state.plaintext.items.length + framing.plaintextLength) (0 : UInt8)
    (Nat.le_add_right _ _) (by omega)
  have length : (state.plaintext.resize
      (state.plaintext.items.length + framing.plaintextLength)
      0).items.length =
        state.plaintext.items.length + framing.plaintextLength := by
    rw [grown, List.length_append, List.length_replicate,
      Nat.add_sub_cancel_left]
  refine ⟨⟨?_, ?_, ?_⟩, rfl, ?_⟩
  · simp only [length, List.length_drop]
    omega
  · simp only [grown]
    exact capacity
  · simp only [grown]
    exact fits.unmoved
  · simp only [length]
    omega

/-- Opening a segment, or failing to, writes inside the vector. -/
theorem Fits.openSegment
    {initial start : Nat}
    {framing : SegmentFraming}
    {segment : Bytes}
    (platform : Platform)
    (fits : state.Fits initial)
    (inside : start ≤ state.plaintext.items.length) :
    (state.openSegment platform framing segment start).2.Fits initial := by
  have sliced :
      (slice state.plaintext.items start state.plaintext.items.length :
          Result Bytes) =
        .ok (state.plaintext.items.drop start) := by
    rw [slice_eq inside (Nat.le_refl _), List.take_of_length_le (by
      rw [List.length_drop])]
  unfold BodyState.openSegment
  simp only [sliced]
  have kept := state.decryptor.length_decryptSegmentIntoFramed platform segment
    framing (state.plaintext.items.drop start)
  rw [List.length_drop] at kept
  cases opened : state.decryptor.decryptSegmentIntoFramed platform segment
      framing (state.plaintext.items.drop start) with
  | mk outcome left =>
  obtain ⟨decryptor, output⟩ := left
  rw [opened] at kept
  have whole :
      (writeBack state.plaintext.items start output).length =
        state.plaintext.items.length :=
    length_writeBack (by
      simp only at kept
      omega)
  have after : Fits initial
      { state with
        decryptor, plaintext := state.plaintext.writeBack start output } := by
    refine ⟨?_, fits.capacity, fits.unmoved⟩
    simp only [Vec.writeBack, whole]
    exact fits.balance
  cases outcome with
  | error stop => exact after
  | ok value => exact after

/-- A turn keeps the vector in place, also when it fails. -/
theorem Fits.turn
    {initial : Nat}
    (platform : Platform)
    (parameters : Parameters)
    (fits : state.Fits initial) :
    (state.turn platform parameters).2.Fits initial := by
  unfold BodyState.turn
  cases cut : state.splitSegment parameters with
  | error stop => exact fits
  | ok parts =>
      obtain ⟨framing, segment, start, next⟩ := parts
      obtain ⟨nextFits, _, inside⟩ := fits.splitSegment cut
      exact nextFits.openSegment platform inside

/-- The loop keeps the vector in place, however it ends. -/
theorem Fits.loop
    {initial : Nat}
    (platform : Platform)
    (parameters : Parameters)
    (fits : state.Fits initial)
    (fuel : Nat) :
    (state.loop platform parameters fuel).2.Fits initial := by
  induction fuel generalizing state with
  | zero =>
      exact fits
  | succ fuel inductionHypothesis =>
      have next := fits.turn platform parameters
      unfold BodyState.loop
      split
      · exact fits
      cases turned : state.turn platform parameters with
      | mk outcome after =>
      rw [turned] at next
      cases outcome with
      | error stop => exact next
      | ok value => exact inductionHypothesis next

/-- Every turn starts with the vector in place. -/
theorem Fits.beforeTurn
    {initial count : Nat}
    {later : BodyState}
    (fits : state.Fits initial)
    (reached :
      state.beforeTurn platform parameters count = some later) :
    later.Fits initial := by
  induction count generalizing state with
  | zero =>
      cases reached
      exact fits
  | succ count inductionHypothesis =>
      have next := fits.turn platform parameters
      unfold BodyState.beforeTurn at reached
      by_cases done : state.body = []
      · simp only [done, ↓reduceIte] at reached
        cases reached
      simp only [done, ↓reduceIte] at reached
      cases turned : state.turn platform parameters with
      | mk outcome after =>
      rw [turned] at next reached
      cases outcome with
      | error stop => cases reached
      | ok value => exact inductionHypothesis next reached

/-- Opening a segment splits nothing off. -/
theorem openSegment_split
    (platform : Platform)
    (framing : SegmentFraming)
    (segment : Bytes)
    (start : Nat) :
    (state.openSegment platform framing segment start).2.split =
      state.split := by
  unfold BodyState.openSegment
  split
  · rfl
  · split
    · rfl
    · rfl

/-- The count of segments counts the turns. -/
theorem beforeTurn_split
    {count : Nat}
    {later : BodyState}
    (reached :
      state.beforeTurn platform parameters count = some later) :
    later.split = state.split + count := by
  induction count generalizing state with
  | zero =>
      cases reached
      rfl
  | succ count inductionHypothesis =>
      unfold BodyState.beforeTurn at reached
      by_cases done : state.body = []
      · simp only [done, ↓reduceIte] at reached
        cases reached
      simp only [done, ↓reduceIte] at reached
      unfold BodyState.turn at reached
      cases cut : state.splitSegment parameters with
      | error stop =>
          rw [cut] at reached
          cases reached
      | ok parts =>
      obtain ⟨framing, segment, start, next⟩ := parts
      obtain ⟨_, _, _, shape⟩ := splitSegment_eq_ok cut
      have kept := @openSegment_split next platform framing segment start
      rw [cut] at reached
      simp only at reached
      cases opened : next.openSegment platform framing segment start with
      | mk outcome after =>
      rw [opened] at kept reached
      cases outcome with
      | error stop => cases reached
      | ok value =>
          rw [inductionHypothesis reached, kept, shape]
          simp only
          omega

/-- A turn does to the plaintext what a turn of the loop without memory
does. -/
theorem decryptBodyLoop_turn
    (platform : Platform)
    (parameters : Parameters)
    (fuel : Nat)
    (more : state.body ≠ []) :
    decryptBodyLoop platform parameters (fuel + 1) state.decryptor state.body
        state.plaintext.items =
      (state.turn platform parameters).1 >>= fun _ =>
        decryptBodyLoop platform parameters fuel
          (state.turn platform parameters).2.decryptor
          (state.turn platform parameters).2.body
          (state.turn platform parameters).2.plaintext.items := by
  rw [decryptBodyLoop, if_neg more]
  unfold BodyState.turn BodyState.splitSegment
  cases cut : segmentPrefix state.body parameters with
  | error stop => rfl
  | ok lengthPrefix =>
  simp only [Outcome.ok_bind]
  cases decoded : SegmentFraming.decode parameters lengthPrefix with
  | error stop => rfl
  | ok framing =>
  simp only [Outcome.ok_bind]
  by_cases short : state.body.length < framing.ciphertextLength
  · simp only [short, ↓reduceIte, Outcome.error_bind]
  simp only [short, ↓reduceIte]
  by_cases early : framing.kind.isFinal ∧
      framing.ciphertextLength ≠ state.body.length
  · rw [if_pos early, if_pos early]
    rfl
  rw [if_neg early, if_neg early, splitAt_eq (by omega)]
  simp only [Outcome.ok_bind]
  have resized : (state.plaintext.resize
      (state.plaintext.items.length + framing.plaintextLength) 0).items =
        state.plaintext.items ++ zeros framing.plaintextLength := by
    rw [Vec.items_resize (Nat.le_add_right _ _), Nat.add_sub_cancel_left]
    rfl
  simp only [BodyState.openSegment, resized]
  cases sliced : (slice (state.plaintext.items ++
      zeros framing.plaintextLength) state.plaintext.items.length
      (state.plaintext.items ++ zeros framing.plaintextLength).length :
        Result Bytes) with
  | error stop => rfl
  | ok output =>
  simp only [Outcome.ok_bind]
  cases opened : state.decryptor.decryptSegmentIntoFramed platform
      (state.body.take framing.ciphertextLength) framing output with
  | mk outcome left =>
  cases outcome with
  | error stop => rfl
  | ok value =>
      simp only [Vec.writeBack, resized, Outcome.ok_bind]

/-- The loop with memory refines the loop without. -/
theorem decryptBodyLoop_eq
    (platform : Platform)
    (parameters : Parameters)
    (fuel : Nat) :
    decryptBodyLoop platform parameters fuel state.decryptor state.body
        state.plaintext.items =
      (state.loop platform parameters fuel).1.map fun _ =>
        ((state.loop platform parameters fuel).2.decryptor,
          (state.loop platform parameters fuel).2.plaintext.items) := by
  induction fuel generalizing state with
  | zero =>
      rfl
  | succ fuel inductionHypothesis =>
      by_cases done : state.body = []
      · simp only [decryptBodyLoop, BodyState.loop, done, ↓reduceIte,
          Except.map]
      rw [decryptBodyLoop_turn platform parameters fuel done]
      simp only [BodyState.loop, done, ↓reduceIte]
      cases turned : state.turn platform parameters with
      | mk outcome after =>
      cases outcome with
      | error stop => rfl
      | ok value => exact inductionHypothesis

end Turns

end BodyState

/-- Keeping account of memory changes nothing about the result. -/
theorem decryptBodyGuarded_result
    (platform : Platform)
    (decryptor : Decryptor)
    (body : Bytes) :
    (decryptBodyGuarded platform decryptor body).1 =
      decryptBody platform decryptor body := by
  have whole := @BodyState.decryptBodyLoop_eq (BodyState.start decryptor body)
    platform decryptor.parameters (body.length + 1)
  have begun : decryptBodyLoop platform decryptor.parameters
      (body.length + 1) decryptor body [] = _ :=
    whole
  unfold decryptBodyGuarded decryptBody
  rw [begun]
  cases ended : (BodyState.start decryptor body).loop platform
      decryptor.parameters (body.length + 1) with
  | mk outcome state =>
  cases outcome with
  | error stop => rfl
  | ok value =>
      simp only [Except.map, Outcome.ok_bind]
      cases finished : state.decryptor.finish with
      | error stop => rfl
      | ok value => rfl

/-- One-shot decryption never outgrows the vector that it reserved.  For every
decryptor and every body, at every turn of the loop, also the one that fails,
the vector's length after the resize leaves room for the body that is not split
off yet and for thirty-two bytes per segment that is, so that the vector keeps
the allocation it started with.  When `decrypt_body` fails, the guard has
therefore zeroed every allocation that ever held plaintext.  The account of
memory does not change the result. -/
theorem decryptBody_neverReallocates
    (platform : Platform)
    (decryptor : Decryptor)
    (body : Bytes) :
    (decryptBodyGuarded platform decryptor body).1 =
        decryptBody platform decryptor body ∧
      (∀ count state,
        (BodyState.start decryptor body).beforeTurn platform
            decryptor.parameters count = some state →
          state.split = count ∧
          (∀ framing segment start resized,
            state.splitSegment decryptor.parameters =
                .ok (framing, segment, start, resized) →
              resized.split = count + 1 ∧
                resized.plaintext.items.length + resized.body.length +
                    32 * resized.split ≤ body.length ∧
                resized.plaintext.capacity = body.length ∧
                resized.plaintext.released = []) ∧
          (state.turn platform decryptor.parameters).2.plaintext.items.length
              ≤ body.length ∧
          (state.turn platform decryptor.parameters).2.plaintext.capacity =
            body.length ∧
          (state.turn platform decryptor.parameters).2.plaintext.released =
            []) ∧
      ∀ stop,
        (decryptBodyGuarded platform decryptor body).1 = .error stop →
          (decryptBodyGuarded platform decryptor body).2.zeroized =
            [zeros body.length] := by
  have fits := BodyState.fits_start decryptor body
  refine ⟨decryptBodyGuarded_result platform decryptor body, ?_, ?_⟩
  · intro count state reached
    have here := fits.beforeTurn reached
    have counted : state.split = count :=
      (BodyState.beforeTurn_split reached).trans (Nat.zero_add count)
    have after := here.turn platform decryptor.parameters
    refine ⟨counted, ?_, ?_, after.capacity, after.unmoved⟩
    · intro framing segment start resized cut
      obtain ⟨next, split, _⟩ := here.splitSegment cut
      exact ⟨by rw [split, counted], Nat.le_of_eq next.balance,
        next.capacity, next.unmoved⟩
    · have balance := after.balance
      omega
  · intro stop failed
    have last := fits.loop platform decryptor.parameters (body.length + 1)
    unfold decryptBodyGuarded at failed ⊢
    cases ended : (BodyState.start decryptor body).loop platform
        decryptor.parameters (body.length + 1) with
    | mk outcome state =>
    rw [ended] at failed last
    cases outcome with
    | error other =>
        exact last.zeroized
    | ok value =>
        cases finished : state.decryptor.finish with
        | error other =>
            simp only [finished]
            exact last.zeroized
        | ok value =>
            simp only [finished] at failed
            cases failed

/-- A full segment, and a final one whose tag is not the provider's. -/
def failingBody : Bytes :=
  transparentSegment u32Max (Octets.zero aeadIvLength) (List.replicate 32 7) ++
    (beBytes 4 33 ++ zeros 12 ++ [5] ++ List.replicate 16 1)

set_option maxRecDepth 100000 in
/-- The second turn splits its segment off, and fails to open it. -/
theorem exists_failedBody :
    ∃ decryptor,
      Decryptor.new openPlatform zeroKey [] transparentHeader =
          .ok decryptor ∧
        (((BodyState.start decryptor failingBody).beforeTurn openPlatform
            decryptor.parameters 1).bind fun state =>
          (state.splitSegment decryptor.parameters).toOption).isSome ∧
        (decryptBodyGuarded openPlatform decryptor failingBody).1 =
          .error (.err .authenticationFailed) ∧
        (decryptBodyGuarded openPlatform decryptor
          failingBody).2.items.length = 33 :=
  ⟨_, rfl, by decide +kernel, by decide +kernel, by decide +kernel⟩

theorem decryptBody_neverReallocates_example :
    ∃ decryptor state framing segment start resized,
      Decryptor.new openPlatform zeroKey [] transparentHeader =
          .ok decryptor ∧
        (BodyState.start decryptor failingBody).beforeTurn openPlatform
            decryptor.parameters 1 = some state ∧
        state.splitSegment decryptor.parameters =
            .ok (framing, segment, start, resized) ∧
        resized.plaintext.items.length + resized.body.length + 32 * 2 ≤ 97 ∧
        resized.plaintext.capacity = 97 ∧
        (decryptBodyGuarded openPlatform decryptor failingBody).1 =
          .error (.err .authenticationFailed) ∧
        (decryptBodyGuarded openPlatform decryptor
          failingBody).2.items.length = 33 ∧
        (decryptBodyGuarded openPlatform decryptor
          failingBody).2.zeroized = [zeros 97] := by
  obtain ⟨decryptor, created, reaches, failed, held⟩ := exists_failedBody
  obtain ⟨⟨framing, segment, start, resized⟩, found⟩ :=
    Option.isSome_iff_exists.mp reaches
  obtain ⟨state, reached, some⟩ := Option.bind_eq_some_iff.mp found
  have cut : state.splitSegment decryptor.parameters =
      .ok (framing, segment, start, resized) := by
    cases split : state.splitSegment decryptor.parameters with
    | error stop =>
        rw [split] at some
        cases some
    | ok parts =>
        rw [split] at some
        cases some
        rfl
  have length : failingBody.length = 97 := by decide +kernel
  obtain ⟨_, turns, zeroizes⟩ :=
    decryptBody_neverReallocates openPlatform decryptor failingBody
  obtain ⟨split, balance, capacity, _⟩ :=
    (turns 1 state reached).2.1 framing segment start resized cut
  have zeroized := zeroizes _ failed
  rw [split, length] at balance
  rw [length] at capacity zeroized
  exact ⟨decryptor, state, framing, segment, start, resized, created, reached,
    cut, balance, capacity, failed, held, zeroized⟩

end FastFloe
