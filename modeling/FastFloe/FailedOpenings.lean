import FastFloe.KeyLookups
import FastFloe.Decryptors
import FastFloe.Library.Runs

namespace FastFloe

open Rust

/-!
# In-place decryption that fails

Whatever makes an in-place decryption fail, the storage is wiped, a decryptor
stands where it stood, and the state answers every later call as if the failed
one had not been made.
-/

/-! ## The cleanup boundary -/

namespace SegmentBuffer

/-- What `decrypt_with` does once its operation has come back. -/
def settle (self : SegmentBuffer) : Result Nat → Result Bytes × SegmentBuffer
  | .ok length =>
      let self := { self with state := .plaintext length }
      (slice self.bytes segmentPayloadOffset (segmentPayloadOffset + length),
        self)
  | .error (.err error) =>
      (.error (.err error), self.clear)
  | .error .panic =>
      (.error .panic, self)
  | .error .diverge =>
      (.error .diverge, self)

theorem decryptWith_eq
    {σ : Type}
    (self : SegmentBuffer)
    (state : σ)
    (operation : SegmentBuffer → σ → Result Nat × SegmentBuffer × σ) :
    self.decryptWith state operation =
      (((operation self state).2.1.settle (operation self state).1).1,
        ((operation self state).2.1.settle (operation self state).1).2,
        (operation self state).2.2) := by
  unfold decryptWith
  rcases operation self state with ⟨(_ | _ | _) | _, left, next⟩ <;> rfl

/-- A call that comes back with an `Err` has wiped the storage, because its
operation failed. -/
theorem settle_eq_err
    {buffer left : SegmentBuffer}
    {outcome : Result Nat}
    {error : Error}
    (settled : buffer.settle outcome = (.error (.err error), left)) :
    outcome = .error (.err error) ∧ left = buffer.clear := by
  rcases outcome with (_ | _ | _) | length
  · cases settled
    exact ⟨rfl, rfl⟩
  · cases settled
  · cases settled
  · simp only [settle, Prod.mk.injEq] at settled
    obtain ⟨read, _⟩ := settled
    unfold slice at read
    split at read <;> cases read

/-- A call that comes back with a plaintext leaves the storage prepared with
exactly that plaintext. -/
theorem settle_eq_ok
    {buffer left : SegmentBuffer}
    {outcome : Result Nat}
    {plaintext : Bytes}
    (settled : buffer.settle outcome = (.ok plaintext, left)) :
    left.state = .plaintext plaintext.length ∧
      left.plaintext = .ok plaintext := by
  rcases outcome with (_ | _ | _) | length
  · cases settled
  · cases settled
  · cases settled
  · simp only [settle, Prod.mk.injEq] at settled
    obtain ⟨read, rfl⟩ := settled
    have exact : plaintext.length = length := by
      unfold slice at read
      split at read
      next inside =>
        cases read
        rw [List.length_take, List.length_drop]
        omega
      · cases read
    exact ⟨by rw [exact], read⟩

end SegmentBuffer

/-! ## Lengths -/

/-- Splitting a segment in place finds its ciphertext inside it. -/
theorem splitForOpenInPlace_inside
    {segment ciphertext : Bytes}
    {nonce : Octets aeadIvLength}
    {tag : Octets aeadTagLength}
    {plaintextLength : Nat}
    (split :
      splitForOpenInPlace segment plaintextLength =
        .ok (nonce, ciphertext, tag)) :
    segmentPayloadOffset + ciphertext.length ≤ segment.length := by
  unfold splitForOpenInPlace at split
  obtain ⟨⟨framing, rest⟩, first, split⟩ := Outcome.bind_eq_ok.mp split
  obtain ⟨_, _, split⟩ := Outcome.bind_eq_ok.mp split
  obtain ⟨_, _, split⟩ := Outcome.bind_eq_ok.mp split
  obtain ⟨⟨payload, tagBytes⟩, second, split⟩ := Outcome.bind_eq_ok.mp split
  obtain ⟨_, _, split⟩ := Outcome.bind_eq_ok.mp split
  simp only [Except.ok.injEq, Prod.mk.injEq] at split
  obtain ⟨_, rfl, _⟩ := split
  unfold splitAt at first second
  split at first
  next inside =>
    cases first
    split at second
    next inside' =>
      cases second
      rw [List.length_drop] at inside'
      rw [List.length_take, List.length_drop]
      omega
    · cases second
  · cases first

/-- `open_segment_in_place` keeps the segment's length. -/
theorem length_openInPlaceWith
    (platform : Platform)
    (segment : Bytes)
    (position : Nat)
    (kind : SegmentKind)
    (plaintextLength : Nat)
    (found : Result AeadKey) :
    (openInPlaceWith platform segment position kind plaintextLength
      found).2.length = segment.length := by
  cases found with
  | error stop => rfl
  | ok key =>
      simp only [openInPlaceWith]
      cases split : splitForOpenInPlace segment plaintextLength with
      | error stop => rfl
      | ok pieces =>
          obtain ⟨nonce, ciphertext, tag⟩ := pieces
          have inside := splitForOpenInPlace_inside split
          have kept := key.length_openInPlace platform nonce
            (segmentAad position kind) ciphertext tag
          simp only
          cases opened : key.openInPlace platform nonce
              (segmentAad position kind) tag ciphertext with
          | mk result left =>
              rw [opened] at kept
              simp only at kept
              cases result with
              | error stop => exact length_writeBack (by omega)
              | ok _ => exact length_writeBack (by omega)

/-- Opening a part of a buffer where it stands keeps the buffer's length. -/
theorem length_writeBack_slice
    {items part chunk : Bytes}
    {stop : Nat}
    (read : (slice items 0 stop : Result Bytes) = .ok part)
    (same : chunk.length = part.length) :
    (writeBack items 0 chunk).length = items.length := by
  unfold slice at read
  split at read
  next inside =>
    cases read
    refine length_writeBack ?_
    rw [same, List.length_take, List.length_drop]
    omega
  · cases read

/-- `decrypt_segment_in_place_raw_at` keeps the segment's length. -/
theorem DecryptionState.length_decryptSegmentInPlaceRawAt
    (platform : Platform)
    (state : DecryptionState)
    (segment : Bytes)
    (position : Nat)
    (kind : SegmentKind) :
    (state.decryptSegmentInPlaceRawAt platform segment position
      kind).2.2.length = segment.length := by
  simp only [decryptSegmentInPlaceRawAt, decryptSegmentInPlaceInner]
  cases validateSegment state.context segment kind with
  | error stop => rfl
  | ok plaintextLength =>
      simp only [openSegmentInPlace_eq]
      exact length_openInPlaceWith _ _ _ _ _ _

/-- `decrypt_segment_in_place_at_framed` keeps the buffer's storage. -/
theorem DecryptionState.decryptSegmentInPlaceAtFramed_keeps
    (platform : Platform)
    (state : DecryptionState)
    (buffer : SegmentBuffer)
    (position : Nat)
    (framing : SegmentFraming) :
    (state.decryptSegmentInPlaceAtFramed platform buffer position
        framing).2.2.bytes.length = buffer.bytes.length ∧
      (state.decryptSegmentInPlaceAtFramed platform buffer position
        framing).2.2.parameters = buffer.parameters := by
  unfold decryptSegmentInPlaceAtFramed
  split
  · exact ⟨rfl, rfl⟩
  · split
    · exact ⟨rfl, rfl⟩
    next segment plaintextLength prepared =>
      obtain ⟨length, _, prepared⟩ := Outcome.bind_eq_ok.mp prepared
      obtain ⟨_, _, prepared⟩ := Outcome.bind_eq_ok.mp prepared
      obtain ⟨part, read, prepared⟩ := Outcome.bind_eq_ok.mp prepared
      simp only [Except.ok.injEq, Prod.mk.injEq] at prepared
      obtain ⟨rfl, rfl⟩ := prepared
      simp only [openSegmentInPlace_eq]
      exact ⟨length_writeBack_slice read
        (length_openInPlaceWith _ _ _ _ _ _), rfl⟩

/-! ## Calls -/

/-- A call of one of the functions that decrypt a segment, on a decryption
state. -/
inductive DecryptionCall where
  | allocating (segment : Bytes) (layout : SegmentLayout)
  | into (segment : Bytes) (layout : SegmentLayout) (output : Bytes)
  | inPlace (buffer : SegmentBuffer) (layout : SegmentLayout)
  | inPlaceRaw (segment : Bytes) (layout : SegmentLayout)

/-- A call on a decryptor. -/
inductive DecryptorCall where
  | allocating (segment : Bytes)
  | into (segment output : Bytes)
  | inPlace (buffer : SegmentBuffer)
  | finish

/-- All that the caller sees of a call: its result, and what it left in the
caller's storage. -/
inductive DecryptionAnswer where
  | allocating (result : Result Bytes)
  | into (result : Result Nat) (output : Bytes)
  | inPlace (result : Result Bytes) (buffer : SegmentBuffer)
  | inPlaceRaw (result : Result Bytes) (segment : Bytes)
  | finish (result : Result Unit)

/-- Performs a call on a decryption state. -/
def DecryptionCall.perform (platform : Platform) :
    DecryptionCall → DecryptionState → DecryptionAnswer × DecryptionState
  | .allocating segment layout, state =>
      match state.decryptSegment platform segment layout with
      | (result, state) => (.allocating result, state)
  | .into segment layout output, state =>
      match state.decryptSegmentInto platform segment layout output with
      | (result, state, output) => (.into result output, state)
  | .inPlace buffer layout, state =>
      match state.decryptSegmentInPlace platform buffer layout with
      | (result, buffer, state) => (.inPlace result buffer, state)
  | .inPlaceRaw segment layout, state =>
      match state.decryptSegmentInPlaceRaw platform segment layout with
      | (result, state, segment) => (.inPlaceRaw result segment, state)

/-- Performs a call on a decryptor.  `finish` takes the decryptor; a caller has
nothing to call afterwards. -/
def DecryptorCall.perform (platform : Platform) :
    DecryptorCall → Decryptor → DecryptionAnswer × Decryptor
  | .allocating segment, decryptor =>
      match decryptor.decryptSegment platform segment with
      | (result, decryptor) => (.allocating result, decryptor)
  | .into segment output, decryptor =>
      match decryptor.decryptSegmentInto platform segment output with
      | (result, decryptor, output) => (.into result output, decryptor)
  | .inPlace buffer, decryptor =>
      match decryptor.decryptSegmentInPlace platform buffer with
      | (result, buffer, decryptor) => (.inPlace result buffer, decryptor)
  | .finish, decryptor =>
      (.finish decryptor.finish, decryptor)

section Lookups

variable (platform : Platform) (context : MessageContext)

/-- The segment that a buffer holds, checked against a layout. -/
def DecryptionState.preparedSegment (layout : SegmentLayout)
    (buffer : SegmentBuffer) (state : DecryptionState) : Result Bytes := do
  let ciphertextLength ← buffer.ciphertextLength
  state.validateCiphertextLayout ciphertextLength layout
  if ¬ buffer.hasParameters state.parameters then
    .error (.err .invalidParameters)
  else
    slice buffer.bytes 0 ciphertextLength

/-- The storage operation of `decrypt_segment_in_place`. -/
def DecryptionState.openBuffer (platform : Platform) (layout : SegmentLayout)
    (buffer : SegmentBuffer) (state : DecryptionState) :
    Result Nat × SegmentBuffer × DecryptionState :=
  match preparedSegment layout buffer state with
  | .error stop =>
      (.error stop, buffer, state)
  | .ok ciphertextSegment =>
      match state.decryptSegmentInPlaceRawAt platform ciphertextSegment
          layout.position layout.kind with
      | (result, state, ciphertextSegment) =>
          (result.map List.length,
            buffer.withRaw (writeBack buffer.bytes 0 ciphertextSegment),
            state)

theorem DecryptionState.decryptSegmentInPlace_eq
    (state : DecryptionState)
    (buffer : SegmentBuffer)
    (layout : SegmentLayout) :
    state.decryptSegmentInPlace platform buffer layout =
      buffer.decryptWith state (openBuffer platform layout) :=
  rfl

/-- The storage operation keeps the length of the storage. -/
theorem DecryptionState.length_openBuffer
    (layout : SegmentLayout)
    (buffer : SegmentBuffer)
    (state : DecryptionState) :
    (openBuffer platform layout buffer state).2.1.bytes.length =
        buffer.bytes.length ∧
      (openBuffer platform layout buffer state).2.1.parameters =
        buffer.parameters := by
  unfold openBuffer
  split
  · exact ⟨rfl, rfl⟩
  next segment prepared =>
    unfold preparedSegment at prepared
    obtain ⟨length, _, prepared⟩ := Outcome.bind_eq_ok.mp prepared
    obtain ⟨_, _, prepared⟩ := Outcome.bind_eq_ok.mp prepared
    split at prepared
    · cases prepared
    · exact ⟨length_writeBack_slice prepared
        (state.length_decryptSegmentInPlaceRawAt platform segment
          layout.position layout.kind), rfl⟩

/-- Every call on a decryption state looks at most one key up. -/
theorem DecryptionCall.perform_oneLookup
    (call : DecryptionCall) :
    OneLookup platform context (call.perform platform) := by
  cases call with
  | allocating segment layout =>
      cases validated : DecryptionState.validateCiphertextLayout
          ⟨context, KeyCache.empty⟩ segment.length layout with
      | error stop =>
          refine OneLookup.of_answer (.allocating (.error stop))
            fun keys => ?_
          have refused : DecryptionState.validateCiphertextLayout
              ⟨context, keys⟩ segment.length layout = .error stop :=
            validated
          simp only [perform, DecryptionState.decryptSegment, refused]
      | ok _ =>
          refine (DecryptionState.decryptSegmentAt_oneLookup platform context
            segment layout.position layout.kind).map
            DecryptionAnswer.allocating fun keys => ?_
          have accepted : DecryptionState.validateCiphertextLayout
              ⟨context, keys⟩ segment.length layout = .ok () :=
            validated
          simp only [perform, DecryptionState.decryptSegment, accepted]
  | into segment layout output =>
      cases validated : DecryptionState.validateCiphertextLayout
          ⟨context, KeyCache.empty⟩ segment.length layout with
      | error stop =>
          refine OneLookup.of_answer (.into (.error stop) output)
            fun keys => ?_
          have refused : DecryptionState.validateCiphertextLayout
              ⟨context, keys⟩ segment.length layout = .error stop :=
            validated
          simp only [perform, DecryptionState.decryptSegmentInto, refused]
      | ok _ =>
          refine (DecryptionState.decryptSegmentIntoAt_oneLookup platform
            context segment layout.position layout.kind output).map
            (fun answer => .into answer.1 answer.2) fun keys => ?_
          have accepted : DecryptionState.validateCiphertextLayout
              ⟨context, keys⟩ segment.length layout = .ok () :=
            validated
          simp only [perform, DecryptionState.decryptSegmentInto, accepted,
            seen]
  | inPlace buffer layout =>
      cases prepared : DecryptionState.preparedSegment layout buffer
          ⟨context, KeyCache.empty⟩ with
      | error stop =>
          refine OneLookup.of_answer
            (.inPlace (buffer.settle (.error stop)).1
              (buffer.settle (.error stop)).2) fun keys => ?_
          have refused : DecryptionState.preparedSegment layout buffer
              ⟨context, keys⟩ = .error stop :=
            prepared
          simp only [perform, DecryptionState.decryptSegmentInPlace_eq,
            SegmentBuffer.decryptWith_eq, DecryptionState.openBuffer,
            refused]
      | ok segment =>
          refine (DecryptionState.decryptSegmentInPlaceRawAt_oneLookup
            platform context segment layout.position layout.kind).map
            (fun answer =>
              .inPlace
                ((buffer.withRaw (writeBack buffer.bytes 0 answer.2)).settle
                  (answer.1.map List.length)).1
                ((buffer.withRaw (writeBack buffer.bytes 0 answer.2)).settle
                  (answer.1.map List.length)).2) fun keys => ?_
          have accepted : DecryptionState.preparedSegment layout buffer
              ⟨context, keys⟩ = .ok segment :=
            prepared
          simp only [perform, DecryptionState.decryptSegmentInPlace_eq,
            SegmentBuffer.decryptWith_eq, DecryptionState.openBuffer,
            accepted, seen]
  | inPlaceRaw segment layout =>
      cases validated : validateLayout context layout with
      | error stop =>
          refine OneLookup.of_answer (.inPlaceRaw (.error stop) segment)
            fun keys => ?_
          simp only [perform, DecryptionState.decryptSegmentInPlaceRaw,
            validated]
      | ok _ =>
          by_cases short : segment.length < layout.ciphertextLength
          · refine OneLookup.of_answer
              (.inPlaceRaw (.error (.err (.invalidCiphertextLength
                segment.length (.atLeast layout.ciphertextLength)))) segment)
              fun keys => ?_
            simp only [perform, DecryptionState.decryptSegmentInPlaceRaw,
              validated, short, ↓reduceIte]
          · have region :
                (slice segment 0 layout.ciphertextLength : Result Bytes) =
                  .ok (segment.take layout.ciphertextLength) :=
              slice_zero (Nat.le_of_not_lt short)
            refine (DecryptionState.decryptSegmentInPlaceRawAt_oneLookup
              platform context (segment.take layout.ciphertextLength)
              layout.position layout.kind).map
              (fun answer =>
                .inPlaceRaw answer.1 (writeBack segment 0 answer.2))
              fun keys => ?_
            simp only [perform, DecryptionState.decryptSegmentInPlaceRaw,
              validated, short, ↓reduceIte, region, seen]

/-! ### Decryptors -/

/-- A call on a decryptor whose counter is known, as an operation on its
state. -/
def DecryptorCall.onState (platform : Platform) (call : DecryptorCall)
    (counter : SegmentCounter) (state : DecryptionState) :
    (DecryptionAnswer × SegmentCounter) × DecryptionState :=
  (((call.perform platform ⟨state, counter⟩).1,
      (call.perform platform ⟨state, counter⟩).2.counter),
    (call.perform platform ⟨state, counter⟩).2.state)

/-- Advancing over an operation with one lookup. -/
theorem Decryptor.advance_oneLookup
    {α ω : Type}
    (kind : SegmentKind)
    (counter : SegmentCounter)
    (borrowed : ω)
    (operation :
      DecryptionState → ω → Nat → Result α × DecryptionState × ω)
    (lookup : ∀ position,
      OneLookup platform context fun state =>
        seen (operation state borrowed position)) :
    OneLookup platform context fun state =>
      ((((⟨state, counter⟩ : Decryptor).advance kind borrowed operation).1,
          ((⟨state, counter⟩ : Decryptor).advance kind borrowed
            operation).2.2,
          ((⟨state, counter⟩ : Decryptor).advance kind borrowed
            operation).2.1.counter),
        ((⟨state, counter⟩ : Decryptor).advance kind borrowed
          operation).2.1.state) := by
  cases reserved : counter.positionFor kind with
  | error stop =>
      refine OneLookup.of_answer (.error stop, borrowed, counter)
        fun keys => ?_
      simp only [advance, reserved]
  | ok position =>
      refine (lookup position).map
        (fun answer => (answer.1, answer.2,
          if answer.1.isOk then counter.complete kind else counter))
        fun keys => ?_
      simp only [advance, reserved, seen]
      rcases operation ⟨context, keys⟩ borrowed position with
        ⟨_ | _, next, left⟩ <;> rfl

/-- The framing of the segment that a buffer holds. -/
def Decryptor.preparedFraming (buffer : SegmentBuffer) (self : Decryptor) :
    Result SegmentFraming := do
  let ciphertext ← buffer.ciphertext
  self.framing ciphertext

/-- The storage operation of `Decryptor::decrypt_segment_in_place`. -/
def Decryptor.openBuffer (platform : Platform) (buffer : SegmentBuffer)
    (self : Decryptor) : Result Nat × SegmentBuffer × Decryptor :=
  match preparedFraming buffer self with
  | .error stop =>
      (.error stop, buffer, self)
  | .ok framing =>
      match self.advance framing.kind buffer (fun state buffer position =>
          state.decryptSegmentInPlaceAtFramed platform buffer position
            framing) with
      | (result, self, buffer) => (result, buffer, self)

theorem Decryptor.decryptSegmentInPlace_eq
    (decryptor : Decryptor)
    (buffer : SegmentBuffer) :
    decryptor.decryptSegmentInPlace platform buffer =
      buffer.decryptWith decryptor (openBuffer platform) :=
  rfl

/-- Every call on a decryptor looks at most one key up. -/
theorem DecryptorCall.onState_oneLookup
    (call : DecryptorCall)
    (counter : SegmentCounter) :
    OneLookup platform context (call.onState platform counter) := by
  cases call with
  | allocating segment =>
      cases framed : Decryptor.framing ⟨⟨context, KeyCache.empty⟩, counter⟩
          segment with
      | error stop =>
          refine OneLookup.of_answer (.allocating (.error stop), counter)
            fun keys => ?_
          have refused : Decryptor.framing ⟨⟨context, keys⟩, counter⟩
              segment = .error stop :=
            framed
          simp only [onState, perform, Decryptor.decryptSegment, refused]
      | ok framing =>
          refine (Decryptor.advance_oneLookup platform context framing.kind
            counter () (fun state _ position =>
              match state.decryptSegmentAtFramed platform segment position
                  framing with
              | (result, state) => (result, state, ()))
            fun position => ?_).map
            (fun answer => (.allocating answer.1, answer.2.2))
            fun keys => ?_
          · refine (DecryptionState.decryptSegmentAtFramed_oneLookup platform
              context segment position framing).map (fun answer =>
                (answer, ())) fun keys => ?_
            rfl
          · have accepted : Decryptor.framing ⟨⟨context, keys⟩, counter⟩
                segment = .ok framing :=
              framed
            simp only [onState, perform, Decryptor.decryptSegment, accepted]
  | into segment output =>
      cases framed : Decryptor.framing ⟨⟨context, KeyCache.empty⟩, counter⟩
          segment with
      | error stop =>
          refine OneLookup.of_answer (.into (.error stop) output, counter)
            fun keys => ?_
          have refused : Decryptor.framing ⟨⟨context, keys⟩, counter⟩
              segment = .error stop :=
            framed
          simp only [onState, perform, Decryptor.decryptSegmentInto, refused]
      | ok framing =>
          refine (Decryptor.advance_oneLookup platform context framing.kind
            counter output (fun state output position =>
              state.decryptSegmentIntoAtFramed platform segment position
                framing output) fun position =>
              DecryptionState.decryptSegmentIntoAtFramed_oneLookup platform
                context segment position framing output).map
            (fun answer => (.into answer.1 answer.2.1, answer.2.2))
            fun keys => ?_
          have accepted : Decryptor.framing ⟨⟨context, keys⟩, counter⟩
              segment = .ok framing :=
            framed
          simp only [onState, perform, Decryptor.decryptSegmentInto,
            Decryptor.decryptSegmentIntoFramed, accepted]
  | inPlace buffer =>
      cases prepared : Decryptor.preparedFraming buffer
          ⟨⟨context, KeyCache.empty⟩, counter⟩ with
      | error stop =>
          refine OneLookup.of_answer
            (.inPlace (buffer.settle (.error stop)).1
              (buffer.settle (.error stop)).2, counter) fun keys => ?_
          have refused : Decryptor.preparedFraming buffer
              ⟨⟨context, keys⟩, counter⟩ = .error stop :=
            prepared
          simp only [onState, perform, Decryptor.decryptSegmentInPlace_eq,
            SegmentBuffer.decryptWith_eq, Decryptor.openBuffer, refused]
      | ok framing =>
          refine (Decryptor.advance_oneLookup platform context framing.kind
            counter buffer (fun state buffer position =>
              state.decryptSegmentInPlaceAtFramed platform buffer position
                framing) fun position =>
              DecryptionState.decryptSegmentInPlaceAtFramed_oneLookup
                platform context position buffer framing).map
            (fun answer =>
              (.inPlace (answer.2.1.settle answer.1).1
                (answer.2.1.settle answer.1).2, answer.2.2))
            fun keys => ?_
          have accepted : Decryptor.preparedFraming buffer
              ⟨⟨context, keys⟩, counter⟩ = .ok framing :=
            prepared
          simp only [onState, perform, Decryptor.decryptSegmentInPlace_eq,
            SegmentBuffer.decryptWith_eq, Decryptor.openBuffer, accepted]
  | finish =>
      exact OneLookup.of_answer (.finish counter.finish, counter)
        fun keys => rfl

end Lookups

/-! ## The states of a message -/

/-- The decryption states of a message: started or forked, and then used by any
calls, which succeed or fail.  At each call the key derivation may fail in a
way of its own. -/
inductive DecryptionState.Reached (platform : Platform)
    (context : MessageContext) : DecryptionState → Prop where
  | started
      {faulty : Kdf} {key : Key} {aad : Bytes} {parameters : Parameters}
      {header : Header} {state : DecryptionState}
      (sound : faulty.FaultOf platform.kdfExpand)
      (started :
        startDecryption (platform.withKdf faulty) key aad parameters header =
          .ok state)
      (ofMessage : state.context = context) :
      Reached platform context state
  | inferred
      {faulty : Kdf} {key : Key} {aad : Bytes} {header : Header}
      {state : DecryptionState}
      (sound : faulty.FaultOf platform.kdfExpand)
      (started :
        startDecryptionInferred (platform.withKdf faulty) key aad header =
          .ok state)
      (ofMessage : state.context = context) :
      Reached platform context state
  | forked :
      Reached platform context (SharedDecryptionContext.mk context).fork
  | called
      {faulty : Kdf} {state : DecryptionState}
      (sound : faulty.FaultOf platform.kdfExpand)
      (reached : Reached platform context state)
      (call : DecryptionCall) :
      Reached platform context
        (call.perform (platform.withKdf faulty) state).2

/-- The decryptors of a message, in the same way. -/
inductive Decryptor.Reached (platform : Platform)
    (context : MessageContext) : Decryptor → Prop where
  | new
      {faulty : Kdf} {key : Key} {aad : Bytes} {header : Header}
      {decryptor : Decryptor}
      (sound : faulty.FaultOf platform.kdfExpand)
      (created :
        Decryptor.new (platform.withKdf faulty) key aad header =
          .ok decryptor)
      (ofMessage : decryptor.state.context = context) :
      Reached platform context decryptor
  | newWithParameters
      {faulty : Kdf} {key : Key} {aad : Bytes} {parameters : Parameters}
      {header : Header} {decryptor : Decryptor}
      (sound : faulty.FaultOf platform.kdfExpand)
      (created :
        Decryptor.newWithParameters (platform.withKdf faulty) key aad
          parameters header = .ok decryptor)
      (ofMessage : decryptor.state.context = context) :
      Reached platform context decryptor
  | called
      {faulty : Kdf} {decryptor : Decryptor}
      (sound : faulty.FaultOf platform.kdfExpand)
      (reached : Reached platform context decryptor)
      (call : DecryptorCall) :
      Reached platform context
        (call.perform (platform.withKdf faulty) decryptor).2

section Reached

variable {platform : Platform} {faulty : Kdf} {context : MessageContext}

/-- Every call keeps a decryption state ready. -/
theorem DecryptionCall.perform_ready
    {state : DecryptionState}
    (call : DecryptionCall)
    (sound : faulty.FaultOf platform.kdfExpand)
    (ready : state.Ready platform context) :
    (call.perform (platform.withKdf faulty) state).2.Ready platform
      context :=
  (call.perform_oneLookup (platform.withKdf faulty) context).ready sound
    ready

/-- Every call keeps a decryptor's state ready. -/
theorem DecryptorCall.perform_ready
    {decryptor : Decryptor}
    (call : DecryptorCall)
    (sound : faulty.FaultOf platform.kdfExpand)
    (ready : decryptor.state.Ready platform context) :
    (call.perform (platform.withKdf faulty) decryptor).2.state.Ready platform
      context :=
  (call.onState_oneLookup (platform.withKdf faulty) context
    decryptor.counter).ready sound ready

theorem DecryptionState.Reached.ready
    {state : DecryptionState}
    (reached : state.Reached platform context) :
    state.Ready platform context := by
  induction reached with
  | started sound started ofMessage =>
      rw [← ofMessage]
      exact (startDecryption_ready started).of_fault sound
  | inferred sound started ofMessage =>
      rw [← ofMessage]
      exact (startDecryptionInferred_ready started).of_fault sound
  | forked =>
      exact SharedDecryptionContext.fork_ready platform ⟨context⟩
  | called sound _ call inductionHypothesis =>
      exact call.perform_ready sound inductionHypothesis

theorem Decryptor.Reached.ready
    {decryptor : Decryptor}
    (reached : decryptor.Reached platform context) :
    decryptor.state.Ready platform context := by
  induction reached with
  | new sound created ofMessage =>
      obtain ⟨state, started, shape⟩ := Outcome.bind_eq_ok.mp created
      cases shape
      rw [← ofMessage]
      exact (startDecryptionInferred_ready started).of_fault sound
  | newWithParameters sound created ofMessage =>
      obtain ⟨state, started, shape⟩ := Outcome.bind_eq_ok.mp created
      cases shape
      rw [← ofMessage]
      exact (startDecryption_ready started).of_fault sound
  | called sound _ call inductionHypothesis =>
      exact call.perform_ready sound inductionHypothesis

/-! ## Later calls -/

/-- Ready states of one message answer every later call alike. -/
theorem DecryptionCall.answers_eq
    {first second : DecryptionState}
    (firstReady : first.Ready platform context)
    (secondReady : second.Ready platform context)
    (calls : List DecryptionCall) :
    Runs.answers (DecryptionCall.perform platform) first calls =
      Runs.answers (DecryptionCall.perform platform) second calls := by
  have sound := Kdf.FaultOf.refl platform.kdfExpand
  refine @Runs.answers_eq _ _ _ _ (fun first second =>
    first.Ready platform context ∧ second.Ready platform context) _ _
    ?_ ⟨firstReady, secondReady⟩ calls
  rintro call first second ⟨firstReady, secondReady⟩
  exact ⟨(call.perform_oneLookup platform context).congr firstReady
      secondReady, call.perform_ready sound firstReady,
    call.perform_ready sound secondReady⟩

/-- Decryptors of one message at one position answer every later call
alike. -/
theorem DecryptorCall.answers_eq
    {first second : Decryptor}
    (sameCounter : first.counter = second.counter)
    (firstReady : first.state.Ready platform context)
    (secondReady : second.state.Ready platform context)
    (calls : List DecryptorCall) :
    Runs.answers (DecryptorCall.perform platform) first calls =
      Runs.answers (DecryptorCall.perform platform) second calls := by
  have sound := Kdf.FaultOf.refl platform.kdfExpand
  refine @Runs.answers_eq _ _ _ _ (fun first second =>
    first.counter = second.counter ∧ first.state.Ready platform context ∧
      second.state.Ready platform context) _ _
    ?_ ⟨sameCounter, firstReady, secondReady⟩ calls
  rintro call first second ⟨sameCounter, firstReady, secondReady⟩
  have same := (call.onState_oneLookup platform context first.counter).congr
    firstReady secondReady
  simp only [DecryptorCall.onState, Prod.mk.injEq] at same
  obtain ⟨answer, counter⟩ := same
  obtain ⟨secondState, secondCounter⟩ := second
  simp only at sameCounter
  subst sameCounter
  exact ⟨answer, counter, call.perform_ready sound firstReady,
    call.perform_ready sound secondReady⟩

end Reached

/-! ## Clean failures -/

/-- The storage of a buffer has been wiped: all of it is zero, and no data is
prepared in it. -/
structure SegmentBuffer.Wiped (before after : SegmentBuffer) : Prop where
  bytes : after.bytes = zeros before.bytes.length
  state : after.state = .empty
  parameters : after.parameters = before.parameters

/-- The storage is prepared with exactly this plaintext. -/
structure SegmentBuffer.Returns (buffer : SegmentBuffer) (plaintext : Bytes) :
    Prop where
  state : buffer.state = .plaintext plaintext.length
  plaintext : buffer.plaintext = .ok plaintext

section Clean

variable {platform : Platform} {faulty : Kdf} {context : MessageContext}

/-- An operation that keeps the storage's length fails cleanly inside the
cleanup boundary, and succeeds with the plaintext it returns. -/
theorem SegmentBuffer.decryptWith_clean
    {σ : Type}
    {buffer left : SegmentBuffer}
    {state next : σ}
    {operation : SegmentBuffer → σ → Result Nat × SegmentBuffer × σ}
    {result : Result Bytes}
    (keeps :
      (operation buffer state).2.1.bytes.length = buffer.bytes.length ∧
        (operation buffer state).2.1.parameters = buffer.parameters)
    (returned : buffer.decryptWith state operation = (result, left, next)) :
    next = (operation buffer state).2.2 ∧
      (∀ error, result = .error (.err error) → buffer.Wiped left) ∧
      ∀ plaintext, result = .ok plaintext → left.Returns plaintext := by
  rw [SegmentBuffer.decryptWith_eq] at returned
  simp only [Prod.mk.injEq] at returned
  obtain ⟨sameResult, sameLeft, sameNext⟩ := returned
  refine ⟨sameNext.symm, ?_, ?_⟩
  · rintro error rfl
    obtain ⟨_, rfl⟩ :=
      SegmentBuffer.settle_eq_err (Prod.ext sameResult sameLeft)
    refine ⟨?_, rfl, keeps.2⟩
    simp only [SegmentBuffer.clear, keeps.1]
  · rintro plaintext rfl
    obtain ⟨prepared, read⟩ :=
      SegmentBuffer.settle_eq_ok (Prod.ext sameResult sameLeft)
    exact ⟨prepared, read⟩

/-- Advancing leaves the counter alone unless it succeeds. -/
theorem Decryptor.advance_counter
    {α ω : Type}
    {decryptor : Decryptor}
    {kind : SegmentKind}
    {borrowed : ω}
    {operation :
      DecryptionState → ω → Nat → Result α × DecryptionState × ω}
    {stop : Stop Error}
    (failed :
      (decryptor.advance kind borrowed operation).1 = .error stop) :
    (decryptor.advance kind borrowed operation).2.1.counter =
      decryptor.counter := by
  unfold advance at failed ⊢
  cases reserved : decryptor.counter.positionFor kind with
  | error stop =>
      rfl
  | ok position =>
      simp only [reserved] at failed ⊢
      rcases operated : operation decryptor.state borrowed position with
        ⟨_ | _, next, left⟩
      · rfl
      · rw [operated] at failed
        cases failed

/-- The decryptor's storage operation keeps the length of the storage, and
leaves the counter alone unless it succeeds. -/
theorem Decryptor.openBuffer_keeps
    (platform : Platform)
    (buffer : SegmentBuffer)
    (decryptor : Decryptor) :
    ((openBuffer platform buffer decryptor).2.1.bytes.length =
          buffer.bytes.length ∧
        (openBuffer platform buffer decryptor).2.1.parameters =
          buffer.parameters) ∧
      ∀ stop, (openBuffer platform buffer decryptor).1 = .error stop →
        (openBuffer platform buffer decryptor).2.2.counter =
          decryptor.counter := by
  unfold openBuffer
  cases preparedFraming buffer decryptor with
  | error stop =>
      exact ⟨⟨rfl, rfl⟩, fun _ _ => rfl⟩
  | ok framing =>
      refine ⟨?_, fun stop failed => advance_counter failed⟩
      simp only [advance]
      cases decryptor.counter.positionFor framing.kind with
      | error stop =>
          exact ⟨rfl, rfl⟩
      | ok position =>
          have keeps :=
            decryptor.state.decryptSegmentInPlaceAtFramed_keeps platform
              buffer position framing
          simp only
          rcases opened : decryptor.state.decryptSegmentInPlaceAtFramed
              platform buffer position framing with
            ⟨_ | _, next, left⟩
          · rw [opened] at keeps
            exact keeps
          · rw [opened] at keeps
            exact keeps

/-- A failed in-place decryption is clean and can be retried, on every storage
and at every moment: the storage is wiped, a decryptor's counter is unchanged,
and the state answers every later sequence of calls as it would have without
the failure.  A successful one leaves the storage prepared with exactly the
plaintext it returns. -/
theorem failedInPlaceDecryption_isClean
    (sound : faulty.FaultOf platform.kdfExpand) :
    (∀ (state : DecryptionState), state.Reached platform context →
      ∀ buffer layout result left next,
        state.decryptSegmentInPlace (platform.withKdf faulty) buffer layout =
            (result, left, next) →
          (∀ error, result = .error (.err error) →
            buffer.Wiped left ∧
              ∀ calls,
                Runs.answers (DecryptionCall.perform platform) next calls =
                  Runs.answers (DecryptionCall.perform platform) state
                    calls) ∧
            ∀ plaintext, result = .ok plaintext → left.Returns plaintext) ∧
      ∀ (decryptor : Decryptor), decryptor.Reached platform context →
        ∀ buffer result left next,
          decryptor.decryptSegmentInPlace (platform.withKdf faulty) buffer =
              (result, left, next) →
            (∀ error, result = .error (.err error) →
              buffer.Wiped left ∧ next.counter = decryptor.counter ∧
                ∀ calls,
                  Runs.answers (DecryptorCall.perform platform) next calls =
                    Runs.answers (DecryptorCall.perform platform) decryptor
                      calls) ∧
              ∀ plaintext, result = .ok plaintext →
                left.Returns plaintext := by
  constructor
  · intro state reached buffer layout result left next returned
    have ready := reached.ready
    have nextReady :=
      (DecryptionCall.inPlace buffer layout).perform_ready sound ready
    simp only [DecryptionCall.perform, returned] at nextReady
    rw [DecryptionState.decryptSegmentInPlace_eq] at returned
    obtain ⟨_, wiped, prepared⟩ := SegmentBuffer.decryptWith_clean
      (DecryptionState.length_openBuffer _ layout buffer state) returned
    refine ⟨fun error failed => ⟨wiped error failed, fun calls => ?_⟩,
      prepared⟩
    exact DecryptionCall.answers_eq nextReady ready calls
  · intro decryptor reached buffer result left next returned
    have ready := reached.ready
    have nextReady :=
      (DecryptorCall.inPlace buffer).perform_ready sound ready
    simp only [DecryptorCall.perform, returned] at nextReady
    rw [Decryptor.decryptSegmentInPlace_eq] at returned
    obtain ⟨keeps, counter⟩ :=
      Decryptor.openBuffer_keeps (platform.withKdf faulty) buffer decryptor
    obtain ⟨sameNext, wiped, prepared⟩ :=
      SegmentBuffer.decryptWith_clean keeps returned
    refine ⟨?_, prepared⟩
    rintro error rfl
    have sameCounter : next.counter = decryptor.counter := by
      rw [SegmentBuffer.decryptWith_eq] at returned
      simp only [Prod.mk.injEq] at returned
      obtain ⟨sameResult, _, _⟩ := returned
      rw [sameNext]
      exact counter _
        (SegmentBuffer.settle_eq_err (Prod.ext sameResult rfl)).1
    exact ⟨wiped error rfl, sameCounter, fun calls =>
      DecryptorCall.answers_eq sameCounter nextReady ready calls⟩

end Clean

/-- A transparent provider that refuses every opening. -/
abbrev refusingPlatform : Platform :=
  transparentPlatform fun _ _ _ => false

/-- Storage that holds a final segment of one byte in front of stale bytes. -/
def staleBuffer : SegmentBuffer where
  parameters := shortestSegments
  bytes := beBytes 4 33 ++ zeros 12 ++ [7] ++ zeros 16 ++ List.replicate 31 9
  state := .ciphertext 33

/-- The layout of a final segment of one byte. -/
def oneByteLayout : SegmentLayout where
  parameters := shortestSegments
  position := 0
  plaintextOffset := 0
  plaintextLength := 1
  ciphertextOffset := 74
  ciphertextLength := 33
  kind := .final

/-- A segment that fails to authenticate leaves the storage wiped and the
state answering as before. -/
theorem failedInPlaceDecryption_isClean_example :
    let state := (SharedDecryptionContext.mk transparentContext).fork
    let outcome :=
      state.decryptSegmentInPlace refusingPlatform staleBuffer oneByteLayout
    outcome.1 = .error (.err .authenticationFailed) ∧
      outcome.2.1.bytes = zeros 64 ∧
        ∀ calls,
          Runs.answers (DecryptionCall.perform refusingPlatform)
              outcome.2.2 calls =
            Runs.answers (DecryptionCall.perform refusingPlatform) state
              calls := by
  intro state outcome
  have failed : outcome.1 = .error (.err .authenticationFailed) := by
    decide
  have clean :=
    ((@failedInPlaceDecryption_isClean refusingPlatform _ transparentContext
      (Kdf.FaultOf.refl _)).1 state .forked staleBuffer oneByteLayout
      outcome.1 outcome.2.1 outcome.2.2 rfl).1 _ failed
  exact ⟨failed, clean.1.bytes, clean.2⟩

end FastFloe
