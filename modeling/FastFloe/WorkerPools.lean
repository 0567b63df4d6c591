import FastFloe.Library.Pools
import FastFloe.EncryptionPaths
import FastFloe.FailedOpenings
import FastFloe.OneShotEncryption
import FastFloe.StoredMessages

namespace FastFloe

open Rust

/-!
# Workers on one message

Encryption and decryption states forked from one context, each with a key cache
of its own, that share the segments of a message among them in any order.  What
a state returns for a segment does not depend on what it did before.
-/

/-! ## Encrypting workers -/

/-- A call of one of the four functions that encrypt a segment of a layout. -/
inductive SealTask where
  | allocating (plaintext : Bytes) (segment : SegmentLayout)
  | into (plaintext : Bytes) (segment : SegmentLayout) (output : Bytes)
  | inPlace (buffer : SegmentBuffer) (segment : SegmentLayout)
  | inPlaceRaw (buffer : Bytes) (segment : SegmentLayout)

namespace SealTask

/-- The segment that the call is about. -/
def segment : SealTask → SegmentLayout
  | .allocating _ segment => segment
  | .into _ segment _ => segment
  | .inPlace _ segment => segment
  | .inPlaceRaw _ segment => segment

/-- The plaintext that the call encrypts. -/
def input : SealTask → Bytes
  | .allocating plaintext _ => plaintext
  | .into plaintext _ _ => plaintext
  | .inPlace buffer _ =>
      match buffer.plaintext with
      | .ok plaintext => plaintext
      | .error _ => []
  | .inPlaceRaw buffer segment =>
      (buffer.drop segmentPayloadOffset).take segment.plaintextLength

/-- Performs the call and returns the encrypted segment. -/
def perform (platform : Platform) :
    SealTask → EncryptionState → Result Bytes × EncryptionState
  | .allocating plaintext segment, state =>
      state.encryptSegment platform plaintext segment
  | .into plaintext segment output, state =>
      match state.encryptSegmentInto platform plaintext segment output with
      | (result, state, output) => (result.map output.take, state)
  | .inPlace buffer segment, state =>
      match state.encryptSegmentInPlace platform buffer segment with
      | (result, state, _) => (result, state)
  | .inPlaceRaw buffer segment, state =>
      match state.encryptSegmentInPlaceRaw platform buffer segment with
      | (result, state, buffer) => (result.map buffer.take, state)

end SealTask

section Sealing

variable {platform : Platform} {faulty : Kdf} {context : MessageContext}
  {state : EncryptionState}

/-- Whatever a ready state returns for a segment encrypts the call's plaintext
there, and leaves it ready. -/
theorem SealTask.perform_spec
    (task : SealTask)
    (sound : faulty.FaultOf platform.kdfExpand)
    (agree : platform.SealsAgree)
    (ready : state.Ready platform context) :
    (∀ segment,
        (task.perform (platform.withKdf faulty) state).1 = .ok segment →
          context.Seals platform task.segment.position task.segment.kind
            task.input segment) ∧
      (task.perform (platform.withKdf faulty) state).2.Ready platform
        context := by
  cases task with
  | allocating plaintext layout =>
      simp only [perform, EncryptionState.encryptSegment]
      cases validated :
          state.validatePlaintextLayout plaintext.length layout with
      | error stop =>
          exact ⟨(fun _ impossible => by cases impossible), ready⟩
      | ok _ =>
          obtain ⟨next, nextReady, ⟨segment, step, result⟩ |
              ⟨error, _, result⟩⟩ :=
            EncryptionState.encryptSegmentAt_spec plaintext layout.position
              layout.kind sound agree ready
          · simp only [result]
            refine ⟨?_, nextReady⟩
            rintro _ ⟨⟩
            exact (EncryptionState.sealNext_spec plaintext layout.position
              layout.kind sound ready).2 segment
              (congrArg Prod.fst step)
          · simp only [result]
            exact ⟨(fun _ impossible => by cases impossible), nextReady⟩
  | into plaintext layout output =>
      simp only [perform, EncryptionState.encryptSegmentInto]
      cases validated :
          state.validatePlaintextLayout plaintext.length layout with
      | error stop =>
          exact ⟨(fun _ impossible => by cases impossible), ready⟩
      | ok _ =>
          obtain ⟨next, nextReady, ⟨segment, step, _, _, result⟩ |
              ⟨error, failed, _, result, _⟩⟩ :=
            EncryptionState.encryptSegmentIntoAt_spec plaintext
              layout.position layout.kind output sound agree ready
          · simp only [result, Except.map, List.take_left]
            refine ⟨?_, nextReady⟩
            rintro _ ⟨⟩
            exact (EncryptionState.sealNext_spec plaintext layout.position
              layout.kind sound ready).2 segment
              (congrArg Prod.fst step)
          · simp only [result]
            exact ⟨(fun _ impossible => by cases impossible), nextReady⟩
  | inPlace buffer layout =>
      simp only [perform, EncryptionState.encryptSegmentInPlace]
      cases held : buffer.plaintextLength with
      | error stop =>
          exact ⟨(fun _ impossible => by cases impossible), ready⟩
      | ok length =>
          simp only
          cases validated :
              state.validatePlaintextLayout length layout with
          | error stop =>
              exact ⟨(fun _ impossible => by cases impossible), ready⟩
          | ok _ =>
              obtain ⟨next, nextReady,
                  ⟨plaintext, segment, _, prepared, step, result, _⟩ |
                  ⟨error, failed, _, result, _⟩⟩ :=
                EncryptionState.encryptSegmentInPlaceAt_spec buffer
                  layout.position layout.kind sound ready
              · simp only [result, SealTask.segment, input, prepared]
                refine ⟨?_, nextReady⟩
                rintro _ ⟨⟩
                exact (EncryptionState.sealNext_spec plaintext
                  layout.position layout.kind sound ready).2 segment
                  (congrArg Prod.fst step)
              · simp only [result]
                exact ⟨(fun _ impossible => by cases impossible), nextReady⟩
  | inPlaceRaw buffer layout =>
      simp only [perform, EncryptionState.encryptSegmentInPlaceRaw]
      cases validated : validateLayout state.context layout with
      | error stop =>
          exact ⟨(fun _ impossible => by cases impossible), ready⟩
      | ok _ =>
          obtain ⟨next, nextReady, ⟨segment, _, step, _, _, result⟩ |
              ⟨error, failed, _, result, _⟩⟩ :=
            EncryptionState.encryptSegmentInPlaceRawAt_spec buffer
              layout.plaintextLength layout.position layout.kind sound ready
          · rw [← segmentPayloadOffset_eq] at step
            simp only [result, Except.map, List.take_left]
            refine ⟨?_, nextReady⟩
            rintro _ ⟨⟩
            exact (EncryptionState.sealNext_spec _ layout.position
              layout.kind sound ready).2 segment
              (congrArg Prod.fst step)
          · simp only [result]
            exact ⟨(fun _ impossible => by cases impossible), nextReady⟩

end Sealing

/-- A call at a moment at which the key derivation behaves as `kdf`. -/
structure SealRequest where
  kdf : Kdf
  task : SealTask

/-- Performs a call on a worker. -/
def SealRequest.perform (platform : Platform) (call : SealRequest)
    (state : EncryptionState) : Result Bytes × EncryptionState :=
  call.task.perform (platform.withKdf call.kdf) state

/-- Puts a successful result at the place of its segment in the message. -/
def placeResult (message : Bytes)
    (done : Pools.Answered SealRequest (Result Bytes)) : Bytes :=
  match done.answer with
  | .ok segment =>
      writeBack message done.call.task.segment.ciphertextOffset segment
  | .error _ => message

/-- Puts every successful result in its place. -/
def assembleMessage (message : Bytes)
    (log : List (Pools.Answered SealRequest (Result Bytes))) : Bytes :=
  log.foldl placeResult message

/-- The call encrypts the segment of the layout at this position. -/
structure SealRequest.Encrypts (call : SealRequest) (layout : MessageLayout)
    (plaintext : Bytes) (position : Nat) : Prop where
  inside : position < layout.segmentCount
  segment : call.task.segment = layout.entry position
  input : call.task.input = (layout.entry position).payload plaintext

/-- A message in the making: the header, and at the places of the segments that
are done what they encrypt to. -/
structure PartlySealed (platform : Platform) (context : MessageContext)
    (header : Header) (layout : MessageLayout) (plaintext : Bytes)
    (finished : Nat → Prop) (message : Bytes) : Prop where
  length : message.length = layout.ciphertextLength
  begins : message.take headerLength = header.val
  segments :
    ∀ position, position < layout.segmentCount → finished position →
      context.Seals platform position (layout.entry position).kind
        ((layout.entry position).payload plaintext)
        ((layout.entry position).segment message)

section Assembly

variable {platform : Platform} {context : MessageContext} {header : Header}
  {layout : MessageLayout} {plaintext message : Bytes}
  {finished : Nat → Prop}

/-- Segments at different positions are apart in the message. -/
theorem MessageLayout.Valid.entries_apart
    (valid : layout.Valid)
    {first second : Nat}
    (firstInside : first < layout.segmentCount)
    (secondInside : second < layout.segmentCount)
    (different : first ≠ second) :
    (layout.entry first).ciphertextOffset +
          (layout.entry first).ciphertextLength ≤
        (layout.entry second).ciphertextOffset ∨
      (layout.entry second).ciphertextOffset +
          (layout.entry second).ciphertextLength ≤
        (layout.entry first).ciphertextOffset := by
  have firstStart := valid.reach_eq firstInside
  have secondStart := valid.reach_eq secondInside
  have firstEnd := valid.reach_succ firstInside
  have secondEnd := valid.reach_succ secondInside
  rcases Nat.lt_or_gt_of_ne different with before | after
  · have ordered := layout.reach_mono (show first + 1 ≤ second by omega)
    omega
  · have ordered := layout.reach_mono (show second + 1 ≤ first by omega)
    omega

/-- A result that is put in its place finishes its segment. -/
theorem PartlySealed.place
    {position : Nat}
    {segment : Bytes}
    (partly :
      PartlySealed platform context header layout plaintext finished message)
    (valid : layout.Valid)
    (whole : plaintext.length = layout.plaintextLength)
    (inside : position < layout.segmentCount)
    (seals :
      context.Seals platform position (layout.entry position).kind
        ((layout.entry position).payload plaintext) segment) :
    PartlySealed platform context header layout plaintext
      (fun other => finished other ∨ other = position)
      (writeBack message (layout.entry position).ciphertextOffset
        segment) := by
  have size : segment.length = (layout.entry position).ciphertextLength := by
    have payload := valid.length_payload whole inside
    have framed := seals.framed.1
    simp only [MessageLayout.entry] at payload framed ⊢
    omega
  have bounds := (valid.entry_bounds inside).2
  have start := valid.reach_eq inside
  have behind := layout.reach_mono (Nat.zero_le position)
  rw [layout.reach_zero] at behind
  have length := partly.length
  refine ⟨?_, ?_, ?_⟩
  · rw [length_writeBack (by omega), length]
  · rw [take_writeBack (by omega) (by rw [headerLength_eq]; omega),
      partly.begins]
  · intro other otherInside done
    by_cases same : other = position
    · subst same
      rw [SegmentLayout.segment, ← size, read_writeBack (by omega)]
      exact seals
    · have apart := valid.entries_apart otherInside inside same
      rw [SegmentLayout.segment,
        drop_take_writeBack (by omega) (by rw [size]; exact apart)]
      exact partly.segments other otherInside (done.resolve_right same)

/-- Results in any order, each put in its place. -/
theorem PartlySealed.assemble
    {log : List (Pools.Answered SealRequest (Result Bytes))}
    (partly :
      PartlySealed platform context header layout plaintext finished message)
    (valid : layout.Valid)
    (whole : plaintext.length = layout.plaintextLength)
    (sealed : ∀ entry ∈ log, ∀ segment, entry.answer = .ok segment →
      context.Seals platform entry.call.task.segment.position
        entry.call.task.segment.kind entry.call.task.input segment)
    (encrypts : ∀ entry ∈ log, ∀ segment, entry.answer = .ok segment →
      ∃ position, entry.call.Encrypts layout plaintext position) :
    PartlySealed platform context header layout plaintext
      (fun position => finished position ∨
        ∃ entry ∈ log, (∃ segment, entry.answer = .ok segment) ∧
          entry.call.Encrypts layout plaintext position)
      (assembleMessage message log) := by
  induction log generalizing message finished with
  | nil =>
      refine ⟨partly.length, partly.begins, ?_⟩
      intro position inside done
      rcases done with done | ⟨entry, member, _⟩
      · exact partly.segments position inside done
      · cases member
  | cons entry log inductionHypothesis =>
      have later := @inductionHypothesis
      cases answer : entry.answer with
      | error stop =>
          have skipped : placeResult message entry = message := by
            simp only [placeResult, answer]
          rw [assembleMessage, List.foldl_cons, skipped]
          have rest := @later message finished partly
            (fun other member => sealed other (List.mem_cons_of_mem _ member))
            (fun other member =>
              encrypts other (List.mem_cons_of_mem _ member))
          refine ⟨rest.length, rest.begins, fun position inside done => ?_⟩
          refine rest.segments position inside (done.imp_right ?_)
          rintro ⟨other, member, ⟨segment, success⟩, encrypted⟩
          rcases List.mem_cons.mp member with rfl | member
          · rw [answer] at success
            cases success
          · exact ⟨other, member, ⟨segment, success⟩, encrypted⟩
      | ok segment =>
          obtain ⟨position, encrypted⟩ :=
            encrypts entry List.mem_cons_self segment answer
          have seals := sealed entry List.mem_cons_self segment answer
          rw [encrypted.segment, encrypted.input] at seals
          have placed : placeResult message entry =
              writeBack message (layout.entry position).ciphertextOffset
                segment := by
            simp only [placeResult, answer, encrypted.segment]
          rw [assembleMessage, List.foldl_cons, placed]
          have rest := later
            (partly.place valid whole encrypted.inside seals)
            (fun other member => sealed other (List.mem_cons_of_mem _ member))
            (fun other member =>
              encrypts other (List.mem_cons_of_mem _ member))
          refine ⟨rest.length, rest.begins, fun other inside done => ?_⟩
          refine rest.segments other inside ?_
          rcases done with done | ⟨found, member, success, encrypted'⟩
          · exact .inl (.inl done)
          · rcases List.mem_cons.mp member with rfl | member
            · left
              right
              have same := encrypted.segment.symm.trans encrypted'.segment
              exact (congrArg SegmentLayout.position same).symm
            · exact .inr ⟨found, member, success, encrypted'⟩

/-- The payload of a segment is the plaintext's block. -/
theorem MessageLayout.payload_eq_block
    (whole : plaintext.length = layout.plaintextLength)
    (position : Nat) :
    (layout.entry position).payload plaintext =
      Blocks.block layout.parameters.plaintextSegmentLength position
        plaintext := by
  simp only [SegmentLayout.payload, Blocks.block, entry]
  rw [List.take_eq_take_iff, List.length_drop, whole]
  omega

/-- A message whose segments are all done decrypts to the plaintext. -/
theorem PartlySealed.decrypt_eq
    {key : Key}
    {aad : Bytes}
    (roundTrips : platform.RoundTrips)
    (authentic : HeaderAuthenticates platform key aad header context)
    (valid : layout.Valid)
    (matching : layout.parameters = context.parameters)
    (whole : plaintext.length = layout.plaintextLength)
    (complete :
      PartlySealed platform context header layout plaintext finished message)
    (all : ∀ position, position < layout.segmentCount → finished position) :
    decrypt platform key aad message = .ok plaintext := by
  let stored : StoredMessage :=
    ⟨context, layout, message, 0, valid, matching⟩
  have length := complete.length
  have within :
      stored.start + stored.layout.ciphertextLength ≤
        stored.data.length := by
    simp only [stored]
    omega
  have opensAt (position : Nat) (inside : position < layout.segmentCount) :
      stored.OpensAt platform position
        ((layout.entry position).payload plaintext) := by
    have bounds := (valid.entry_bounds inside).2
    have place : stored.segment position =
        (layout.entry position).segment message := by
      simp only [StoredMessage.segment, SegmentLayout.segment, stored,
        Nat.zero_add]
    refine ⟨inside, ?_, ?_⟩
    · rw [place, SegmentLayout.segment, List.length_take, List.length_drop]
      simp only [stored]
      omega
    · rw [place]
      exact (complete.segments position inside
        (all position inside)).opens roundTrips
  have describes : stored.Describes platform plaintext := by
    refine ⟨whole, fun position opened opens => ?_⟩
    rw [opens.unique (opensAt position opens.inside)]
    exact (MessageLayout.payload_eq_block whole position).symm
  obtain ⟨payloads, isMessage, shape⟩ :=
    (StoredMessage.message_iff_describes within).mpr
      ⟨fun position inside => ⟨_, opensAt position inside⟩, describes⟩
  have parts : message = header.val ++ stored.body := by
    have rest : stored.body = message.drop headerLength := by
      simp only [StoredMessage.body, stored, Nat.zero_add]
      exact List.take_of_length_le (by rw [List.length_drop]; omega)
    rw [rest, ← complete.begins, List.take_append_drop]
  exact (decrypt_iff_message authentic parts).mpr ⟨payloads, isMessage, shape⟩

end Assembly

/-! ## Decrypting workers -/

/-- The plaintext that an answer returns. -/
def DecryptionAnswer.returned : DecryptionAnswer → Result Bytes
  | .allocating result => result
  | .into result output => result.map output.take
  | .inPlace result _ => result
  | .inPlaceRaw result _ => result
  | .finish result => result.map fun _ => []

/-- A call at a moment at which the key derivation behaves as `kdf`. -/
structure OpenRequest where
  kdf : Kdf
  call : DecryptionCall

/-- Performs a call on a worker. -/
def OpenRequest.perform (platform : Platform) (request : OpenRequest)
    (state : DecryptionState) : DecryptionAnswer × DecryptionState :=
  request.call.perform (platform.withKdf request.kdf) state

/-- The call decrypts the segment of a ciphertext at this position, and gives
it the room that it needs. -/
def DecryptionCall.Decrypts (layout : MessageLayout) (ciphertext : Bytes)
    (position : Nat) : DecryptionCall → Prop
  | .allocating segment entry =>
      entry = layout.entry position ∧ segment = entry.segment ciphertext
  | .into segment entry output =>
      entry = layout.entry position ∧ segment = entry.segment ciphertext ∧
        entry.plaintextLength ≤ output.length
  | .inPlace buffer entry =>
      entry = layout.entry position ∧
        buffer.HoldsCiphertext (entry.segment ciphertext) ∧
        buffer.parameters = layout.parameters
  | .inPlaceRaw storage entry =>
      entry = layout.entry position ∧
        storage.take entry.ciphertextLength = entry.segment ciphertext

section Opening

variable {platform : Platform} {faulty : Kdf} {context : MessageContext}
  {layout : MessageLayout} {plaintext ciphertext : Bytes} {position : Nat}

/-- A header that authenticates at a moment when derivations may fail stands for
its context always. -/
theorem HeaderAuthenticates.of_fault
    {key : Key}
    {aad : Bytes}
    {header : Header}
    (sound : faulty.FaultOf platform.kdfExpand)
    (authentic :
      HeaderAuthenticates (platform.withKdf faulty) key aad header context) :
    HeaderAuthenticates platform key aad header context :=
  ⟨authentic.provider, authentic.parameters, authentic.floeIv,
    authentic.associated, sound _ _ _ _ _ authentic.tag,
    sound _ _ _ _ _ authentic.messageKey⟩

/-- A state that was started on a header belongs to the context that the header
stands for. -/
theorem startDecryptionInferred_authenticates
    {key : Key}
    {aad : Bytes}
    {header : Header}
    {state : DecryptionState}
    (sound : faulty.FaultOf platform.kdfExpand)
    (started :
      startDecryptionInferred (platform.withKdf faulty) key aad header =
        .ok state) :
    HeaderAuthenticates platform key aad header state.context := by
  rcases startDecryptionInferred_spec (platform.withKdf faulty) key aad header
    with
    ⟨other, started', authentic, same, ready, _⟩ | ⟨⟨error, failed⟩, _⟩
  · rw [started, Except.ok.injEq] at same
    subst same
    rw [ready.context_eq]
    exact authentic.of_fault sound
  · rw [started] at failed
    cases failed

/-- The segments of an accepted message open to their parts of the
plaintext. -/
theorem decrypt_opens
    {key : Key}
    {aad body : Bytes}
    {header : Header}
    (accepted : decrypt platform key aad ciphertext = .ok plaintext)
    (authentic : HeaderAuthenticates platform key aad header context)
    (parts : ciphertext = header.val ++ body)
    (valid : layout.Valid)
    (matching : layout.parameters = context.parameters)
    (whole : layout.ciphertextLength = ciphertext.length)
    (inside : position < layout.segmentCount) :
    ((layout.entry position).segment ciphertext).length =
        (layout.entry position).ciphertextLength ∧
      context.Opens platform position (layout.entry position).kind
        ((layout.entry position).segment ciphertext)
        ((layout.entry position).payload plaintext) := by
  let stored : StoredMessage :=
    ⟨context, layout, ciphertext, 0, valid, matching⟩
  have within :
      stored.start + stored.layout.ciphertextLength ≤
        stored.data.length := by
    simp only [stored]
    omega
  have rest : stored.body = body := by
    have drop : ciphertext.drop headerLength = body := by
      rw [parts, List.drop_left' header.length_val]
    simp only [StoredMessage.body, stored, Nat.zero_add, whole, drop]
    refine List.take_of_length_le ?_
    rw [parts, List.length_append, header.length_val]
    omega
  obtain ⟨payloads, isMessage, rfl⟩ :=
    (decrypt_iff_message authentic parts).mp accepted
  rw [← rest] at isMessage
  obtain ⟨count, opens⟩ :=
    StoredMessage.opensAt_of_message within isMessage
  have describes := StoredMessage.describes_flatten count opens
  have found := List.getElem?_eq_getElem
    (show position < payloads.length by rw [count]; exact inside)
  have here := opens position _ found
  have place : stored.segment position =
      (layout.entry position).segment ciphertext := by
    simp only [StoredMessage.segment, SegmentLayout.segment, stored,
      Nat.zero_add]
  have payload := MessageLayout.payload_eq_block describes.length position
  rw [describes.content position _ here] at payload
  rw [← place]
  refine ⟨here.complete, ?_⟩
  have opened := here.opens
  rw [← payload] at opened
  exact opened

/-- A ready state decrypts a segment that opens, or its key derivation failed;
in either case it stays ready. -/
theorem DecryptionCall.decrypts_spec
    {state : DecryptionState}
    (call : DecryptionCall)
    (sound : faulty.FaultOf platform.kdfExpand)
    (agree : platform.OpensAgree)
    (ready : state.Ready platform context)
    (matching : layout.parameters = context.parameters)
    (decrypts : call.Decrypts layout ciphertext position)
    (complete :
      ((layout.entry position).segment ciphertext).length =
        (layout.entry position).ciphertextLength)
    (opens :
      context.Opens platform position (layout.entry position).kind
        ((layout.entry position).segment ciphertext) plaintext) :
    (call.perform (platform.withKdf faulty) state).1.returned =
        .ok plaintext ∨
      (∃ error,
        (call.perform (platform.withKdf faulty) state).1.returned =
          .error (.err error)) ∧
        ¬ context.Opens (platform.withKdf faulty) position
          (layout.entry position).kind
          ((layout.entry position).segment ciphertext) plaintext := by
  have fits :
      LayoutFits context (layout.entry position)
        ((layout.entry position).segment ciphertext).length :=
    ⟨matching, complete⟩
  have only {other : Bytes}
      (opensTo : context.Opens platform position (layout.entry position).kind
        ((layout.entry position).segment ciphertext) other) :
      other = plaintext := by
    have opened := opensTo.opened
    rw [opens.opened, Option.some.injEq] at opened
    exact opened.symm
  have size := opens.length_eq
  cases call with
  | allocating segment entry =>
      obtain ⟨rfl, rfl⟩ := decrypts
      obtain ⟨next, _, ⟨found, _, opensTo, result⟩ | ⟨error, closed, result⟩⟩ :=
        @DecryptionState.decryptSegment_spec platform faulty context state
          ((layout.entry position).segment ciphertext)
          (layout.entry position) sound ready
      · left
        simp only [perform, result, DecryptionAnswer.returned]
        rw [only opensTo]
      · right
        simp only [perform, result, DecryptionAnswer.returned]
        exact ⟨⟨error, rfl⟩, closed fits plaintext⟩
  | into segment entry output =>
      obtain ⟨rfl, rfl, room⟩ := decrypts
      obtain ⟨next, _, ⟨found, _, opensTo, _, result⟩ |
          ⟨error, failed, closed, result, _⟩⟩ :=
        @DecryptionState.decryptSegmentInto_spec platform faulty context state
          ((layout.entry position).segment ciphertext) output
          (layout.entry position) sound ready (.inl agree)
      · left
        simp only [perform, result, DecryptionAnswer.returned, Except.map,
          List.take_left]
        rw [only opensTo]
      · right
        simp only [perform, result, DecryptionAnswer.returned]
        refine ⟨⟨error, rfl⟩, fun opensTo => ?_⟩
        have short := closed fits plaintext opensTo
        rw [complete] at size
        simp only [MessageLayout.entry] at size room
        omega
  | inPlace buffer entry =>
      obtain ⟨rfl, holds, parameters⟩ := decrypts
      obtain ⟨next, _, ⟨found, _, _, _, opensTo, result, _⟩ |
          ⟨error, failed, closed, result, _⟩⟩ :=
        @DecryptionState.decryptSegmentInPlace_spec platform faulty context
          state ((layout.entry position).segment ciphertext)
          (layout.entry position) buffer sound agree ready holds
      · left
        simp only [perform, result, DecryptionAnswer.returned]
        rw [only opensTo]
      · right
        simp only [perform, result, DecryptionAnswer.returned]
        exact ⟨⟨error, rfl⟩,
          closed fits (parameters.trans matching) plaintext⟩
  | inPlaceRaw storage entry =>
      obtain ⟨rfl, taken⟩ := decrypts
      have room : (layout.entry position).ciphertextLength ≤
          storage.length := by
        have length := congrArg List.length taken
        rw [List.length_take, complete] at length
        omega
      obtain ⟨next, _, ⟨found, _, _, opensTo, result⟩ |
          ⟨error, failed, closed, result, _⟩⟩ :=
        @DecryptionState.decryptSegmentInPlaceRaw_spec platform faulty context
          state (layout.entry position) storage sound agree ready
      · left
        rw [taken] at opensTo
        simp only [perform, result, DecryptionAnswer.returned]
        rw [only opensTo]
      · right
        have closed' := closed matching room plaintext
        rw [taken] at closed'
        simp only [perform, result, DecryptionAnswer.returned]
        exact ⟨⟨error, rfl⟩, closed'⟩

end Opening

/-! ## Order and worker independence -/

/-- An encryption state that was started for a message, and the layout of the
message's plaintext. -/
inductive SealingSetup (platform : Platform) (key : Key) (aad : Bytes)
    (state : EncryptionState) (header : Header) (layout : MessageLayout)
    (plaintext : Bytes) : Prop where
  | started
      {faulty : Kdf} {parameters : Parameters} {rng : ProviderRng}
      (sound : faulty.FaultOf platform.kdfExpand)
      (begun :
        startEncryption (platform.withKdf faulty) key aad parameters rng =
          .ok (state, header))
      (calculated :
        parameters.plaintextLayout plaintext.length = .ok layout)

/-- A decryption state that was started on an accepted message, and the layout
of that message. -/
inductive OpeningSetup (platform : Platform) (key : Key) (aad : Bytes)
    (state : DecryptionState) (layout : MessageLayout)
    (ciphertext plaintext : Bytes) : Prop where
  | started
      {faulty : Kdf} {header : Header} {body : Bytes}
      (sound : faulty.FaultOf platform.kdfExpand)
      (accepted : decrypt platform key aad ciphertext = .ok plaintext)
      (parts : ciphertext = header.val ++ body)
      (begun :
        startDecryptionInferred (platform.withKdf faulty) key aad header =
          .ok state)
      (representable : ciphertext.length ≤ u64Max)
      (calculated :
        state.parameters.ciphertextLayout platform.target
          ciphertext.length = .ok layout)

/-- What a pool of the state and states forked from it answers to requests. -/
def sealInPool (platform : Platform) (state : EncryptionState)
    (forks : List ProviderRng) (requests : List (Pools.Sent SealRequest)) :
    List (Pools.Answered SealRequest (Result Bytes)) :=
  (Pools.run (SealRequest.perform platform)
    (state :: forks.map state.intoShared.fork) requests).1

/-- The same for decryption states. -/
def openInPool (platform : Platform) (state : DecryptionState) (forks : Nat)
    (requests : List (Pools.Sent OpenRequest)) :
    List (Pools.Answered OpenRequest DecryptionAnswer) :=
  (Pools.run (OpenRequest.perform platform)
    (state :: List.replicate forks state.intoShared.fork) requests).1

/-- Every successful request encrypts a segment of the layout, and every segment
was encrypted. -/
structure SealsLayout (layout : MessageLayout) (plaintext : Bytes)
    (log : List (Pools.Answered SealRequest (Result Bytes))) : Prop where
  encrypts :
    ∀ entry ∈ log, ∀ segment, entry.answer = .ok segment →
      ∃ position, entry.call.Encrypts layout plaintext position
  covers :
    ∀ position, position < layout.segmentCount →
      ∃ entry ∈ log, (∃ segment, entry.answer = .ok segment) ∧
        entry.call.Encrypts layout plaintext position

section Independence

variable {platform : Platform} {key : Key} {aad : Bytes}
  {layout : MessageLayout} {plaintext : Bytes}

/-- Results of any workers in any order, put in their places, are a message that
`decrypt` maps to the plaintext. -/
theorem SealingSetup.decrypt_eq
    {state : EncryptionState}
    {header : Header}
    {forks : List ProviderRng}
    {requests : List (Pools.Sent SealRequest)}
    {message : Bytes}
    (setup : SealingSetup platform key aad state header layout plaintext)
    (agree : platform.SealsAgree)
    (roundTrips : platform.RoundTrips)
    (healthy : ∀ sent ∈ requests,
      sent.call.kdf.FaultOf platform.kdfExpand)
    (sealsLayout :
      SealsLayout layout plaintext (sealInPool platform state forks requests))
    (length : message.length = layout.ciphertextLength)
    (begins : message.take headerLength = header.val) :
    decrypt platform key aad
        (assembleMessage message
          (sealInPool platform state forks requests)) =
      .ok plaintext := by
  obtain @⟨faulty, parameters, rng, sound, begun, calculated⟩ := setup
  obtain ⟨authentic, sameParameters, coherent, _, later, nonces⟩ :=
    startEncryption_eq_ok sound begun
  obtain ⟨valid, ofParameters, whole, _⟩ :=
    Parameters.plaintextLayout_eq_ok calculated
  have initially : ∀ worker ∈ state :: forks.map state.intoShared.fork,
      worker.Ready platform state.context := by
    intro worker member
    rcases List.mem_cons.mp member with rfl | member
    · refine ⟨rfl, coherent, ?_⟩
      rw [nonces]
      exact NonceGenerator.wellFormed_new later
    · obtain ⟨fork, _, rfl⟩ := List.mem_map.mp member
      exact SharedEncryptionContext.fork_ready platform ⟨state.context⟩ fork
  obtain ⟨sealed, _⟩ :=
    @Pools.run_invariant _ _ _ (SealRequest.perform platform)
      (fun worker => worker.Ready platform state.context)
      (fun request => request.kdf.FaultOf platform.kdfExpand)
      (fun request answer => ∀ segment, answer = .ok segment →
        state.context.Seals platform request.task.segment.position
          request.task.segment.kind request.task.input segment)
      _ _
      (fun request worker faultOf ready =>
        request.task.perform_spec faultOf agree ready)
      initially healthy
  have begun : PartlySealed platform state.context header layout plaintext
      (fun _ => False) message :=
    ⟨length, begins, fun _ _ impossible => impossible.elim⟩
  have complete :=
    begun.assemble valid whole.symm sealed sealsLayout.encrypts
  exact complete.decrypt_eq roundTrips authentic valid
    (ofParameters.trans sameParameters.symm) whole.symm
    fun position inside => .inr (sealsLayout.covers position inside)

/-- Whatever the workers were called with before, each of them returns for a
segment of an accepted message its part of the plaintext, unless its key
derivation fails. -/
theorem OpeningSetup.answers
    {state : DecryptionState}
    {ciphertext : Bytes}
    {forks : Nat}
    {requests : List (Pools.Sent OpenRequest)}
    (setup :
      OpeningSetup platform key aad state layout ciphertext plaintext)
    (agree : platform.OpensAgree)
    (healthy : ∀ sent ∈ requests,
      sent.call.kdf.FaultOf platform.kdfExpand) :
    ∀ entry ∈ openInPool platform state forks requests,
      ∀ position, position < layout.segmentCount →
        entry.call.call.Decrypts layout ciphertext position →
          (entry.answer.returned =
              .ok ((layout.entry position).payload plaintext) ∨
            ∃ error, entry.answer.returned = .error (.err error)) ∧
            (entry.call.kdf = platform.kdfExpand →
              entry.answer.returned =
                .ok ((layout.entry position).payload plaintext)) := by
  obtain @⟨faulty, header, body, sound, accepted, parts, begun,
    representable, calculated⟩ := setup
  have authentic := startDecryptionInferred_authenticates sound begun
  have ready : state.Ready platform state.context :=
    (startDecryptionInferred_ready begun).of_fault sound
  obtain ⟨valid, matching, whole⟩ :
      layout.Valid ∧ layout.parameters = state.context.parameters ∧
        layout.ciphertextLength = ciphertext.length :=
    Parameters.ciphertextLayout_eq_ok representable calculated
  have initially :
      ∀ worker ∈ state :: List.replicate forks state.intoShared.fork,
        worker.Ready platform state.context := by
    intro worker member
    rcases List.mem_cons.mp member with rfl | member
    · exact ready
    · rw [List.eq_of_mem_replicate member]
      exact SharedDecryptionContext.fork_ready platform ⟨state.context⟩
  refine (@Pools.run_invariant _ _ _ (OpenRequest.perform platform)
    (fun worker => worker.Ready platform state.context)
    (fun request => request.kdf.FaultOf platform.kdfExpand)
    (fun request answer => ∀ position, position < layout.segmentCount →
      request.call.Decrypts layout ciphertext position →
        (answer.returned = .ok ((layout.entry position).payload plaintext) ∨
          ∃ error, answer.returned = .error (.err error)) ∧
          (request.kdf = platform.kdfExpand →
            answer.returned =
              .ok ((layout.entry position).payload plaintext)))
    _ _ ?_ initially healthy).1
  intro request worker faultOf workerReady
  refine ⟨?_, request.call.perform_ready faultOf workerReady⟩
  intro position inside decrypts
  obtain ⟨complete, opens⟩ :=
    decrypt_opens accepted authentic parts valid matching whole inside
  rcases request.call.decrypts_spec faultOf agree workerReady matching
      decrypts complete opens with success | ⟨failure, closed⟩
  · exact ⟨.inl success, fun _ => success⟩
  · refine ⟨.inr failure, fun same => ?_⟩
    rw [same] at closed
    exact (closed opens).elim

/-- Order and worker independence.  However the segments of a layout are shared
among an encryption state and states forked from its context, in any order and
between any failing calls, the results in their places are a message that
`decrypt` maps to the plaintext.  However the segments of an accepted message
are shared among a decryption state and its forks, in any order and any number
of times, each call returns the segment's part of the plaintext, or an error
when its key derivation fails. -/
theorem workers_orderIndependent
    (sealsAgree : platform.SealsAgree)
    (opensAgree : platform.OpensAgree)
    (roundTrips : platform.RoundTrips) :
    (∀ state header layout plaintext,
      SealingSetup platform key aad state header layout plaintext →
        ∀ forks requests,
          (∀ sent ∈ requests, sent.call.kdf.FaultOf platform.kdfExpand) →
            SealsLayout layout plaintext
                (sealInPool platform state forks requests) →
              ∀ message,
                message.length = layout.ciphertextLength →
                  message.take headerLength = header.val →
                    decrypt platform key aad
                        (assembleMessage message
                          (sealInPool platform state forks requests)) =
                      .ok plaintext) ∧
    ∀ state layout ciphertext plaintext,
      OpeningSetup platform key aad state layout ciphertext plaintext →
        ∀ forks requests,
          (∀ sent ∈ requests, sent.call.kdf.FaultOf platform.kdfExpand) →
            ∀ entry ∈ openInPool platform state forks requests,
              ∀ position, position < layout.segmentCount →
                entry.call.call.Decrypts layout ciphertext position →
                  (entry.answer.returned =
                      .ok ((layout.entry position).payload plaintext) ∨
                    ∃ error, entry.answer.returned = .error (.err error)) ∧
                    (entry.call.kdf = platform.kdfExpand →
                      entry.answer.returned =
                        .ok ((layout.entry position).payload plaintext)) := by
  constructor
  · intro state header layout plaintext setup forks requests healthy
      sealsLayout message length begins
    exact setup.decrypt_eq sealsAgree roundTrips healthy sealsLayout length
      begins
  · intro state layout ciphertext plaintext setup forks requests healthy
    exact setup.answers opensAgree healthy

end Independence

/-! ## Two workers -/

set_option maxRecDepth 100000 in
/-- A started encryption state and its header. -/
def sharedState : EncryptionState × Header :=
  match startEncryption openPlatform zeroKey [] shortestSegments zeroRng with
  | .ok started => started
  | .error _ => (⟨transparentContext, .empty, .new zeroRng⟩, Octets.zero _)

/-- The layout of a plaintext of two segments. -/
def sharedLayout : MessageLayout where
  parameters := shortestSegments
  plaintextLength := 33
  ciphertextLength := 171
  segmentCount := 2

/-- The calls on the state and a fork of it: the last segment first, then a
plaintext that is too short, then the first segment. -/
def sharedRequests : List (Pools.Sent SealRequest) :=
  [⟨1, openPlatform.kdfExpand,
      .allocating (zeros 1) (sharedLayout.entry 1)⟩,
    ⟨0, openPlatform.kdfExpand,
      .allocating (zeros 5) (sharedLayout.entry 0)⟩,
    ⟨0, openPlatform.kdfExpand,
      .allocating (zeros 32) (sharedLayout.entry 0)⟩]

set_option maxRecDepth 100000 in
theorem workers_orderIndependent_example :
    decrypt openPlatform zeroKey []
        (assembleMessage (sharedState.2.val ++ zeros 97)
          (sealInPool openPlatform sharedState.1 [zeroRng]
            sharedRequests)) =
      .ok (zeros 33) := by
  have setup : SealingSetup openPlatform zeroKey [] sharedState.1
      sharedState.2 sharedLayout (zeros 33) :=
    @SealingSetup.started openPlatform zeroKey [] _ _ _ _
      openPlatform.kdfExpand shortestSegments zeroRng
      (Kdf.FaultOf.refl _) rfl rfl
  have healthy : ∀ sent ∈ sharedRequests,
      sent.call.kdf.FaultOf openPlatform.kdfExpand := by
    intro sent member
    simp only [sharedRequests, List.mem_cons, List.not_mem_nil,
      or_false] at member
    rcases member with rfl | rfl | rfl
    · exact Kdf.FaultOf.refl _
    · exact Kdf.FaultOf.refl _
    · exact Kdf.FaultOf.refl _
  obtain ⟨second, first, error, log⟩ : ∃ second first error,
      sealInPool openPlatform sharedState.1 [zeroRng] sharedRequests =
        [⟨⟨openPlatform.kdfExpand,
            .allocating (zeros 1) (sharedLayout.entry 1)⟩, .ok second⟩,
          ⟨⟨openPlatform.kdfExpand,
            .allocating (zeros 5) (sharedLayout.entry 0)⟩, .error error⟩,
          ⟨⟨openPlatform.kdfExpand,
            .allocating (zeros 32) (sharedLayout.entry 0)⟩, .ok first⟩] :=
    ⟨_, _, _, rfl⟩
  have sealsLayout : SealsLayout sharedLayout (zeros 33)
      (sealInPool openPlatform sharedState.1 [zeroRng] sharedRequests) := by
    rw [log]
    constructor
    · intro entry member segment success
      simp only [List.mem_cons, List.not_mem_nil, or_false] at member
      rcases member with rfl | rfl | rfl
      · exact ⟨1, by decide, rfl, rfl⟩
      · cases success
      · exact ⟨0, by decide, rfl, rfl⟩
    · intro position inside
      have bound : position < 2 := inside
      rcases position with _ | _ | position
      · exact ⟨_, List.mem_cons_of_mem _
          (List.mem_cons_of_mem _ List.mem_cons_self), ⟨_, rfl⟩,
          by decide, rfl, rfl⟩
      · exact ⟨_, List.mem_cons_self, ⟨_, rfl⟩, by decide, rfl, rfl⟩
      · omega
  exact (@workers_orderIndependent openPlatform zeroKey []
    transparent_sealsAgree transparent_opensAgree
    transparent_roundTrips).1 _ _ _ _ setup _ _ healthy sealsLayout _
    rfl rfl

end FastFloe
