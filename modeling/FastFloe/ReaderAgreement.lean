import FastFloe.ReaderRuns

namespace FastFloe

open Rust

/-!
# The reader and the one-shot decryptor

A seekable reader over an honest source and `decrypt` accept the same messages.
Both accept exactly when every segment of the layout opens, and both return the
plaintext that the layout then describes.
-/

/-- What the result of opening a reader has to do with `decrypt`: the whole
range is read exactly when `decrypt` accepts, as the same plaintext, and then
each segment is read as its part of it, whatever calls came before. -/
def AgreesWithDecrypt (platform : Platform) (key : Key) (aad ciphertext : Bytes)
    (opened : IoResult Reader) : Prop :=
  ∀ plaintext,
    (decrypt platform key aad ciphertext = .ok plaintext ↔
      ∃ reader after,
        opened = .ok reader ∧
          reader.readRange platform .unbounded .unbounded =
            (.ok plaintext, after)) ∧
    (decrypt platform key aad ciphertext = .ok plaintext →
      ∀ reader, opened = .ok reader →
        reader.plaintextLength = plaintext.length ∧
          ∀ calls, (∀ call ∈ calls, ReaderCall.LeavesInner call) →
            ∀ position, position < reader.segmentCount →
              let size := reader.layout.parameters.plaintextSegmentLength
              ∃ after,
                (runReader platform calls reader).readSegment platform
                    position =
                  (.ok ((plaintext.drop (position * size)).take
                    (min ((position + 1) * size) plaintext.length -
                      position * size)), after))

section Agreement

variable {platform : Platform} {key : Key}
  {aad ciphertext after plaintext : Bytes} {inner : Source IoPayload}
  {message : StoredMessage} {reader : Reader}

/-- The bytes of an openable message. -/
theorem Reader.Openable.shape
    {start : Header → Result DecryptionState}
    (openable :
      Reader.Openable platform start inner ciphertext.length message)
    (stored : inner.remaining = ciphertext ++ after) :
    ∃ (header : Header) (state : DecryptionState),
      start header = .ok state ∧ message.context = state.context ∧
        ciphertext = header.val ++ message.body ∧
        message.start + message.layout.ciphertextLength ≤
          message.data.length := by
  obtain ⟨header, state, content, started, context⟩ := openable.header
  have enough := openable.enough
  have total := message.valid.ciphertext_eq
  have length := openable.length
  have available := congrArg List.length stored
  rw [Source.remaining, List.length_drop, List.length_append] at available
  rw [headerLength_eq] at enough
  refine ⟨header, state, started, context, ?_, ?_⟩
  · have body :
        message.body = (ciphertext.drop headerLength) := by
      rw [StoredMessage.body, openable.data, openable.begins,
        ← List.drop_drop, ← Source.remaining, stored, length,
        List.drop_append_of_le_length (by rw [headerLength_eq]; omega),
        List.take_left' List.length_drop]
    rw [body, content, stored,
      List.take_append_of_le_length (by rw [headerLength_eq]; omega),
      List.take_append_drop]
  · rw [openable.begins, openable.data, length]
    have standing : 0 < inner.remaining.length := by omega
    rw [Source.remaining, List.length_drop] at standing
    omega

/-- `decrypt` accepts an openable message when all its segments open. -/
theorem decrypt_iff_describes
    (openable :
      Reader.Openable platform (startDecryptionInferred platform key aad)
        inner ciphertext.length message)
    (stored : inner.remaining = ciphertext ++ after) :
    decrypt platform key aad ciphertext = .ok plaintext ↔
      message.AllOpen platform ∧ message.Describes platform plaintext := by
  obtain ⟨header, state, started, context_eq, shape, whole⟩ :=
    openable.shape stored
  rcases startDecryptionInferred_spec platform key aad header with
    ⟨context, state', authentic, started', ready, _⟩ | ⟨⟨error, failed⟩, _⟩
  · rw [started'] at started
    cases started
    rw [ready.context_eq] at context_eq
    subst context_eq
    rw [(decrypt_spec platform key aad ciphertext).2,
      ← StoredMessage.message_iff_describes whole]
    constructor
    · rintro ⟨other, body, context, payloads, same, otherAuthentic, accepted,
        exact⟩
      obtain ⟨sameHeader, rfl⟩ := List.append_inj (shape.symm.trans same)
        (header.length_val.trans other.length_val.symm)
      obtain rfl := Subtype.ext sameHeader
      rw [otherAuthentic.unique authentic] at accepted
      exact ⟨payloads, accepted, exact⟩
    · rintro ⟨payloads, accepted, exact⟩
      exact ⟨header, message.body, message.context, payloads, shape,
        authentic, accepted, exact⟩
  · rw [failed] at started
    cases started

/-- Every message that `decrypt` accepts can be opened. -/
theorem openable_of_decrypt
    (stored : inner.remaining = ciphertext ++ after)
    (accepted : decrypt platform key aad ciphertext = .ok plaintext) :
    ∃ message,
      Reader.Openable platform (startDecryptionInferred platform key aad)
        inner ciphertext.length message := by
  obtain ⟨header, body, context, payloads, rfl, authentic, message_of, rfl⟩ :=
    ((decrypt_spec platform key aad ciphertext).2 plaintext).mp accepted
  have available := congrArg List.length stored
  simp only [List.length_append, Octets.length_val, headerLength_eq]
    at available
  have inData := available
  rw [Source.remaining, List.length_drop] at inData
  have addressable := inner.addressable
  obtain ⟨layout, valid, matching, length⟩ :=
    StoredMessage.exists_layout message_of (by omega)
  obtain ⟨message, message_eq⟩ :
      ∃ message : StoredMessage, message =
        ⟨context, layout, inner.data, inner.cursor, valid, matching⟩ :=
    ⟨_, rfl⟩
  have body_eq : message.body = body := by
    rw [StoredMessage.body, message_eq]
    simp only [length, ← List.drop_drop]
    rw [← Source.remaining, stored, List.append_assoc,
      List.drop_left' header.length_val, headerLength_eq]
    exact List.take_left' (Nat.add_sub_cancel_left _ _).symm
  have whole :
      message.start + message.layout.ciphertextLength ≤
        message.data.length := by
    simp only [message_eq, length]
    omega
  have context_eq : message.context = context := by rw [message_eq]
  rw [← body_eq, ← context_eq] at message_of
  obtain ⟨allOpen, _⟩ :=
    (StoredMessage.message_iff_describes whole).mp ⟨payloads, message_of, rfl⟩
  have positive := message.valid.count_pos
  have begins : message.start = inner.cursor := by rw [message_eq]
  have data : message.data = inner.data := by rw [message_eq]
  have total :
      message.layout.ciphertextLength = (header.val ++ body).length := by
    rw [message_eq, length, List.length_append, header.length_val,
      headerLength_eq]
  rcases startDecryptionInferred_spec platform key aad header with
    ⟨context', state, authentic', started, ready, _⟩ | ⟨_, unscheduled⟩
  · refine ⟨message, ?_, ⟨header, state, ?_, started, ?_⟩, data, begins,
      total, allOpen _ (by omega)⟩
    · rw [headerLength_eq]
      omega
    · rw [stored, List.append_assoc, List.take_left' header.length_val]
    · rw [context_eq, ready.context_eq, authentic.unique authentic']
  · -- Without a key at position zero the first segment does not open.
    obtain ⟨opened, opens⟩ := allOpen 0 positive
    have opened := opens.opens.opened
    rw [context_eq] at opened
    rw [MessageContext.openSegment_of_unscheduled
      (unscheduled context authentic)] at opened
    cases opened

/-- The whole range is read exactly when all segments open. -/
theorem readWhole_iff
    (coherent : reader.Coherent platform message)
    (agree : platform.OpensAgree)
    (wide : platform.target = .bits64)
    (honest : reader.inner.Honest)
    (final : ∃ opened,
      message.OpensAt platform (message.layout.segmentCount - 1) opened) :
    (∃ after,
        reader.readRange platform .unbounded .unbounded =
          (.ok plaintext, after)) ↔
      message.AllOpen platform ∧ message.Describes platform plaintext := by
  have resolved :
      resolveBounds .unbounded .unbounded message.layout.plaintextLength =
        .ok (0, message.layout.plaintextLength) := by
    simp [resolveBounds, validateRange]
  have exact {described bytes : Bytes} {start stop : Nat}
      (describes : message.Describes platform described)
      (resolved' :
        resolveBounds .unbounded .unbounded message.layout.plaintextLength =
          .ok (start, stop))
      (stretch : bytes = (described.drop start).take (stop - start)) :
      bytes = described ∧ start = 0 ∧
        stop = message.layout.plaintextLength := by
    rw [resolved] at resolved'
    cases resolved'
    refine ⟨?_, rfl, rfl⟩
    rw [stretch, List.drop_zero, Nat.sub_zero, ← describes.length,
      List.take_length]
  constructor
  · rintro ⟨after, read⟩
    obtain ⟨described, describes⟩ := message.exists_describes platform
    obtain ⟨result, after', read', _, _, success, _⟩ :=
      coherent.readRange_spec agree describes .unbounded .unbounded
    rw [read] at read'
    cases read'
    obtain ⟨start, stop, resolved', stretch, touched⟩ :=
      success plaintext rfl
    obtain ⟨rfl, rfl, rfl⟩ := exact describes resolved' stretch
    refine ⟨?_, describes⟩
    intro position inside
    by_cases isLast : position + 1 = message.layout.segmentCount
    · have last : position = message.layout.segmentCount - 1 := by omega
      rw [last]
      exact final
    · -- A segment that is not the last is full, so the range touches it.
      have reached := message.valid.reached
      have size := message.layout.parameters.segmentLength_bounds.1
      have monotone :=
        Nat.mul_le_mul_right
          message.layout.parameters.plaintextSegmentLength
          (show position + 1 ≤ message.layout.segmentCount - 1 by omega)
      rw [Nat.succ_mul] at monotone
      refine touched (by omega) position (by simp) ?_
      rw [Nat.le_div_iff_mul_le (by omega)]
      omega
  · rintro ⟨allOpen, describes⟩
    obtain ⟨result, after, read, _, _, success, honestly⟩ :=
      coherent.readRange_spec agree describes .unbounded .unbounded
    have fits :
        message.layout.plaintextLength - 0 ≤ platform.target.usizeMax := by
      have total := message.valid.ciphertext_eq
      have representable := message.valid.representable
      rw [wide, Target.usizeMax]
      omega
    obtain ⟨bytes, rfl⟩ := honestly honest ⟨_, _, resolved, fits⟩ allOpen
    obtain ⟨start, stop, resolved', stretch, _⟩ := success bytes rfl
    obtain ⟨rfl, _⟩ := exact describes resolved' stretch
    exact ⟨after, read⟩

/-- A segment of an accepted message is its part of the plaintext. -/
theorem readSegment_part
    {position : Nat}
    (coherent : reader.Coherent platform message)
    (agree : platform.OpensAgree)
    (honest : reader.inner.Honest)
    (allOpen : message.AllOpen platform)
    (describes : message.Describes platform plaintext)
    (inside : position < message.layout.segmentCount) :
    ∃ after,
      reader.readSegment platform position =
        (.ok ((plaintext.drop
            (position *
              message.layout.parameters.plaintextSegmentLength)).take
          (min
              ((position + 1) *
                message.layout.parameters.plaintextSegmentLength)
              plaintext.length -
            position * message.layout.parameters.plaintextSegmentLength)),
          after) := by
  obtain ⟨result, after, read, _, _, success, honestly⟩ :=
    @Reader.Coherent.readSegment_spec platform message reader plaintext
      position coherent agree describes
  obtain ⟨bytes, rfl⟩ := honestly honest (allOpen position inside)
  obtain ⟨_, exact⟩ := success bytes rfl
  exact ⟨after, by rw [read, exact, Blocks.block_eq_part]⟩

/-- A constructor of an honest source agrees with `decrypt`. -/
theorem Reader.Opens.agrees
    {result : IoResult Reader}
    (opens :
      Reader.Opens platform (startDecryptionInferred platform key aad) inner
        ciphertext.length result)
    (agree : platform.OpensAgree)
    (wide : platform.target = .bits64)
    (honest : inner.Honest)
    (stored : inner.remaining = ciphertext ++ after) :
    AgreesWithDecrypt platform key aad ciphertext result := by
  intro plaintext
  rcases opens with ⟨reader, message, rfl, begun⟩ |
      ⟨⟨error, failed⟩, closed⟩
  · have accepts :=
      @decrypt_iff_describes _ _ _ _ _ plaintext _ _ begun.openable stored
    have reads :=
      @readWhole_iff _ plaintext _ _ begun.coherent agree wide
        (begun.honest honest) begun.openable.final
    refine ⟨?_, ?_⟩
    · rw [accepts, ← reads]
      constructor
      · rintro ⟨after, read⟩
        exact ⟨reader, after, rfl, read⟩
      · rintro ⟨other, after, same, read⟩
        cases same
        exact ⟨after, read⟩
    · intro accepted other same
      cases same
      obtain ⟨allOpen, describes⟩ := accepts.mp accepted
      refine ⟨begun.coherent.plaintextLength_eq.trans describes.length.symm,
        ?_⟩
      intro calls leave position inside
      rw [Reader.segmentCount, begun.coherent.layout] at inside
      rw [begun.coherent.layout]
      exact readSegment_part (runReader_coherent begun.coherent agree) agree
        (runReader_honest begun.coherent agree leave (begun.honest honest))
        allOpen describes inside
  · have refused :
        decrypt platform key aad ciphertext ≠ .ok plaintext := by
      intro accepted
      obtain ⟨message, openable⟩ := openable_of_decrypt stored accepted
      exact closed honest message openable
    refine ⟨⟨fun accepted => (refused accepted).elim, ?_⟩,
      fun accepted => (refused accepted).elim⟩
    rintro ⟨reader, after, success, _⟩
    rw [failed] at success
    cases success

end Agreement

/-- On a 64-bit target, a reader over an honest source accepts exactly what
`decrypt` accepts and reads the same plaintext: `new` for a ciphertext at the
end of the source, `new_with_length` for one anywhere in it. -/
theorem reader_agreesWithDecrypt
    {platform : Platform}
    {key : Key}
    {aad before ciphertext after : Bytes}
    {inner : Source IoPayload}
    (agree : platform.OpensAgree)
    (wide : platform.target = .bits64)
    (honest : inner.Honest)
    (stored : inner.data = before ++ ciphertext ++ after)
    (stands : inner.cursor = before.length) :
    (after = [] →
        AgreesWithDecrypt platform key aad ciphertext
          (Reader.new platform inner key aad)) ∧
      AgreesWithDecrypt platform key aad ciphertext
        (Reader.newWithLength platform inner key aad ciphertext.length) := by
  have remaining : inner.remaining = ciphertext ++ after := by
    rw [Source.remaining, stored, stands, List.append_assoc, List.drop_left]
  have total := congrArg List.length stored
  rw [List.length_append, List.length_append] at total
  have addressable := inner.addressable
  have starts := Reader.startsReady_inferred platform key aad
  refine ⟨?_, ?_⟩
  · rintro rfl
    have length : inner.data.length - inner.cursor = ciphertext.length := by
      rw [List.length_nil] at total
      omega
    have opens := @Reader.openToEnd_spec platform
      (startDecryptionInferred platform key aad) inner agree starts
    rw [length] at opens
    exact opens.agrees agree wide honest remaining
  · exact (Reader.openWithLength_spec agree starts (by omega)).agrees agree
      wide honest remaining

theorem reader_agreesWithDecrypt_example :
    AgreesWithDecrypt openPlatform zeroKey [] twoSegments
        (Reader.new openPlatform twoSegmentsSource zeroKey []) ∧
      AgreesWithDecrypt openPlatform zeroKey [] twoSegments
        (Reader.newWithLength openPlatform twoSegmentsSource zeroKey []
          twoSegments.length) := by
  have honest : twoSegmentsSource.Honest := by
    simp [Source.Honest, twoSegmentsSource, SourceEvent.Fragments]
  have stored :
      twoSegmentsSource.data = [9] ++ twoSegments ++ [] := by
    rw [List.append_nil, List.singleton_append, twoSegmentsSource]
  have agrees := @reader_agreesWithDecrypt openPlatform zeroKey [] _ _ _ _
    transparent_opensAgree rfl honest stored rfl
  exact ⟨agrees.1 rfl, agrees.2⟩

end FastFloe
