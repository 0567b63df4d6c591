import FastFloe.ReaderAgreement

namespace FastFloe

open Rust

/-!
# Accepted messages are prefix-free

No accepted message starts another one, and a seekable reader over the start of
an accepted message does not open.  Both follow from the framing alone, whatever
the provider opens and derives.
-/

section Framing

variable {parameters : Parameters} {parts : List Bytes}
  {last lead segment rest : Bytes} {index : Nat}

/-- What follows the first parts of a body. -/
theorem drop_parts
    (uniform :
      Blocks.Uniform parameters.ciphertextSegmentLength parts)
    (inside : index ≤ parts.length) :
    (∃ part tail, part ∈ parts ∧
        (parts.flatten ++ last).drop
            (index * parameters.ciphertextSegmentLength) = part ++ tail) ∨
      (index = parts.length ∧
        (parts.flatten ++ last).drop
            (index * parameters.ciphertextSegmentLength) = last) := by
  rcases Nat.lt_or_eq_of_le inside with before | rfl
  · left
    have cut := Blocks.block_flatten uniform before last
    rw [Blocks.block] at cut
    refine ⟨parts[index],
      ((parts.flatten ++ last).drop
        (index * parameters.ciphertextSegmentLength)).drop
          parameters.ciphertextSegmentLength, List.getElem_mem before, ?_⟩
    rw [← cut, List.take_append_drop]
  · right
    refine ⟨rfl, ?_⟩
    rw [← Blocks.length_flatten uniform, List.drop_left]

/-- A well-framed final segment that stands at a multiple of the segment length
in a body is its last segment. -/
theorem finalSegment_ends
    (uniform :
      Blocks.Uniform parameters.ciphertextSegmentLength parts)
    (partsFramed : ∀ part ∈ parts, WellFramed parameters .nonFinal part)
    (lastFramed : WellFramed parameters .final last)
    (segmentFramed : WellFramed parameters .final segment)
    (shape : parts.flatten ++ last = lead ++ (segment ++ rest))
    (aligned : lead.length = index * parameters.ciphertextSegmentLength) :
    rest = [] := by
  have lastBounds := lastFramed.length_bounds
  have segmentBounds := segmentFramed.length_bounds
  have total := congrArg List.length shape
  rw [List.length_append, Blocks.length_flatten uniform, List.length_append,
    List.length_append, aligned] at total
  have inside : index ≤ parts.length := by
    by_contra beyond
    have monotone :=
      Nat.mul_le_mul_right parameters.ciphertextSegmentLength
        (show parts.length + 1 ≤ index by omega)
    rw [Nat.succ_mul] at monotone
    omega
  have here :
      (parts.flatten ++ last).drop
          (index * parameters.ciphertextSegmentLength) = segment ++ rest := by
    rw [shape, ← aligned, List.drop_left]
  obtain ⟨framing, framed, kind, length⟩ :=
    segmentFramed.framingOf_append rest
  rcases @drop_parts _ _ last _ uniform inside with
    ⟨part, tail, member, begins⟩ | ⟨exact, ends⟩
  · -- An earlier segment declares that it is not the last one.
    obtain ⟨other, otherFramed, otherKind, _⟩ :=
      (partsFramed part member).framingOf_append tail
    rw [← begins, here, framed] at otherFramed
    cases otherFramed
    rw [kind] at otherKind
    cases otherKind
  · -- The last segment declares where the body ends.
    obtain ⟨other, otherFramed, _, otherLength⟩ :=
      lastFramed.framingOf_append []
    rw [List.append_nil, ← ends, here, framed] at otherFramed
    cases otherFramed
    rw [exact] at total
    exact List.eq_nil_of_length_eq_zero (by omega)

end Framing

/-- The body of a stored message ends with its final segment. -/
theorem StoredMessage.body_eq_finalSegment
    {message : StoredMessage}
    (whole :
      message.start + message.layout.ciphertextLength ≤
        message.data.length) :
    ∃ lead,
      message.body =
          lead ++ message.segment (message.layout.segmentCount - 1) ∧
        lead.length =
          (message.layout.segmentCount - 1) *
            message.layout.parameters.ciphertextSegmentLength := by
  have positive := message.valid.count_pos
  have bounds := StoredMessage.body_bounds whole
  obtain ⟨preceding, count⟩ :
      ∃ preceding, message.layout.segmentCount = preceding + 1 :=
    ⟨message.layout.segmentCount - 1, by omega⟩
  rw [count, Nat.add_sub_cancel, Nat.succ_mul] at bounds
  rw [count, Nat.add_sub_cancel]
  have final :
      message.segment preceding =
        message.body.drop
          (preceding *
            message.layout.parameters.ciphertextSegmentLength) := by
    rw [message.segment_eq_block (by omega), Blocks.block]
    refine List.take_of_length_le ?_
    rw [List.length_drop]
    omega
  refine ⟨message.body.take
    (preceding * message.layout.parameters.ciphertextSegmentLength), ?_, ?_⟩
  · rw [final, List.take_append_drop]
  · rw [List.length_take]
    omega

section PrefixFreedom

variable {platform : Platform} {key : Key}
  {aad ciphertext shorter rest plaintext : Bytes}

/-- No accepted message continues another one. -/
theorem decrypt_append_eq_nil
    {longer : Bytes}
    (accepted : decrypt platform key aad ciphertext = .ok plaintext)
    (acceptedLonger :
      decrypt platform key aad (ciphertext ++ rest) = .ok longer) :
    rest = [] := by
  obtain ⟨header, body, context, payloads, rfl, authentic, message, _⟩ :=
    ((decrypt_spec platform key aad ciphertext).2 plaintext).mp accepted
  obtain ⟨other, otherBody, otherContext, otherPayloads, same,
      otherAuthentic, otherMessage, _⟩ :=
    ((decrypt_spec platform key aad _).2 longer).mp acceptedLonger
  rw [List.append_assoc] at same
  obtain ⟨sameHeader, rfl⟩ := List.append_inj same
    (header.length_val.trans other.length_val.symm)
  obtain rfl := Subtype.ext sameHeader
  rw [otherAuthentic.unique authentic] at otherMessage
  exact message.append_eq_nil otherMessage

/-- A byte string that is not accepted is refused with an error. -/
theorem decrypt_refused
    (refused : ∀ plaintext,
      decrypt platform key aad ciphertext ≠ .ok plaintext) :
    ∃ error, decrypt platform key aad ciphertext = .error (.err error) :=
  (decrypt_spec platform key aad ciphertext).1.exists_err refused

/-- The message that a reader has opened is not the start of an accepted
one. -/
theorem openable_append_eq_nil
    {inner : Source IoPayload}
    {message : StoredMessage}
    (accepted :
      decrypt platform key aad (shorter ++ rest) = .ok plaintext)
    (openable :
      Reader.Openable platform.openingInPlace
        (startDecryptionInferred platform.openingInPlace key aad) inner
        shorter.length message)
    (stored : inner.remaining = shorter) :
    rest = [] := by
  obtain ⟨header, body, context, payloads, same, authentic, accepted, _⟩ :=
    ((decrypt_spec platform key aad _).2 plaintext).mp accepted
  obtain ⟨other, state, started, context_eq, shape, whole⟩ :=
    openable.shape (stored.trans (List.append_nil shorter).symm)
  rw [shape, List.append_assoc] at same
  obtain ⟨sameHeader, rfl⟩ := List.append_inj same
    (other.length_val.trans header.length_val.symm)
  obtain rfl := Subtype.ext sameHeader
  have context_eq : message.context = context := by
    rcases startDecryptionInferred_spec platform.openingInPlace key aad
        other with
      ⟨found, state', authentic', started', ready, _⟩ | ⟨⟨error, failed⟩, _⟩
    · rw [started'] at started
      cases started
      -- The header's authentication never opens a segment.
      have here : HeaderAuthenticates platform key aad other found :=
        ⟨authentic'.provider, authentic'.parameters, authentic'.floeIv,
          authentic'.associated, authentic'.tag, authentic'.messageKey⟩
      rw [context_eq, ready.context_eq, here.unique authentic]
    · rw [failed] at started
      cases started
  obtain ⟨middle, last, lastPlaintext, shape', _, segmentation⟩ :=
    message_iff_segmentation.mp accepted
  obtain ⟨frames, final⟩ := segmentation_iff.mp segmentation
  obtain ⟨lead, bodyShape, aligned⟩ :=
    StoredMessage.body_eq_finalSegment whole
  obtain ⟨opened, opens⟩ := openable.final
  have segmentFramed := opens.opens.framed
  have positive := message.valid.count_pos
  rw [kindAt, if_pos (by omega), context_eq] at segmentFramed
  rw [message.matching, context_eq] at aligned
  rw [bodyShape, List.append_assoc] at shape'
  refine @finalSegment_ends _ (middle.map Prod.fst) _ _ _ _ _ ?_ ?_ ?_
    segmentFramed shape'.symm aligned
  · intro part member
    obtain ⟨⟨segment, plaintext⟩, listed, rfl⟩ := List.mem_map.mp member
    obtain ⟨index, found⟩ := List.mem_iff_getElem?.mp listed
    exact (segmentation.full index segment plaintext found).1
  · intro part member
    obtain ⟨⟨segment, plaintext⟩, listed, rfl⟩ := List.mem_map.mp member
    obtain ⟨index, found⟩ := List.mem_iff_getElem?.mp listed
    have frame := frames _ _ _ found
    exact ((@isFrame_iff _ _ _ .nonFinal _ _).mp frame).2.framed
  · exact ((@isFrame_iff _ _ _ .final _ _).mp final).2.framed

end PrefixFreedom

/-- Whatever the provider opens and derives, an accepted message is refused when
anything is appended to it or cut off from its end, and a reader over what is
left of a cut one does not open. -/
theorem decrypt_prefixFree
    {platform : Platform}
    {key : Key}
    {aad ciphertext plaintext rest : Bytes}
    (accepted : decrypt platform key aad ciphertext = .ok plaintext)
    (strict : rest ≠ []) :
    (∃ error,
        decrypt platform key aad (ciphertext ++ rest) =
          .error (.err error)) ∧
      ∀ shorter, ciphertext = shorter ++ rest →
        (∃ error,
            decrypt platform key aad shorter = .error (.err error)) ∧
          ∀ inner : Source IoPayload, inner.remaining = shorter →
            ∃ error,
              Reader.new platform inner key aad = .error (.err error) := by
  refine ⟨decrypt_refused fun longer acceptedLonger =>
    strict (decrypt_append_eq_nil accepted acceptedLonger), ?_⟩
  rintro shorter rfl
  refine ⟨decrypt_refused fun other acceptedShorter =>
    strict (decrypt_append_eq_nil acceptedShorter accepted), ?_⟩
  intro inner stored
  -- Opening a reader only ever opens in place.
  have opens := @Reader.openToEnd_spec platform.openingInPlace
    (startDecryptionInferred platform.openingInPlace key aad) inner
    platform.openingInPlace_opensAgree
    (Reader.startsReady_inferred platform.openingInPlace key aad)
  have length : inner.data.length - inner.cursor = shorter.length := by
    rw [← stored, Source.remaining, List.length_drop]
  rw [length] at opens
  rcases opens with ⟨reader, message, _, begun⟩ | ⟨failed, _⟩
  · exact (strict (openable_append_eq_nil accepted begun.openable
      stored)).elim
  · exact failed

set_option maxRecDepth 100000 in
theorem decrypt_prefixFree_example :
    decrypt openPlatform zeroKey [] twoSegments = .ok (zeros 33) ∧
      (∃ error,
        decrypt openPlatform zeroKey [] (twoSegments ++ [0]) =
          .error (.err error)) ∧
        ∀ shorter, twoSegments = shorter ++ [0] →
          (∃ error,
              decrypt openPlatform zeroKey [] shorter =
                .error (.err error)) ∧
            ∀ inner : Source IoPayload, inner.remaining = shorter →
              ∃ error,
                Reader.new openPlatform inner zeroKey [] =
                  .error (.err error) :=
  have accepted :
      decrypt openPlatform zeroKey [] twoSegments = .ok (zeros 33) := rfl
  ⟨accepted, decrypt_prefixFree accepted (List.cons_ne_nil 0 [])⟩

end FastFloe
