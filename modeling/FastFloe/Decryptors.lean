import FastFloe.Headers
import FastFloe.Online

namespace FastFloe

open Rust

/-!
# The sequential decryptor reads segment streams

A `Decryptor` that has processed `position` non-final segments opens the next
segment exactly when `segmentStream` parses it there, so `decrypt` accepts
exactly the messages of that stream.
-/

/-- The counter of a message in progress gives out its position, except that
the last position is kept for the final segment. -/
theorem SegmentCounter.positionFor_spec
    {position : Nat}
    (inside : position < aeadMaxSegments)
    (kind : SegmentKind) :
    (PositionAllows position kind ∧
        SegmentCounter.positionFor ⟨position, false⟩ kind = .ok position) ∨
      (¬ PositionAllows position kind ∧
        SegmentCounter.positionFor ⟨position, false⟩ kind =
          .error (.err .segmentLimit)) := by
  unfold SegmentCounter.positionFor PositionAllows
  cases kind with
  | nonFinal =>
      by_cases last : position = aeadMaxSegments - 1
      · right
        simp only [last, Bool.false_eq_true, ↓reduceIte, and_true]
        omega
      · left
        simp only [last, Bool.false_eq_true, ↓reduceIte, and_true]
        omega
  | final =>
      left
      simp only [Nat.not_le.mpr inside, Bool.false_eq_true, ↓reduceIte,
        inside, and_self]

namespace Decryptor

/-- A decryptor that has processed `position` non-final segments. -/
structure At (platform : Platform) (context : MessageContext)
    (position : Nat) (decryptor : Decryptor) : Prop where
  ready : decryptor.state.Ready platform context
  counter : decryptor.counter = ⟨position, false⟩
  inside : position < aeadMaxSegments

/-- A decryptor once a segment of this kind was processed at `position`. -/
def After (platform : Platform) (context : MessageContext) (position : Nat)
    (kind : SegmentKind) (decryptor : Decryptor) : Prop :=
  match kind with
  | .nonFinal => decryptor.At platform context (position + 1)
  | .final => decryptor.counter.closed = true

section Steps

variable {platform : Platform} {context : MessageContext} {position : Nat}
  {decryptor : Decryptor} {framing : SegmentFraming}
  {segment output : Bytes}

/-- Advancing over a successful operation on the state. -/
theorem At.after
    (here : decryptor.At platform context position)
    {kind : SegmentKind}
    {state : DecryptionState}
    (allowed : PositionAllows position kind)
    (ready : state.Ready platform context) :
    After platform context position kind
      { state, counter := decryptor.counter.complete kind } := by
  cases kind with
  | nonFinal =>
      refine ⟨ready, ?_, allowed⟩
      simp [here.counter, SegmentCounter.complete]
  | final =>
      simp [After, here.counter, SegmentCounter.complete]

/-- `decrypt_segment_into_framed` on a segment of the declared length. -/
theorem At.decryptSegmentIntoFramed_spec
    (here : decryptor.At platform context position)
    (size : segment.length = framing.plaintextLength + 32)
    (declared : segment.length = framing.ciphertextLength)
    (room : framing.plaintextLength ≤ output.length)
    (faithful :
      platform.OpensAgree ∨
        output.take framing.plaintextLength =
          zeros framing.plaintextLength) :
    ∃ next,
      (∃ plaintext,
          PositionAllows position framing.kind ∧
            context.openSegment platform position framing.kind segment =
              some plaintext ∧
            decryptor.decryptSegmentIntoFramed platform segment framing
                output =
              (.ok framing.plaintextLength, next,
                plaintext ++ output.drop framing.plaintextLength) ∧
            next.After platform context position framing.kind) ∨
        ∃ error failed,
          (PositionAllows position framing.kind →
            context.openSegment platform position framing.kind segment =
              none) ∧
            decryptor.decryptSegmentIntoFramed platform segment framing
                output = (.error (.err error), next, failed) ∧
            failed.length = output.length := by
  have validated :
      validateFramedLength segment.length framing =
        .ok framing.plaintextLength := by
    simp [validateFramedLength, declared]
  rcases SegmentCounter.positionFor_spec here.inside framing.kind with
    ⟨allowed, reserved⟩ | ⟨refused, limit⟩
  · obtain ⟨next, nextReady, success | failure⟩ :=
      DecryptionState.openInto_spec position framing.kind
        (Kdf.FaultOf.refl platform.kdfExpand) here.ready size room faithful
    · obtain ⟨plaintext, opened, result⟩ := success
      have result' :
          decryptor.state.openInto platform segment position framing.kind
              framing.plaintextLength output =
            (.ok framing.plaintextLength, next,
              plaintext ++ output.drop framing.plaintextLength) :=
        result
      refine ⟨_, .inl ⟨plaintext, allowed, opened, ?_,
        here.after allowed nextReady⟩⟩
      simp only [decryptSegmentIntoFramed, advance, here.counter, reserved,
        DecryptionState.decryptSegmentIntoAtFramed, validated, result']
    · obtain ⟨error, failed, closed, result, length⟩ := failure
      have result' :
          decryptor.state.openInto platform segment position framing.kind
              framing.plaintextLength output =
            (.error (.err error), next, failed) :=
        result
      refine ⟨{ decryptor with state := next },
        .inr ⟨error, failed, fun _ => closed, ?_, length⟩⟩
      simp only [decryptSegmentIntoFramed, advance, here.counter, reserved,
        DecryptionState.decryptSegmentIntoAtFramed, validated, result']
  · refine ⟨decryptor, .inr ⟨.segmentLimit, output, ?_, ?_, rfl⟩⟩
    · intro allowed
      exact (refused allowed).elim
    · simp only [decryptSegmentIntoFramed, advance, here.counter, limit]

end Steps

end Decryptor

/-! ## The one-shot decryptor -/

/-- `segment_prefix` and `SegmentFraming::decode` read `framingOf`. -/
theorem decodePrefix_spec
    (parameters : Parameters)
    (body : Bytes) :
    (∃ lengthPrefix framing,
        segmentPrefix body parameters = .ok lengthPrefix ∧
          SegmentFraming.decode parameters lengthPrefix = .ok framing ∧
          framingOf parameters body = some framing) ∨
      (framingOf parameters body = none ∧
        ((∃ error, segmentPrefix body parameters = .error (.err error)) ∨
          ∃ lengthPrefix error,
            segmentPrefix body parameters = .ok lengthPrefix ∧
              SegmentFraming.decode parameters lengthPrefix =
                .error (.err error))) := by
  by_cases short : body.length < segmentPrefixLength
  · right
    constructor
    · cases decoded : framingOf parameters body with
      | none => rfl
      | some framing =>
          have enough := length_of_framingOf decoded
          omega
    · left
      simp only [segmentPrefix, short, ↓reduceIte]
      exact ⟨_, rfl⟩
  · have enough : segmentPrefixLength ≤ body.length := by omega
    have width :
        (body.take segmentPrefixLength).length = segmentPrefixLength := by
      rw [List.length_take]
      omega
    have cut : segmentPrefix body parameters =
        .ok ⟨body.take segmentPrefixLength, width⟩ := by
      have sliced :
          (slice body 0 segmentPrefixLength : Result Bytes) =
            .ok (body.take segmentPrefixLength) :=
        slice_zero enough
      simp only [segmentPrefix, short, ↓reduceIte, sliced, Outcome.ok_bind,
        Octets.ofSlice?_of_length width, Outcome.okOr]
    simp only [framingOf, Octets.ofSlice?_of_length width]
    rcases SegmentFraming.decode_spec parameters
        ⟨body.take segmentPrefixLength, width⟩ with
      ⟨framing, decoded, _⟩ | ⟨⟨error, failed⟩, _⟩
    · exact .inl ⟨_, framing, cut, decoded, by rw [decoded]⟩
    · exact .inr ⟨by rw [failed], .inr ⟨_, error, cut, failed⟩⟩

section Body

variable {platform : Platform} {context : MessageContext} {position : Nat}
  {decryptor : Decryptor} {body : Bytes}

/-- The stream has no segment to read at its end. -/
theorem parse_nil
    (platform : Platform)
    (context : MessageContext)
    (position : Nat) :
    (segmentStream platform context).parse position [] = none := by
  cases parsed : (segmentStream platform context).parse position [] with
  | none => rfl
  | some frame =>
      have positive :=
        (segmentStream platform context).length_pos _ _ _ parsed
      have inside := (segmentStream platform context).length_le _ _ _ parsed
      rw [List.length_nil] at inside
      omega

/-- A turn of the loop whose prefix declares no segment of the body. -/
theorem decryptBodyLoop_malformed
    {fuel : Nat}
    (plaintext : Bytes)
    (nonempty : body ≠ [])
    (malformed : ∀ framing,
      framingOf context.parameters body = some framing →
        body.length < framing.ciphertextLength) :
    (segmentStream platform context).parse position body = none ∧
      ∃ error,
        decryptBodyLoop platform context.parameters (fuel + 1) decryptor body
          plaintext = .error (.err error) := by
  constructor
  · change parseSegment platform context position body = none
    unfold parseSegment
    split
    · rfl
    next framing framed =>
      simp only [Nat.not_le.mpr (malformed framing framed), false_and,
        ↓reduceIte]
  · simp only [decryptBodyLoop, nonempty, ↓reduceIte]
    rcases decodePrefix_spec context.parameters body with
      ⟨lengthPrefix, framing, cut, decoded, framed⟩ |
        ⟨_, ⟨error, short⟩ | ⟨lengthPrefix, error, cut, failed⟩⟩
    · simp only [cut, decoded, Outcome.ok_bind, malformed framing framed,
        ↓reduceIte]
      exact ⟨_, rfl⟩
    · simp only [short, Outcome.error_bind]
      exact ⟨error, rfl⟩
    · simp only [cut, failed, Outcome.ok_bind, Outcome.error_bind]
      exact ⟨error, rfl⟩

/-- A prefix that declares a segment is cut off and decoded. -/
theorem segmentPrefix_of_framed
    {framing : SegmentFraming}
    (framed : framingOf context.parameters body = some framing) :
    ∃ lengthPrefix,
      segmentPrefix body context.parameters = .ok lengthPrefix ∧
        SegmentFraming.decode context.parameters lengthPrefix =
          .ok framing := by
  rcases decodePrefix_spec context.parameters body with
    ⟨lengthPrefix, other, cut, decoded, same⟩ | ⟨unframed, _⟩
  · rw [framed] at same
    cases same
    exact ⟨lengthPrefix, cut, decoded⟩
  · rw [framed] at unframed
    cases unframed

/-- The zeros behind a plaintext are the region of the next segment's. -/
theorem slice_zeros
    {plaintext : Bytes}
    {count : Nat} :
    (slice (plaintext ++ zeros count) plaintext.length
        (plaintext ++ zeros count).length : Result Bytes) =
      .ok (zeros count) := by
  rw [slice_eq (by simp) (Nat.le_refl _), List.drop_left,
    List.take_of_length_le (by simp)]

/-- What is opened into the zeros behind a plaintext is appended to it. -/
theorem writeBack_zeros
    {plaintext opened : Bytes}
    {count : Nat}
    (length : opened.length = count) :
    writeBack (plaintext ++ zeros count) plaintext.length opened =
      plaintext ++ opened := by
  rw [writeBack, List.take_left, List.drop_eq_nil_of_le (by
    simp only [List.length_append, length_zeros]
    omega), List.append_nil]

/-- One turn of the loop of `decrypt_body`: it removes the segment at the head
of the body and appends its plaintext, or it fails, and then no message can go
on from here. -/
theorem decryptBodyLoop_step
    {fuel : Nat}
    (plaintext : Bytes)
    (nonempty : body ≠ [])
    (here : decryptor.At platform context position) :
    (∃ opened length kind next,
        (segmentStream platform context).parse position body =
            some ⟨opened, length, kind.isFinal⟩ ∧
          (kind = .final → body.drop length = []) ∧
          decryptBodyLoop platform context.parameters (fuel + 1) decryptor
              body plaintext =
            decryptBodyLoop platform context.parameters fuel next
              (body.drop length) (plaintext ++ opened) ∧
          next.After platform context position kind) ∨
      ((∃ error,
          decryptBodyLoop platform context.parameters (fuel + 1) decryptor
            body plaintext = .error (.err error)) ∧
        ((segmentStream platform context).parse position body = none ∨
          ∃ frame,
            (segmentStream platform context).parse position body =
                some frame ∧
              frame.last = true ∧ body.drop frame.length ≠ [])) := by
  by_cases malformed : ∀ framing,
      framingOf context.parameters body = some framing →
        body.length < framing.ciphertextLength
  · obtain ⟨parsed, failure⟩ :=
      decryptBodyLoop_malformed plaintext nonempty malformed
    exact .inr ⟨failure, .inl parsed⟩
  simp only [Classical.not_forall, Nat.not_lt, exists_prop] at malformed
  obtain ⟨framing, framed, inside⟩ := malformed
  have payload := (framingOf_eq_some framed).1.payload
  obtain ⟨lengthPrefix, cut, decoded⟩ := segmentPrefix_of_framed framed
  have segmentLength :
      (body.take framing.ciphertextLength).length =
        framing.ciphertextLength := by
    rw [List.length_take]
    omega
  have split := @splitAt_eq Error _ body _ inside
  have region := @slice_zeros plaintext framing.plaintextLength
  simp only [decryptBodyLoop, nonempty, cut, decoded, Outcome.ok_bind,
    Nat.not_lt.mpr inside, ↓reduceIte]
  obtain ⟨next, success | failure⟩ :=
    here.decryptSegmentIntoFramed_spec (by rw [segmentLength]; omega)
      segmentLength (Nat.le_of_eq (length_zeros _).symm)
      (.inr (List.take_of_length_le (by simp)))
  · obtain ⟨opened, allowed, opens, result, after⟩ := success
    have parsed :
        (segmentStream platform context).parse position body =
          some ⟨opened, framing.ciphertextLength, framing.kind.isFinal⟩ :=
      parseSegment_eq_some.mpr
        ⟨framing, framed, inside, allowed, opens, rfl, rfl⟩
    by_cases trailing :
        framing.kind = .final ∧ framing.ciphertextLength ≠ body.length
    · right
      refine ⟨?_, .inr ⟨_, parsed, by rw [trailing.1]; rfl, ?_⟩⟩
      · simp only [trailing.1, SegmentKind.isFinal, ne_eq, trailing.2,
          not_false_eq_true, and_self, ↓reduceIte]
        exact ⟨_, rfl⟩
      · intro nothing
        have excess := congrArg List.length nothing
        rw [List.length_drop, List.length_nil] at excess
        simp only at excess
        omega
    · left
      refine ⟨opened, framing.ciphertextLength, framing.kind, next, parsed,
        ?_, ?_, after⟩
      · intro final
        have exact : framing.ciphertextLength = body.length :=
          Decidable.byContradiction fun different =>
            trailing ⟨final, different⟩
        exact List.drop_eq_nil_of_le (by omega)
      · have length := context.length_of_openSegment opens (by omega)
        have exhausted :
            (zeros framing.plaintextLength).drop framing.plaintextLength =
              [] :=
          List.drop_eq_nil_of_le (by simp)
        have written := @writeBack_zeros plaintext opened
          framing.plaintextLength (by omega)
        have notTrailing :
            ¬ (framing.kind.isFinal = true ∧
              framing.ciphertextLength ≠ body.length) := by
          rintro ⟨final, different⟩
          exact trailing ⟨isFinal_injective final, different⟩
        simp only [notTrailing, ↓reduceIte, split, region, Outcome.ok_bind,
          result, exhausted, List.append_nil, written]
  · obtain ⟨error, failed, closed, result, _⟩ := failure
    right
    refine ⟨?_, .inl ?_⟩
    · split
      · exact ⟨_, rfl⟩
      · simp only [split, region, Outcome.ok_bind, result]
        exact ⟨error, rfl⟩
    · change parseSegment platform context position body = none
      simp only [parseSegment, framed]
      split
      next fits =>
        rw [closed fits.2]
        rfl
      · rfl

/-- The loop of `decrypt_body` reads a message and closes the decryptor, or it
fails, or it stops with the message still open. -/
theorem decryptBodyLoop_spec
    {fuel : Nat}
    (plaintext : Bytes)
    (enough : body.length < fuel)
    (here : decryptor.At platform context position) :
    (∃ payloads closed,
        (segmentStream platform context).Message position body payloads ∧
          decryptBodyLoop platform context.parameters fuel decryptor body
              plaintext = .ok (closed, plaintext ++ payloads.flatten) ∧
          closed.counter.closed = true) ∨
      ((∀ payloads,
          ¬ (segmentStream platform context).Message position body
            payloads) ∧
        ((∃ error,
            decryptBodyLoop platform context.parameters fuel decryptor body
              plaintext = .error (.err error)) ∨
          ∃ left other,
            decryptBodyLoop platform context.parameters fuel decryptor body
                plaintext = .ok (left, other) ∧
              left.counter.closed = false)) := by
  induction fuel generalizing position decryptor body plaintext with
  | zero =>
      omega
  | succ fuel inductionHypothesis =>
      by_cases empty : body = []
      · subst empty
        right
        refine ⟨fun payloads =>
          (segmentStream platform context).not_message_of_none
            (parse_nil platform context position),
          .inr ⟨decryptor, plaintext, ?_, ?_⟩⟩
        · simp only [decryptBodyLoop, ↓reduceIte]
        · rw [here.counter]
      rcases decryptBodyLoop_step plaintext empty here with
        ⟨opened, length, kind, next, parsed, ends, turn, after⟩ |
          ⟨failure, stuck⟩
      · rw [turn]
        have positive :=
          (segmentStream platform context).length_pos _ _ _ parsed
        have inside :=
          (segmentStream platform context).length_le _ _ _ parsed
        simp only at positive inside
        cases kind with
        | final =>
            -- Nothing follows the last segment, so the next turn is empty.
            obtain ⟨fuel, rfl⟩ : ∃ more, fuel = more + 1 :=
              ⟨fuel - 1, by omega⟩
            left
            refine ⟨[opened], next,
              ((segmentStream platform context).message_of_last
                parsed rfl).mpr ⟨rfl, ends rfl⟩, ?_, after⟩
            simp only [decryptBodyLoop, ends rfl, ↓reduceIte,
              List.flatten_cons, List.flatten_nil, List.append_nil]
        | nonFinal =>
            have more (payloads : List Bytes) :
                (segmentStream platform context).Message position body
                    payloads ↔
                  ∃ rest,
                    payloads = opened :: rest ∧
                      (segmentStream platform context).Message (position + 1)
                        (body.drop length) rest :=
              (segmentStream platform context).message_of_more parsed rfl
            have shorter : (body.drop length).length < fuel := by
              rw [List.length_drop]
              omega
            rcases inductionHypothesis (plaintext ++ opened) shorter after
              with
              ⟨payloads, closed, message, result, finished⟩ |
                ⟨excluded, result⟩
            · left
              refine ⟨opened :: payloads, closed,
                (more _).mpr ⟨payloads, rfl, message⟩, ?_, finished⟩
              rw [result, List.flatten_cons, List.append_assoc]
            · right
              refine ⟨fun payloads message => ?_, result⟩
              obtain ⟨rest, _, later⟩ := (more payloads).mp message
              exact excluded rest later
      · right
        refine ⟨fun payloads message => ?_, .inl failure⟩
        rcases stuck with parsed | ⟨frame, parsed, last, excess⟩
        · exact (segmentStream platform context).not_message_of_none parsed
            message
        · exact excess
            (((segmentStream platform context).message_of_last parsed
              last).mp message).2

/-- `decrypt_body` on a fresh decryptor reads exactly the messages. -/
theorem decryptBody_spec
    (body : Bytes)
    (here : decryptor.At platform context 0) :
    (decryptBody platform decryptor body).Returns ∧
      ∀ plaintext,
        decryptBody platform decryptor body = .ok plaintext ↔
          ∃ payloads,
            (segmentStream platform context).Message 0 body payloads ∧
              plaintext = payloads.flatten := by
  have parameters : decryptor.parameters = context.parameters :=
    here.ready.parameters_eq
  unfold decryptBody
  rw [parameters]
  rcases decryptBodyLoop_spec [] (Nat.lt_succ_self body.length) here with
    ⟨payloads, closed, message, result, finished⟩ |
      ⟨excluded, ⟨error, result⟩ | ⟨left, other, result, unfinished⟩⟩
  · simp only [Nat.succ_eq_add_one] at result
    simp only [result, Outcome.ok_bind, Decryptor.finish,
      SegmentCounter.finish, finished, ↓reduceIte, List.nil_append]
    refine ⟨Outcome.returns_ok _, fun plaintext => ?_⟩
    constructor
    · rintro ⟨⟩
      exact ⟨payloads, message, rfl⟩
    · rintro ⟨others, message', rfl⟩
      rw [message.unique message']
  · simp only [Nat.succ_eq_add_one] at result
    simp only [result, Outcome.error_bind]
    refine ⟨Outcome.returns_err _, fun plaintext => ?_⟩
    simp only [reduceCtorEq, false_iff]
    rintro ⟨payloads, message, _⟩
    exact excluded payloads message
  · simp only [Nat.succ_eq_add_one] at result
    simp only [result, Outcome.ok_bind, Decryptor.finish,
      SegmentCounter.finish, unfinished, Bool.false_eq_true, ↓reduceIte,
      Outcome.error_bind]
    refine ⟨Outcome.returns_err _, fun plaintext => ?_⟩
    simp only [reduceCtorEq, false_iff]
    rintro ⟨payloads, message, _⟩
    exact excluded payloads message

end Body

/-- `split_header` cuts off the first 74 bytes. -/
theorem splitHeader_spec (ciphertext : Bytes) :
    (∃ header body,
        ciphertext = header.val ++ body ∧
          splitHeader ciphertext = .ok (header, body)) ∨
      (ciphertext.length < headerLength ∧
        ∃ error, splitHeader ciphertext = .error (.err error)) := by
  by_cases enough : headerLength ≤ ciphertext.length
  · left
    have width : (ciphertext.take headerLength).length = headerLength := by
      rw [List.length_take]
      omega
    refine ⟨⟨_, width⟩, ciphertext.drop headerLength,
      (List.take_append_drop headerLength ciphertext).symm, ?_⟩
    simp only [splitHeader, enough, ↓reduceIte, Outcome.okOr,
      Outcome.ok_bind, Octets.ofSlice?_of_length width]
  · right
    refine ⟨by omega, ?_⟩
    simp only [splitHeader, enough, ↓reduceIte, Outcome.okOr,
      Outcome.error_bind]
    exact ⟨_, rfl⟩

/-- `decrypt` always comes back, and accepts exactly a header that
authenticates followed by a message of its segment stream. -/
theorem decrypt_spec
    (platform : Platform)
    (key : Key)
    (aad ciphertext : Bytes) :
    (decrypt platform key aad ciphertext).Returns ∧
      ∀ plaintext,
        decrypt platform key aad ciphertext = .ok plaintext ↔
          ∃ header body context payloads,
            ciphertext = header.val ++ body ∧
              HeaderAuthenticates platform key aad header context ∧
              (segmentStream platform context).Message 0 body payloads ∧
              plaintext = payloads.flatten := by
  unfold decrypt
  rcases splitHeader_spec ciphertext with
    ⟨header, body, rfl, cut⟩ | ⟨short, error, failed⟩
  · simp only [cut, Outcome.ok_bind, Decryptor.new]
    have sameParts (other : Header) (rest : Bytes)
        (same : header.val ++ body = other.val ++ rest) :
        header = other ∧ body = rest := by
      obtain ⟨sameHeader, sameBody⟩ := List.append_inj same
        (header.length_val.trans other.length_val.symm)
      exact ⟨Subtype.ext sameHeader, sameBody⟩
    rcases startDecryptionInferred_spec platform key aad header with
      ⟨context, state, authentic, started, ready, scheduled⟩ |
        ⟨⟨error, failed⟩, unscheduled⟩
    · have here : Decryptor.At platform context 0
          { state, counter := SegmentCounter.new } :=
        ⟨ready, rfl, by decide⟩
      obtain ⟨returns, accepts⟩ := decryptBody_spec body here
      simp only [started, Outcome.ok_bind]
      refine ⟨returns, fun plaintext => ?_⟩
      rw [accepts]
      constructor
      · rintro ⟨payloads, message, rfl⟩
        exact ⟨header, body, context, payloads, rfl, authentic, message, rfl⟩
      · rintro ⟨other, rest, otherContext, payloads, same, otherAuthentic,
          message, rfl⟩
        obtain ⟨rfl, rfl⟩ := sameParts other rest same
        rw [otherAuthentic.unique authentic] at message
        exact ⟨payloads, message, rfl⟩
    · simp only [failed, Outcome.error_bind]
      refine ⟨Outcome.returns_err _, fun plaintext => ?_⟩
      simp only [reduceCtorEq, false_iff]
      rintro ⟨other, rest, context, payloads, same, authentic, message, _⟩
      obtain ⟨rfl, rfl⟩ := sameParts other rest same
      exact (segmentStream platform context).not_message_of_none
        (parseSegment_of_unscheduled (unscheduled context authentic)) message
  · simp only [failed, Outcome.error_bind]
    refine ⟨Outcome.returns_err _, fun plaintext => ?_⟩
    simp only [reduceCtorEq, false_iff]
    rintro ⟨header, body, context, payloads, rfl, _⟩
    rw [List.length_append, header.length_val] at short
    omega

/-- Behind a header that authenticates, `decrypt` accepts exactly the messages
of the segment stream. -/
theorem decrypt_iff_message
    {platform : Platform}
    {key : Key}
    {aad ciphertext body plaintext : Bytes}
    {header : Header}
    {context : MessageContext}
    (authentic : HeaderAuthenticates platform key aad header context)
    (whole : ciphertext = header.val ++ body) :
    decrypt platform key aad ciphertext = .ok plaintext ↔
      ∃ payloads,
        (segmentStream platform context).Message 0 body payloads ∧
          plaintext = payloads.flatten := by
  rw [(decrypt_spec platform key aad ciphertext).2]
  constructor
  · rintro ⟨other, rest, otherContext, payloads, same, otherAuthentic,
      message, rfl⟩
    obtain ⟨sameHeader, rfl⟩ :=
      List.append_inj (whole.symm.trans same)
        (header.length_val.trans other.length_val.symm)
    cases Subtype.ext sameHeader
    rw [otherAuthentic.unique authentic] at message
    exact ⟨payloads, message, rfl⟩
  · rintro ⟨payloads, message, rfl⟩
    exact ⟨header, body, context, payloads, whole, authentic, message, rfl⟩

end FastFloe
