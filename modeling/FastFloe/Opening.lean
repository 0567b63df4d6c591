import FastFloe.Segment
import FastFloe.Library.Framing

namespace FastFloe

open Rust

/-!
# The decryption operations open segments

Each decryption operation of `State` returns what `openSegment` says, whatever
its key cache held, and leaves the cache coherent.  The operations are followed
at a moment when the key derivation may be faulty: a derivation that fails can
make a call fail, but never changes what a successful call returns.
-/

/-- A derivation that succeeds at a faulty moment schedules the same key
always. -/
theorem MessageContext.segmentKey_of_fault
    {platform : Platform}
    {faulty : Kdf}
    {context : MessageContext}
    {position : Nat}
    {key : AeadKey}
    (sound : faulty.FaultOf platform.kdfExpand)
    (scheduled :
      context.segmentKey (platform.withKdf faulty) position = some key) :
    context.segmentKey platform position = some key := by
  unfold MessageContext.segmentKey at scheduled ⊢
  split at scheduled
  next inside =>
    simp only [inside, ↓reduceIte]
    split at scheduled
    next cached derived =>
      rw [CachedKey.derive_of_fault sound derived]
      exact scheduled
    · cases scheduled
  · cases scheduled

/-- A segment that does not open under its scheduled key does not open at a
faulty moment either. -/
theorem MessageContext.openSegment_fault_none
    {platform : Platform}
    {faulty : Kdf}
    {context : MessageContext}
    {position : Nat}
    {kind : SegmentKind}
    {segment : Bytes}
    {key : AeadKey}
    {parts : SegmentParts}
    (sound : faulty.FaultOf platform.kdfExpand)
    (scheduled : context.segmentKey platform position = some key)
    (cut : segmentParts segment = some parts)
    (closed :
      key.opened platform parts.nonce (segmentAad position kind)
        parts.ciphertext parts.tag = none) :
    context.openSegment (platform.withKdf faulty) position kind segment =
      none := by
  unfold MessageContext.openSegment
  cases faultyKey :
      context.segmentKey (platform.withKdf faulty) position with
  | none =>
      rfl
  | some other =>
      have same := segmentKey_of_fault sound faultyKey
      rw [scheduled] at same
      cases same
      simp only [cut, Option.bind_eq_bind, Option.bind_some]
      exact closed

/-! ## Opening with a key -/

/-- A result that computes `opened` is its plaintext, or an error where there is
none. -/
theorem opened_cases
    {result : Result Unit × Bytes}
    {opened : Option Bytes}
    {length : Nat}
    (computes :
      ∀ plaintext, result = (.ok (), plaintext) ↔ opened = some plaintext)
    (returns : result.1.Returns)
    (kept : result.2.length = length) :
    (∃ plaintext, opened = some plaintext ∧ result = (.ok (), plaintext)) ∨
      ∃ error failed,
        opened = none ∧ result = (.error (.err error), failed) ∧
          failed.length = length := by
  obtain ⟨stop | ⟨⟩, bytes⟩ := result
  · obtain ⟨error, rfl⟩ := returns.stop_eq_err
    refine .inr ⟨error, bytes, ?_, rfl, kept⟩
    cases plain : opened with
    | none => rfl
    | some plaintext => cases (computes plaintext).mpr plain
  · exact .inl ⟨bytes, (computes bytes).mp rfl, rfl⟩

/-- Opening into an output of the ciphertext's length computes `opened`. -/
theorem AeadKey.openInto_spec
    {platform : Platform}
    {ciphertext output : Bytes}
    (key : AeadKey)
    (nonce : Octets aeadIvLength)
    (aad : Bytes)
    (tag : Octets aeadTagLength)
    (exact : output.length = ciphertext.length)
    (faithful : platform.OpensAgree ∨ output = zeros ciphertext.length) :
    (∃ plaintext,
        key.opened platform nonce aad ciphertext tag = some plaintext ∧
          key.openInto platform nonce aad ciphertext tag output =
            (.ok (), plaintext)) ∨
      ∃ error failed,
        key.opened platform nonce aad ciphertext tag = none ∧
          key.openInto platform nonce aad ciphertext tag output =
            (.error (.err error), failed) ∧
          failed.length = output.length := by
  have computes (plaintext : Bytes) :
      key.openInto platform nonce aad ciphertext tag output =
          (.ok (), plaintext) ↔
        key.opened platform nonce aad ciphertext tag = some plaintext := by
    rcases faithful with agree | rfl
    · exact agree.into key nonce aad ciphertext tag output plaintext exact
    · exact AeadKey.opened_eq_some.symm
  exact opened_cases computes
    (key.returns_openInto platform nonce aad ciphertext output tag)
    (key.length_openInto platform nonce aad ciphertext output tag)

/-- Opening in place computes `opened`. -/
theorem AeadKey.openInPlace_spec
    {platform : Platform}
    (key : AeadKey)
    (nonce : Octets aeadIvLength)
    (aad ciphertext : Bytes)
    (tag : Octets aeadTagLength)
    (agree : platform.OpensAgree) :
    (∃ plaintext,
        key.opened platform nonce aad ciphertext tag = some plaintext ∧
          key.openInPlace platform nonce aad tag ciphertext =
            (.ok (), plaintext)) ∨
      ∃ error failed,
        key.opened platform nonce aad ciphertext tag = none ∧
          key.openInPlace platform nonce aad tag ciphertext =
            (.error (.err error), failed) ∧
          failed.length = ciphertext.length := by
  exact opened_cases (agree.inPlace key nonce aad ciphertext tag)
    (key.returns_openInPlace platform nonce aad ciphertext tag)
    (key.length_openInPlace platform nonce aad ciphertext tag)

/-! ## Opening a segment -/

/-- `decrypt_segment_into_inner` slices a segment at its parts. -/
theorem splitForOpen_eq
    {segment : Bytes}
    {parts : SegmentParts}
    (enough : 32 ≤ segment.length)
    (cut : segmentParts segment = some parts) :
    splitForOpen segment =
      .ok (parts.nonce, parts.ciphertext, parts.tag) := by
  obtain ⟨other, cut', _, nonce, ciphertext, tag⟩ :=
    segmentParts_of_length enough
  rw [cut] at cut'
  cases cut'
  have nonceSlice :
      (slice segment segmentPrefixLength segmentPayloadOffset :
          Result Bytes) = .ok parts.nonce.val := by
    rw [segmentPrefixLength_eq, segmentPayloadOffset_eq,
      slice_eq (by omega) (by omega), nonce]
  have tagSlice :
      (slice segment (segment.length - aeadTagLength) segment.length :
          Result Bytes) = .ok parts.tag.val := by
    rw [tag, aeadTagLength_eq, slice_eq (by omega) (by omega),
      List.take_of_length_le (Nat.le_of_eq List.length_drop)]
  have ciphertextSlice :
      (slice segment segmentPayloadOffset (segment.length - aeadTagLength) :
          Result Bytes) = .ok parts.ciphertext := by
    rw [ciphertext, segmentPayloadOffset_eq, aeadTagLength_eq,
      slice_eq (by omega) (by omega), Nat.sub_sub]
  have tagStart :
      (sub segment.length aeadTagLength : Result Nat) =
        .ok (segment.length - aeadTagLength) :=
    sub_eq (by rw [aeadTagLength_eq]; omega)
  simp only [splitForOpen, tagStart, nonceSlice, tagSlice, ciphertextSlice,
    Outcome.ok_bind, Octets.ofSlice?_eq_some.mpr rfl, Outcome.okOr]

/-- `open_segment_in_place` splits a segment at its parts. -/
theorem splitForOpenInPlace_eq
    {segment : Bytes}
    {parts : SegmentParts}
    {plaintextLength : Nat}
    (size : segment.length = plaintextLength + 32)
    (cut : segmentParts segment = some parts) :
    splitForOpenInPlace segment plaintextLength =
      .ok (parts.nonce, parts.ciphertext, parts.tag) := by
  have enough : 32 ≤ segment.length := by omega
  obtain ⟨other, cut', _, nonce, ciphertext, tag⟩ :=
    segmentParts_of_length enough
  rw [cut] at cut'
  cases cut'
  have first :
      (splitAt segment segmentPayloadOffset : Result (Bytes × Bytes)) =
        .ok (segment.take 16, segment.drop 16) :=
    splitAt_eq (by rw [segmentPayloadOffset_eq]; omega)
  have framingLength : (segment.take 16).length = 16 := by
    rw [List.length_take]
    omega
  have nonceSlice :
      (slice (segment.take 16) segmentPrefixLength
          (segment.take 16).length : Result Bytes) =
        .ok parts.nonce.val := by
    rw [nonce, framingLength, segmentPrefixLength_eq,
      slice_eq (by omega) (by omega), List.drop_take, List.take_take,
      Nat.min_self]
  have second :
      (splitAt (segment.drop 16) plaintextLength :
          Result (Bytes × Bytes)) =
        .ok (parts.ciphertext, parts.tag.val) := by
    rw [splitAt_eq (by rw [List.length_drop]; omega), ciphertext, tag,
      List.drop_drop]
    congr 3 <;> omega
  simp only [splitForOpenInPlace, first, nonceSlice, second, Outcome.ok_bind,
    Octets.ofSlice?_eq_some.mpr rfl, Outcome.okOr]

section Inner

variable {platform : Platform} {faulty : Kdf} {context : MessageContext}
  {keys : KeyCache} {segment output : Bytes} {plaintextLength : Nat}
  (position : Nat) (kind : SegmentKind)

/-- `decrypt_segment_into_inner` opens the segment into the start of its
output and leaves the rest of the output alone. -/
theorem decryptSegmentIntoInner_spec
    (sound : faulty.FaultOf platform.kdfExpand)
    (coherent : keys.Coherent platform context)
    (size : segment.length = plaintextLength + 32)
    (room : plaintextLength ≤ output.length)
    (faithful :
      platform.OpensAgree ∨
        output.take plaintextLength = zeros plaintextLength) :
    ∃ next, next.Coherent platform context ∧
      ((∃ plaintext,
          context.openSegment platform position kind segment =
              some plaintext ∧
            decryptSegmentIntoInner (platform.withKdf faulty) context keys
                segment position kind plaintextLength output =
              (.ok plaintextLength, next,
                plaintext ++ output.drop plaintextLength)) ∨
        ∃ error failed,
          context.openSegment (platform.withKdf faulty) position kind
              segment = none ∧
            decryptSegmentIntoInner (platform.withKdf faulty) context keys
                segment position kind plaintextLength output =
              (.error (.err error), next, failed) ∧
            failed.length = output.length) := by
  obtain ⟨next, nextCoherent, found | failure⟩ :=
    KeyCache.keyForPosition_spec sound coherent position
  · obtain ⟨key, scheduled, found⟩ := found
    have enough : 32 ≤ segment.length := by omega
    obtain ⟨parts, cut, length, _⟩ := segmentParts_of_length enough
    have pieces := splitForOpen_eq (by omega) cut
    have region :
        (slice output 0 plaintextLength : Result Bytes) =
          .ok (output.take plaintextLength) :=
      slice_zero room
    have regionLength :
        (output.take plaintextLength).length = parts.ciphertext.length := by
      rw [List.length_take, length]
      omega
    have exact : parts.ciphertext.length = plaintextLength := by omega
    refine ⟨next, nextCoherent, ?_⟩
    rcases AeadKey.openInto_spec key parts.nonce (segmentAad position kind)
        parts.tag regionLength (by rwa [exact]) with
      ⟨plaintext, opened, written⟩ |
        ⟨error, failed, closed, written, failedLength⟩
    · refine .inl ⟨plaintext, ?_, ?_⟩
      · exact (MessageContext.openSegment_eq_some cut).mpr
          ⟨key, scheduled, opened⟩
      · have kept := AeadKey.length_of_opened opened
        have written' :
            key.openInto (platform.withKdf faulty) parts.nonce
                (segmentAad position kind) parts.ciphertext parts.tag
                (output.take plaintextLength) = (.ok (), plaintext) :=
          written
        simp only [decryptSegmentIntoInner, Nat.not_lt.mpr room, ↓reduceIte,
          found, pieces, region, written', writeBack_zero, kept, exact]
    · refine .inr ⟨error, failed ++ output.drop plaintextLength,
        MessageContext.openSegment_fault_none sound scheduled cut closed,
        ?_, ?_⟩
      · have written' :
            key.openInto (platform.withKdf faulty) parts.nonce
                (segmentAad position kind) parts.ciphertext parts.tag
                (output.take plaintextLength) =
              (.error (.err error), failed) :=
          written
        have size : failed.length = plaintextLength := by omega
        simp only [decryptSegmentIntoInner, Nat.not_lt.mpr room, ↓reduceIte,
          found, pieces, region, written', writeBack_zero, size]
      · rw [List.length_append, List.length_drop]
        omega
  · obtain ⟨error, unscheduled, failure⟩ := failure
    refine ⟨next, nextCoherent, .inr ⟨error, output, ?_, ?_, rfl⟩⟩
    · exact MessageContext.openSegment_of_unscheduled unscheduled
    · simp only [decryptSegmentIntoInner, Nat.not_lt.mpr room, ↓reduceIte,
        failure]

/-- `open_segment_in_place` opens the segment's payload where it stands. -/
theorem openSegmentInPlace_spec
    (sound : faulty.FaultOf platform.kdfExpand)
    (agree : platform.OpensAgree)
    (coherent : keys.Coherent platform context)
    (size : segment.length = plaintextLength + 32) :
    ∃ next, next.Coherent platform context ∧
      ((∃ plaintext,
          context.openSegment platform position kind segment =
              some plaintext ∧
            openSegmentInPlace (platform.withKdf faulty) context keys segment
                position kind plaintextLength =
              (.ok plaintext, next,
                writeBack segment segmentPayloadOffset plaintext)) ∨
        ∃ error failed,
          context.openSegment (platform.withKdf faulty) position kind
              segment = none ∧
            openSegmentInPlace (platform.withKdf faulty) context keys segment
                position kind plaintextLength =
              (.error (.err error), next, failed) ∧
            failed.length = segment.length) := by
  obtain ⟨next, nextCoherent, found | failure⟩ :=
    KeyCache.keyForPosition_spec sound coherent position
  · obtain ⟨key, scheduled, found⟩ := found
    have enough : 32 ≤ segment.length := by omega
    obtain ⟨parts, cut, length, _⟩ := segmentParts_of_length enough
    have pieces := splitForOpenInPlace_eq size cut
    refine ⟨next, nextCoherent, ?_⟩
    rcases AeadKey.openInPlace_spec key parts.nonce
        (segmentAad position kind) parts.ciphertext parts.tag agree with
      ⟨plaintext, opened, written⟩ |
        ⟨error, failed, closed, written, failedLength⟩
    · refine .inl ⟨plaintext, ?_, ?_⟩
      · exact (MessageContext.openSegment_eq_some cut).mpr
          ⟨key, scheduled, opened⟩
      · have written' :
            key.openInPlace (platform.withKdf faulty) parts.nonce
                (segmentAad position kind) parts.tag parts.ciphertext =
              (.ok (), plaintext) :=
          written
        simp only [openSegmentInPlace, found, pieces, written']
    · refine .inr ⟨error,
        writeBack segment segmentPayloadOffset failed,
        MessageContext.openSegment_fault_none sound scheduled cut closed,
        ?_, ?_⟩
      · have written' :
            key.openInPlace (platform.withKdf faulty) parts.nonce
                (segmentAad position kind) parts.tag parts.ciphertext =
              (.error (.err error), failed) :=
          written
        simp only [openSegmentInPlace, found, pieces, written']
      · refine length_writeBack ?_
        rw [segmentPayloadOffset_eq]
        omega
  · obtain ⟨error, unscheduled, failure⟩ := failure
    refine ⟨next, nextCoherent, .inr ⟨error, segment, ?_, ?_, rfl⟩⟩
    · exact MessageContext.openSegment_of_unscheduled unscheduled
    · simp only [openSegmentInPlace, failure]

end Inner

/-! ## Framing -/

/-- A prefix declares a length exactly when it is that length's encoding. -/
theorem prefix_eq_iff
    {bytes : Bytes}
    {value : Nat}
    (exact : bytes.length = 4)
    (fits : value ≤ u32Max) :
    beValue bytes = value ↔ bytes = beBytes 4 value :=
  beValue_eq_iff exact (Nat.lt_of_le_of_lt fits (by decide))

/-- `validate_segment` accepts exactly the well-framed segments. -/
theorem validateSegment_spec
    (context : MessageContext)
    (segment : Bytes)
    (kind : SegmentKind) :
    (WellFramed context.parameters kind segment ∧
        validateSegment context segment kind = .ok (segment.length - 32)) ∨
      (¬ WellFramed context.parameters kind segment ∧
        ∃ error, validateSegment context segment kind =
          .error (.err error)) := by
  have minimum := context.parameters.minimum_le
  have maximum := context.parameters.lt_maximum
  have sized (enough : 32 ≤ segment.length) :
      (segment.take segmentPrefixLength).length = segmentPrefixLength := by
    rw [segmentPrefixLength_eq, List.length_take]
    omega
  have sliced (enough : 32 ≤ segment.length) :
      (slice segment 0 segmentPrefixLength : Result Bytes) =
        .ok (segment.take segmentPrefixLength) :=
    slice_zero (by rw [segmentPrefixLength_eq]; omega)
  have payload (enough : 32 ≤ segment.length) :
      (sub segment.length segmentOverhead : Result Nat) =
        .ok (segment.length - 32) :=
    sub_eq enough
  unfold validateSegment WellFramed
  cases kind with
  | nonFinal =>
      by_cases exact :
          segment.length = context.parameters.ciphertextSegmentLength
      · have enough : 32 ≤ segment.length := by omega
        simp only [exact, ne_eq, not_true_eq_false, ↓reduceIte,
          Outcome.ok_bind, true_and]
        simp only [sliced enough, Outcome.ok_bind,
          Octets.ofSlice?_of_length (sized enough), Outcome.okOr]
        rw [← exact]
        simp only [prefix_eq_iff (sized enough) (Nat.le_refl _)]
        by_cases marked :
            segment.take segmentPrefixLength = beBytes 4 u32Max
        · simp only [marked, not_true_eq_false, ↓reduceIte, payload enough,
            true_and, false_and, or_false]
        · simp only [marked, not_false_eq_true, ↓reduceIte,
            Outcome.error_bind, false_and, true_and, false_or]
          exact ⟨_, rfl⟩
      · simp only [exact, ne_eq, not_false_eq_true, ↓reduceIte,
          Outcome.error_bind, false_and, true_and, false_or]
        exact ⟨_, rfl⟩
  | final =>
      simp only [Parameters.validateCiphertextSegmentLength,
        segmentOverhead_eq]
      by_cases bounded :
          32 ≤ segment.length ∧
            segment.length ≤ context.parameters.ciphertextSegmentLength
      · have enough := bounded.1
        have small : segment.length ≤ u32Max := by omega
        simp only [bounded, and_self, ↓reduceIte, Outcome.ok_bind,
          true_and, sliced enough,
          Octets.ofSlice?_of_length (sized enough), Outcome.okOr,
          prefix_eq_iff (sized enough) small, ne_eq]
        by_cases declared :
            segment.take segmentPrefixLength = beBytes 4 segment.length
        · simp only [declared, not_true_eq_false, ↓reduceIte, true_and,
            false_and, or_false]
          exact payload enough
        · simp only [declared, not_false_eq_true, ↓reduceIte,
            Outcome.error_bind, false_and, true_and, false_or]
          exact ⟨_, rfl⟩
      · simp only [bounded, ↓reduceIte, Outcome.error_bind]
        refine .inr ⟨?_, _, rfl⟩
        rintro ⟨enough, small, _⟩
        exact bounded ⟨enough, small⟩

/-- The lengths a decoded framing declares. -/
structure SegmentFraming.Valid (parameters : Parameters)
    (framing : SegmentFraming) : Prop where
  payload : framing.plaintextLength + 32 = framing.ciphertextLength
  bounded : framing.ciphertextLength ≤ parameters.ciphertextSegmentLength
  full :
    framing.kind = .nonFinal →
      framing.ciphertextLength = parameters.ciphertextSegmentLength

/-- Decoding a prefix always comes back, with the framing it declares. -/
theorem SegmentFraming.decode_spec
    (parameters : Parameters)
    (bytes : Octets segmentPrefixLength) :
    (∃ framing,
        SegmentFraming.decode parameters bytes = .ok framing ∧
          framing.Valid parameters ∧
          bytes.val =
            lengthPrefixOf framing.kind framing.ciphertextLength) ∨
      ((∃ error,
          SegmentFraming.decode parameters bytes = .error (.err error)) ∧
        ∀ kind segment,
          WellFramed parameters kind segment →
            segment.take segmentPrefixLength ≠ bytes.val) := by
  have minimum := parameters.minimum_le
  have maximum := parameters.lt_maximum
  have total := parameters.plaintextSegmentLength_add
  have width : bytes.val.length = 4 := bytes.property
  unfold SegmentFraming.decode
  by_cases marked : beValue bytes.val = u32Max
  · have payload :
        (sub parameters.ciphertextSegmentLength segmentOverhead :
            Result Nat) = .ok parameters.plaintextSegmentLength :=
      sub_eq (by rw [segmentOverhead_eq]; omega)
    refine .inl
      ⟨⟨parameters.ciphertextSegmentLength,
          parameters.plaintextSegmentLength, .nonFinal⟩, ?_, ?_, ?_⟩
    · simp only [marked, ↓reduceIte, Outcome.ok_bind, payload]
    · exact ⟨total, Nat.le_refl _, fun _ => rfl⟩
    · exact (prefix_eq_iff width (Nat.le_refl _)).mp marked
  · simp only [marked, ↓reduceIte]
    by_cases bounded :
        segmentOverhead ≤ beValue bytes.val ∧
          beValue bytes.val ≤ parameters.ciphertextSegmentLength
    · have payload :
          (sub (beValue bytes.val) segmentOverhead : Result Nat) =
            .ok (beValue bytes.val - 32) :=
        sub_eq bounded.1
      have enough : 32 ≤ beValue bytes.val := bounded.1
      refine .inl ⟨⟨beValue bytes.val, beValue bytes.val - 32, .final⟩,
        ?_, ?_, ?_⟩
      · simp only [bounded, and_self, ↓reduceIte, Outcome.ok_bind, payload]
      · refine ⟨?_, bounded.2, ?_⟩
        · exact Nat.sub_add_cancel enough
        · intro impossible
          cases impossible
      · have small : beValue bytes.val ≤ u32Max :=
          Nat.le_of_lt (Nat.lt_of_le_of_lt bounded.2 maximum)
        exact (prefix_eq_iff width small).mp rfl
    · simp only [bounded, ↓reduceIte, Outcome.error_bind]
      refine .inr ⟨⟨_, rfl⟩, ?_⟩
      intro kind segment framed same
      have declared := framed.take_lead
      rw [same] at declared
      have size := framed.length_bounds
      cases kind with
      | nonFinal =>
          exact marked
            ((prefix_eq_iff width (Nat.le_refl _)).mpr declared)
      | final =>
          have value := (prefix_eq_iff width (by omega)).mpr declared
          refine bounded ⟨?_, ?_⟩
          · rw [value, segmentOverhead_eq]
            exact size.1
          · rw [value]
            exact size.2

/-- A prefix tells the two kinds of segment apart, and declares the length of a
final one. -/
theorem lengthPrefixOf_injective
    {firstKind secondKind : SegmentKind}
    {first second : Nat}
    (firstFits : first < u32Max)
    (secondFits : second < u32Max)
    (same :
      lengthPrefixOf firstKind first = lengthPrefixOf secondKind second) :
    firstKind = secondKind ∧ (firstKind = .final → first = second) := by
  have room : u32Max < 256 ^ 4 := by decide
  have value := congrArg beValue same
  cases firstKind with
  | nonFinal =>
      cases secondKind with
      | nonFinal =>
          exact ⟨rfl, fun impossible => by cases impossible⟩
      | final =>
          simp only [lengthPrefixOf] at value
          rw [beValue_beBytes_of_lt room,
            beValue_beBytes_of_lt (Nat.lt_trans secondFits room)] at value
          omega
  | final =>
      cases secondKind with
      | nonFinal =>
          simp only [lengthPrefixOf] at value
          rw [beValue_beBytes_of_lt (Nat.lt_trans firstFits room),
            beValue_beBytes_of_lt room] at value
          omega
      | final =>
          simp only [lengthPrefixOf] at value
          rw [beValue_beBytes_of_lt (Nat.lt_trans firstFits room),
            beValue_beBytes_of_lt (Nat.lt_trans secondFits room)] at value
          exact ⟨rfl, fun _ => value⟩

/-- A segment with the declared length and prefix is well framed. -/
theorem SegmentFraming.Valid.wellFramed
    {parameters : Parameters}
    {framing : SegmentFraming}
    {segment : Bytes}
    (valid : framing.Valid parameters)
    (length : segment.length = framing.ciphertextLength)
    (lead :
      segment.take segmentPrefixLength =
        lengthPrefixOf framing.kind framing.ciphertextLength) :
    WellFramed parameters framing.kind segment := by
  have payload := valid.payload
  have bounded := valid.bounded
  have full := valid.full
  unfold WellFramed
  cases kind : framing.kind with
  | nonFinal =>
      rw [kind] at lead full
      exact ⟨length.trans (full rfl), lead⟩
  | final =>
      rw [kind] at lead
      refine ⟨?_, by omega, ?_⟩
      · rw [segmentOverhead_eq]
        omega
      · rw [length]
        exact lead

/-- The framing that the prefix at the head of a stream declares. -/
def framingOf (parameters : Parameters) (stream : Bytes) :
    Option SegmentFraming :=
  match Octets.ofSlice? segmentPrefixLength
      (stream.take segmentPrefixLength) with
  | none => none
  | some lengthPrefix =>
      match SegmentFraming.decode parameters lengthPrefix with
      | .ok framing => some framing
      | .error _ => none

theorem framingOf_eq_some
    {parameters : Parameters}
    {stream : Bytes}
    {framing : SegmentFraming}
    (decoded : framingOf parameters stream = some framing) :
    framing.Valid parameters ∧
      stream.take segmentPrefixLength =
        lengthPrefixOf framing.kind framing.ciphertextLength := by
  unfold framingOf at decoded
  cases cut : Octets.ofSlice? segmentPrefixLength
      (stream.take segmentPrefixLength) with
  | none =>
      rw [cut] at decoded
      cases decoded
  | some lengthPrefix =>
      have shape := Octets.ofSlice?_eq_some.mp cut
      simp only [cut] at decoded
      rcases SegmentFraming.decode_spec parameters lengthPrefix with
        ⟨other, success, valid, declared⟩ | ⟨⟨error, failure⟩, _⟩
      · simp only [success, Option.some.injEq] at decoded
        subst decoded
        exact ⟨valid, shape.trans declared⟩
      · simp only [failure, reduceCtorEq] at decoded

/-- The framing at the head of a well-framed segment declares it. -/
theorem WellFramed.framingOf_append
    {parameters : Parameters}
    {kind : SegmentKind}
    {segment : Bytes}
    (framed : WellFramed parameters kind segment)
    (tail : Bytes) :
    ∃ framing,
      framingOf parameters (segment ++ tail) = some framing ∧
        framing.kind = kind ∧
          framing.ciphertextLength = segment.length := by
  have size := framed.length_bounds
  have maximum := parameters.lt_maximum
  have declared := framed.take_lead
  have lead :
      (segment ++ tail).take segmentPrefixLength =
        segment.take segmentPrefixLength :=
    List.take_append_of_le_length (by rw [segmentPrefixLength_eq]; omega)
  have width :
      (segment.take segmentPrefixLength).length = segmentPrefixLength := by
    rw [segmentPrefixLength_eq, List.length_take]
    omega
  simp only [framingOf, lead, Octets.ofSlice?_of_length width]
  rcases SegmentFraming.decode_spec parameters ⟨_, width⟩ with
    ⟨framing, success, valid, shape⟩ | ⟨_, excluded⟩
  · have payload := valid.payload
    have bounded := valid.bounded
    have full := valid.full
    have same :
        lengthPrefixOf framing.kind framing.ciphertextLength =
          lengthPrefixOf kind segment.length :=
      shape.symm.trans declared
    obtain ⟨sameKind, sameLength⟩ :=
      lengthPrefixOf_injective (by omega) (by omega) same
    refine ⟨framing, by rw [success], sameKind, ?_⟩
    cases kind with
    | nonFinal =>
        have whole := full sameKind
        have exact := framed.1
        omega
    | final =>
        exact sameLength sameKind
  · exact (excluded kind segment framed rfl).elim

end FastFloe
