import FastFloe.Opening

namespace FastFloe

open Rust

/-!
# The body of a message as a stream of segments

`segmentStream` is the frame parser of FLOE bodies: it reads a segment off the
head of a byte string when the prefix declares one, the position may carry its
kind, and it authenticates there.  What the decryptors accept is stated with the
`Message` and `scan` of this parser.
-/

/-- A position a segment of this kind can have: the last position is kept for a
final segment. -/
def PositionAllows (position : Nat) (kind : SegmentKind) : Prop :=
  match kind with
  | .nonFinal => position + 1 < aeadMaxSegments
  | .final => position < aeadMaxSegments

instance (position : Nat) (kind : SegmentKind) :
    Decidable (PositionAllows position kind) := by
  cases kind <;> exact inferInstanceAs (Decidable (_ < _))

theorem isFinal_injective
    {first second : SegmentKind}
    (same : first.isFinal = second.isFinal) :
    first = second := by
  cases first <;> cases second <;> simp_all [SegmentKind.isFinal]

/-- The decoded framing only looks at the prefix. -/
theorem framingOf_congr
    {parameters : Parameters}
    {first second : Bytes}
    (same :
      first.take segmentPrefixLength = second.take segmentPrefixLength) :
    framingOf parameters first = framingOf parameters second := by
  simp only [framingOf, same]

theorem length_of_framingOf
    {parameters : Parameters}
    {stream : Bytes}
    {framing : SegmentFraming}
    (decoded : framingOf parameters stream = some framing) :
    segmentPrefixLength ≤ stream.length := by
  have lead := congrArg List.length (framingOf_eq_some decoded).2
  rw [List.length_take, length_lengthPrefixOf, segmentPrefixLength_eq] at lead
  rw [segmentPrefixLength_eq]
  omega

/-- What follows a prefix does not change what it declares. -/
theorem framingOf_stream
    {parameters : Parameters}
    {stream : Bytes}
    {framing : SegmentFraming}
    (tail : Bytes)
    (decoded : framingOf parameters stream = some framing) :
    framingOf parameters (stream ++ tail) = some framing :=
  (framingOf_congr
    (List.take_append_of_le_length (length_of_framingOf decoded))).trans
    decoded

/-- A segment declares itself what the stream behind it declares. -/
theorem framingOf_segment
    {parameters : Parameters}
    {stream : Bytes}
    {framing : SegmentFraming}
    (decoded : framingOf parameters stream = some framing) :
    framingOf parameters (stream.take framing.ciphertextLength) =
      some framing := by
  have payload := (framingOf_eq_some decoded).1.payload
  refine (framingOf_congr ?_).trans decoded
  rw [List.take_take, Nat.min_eq_left (by
    rw [segmentPrefixLength_eq]
    omega)]

/-- The frame at the head of a stream. -/
def parseSegment (platform : Platform) (context : MessageContext)
    (position : Nat) (stream : Bytes) : Option (Framing.Frame Bytes) :=
  match framingOf context.parameters stream with
  | none => none
  | some framing =>
      if framing.ciphertextLength ≤ stream.length ∧
          PositionAllows position framing.kind then
        (context.openSegment platform position framing.kind
          (stream.take framing.ciphertextLength)).map fun plaintext =>
            ⟨plaintext, framing.ciphertextLength, framing.kind.isFinal⟩
      else
        none

section Parser

variable {platform : Platform} {context : MessageContext} {position : Nat}
  {stream : Bytes} {frame : Framing.Frame Bytes}

theorem parseSegment_eq_some :
    parseSegment platform context position stream = some frame ↔
      ∃ framing,
        framingOf context.parameters stream = some framing ∧
          framing.ciphertextLength ≤ stream.length ∧
          PositionAllows position framing.kind ∧
          context.openSegment platform position framing.kind
              (stream.take framing.ciphertextLength) = some frame.payload ∧
          frame.length = framing.ciphertextLength ∧
          frame.last = framing.kind.isFinal := by
  unfold parseSegment
  cases decoded : framingOf context.parameters stream with
  | none =>
      simp
  | some framing =>
      simp only [Option.some.injEq, exists_eq_left']
      by_cases fits :
          framing.ciphertextLength ≤ stream.length ∧
            PositionAllows position framing.kind
      · simp only [fits, and_self, ↓reduceIte, Option.map_eq_some_iff,
          true_and]
        constructor
        · rintro ⟨plaintext, opened, rfl⟩
          exact ⟨opened, rfl, rfl⟩
        · rintro ⟨opened, length, last⟩
          exact ⟨frame.payload, opened, by rw [← length, ← last]⟩
      · simp only [fits, ↓reduceIte, reduceCtorEq, false_iff]
        rintro ⟨inside, allowed, _⟩
        exact fits ⟨inside, allowed⟩

theorem parseSegment_length
    (parsed : parseSegment platform context position stream = some frame) :
    32 ≤ frame.length ∧ frame.length ≤ stream.length := by
  obtain ⟨framing, decoded, inside, _, _, length, _⟩ :=
    parseSegment_eq_some.mp parsed
  have payload := (framingOf_eq_some decoded).1.payload
  omega

/-- Without a key for its position no stream starts with a frame. -/
theorem parseSegment_of_unscheduled
    (unscheduled : context.segmentKey platform position = none) :
    parseSegment platform context position stream = none := by
  cases parsed : parseSegment platform context position stream with
  | none => rfl
  | some frame =>
      obtain ⟨framing, _, _, _, opened, _⟩ := parseSegment_eq_some.mp parsed
      rw [MessageContext.openSegment_of_unscheduled unscheduled] at opened
      cases opened

theorem parseSegment_append
    (tail : Bytes)
    (parsed : parseSegment platform context position stream = some frame) :
    parseSegment platform context position (stream ++ tail) = some frame := by
  obtain ⟨framing, decoded, inside, allowed, opened, length, last⟩ :=
    parseSegment_eq_some.mp parsed
  refine parseSegment_eq_some.mpr
    ⟨framing, framingOf_stream tail decoded, ?_, allowed, ?_, length, last⟩
  · rw [List.length_append]
    omega
  · rw [List.take_append_of_le_length inside]
    exact opened

theorem parseSegment_take
    (parsed : parseSegment platform context position stream = some frame) :
    parseSegment platform context position (stream.take frame.length) =
      some frame := by
  obtain ⟨framing, decoded, inside, allowed, opened, length, last⟩ :=
    parseSegment_eq_some.mp parsed
  rw [length]
  refine parseSegment_eq_some.mpr
    ⟨framing, framingOf_segment decoded, ?_, allowed, ?_, length, last⟩
  · exact Nat.le_of_eq (List.length_take_of_le inside).symm
  · rw [List.take_take, Nat.min_self]
    exact opened

end Parser

/-- The frame parser of the bodies encrypted under one message context. -/
def segmentStream (platform : Platform) (context : MessageContext) :
    Framing.Parser UInt8 Bytes where
  parse := parseSegment platform context
  length_pos := fun _ _ _ parsed => by
    have size := parseSegment_length parsed
    omega
  length_le := fun _ _ _ parsed => (parseSegment_length parsed).2
  parse_append := fun _ _ _ tail parsed => parseSegment_append tail parsed
  parse_take := fun _ _ _ parsed => parseSegment_take parsed

/-- The frames of the stream are the segments that authenticate at their
position. -/
theorem isFrame_iff
    {platform : Platform}
    {context : MessageContext}
    {position : Nat}
    {kind : SegmentKind}
    {segment plaintext : Bytes} :
    (segmentStream platform context).IsFrame position kind.isFinal segment
        plaintext ↔
      PositionAllows position kind ∧
        context.Opens platform position kind segment plaintext := by
  constructor
  · intro parsed
    obtain ⟨framing, decoded, inside, allowed, opened, length, last⟩ :=
      parseSegment_eq_some.mp parsed
    simp only at opened length last
    obtain ⟨valid, lead⟩ := framingOf_eq_some decoded
    have same := isFinal_injective last
    rw [← length, List.take_length] at opened
    rw [same]
    exact ⟨allowed, valid.wellFramed length lead, opened⟩
  · rintro ⟨allowed, framed, opened⟩
    obtain ⟨framing, decoded, rfl, length⟩ := framed.framingOf_append []
    rw [List.append_nil] at decoded
    refine parseSegment_eq_some.mpr
      ⟨framing, decoded, Nat.le_of_eq length, allowed, ?_, length.symm, rfl⟩
    rw [length, List.take_length]
    exact opened

/-! ## Framing without authentication -/

/-- The lengths that the segment at the head of a stream declares, at any
position. -/
def parseFraming (parameters : Parameters) (stream : Bytes) :
    Option (Framing.Frame Nat) :=
  match framingOf parameters stream with
  | none => none
  | some framing =>
      if framing.ciphertextLength ≤ stream.length then
        some ⟨framing.plaintextLength, framing.ciphertextLength,
          framing.kind.isFinal⟩
      else
        none

section Framing

variable {parameters : Parameters} {stream : Bytes}
  {frame : Framing.Frame Nat}

theorem parseFraming_eq_some :
    parseFraming parameters stream = some frame ↔
      ∃ framing,
        framingOf parameters stream = some framing ∧
          framing.ciphertextLength ≤ stream.length ∧
          frame = ⟨framing.plaintextLength, framing.ciphertextLength,
            framing.kind.isFinal⟩ := by
  unfold parseFraming
  cases decoded : framingOf parameters stream with
  | none =>
      simp
  | some framing =>
      by_cases inside : framing.ciphertextLength ≤ stream.length
      · simp [inside, eq_comm]
      · simp [inside]

theorem parseFraming_length
    (parsed : parseFraming parameters stream = some frame) :
    32 ≤ frame.length ∧ frame.length ≤ stream.length := by
  obtain ⟨framing, decoded, inside, rfl⟩ := parseFraming_eq_some.mp parsed
  have payload := (framingOf_eq_some decoded).1.payload
  simp only
  omega

theorem parseFraming_append
    (tail : Bytes)
    (parsed : parseFraming parameters stream = some frame) :
    parseFraming parameters (stream ++ tail) = some frame := by
  obtain ⟨framing, decoded, inside, rfl⟩ := parseFraming_eq_some.mp parsed
  refine parseFraming_eq_some.mpr
    ⟨framing, framingOf_stream tail decoded, ?_, rfl⟩
  rw [List.length_append]
  omega

theorem parseFraming_take
    (parsed : parseFraming parameters stream = some frame) :
    parseFraming parameters (stream.take frame.length) = some frame := by
  obtain ⟨framing, decoded, inside, rfl⟩ := parseFraming_eq_some.mp parsed
  refine parseFraming_eq_some.mpr
    ⟨framing, framingOf_segment decoded, ?_, rfl⟩
  exact Nat.le_of_eq (List.length_take_of_le inside).symm

end Framing

/-- The frame parser that looks at the prefixes of segments only; a frame
carries the length of its plaintext. -/
def framingStream (parameters : Parameters) :
    Framing.Parser UInt8 Nat where
  parse := fun _ => parseFraming parameters
  length_pos := fun _ _ _ parsed => by
    have size := parseFraming_length parsed
    omega
  length_le := fun _ _ _ parsed => (parseFraming_length parsed).2
  parse_append := fun _ _ _ tail parsed => parseFraming_append tail parsed
  parse_take := fun _ _ _ parsed => parseFraming_take parsed

/-- A segment of the declared length is a frame. -/
theorem framingStream_isFrame
    {parameters : Parameters}
    {segment : Bytes}
    {framing : SegmentFraming}
    (position : Nat)
    (decoded : framingOf parameters segment = some framing)
    (declared : framing.ciphertextLength = segment.length) :
    (framingStream parameters).IsFrame position framing.kind.isFinal segment
      framing.plaintextLength :=
  parseFraming_eq_some.mpr
    ⟨framing, decoded, Nat.le_of_eq declared, by rw [declared]⟩

end FastFloe
