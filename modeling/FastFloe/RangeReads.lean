import FastFloe.SegmentAccess

namespace FastFloe

open Rust

/-!
# Reads of segments and ranges

A range read fills its output segment by segment: segments that the range covers
are opened straight into the output, the others are cached and copied from.
Each turn of the loop extends the part of the output that already holds the
range's bytes.
-/

namespace Reader

/-- The output holds the first `written` bytes of the range from `start` and
still its original bytes behind them. -/
def Filled (plaintext original : Bytes) (start written : Nat)
    (output : Bytes) : Prop :=
  output = (plaintext.drop start).take written ++ original.drop written

theorem filled_zero
    (plaintext original : Bytes)
    (start : Nat) :
    Filled plaintext original start 0 original := by
  simp [Filled]

/-- Writing the next bytes of the range extends what is filled. -/
theorem Filled.writeBack
    {plaintext original output chunk : Bytes}
    {start written : Nat}
    (filled : Filled plaintext original start written output)
    (reached : start + written ≤ plaintext.length)
    (next :
      chunk = (plaintext.drop (start + written)).take chunk.length) :
    Filled plaintext original start (written + chunk.length)
      (Rust.writeBack output written chunk) := by
  have length :
      ((plaintext.drop start).take written).length = written := by
    rw [List.length_take, List.length_drop]
    omega
  have joined :
      (plaintext.drop start).take (written + chunk.length) =
        (plaintext.drop start).take written ++ chunk := by
    rw [List.take_add, List.drop_drop, ← next]
  rw [Filled] at filled ⊢
  subst filled
  rw [writeBack_append length.symm, joined, List.drop_drop,
    List.append_assoc]

/-- A filled output is as long as the original. -/
theorem Filled.length_eq
    {plaintext original output : Bytes}
    {start written : Nat}
    (filled : Filled plaintext original start written output)
    (reached : start + written ≤ plaintext.length)
    (room : written ≤ original.length) :
    output.length = original.length := by
  rw [Filled] at filled
  rw [filled, List.length_append, List.length_take, List.length_drop,
    List.length_drop]
  omega

section Segments

variable {platform : Platform} {message : StoredMessage} {reader : Reader}
  {plaintext output : Bytes} {position : Nat}

/-- `read_segment_into` returns the segment's block of the plaintext. -/
theorem Coherent.readSegmentInto_spec
    (coherent : reader.Coherent platform message)
    (agree : platform.OpensAgree)
    (describes : message.Describes platform plaintext) :
    ∃ result after written,
      reader.readSegmentInto platform position output =
          (result, after, written) ∧
        reader.Keeps platform message after ∧ result.Returns ∧
        (∀ count, result = .ok count →
          (∃ opened, message.OpensAt platform position opened) ∧
            count = (message.layout.entry position).plaintextLength ∧
            written =
              Blocks.block message.layout.parameters.plaintextSegmentLength
                position plaintext ++ output.drop count) ∧
        (reader.inner.Honest →
          (message.layout.entry position).plaintextLength ≤ output.length →
            (∃ opened, message.OpensAt platform position opened) →
              ∃ count, result = .ok count) := by
  unfold readSegmentInto
  rcases coherent.segment_spec position with
    ⟨inside, found⟩ | ⟨outside, error, refused⟩
  · simp only [found]
    by_cases room :
        (message.layout.entry position).plaintextLength ≤ output.length
    · have region :
          (slice output 0 (message.layout.entry position).plaintextLength :
              IoResult Bytes) =
            .ok (output.take
              (message.layout.entry position).plaintextLength) :=
        slice_zero room
      simp only [Nat.not_lt.mpr room, ↓reduceIte, region]
      have exact :
          (output.take
              (message.layout.entry position).plaintextLength).length =
            (message.layout.entry position).plaintextLength := by
        rw [List.length_take, Nat.min_eq_left room]
      obtain ⟨result, after, written, opened, keeps, returns, length, opens,
          honest⟩ :=
        coherent.decryptSegmentDirect_spec agree inside exact
      simp only [opened]
      cases result with
      | error stop =>
          refine ⟨.error stop, after, _, rfl, keeps, ?_, by simp, ?_⟩
          · exact returns.of_error
          · intro isHonest _ known
            cases honest isHonest known
      | ok _ =>
          refine ⟨_, after, _, rfl, keeps, Outcome.returns_ok _, ?_,
            fun _ _ _ => ⟨_, rfl⟩⟩
          intro count same
          cases same
          have opensAt := opens rfl
          refine ⟨⟨written, opensAt⟩, rfl, ?_⟩
          rw [describes.content position written opensAt, writeBack_zero,
            opensAt.length_eq]
    · simp only [Nat.lt_of_not_le room, ↓reduceIte]
      exact ⟨_, reader, output, rfl, .refl coherent, Outcome.returns_err _,
        by simp, fun _ impossible => (room impossible).elim⟩
  · simp only [refused]
    refine ⟨_, reader, output, rfl, .refl coherent, Outcome.returns_err _,
      by simp, ?_⟩
    rintro _ _ ⟨opened, opens⟩
    exact (Nat.not_le.mpr opens.inside outside).elim

/-- `read_segment` returns the segment's block of the plaintext. -/
theorem Coherent.readSegment_spec
    (coherent : reader.Coherent platform message)
    (agree : platform.OpensAgree)
    (describes : message.Describes platform plaintext) :
    ∃ result after,
      reader.readSegment platform position = (result, after) ∧
        reader.Keeps platform message after ∧ result.Returns ∧
        (∀ bytes, result = .ok bytes →
          (∃ opened, message.OpensAt platform position opened) ∧
            bytes =
              Blocks.block message.layout.parameters.plaintextSegmentLength
                position plaintext) ∧
        (reader.inner.Honest →
          (∃ opened, message.OpensAt platform position opened) →
            ∃ bytes, result = .ok bytes) := by
  unfold readSegment
  rcases coherent.segment_spec position with
    ⟨inside, found⟩ | ⟨outside, error, refused⟩
  · simp only [found]
    obtain ⟨result, after, written, read, keeps, returns, content, honest⟩ :=
      @Coherent.readSegmentInto_spec platform message reader plaintext
        (zeros (message.layout.entry position).plaintextLength) position
        coherent agree describes
    simp only [read]
    cases result with
    | error stop =>
        refine ⟨.error stop, after, rfl, keeps, ?_, by simp, ?_⟩
        · exact returns.of_error
        · intro isHonest known
          obtain ⟨_, impossible⟩ :=
            honest isHonest (Nat.le_of_eq (length_zeros _).symm) known
          cases impossible
    | ok count =>
        refine ⟨.ok written, after, rfl, keeps, Outcome.returns_ok _, ?_,
          fun _ _ => ⟨_, rfl⟩⟩
        intro bytes same
        cases same
        obtain ⟨known, rfl, shape⟩ := content count rfl
        refine ⟨known, ?_⟩
        rw [shape, List.drop_eq_nil_of_le (Nat.le_of_eq (length_zeros _)),
          List.append_nil]
  · simp only [refused]
    refine ⟨_, reader, rfl, .refl coherent, Outcome.returns_err _, by simp, ?_⟩
    rintro _ ⟨opened, opens⟩
    exact (Nat.not_le.mpr opens.inside outside).elim

end Segments

/-! ## Ranges -/

/-- Where a turn of the range loop stands: the next byte it needs lies in the
segment at `position`, at the segment's start unless it is the range's first
byte. -/
structure TurnAt (message : StoredMessage) (start stop position written : Nat) :
    Prop where
  inside : position < message.layout.segmentCount
  below :
    position * message.layout.parameters.plaintextSegmentLength ≤
      start + written
  above :
    start + written <
      position * message.layout.parameters.plaintextSegmentLength +
        (message.layout.entry position).plaintextLength
  unfinished : start + written < stop
  aligned :
    written = 0 ∨
      start + written =
        position * message.layout.parameters.plaintextSegmentLength

section Ranges

variable {platform : Platform} {message : StoredMessage} {reader : Reader}
  {plaintext original output : Bytes} {start stop position written : Nat}

/-- `coversFully` decides whether the whole segment lies in the range. -/
theorem coversFully_eq
    {segmentStart segmentLength : Nat}
    (fits : segmentStart + segmentLength ≤ u64Max) :
    coversFully start stop segmentStart segmentLength =
      .ok (decide (start ≤ segmentStart ∧
        segmentStart + segmentLength ≤ stop)) := by
  unfold coversFully
  by_cases before : start ≤ segmentStart
  · simp only [before, ↓reduceIte, add_eq fits, Outcome.ok_bind, true_and]
  · simp [before]

/-- An opened segment is a stretch of the plaintext. -/
theorem opened_eq_stretch
    {opened : Bytes}
    (describes : message.Describes platform plaintext)
    (opens : message.OpensAt platform position opened) :
    opened =
      (plaintext.drop
        (position * message.layout.parameters.plaintextSegmentLength)).take
        opened.length := by
  have content := describes.content position opened opens
  rw [Blocks.block] at content
  conv_lhs => rw [← content]
  rw [← content, List.length_take, List.length_drop]
  rcases Nat.le_total message.layout.parameters.plaintextSegmentLength
      (plaintext.length -
        position * message.layout.parameters.plaintextSegmentLength) with
    short | long
  · rw [Nat.min_eq_left short]
  · rw [Nat.min_eq_right long, List.take_of_length_le (by
      rw [List.length_drop]
      exact long), List.take_of_length_le (by
      rw [List.length_drop])]

/-- The chunk that is copied from a cached segment is the range's next stretch,
up to the end of the range or of the segment. -/
theorem rangeChunk_eq
    {opened : Bytes}
    (describes : message.Describes platform plaintext)
    (turn : TurnAt message start stop position written)
    (opens : message.OpensAt platform position opened) :
    ∃ chunk,
      rangeChunk platform.target start stop
          (position * message.layout.parameters.plaintextSegmentLength)
          opened = .ok chunk ∧
        chunk = (plaintext.drop (start + written)).take chunk.length ∧
        start + written + chunk.length =
          min stop
            (position * message.layout.parameters.plaintextSegmentLength +
              opened.length) := by
  have length := opens.length_eq
  have bounds := (message.valid.entry_bounds turn.inside).1
  have whole := message.valid.ciphertext_eq
  have representable := message.valid.representable
  have size := message.layout.parameters.plaintextSegmentLength_add
  have maximum := message.layout.parameters.lt_maximum
  have wide := platform.target.u32Max_le_usizeMax
  have below := turn.below
  have above := turn.above
  have unfinished := turn.unfinished
  rw [← length] at above bounds
  have small :
      opened.length ≤ message.layout.parameters.plaintextSegmentLength := by
    rw [length]
    exact Nat.min_le_left _ _
  generalize segmentStart :
    position * message.layout.parameters.plaintextSegmentLength = offset
    at below above bounds
  have localStart : start - offset = start + written - offset := by
    rcases turn.aligned with zero | aligned
    · rw [zero, Nat.add_zero]
    · rw [segmentStart] at aligned
      omega
  have startFits : start - offset ≤ platform.target.usizeMax := by omega
  have endFits :
      min stop (offset + opened.length) - offset ≤
        platform.target.usizeMax := by
    omega
  have addFits : offset + opened.length ≤ u64Max := by omega
  have subFits : offset ≤ min stop (offset + opened.length) := by omega
  have capped :
      min (start - offset) opened.length = start + written - offset := by
    omega
  have ordered :
      start + written - offset ≤
        min stop (offset + opened.length) - offset := by
    omega
  refine ⟨(opened.drop (start + written - offset)).take
    (min stop (offset + opened.length) - offset -
      (start + written - offset)), ?_, ?_, ?_⟩
  · simp only [rangeChunk, Target.tryFromU64, startFits, ↓reduceIte,
      Outcome.okOr, Outcome.ok_bind, capped, add_eq addFits, sub_eq subFits,
      endFits]
    exact slice_eq ordered (by omega)
  · have stretch := opened_eq_stretch describes opens
    rw [segmentStart] at stretch
    have joined :
        offset + (start + written - offset) = start + written := by
      omega
    generalize counted :
      min stop (offset + opened.length) - offset -
        (start + written - offset) = count
    have within : count ≤ opened.length - (start + written - offset) := by
      omega
    have exact :
        ((opened.drop (start + written - offset)).take count).length =
          count := by
      rw [List.length_take, List.length_drop, Nat.min_eq_left within]
    calc (opened.drop (start + written - offset)).take count
        = (((plaintext.drop offset).take opened.length).drop
            (start + written - offset)).take count :=
          congrArg (fun bytes : Bytes =>
            (bytes.drop (start + written - offset)).take count) stretch
      _ = (plaintext.drop (start + written)).take count := by
          rw [List.drop_take, List.drop_drop, joined, List.take_take,
            Nat.min_eq_left within]
      _ = _ := by rw [exact]
  · rw [List.length_take, List.length_drop]
    omega

/-- A turn of the range loop whose success has filled the output up to the end
of its segment or of the range. -/
structure Extends (platform : Platform) (message : StoredMessage)
    (plaintext original : Bytes) (reader : Reader)
    (start stop position : Nat)
    (turned : IoResult Nat × Reader × Bytes) : Prop where
  keeps : reader.Keeps platform message turned.2.1
  returns : turned.1.Returns
  fills :
    ∀ reached, turned.1 = .ok reached →
      (∃ opened, message.OpensAt platform position opened) ∧
        start + reached =
          min stop
            (position * message.layout.parameters.plaintextSegmentLength +
              (message.layout.entry position).plaintextLength) ∧
        Filled plaintext original start reached turned.2.2
  honest :
    reader.inner.Honest →
      (∃ opened, message.OpensAt platform position opened) →
        ∃ reached, turned.1 = .ok reached

/-- Whether the range covers a segment that the layout has. -/
theorem Coherent.covers_eq
    (coherent : reader.Coherent platform message)
    (start stop : Nat)
    (inside : position < message.layout.segmentCount) :
    reader.segment platform position = .ok (message.layout.entry position) ∧
      coversFully start stop (message.layout.entry position).plaintextOffset
          (message.layout.entry position).plaintextLength =
        .ok (decide
          (start ≤ position *
              message.layout.parameters.plaintextSegmentLength ∧
            position * message.layout.parameters.plaintextSegmentLength +
                (message.layout.entry position).plaintextLength ≤ stop)) := by
  have bounds := (message.valid.entry_bounds inside).1
  have whole := message.valid.ciphertext_eq
  have representable := message.valid.representable
  constructor
  · rcases coherent.segment_spec position with ⟨_, found⟩ | ⟨outside, _⟩
    · exact found
    · exact (Nat.not_le.mpr inside outside).elim
  · exact coversFully_eq (by simp only [MessageLayout.entry] at bounds ⊢; omega)

/-- A segment that the range covers is decrypted into the output, where the
next byte that the range needs goes. -/
theorem Coherent.readRangeSegment_covered
    (coherent : reader.Coherent platform message)
    (agree : platform.OpensAgree)
    (describes : message.Describes platform plaintext)
    (turn : TurnAt message start stop position written)
    (filled : Filled plaintext original start written output)
    (stopInside : stop ≤ message.layout.plaintextLength)
    (room : stop - start ≤ original.length)
    (fits : stop - start ≤ platform.target.usizeMax)
    (covers :
      start ≤ position *
          message.layout.parameters.plaintextSegmentLength ∧
        position * message.layout.parameters.plaintextSegmentLength +
            (message.layout.entry position).plaintextLength ≤ stop) :
    Extends platform message plaintext original reader start stop position
      (reader.readRangeSegment platform start stop position output
        written) := by
  obtain ⟨found, covered⟩ := coherent.covers_eq start stop turn.inside
  have unfinished := turn.unfinished
  have length := describes.length
  have outputLength := filled.length_eq (by omega) (by omega)
  have aligned :
      start + written =
        position * message.layout.parameters.plaintextSegmentLength := by
    rcases turn.aligned with zero | aligned
    · have below := turn.below
      omega
    · exact aligned
  have writtenFits :
      written + (message.layout.entry position).plaintextLength ≤
        platform.target.usizeMax := by
    omega
  have region :
      (slice output written
          (written + (message.layout.entry position).plaintextLength) :
          IoResult Bytes) =
        .ok ((output.drop written).take
          (message.layout.entry position).plaintextLength) := by
    rw [slice_eq (Nat.le_add_right _ _) (by omega), Nat.add_sub_cancel_left]
  have regionLength :
      ((output.drop written).take
          (message.layout.entry position).plaintextLength).length =
        (message.layout.entry position).plaintextLength := by
    rw [List.length_take, List.length_drop]
    omega
  unfold readRangeSegment
  simp only [found, Outcome.ok_bind, covered, covers, and_self, decide_true,
    add_eq writtenFits, region]
  obtain ⟨result, after, chunk, opened, keeps, returns, kept, opens,
      honest⟩ :=
    coherent.decryptSegmentDirect_spec agree turn.inside regionLength
  simp only [opened]
  cases result with
  | error stop =>
      refine ⟨keeps, returns.of_error, by simp, fun isHonest known => ?_⟩
      cases honest isHonest known
  | ok _ =>
      refine ⟨keeps, Outcome.returns_ok _, ?_, fun _ _ => ⟨_, rfl⟩⟩
      intro reached same
      cases same
      have opensAt := opens rfl
      have chunkLength := opensAt.length_eq
      refine ⟨⟨chunk, opensAt⟩, by omega, ?_⟩
      rw [← chunkLength]
      refine filled.writeBack (by omega) ?_
      rw [aligned]
      exact opened_eq_stretch describes opensAt

/-- Of a segment that the range does not cover, the part inside the range is
copied out of the cached plaintext. -/
theorem Coherent.readRangeSegment_partial
    (coherent : reader.Coherent platform message)
    (agree : platform.OpensAgree)
    (describes : message.Describes platform plaintext)
    (turn : TurnAt message start stop position written)
    (filled : Filled plaintext original start written output)
    (stopInside : stop ≤ message.layout.plaintextLength)
    (room : stop - start ≤ original.length)
    (fits : stop - start ≤ platform.target.usizeMax)
    (covers :
      ¬ (start ≤ position *
          message.layout.parameters.plaintextSegmentLength ∧
        position * message.layout.parameters.plaintextSegmentLength +
            (message.layout.entry position).plaintextLength ≤ stop)) :
    Extends platform message plaintext original reader start stop position
      (reader.readRangeSegment platform start stop position output
        written) := by
  obtain ⟨found, covered⟩ := coherent.covers_eq start stop turn.inside
  have unfinished := turn.unfinished
  have length := describes.length
  have outputLength := filled.length_eq (by omega) (by omega)
  unfold readRangeSegment
  simp only [found, Outcome.ok_bind, covered, covers, decide_false]
  obtain ⟨result, after, loaded, keeps, returns, cached, honest⟩ :=
    coherent.loadCachedSegment_spec agree turn.inside
  simp only [loaded]
  cases result with
  | error stop =>
      refine ⟨keeps, returns.of_error, by simp, fun isHonest known => ?_⟩
      cases honest isHonest known
  | ok _ =>
      obtain ⟨opened, opensAt, holds⟩ := cached rfl
      obtain ⟨chunk, cut, stretch, reaches⟩ :=
        @rangeChunk_eq platform message plaintext start stop position
          written opened describes turn opensAt
      rw [opensAt.length_eq] at reaches
      have chunkFits :
          written + chunk.length ≤ platform.target.usizeMax := by
        omega
      have copied :
          (copyRange output written (written + chunk.length) chunk :
              IoResult Bytes) = .ok (Rust.writeBack output written chunk) :=
        copyRange_eq (Nat.le_add_right _ _) (by omega) (by omega)
      have cut' :
          rangeChunk platform.target start stop
              (message.layout.entry position).plaintextOffset opened =
            .ok chunk :=
        cut
      simp only [holds.plaintext_eq, Outcome.mapErr, Outcome.ok_bind, cut',
        add_eq chunkFits, copied]
      refine ⟨keeps, Outcome.returns_ok _, ?_, fun _ _ => ⟨_, rfl⟩⟩
      intro reached same
      cases same
      exact ⟨⟨opened, opensAt⟩, by omega, filled.writeBack (by omega) stretch⟩

/-- One turn of the range loop extends the filled part of the output to the
end of its segment or of the range. -/
theorem Coherent.readRangeSegment_spec
    (coherent : reader.Coherent platform message)
    (agree : platform.OpensAgree)
    (describes : message.Describes platform plaintext)
    (turn : TurnAt message start stop position written)
    (filled : Filled plaintext original start written output)
    (stopInside : stop ≤ message.layout.plaintextLength)
    (room : stop - start ≤ original.length)
    (fits : stop - start ≤ platform.target.usizeMax) :
    ∃ result after output',
      reader.readRangeSegment platform start stop position output written =
          (result, after, output') ∧
        reader.Keeps platform message after ∧ result.Returns ∧
        (∀ reached, result = .ok reached →
          (∃ opened, message.OpensAt platform position opened) ∧
            start + reached =
              min stop
                (position *
                    message.layout.parameters.plaintextSegmentLength +
                  (message.layout.entry position).plaintextLength) ∧
            Filled plaintext original start reached output') ∧
        (reader.inner.Honest →
          (∃ opened, message.OpensAt platform position opened) →
            ∃ reached, result = .ok reached) := by
  have extended :
      Extends platform message plaintext original reader start stop position
        (reader.readRangeSegment platform start stop position output
          written) := by
    by_cases covers :
        start ≤ position *
            message.layout.parameters.plaintextSegmentLength ∧
          position * message.layout.parameters.plaintextSegmentLength +
              (message.layout.entry position).plaintextLength ≤ stop
    · exact coherent.readRangeSegment_covered agree describes turn filled
        stopInside room fits covers
    · exact coherent.readRangeSegment_partial agree describes turn filled
        stopInside room fits covers
  exact ⟨_, _, _, rfl, extended.keeps, extended.returns, extended.fills,
    extended.honest⟩

/-- Where the range loop stands before its remaining turns. -/
def LoopAt (message : StoredMessage) (start stop remaining position
    written : Nat) : Prop :=
  match remaining with
  | 0 => start + written = stop
  | remaining + 1 =>
      TurnAt message start stop position written ∧
        (stop - 1) / message.layout.parameters.plaintextSegmentLength =
          position + remaining

/-- A turn leads to the next one, or to the end of the range. -/
theorem TurnAt.next
    {remaining reached : Nat}
    (turn : TurnAt message start stop position written)
    (stopInside : stop ≤ message.layout.plaintextLength)
    (last :
      (stop - 1) / message.layout.parameters.plaintextSegmentLength =
        position + remaining)
    (reaches :
      start + reached =
        min stop
          (position * message.layout.parameters.plaintextSegmentLength +
            (message.layout.entry position).plaintextLength)) :
    LoopAt message start stop remaining (position + 1) reached := by
  have positive := message.layout.parameters.segmentLength_bounds.1
  have below :=
    Nat.div_mul_le_self (stop - 1)
      message.layout.parameters.plaintextSegmentLength
  have above :=
    @Nat.lt_div_mul_add (stop - 1)
      message.layout.parameters.plaintextSegmentLength (by omega)
  rw [last] at below above
  have unfinished := turn.unfinished
  have within := message.valid.within
  have counted :
      (position + remaining) *
          message.layout.parameters.plaintextSegmentLength <
        message.layout.segmentCount *
          message.layout.parameters.plaintextSegmentLength := by
    omega
  have inside := Nat.lt_of_mul_lt_mul_right counted
  cases remaining with
  | zero =>
      change start + reached = stop
      rw [Nat.add_zero] at below above
      have entryEnd :
          stop ≤
            position * message.layout.parameters.plaintextSegmentLength +
              (message.layout.entry position).plaintextLength := by
        simp only [MessageLayout.entry]
        omega
      omega
  | succ remaining =>
      have full := @MessageLayout.Valid.full message.layout position
        message.valid (by omega)
      have monotone :=
        Nat.mul_le_mul_right message.layout.parameters.plaintextSegmentLength
          (show position + 1 ≤ position + (remaining + 1) by omega)
      have next :
          (position + 1) * message.layout.parameters.plaintextSegmentLength =
            position * message.layout.parameters.plaintextSegmentLength +
              message.layout.parameters.plaintextSegmentLength :=
        Nat.succ_mul _ _
      have aligned :
          start + reached =
            (position + 1) *
              message.layout.parameters.plaintextSegmentLength := by
        rw [full.1] at reaches
        omega
      refine ⟨⟨by omega, by omega, ?_, by omega, .inr aligned⟩, by omega⟩
      simp only [MessageLayout.entry]
      omega

/-- The range loop fills the output with the range, and opens every segment it
passes. -/
theorem Coherent.readRangeLoop_spec
    {remaining : Nat}
    (coherent : reader.Coherent platform message)
    (agree : platform.OpensAgree)
    (describes : message.Describes platform plaintext)
    (here : LoopAt message start stop remaining position written)
    (filled : Filled plaintext original start written output)
    (stopInside : stop ≤ message.layout.plaintextLength)
    (room : stop - start ≤ original.length)
    (fits : stop - start ≤ platform.target.usizeMax) :
    ∃ result after output',
      readRangeLoop platform start stop remaining reader position output
          written = (result, after, output') ∧
        reader.Keeps platform message after ∧ result.Returns ∧
        (∀ reached, result = .ok reached →
          (∀ turn, position ≤ turn → turn < position + remaining →
            ∃ opened, message.OpensAt platform turn opened) ∧
            start + reached = stop ∧
            Filled plaintext original start reached output') ∧
        (reader.inner.Honest →
          (∀ turn, position ≤ turn → turn < position + remaining →
            ∃ opened, message.OpensAt platform turn opened) →
            ∃ reached, result = .ok reached) := by
  induction remaining generalizing reader position output written with
  | zero =>
      refine ⟨.ok written, reader, output, rfl, .refl coherent,
        Outcome.returns_ok _, ?_, fun _ _ => ⟨_, rfl⟩⟩
      intro reached same
      cases same
      exact ⟨fun turn after before => by omega, here, filled⟩
  | succ remaining inductionHypothesis =>
      obtain ⟨turn, last⟩ := here
      obtain ⟨result, middle, output', step, keeps, returns, success,
          honest⟩ :=
        coherent.readRangeSegment_spec agree describes turn filled stopInside
          room fits
      simp only [readRangeLoop, step]
      cases result with
      | error stop =>
          refine ⟨.error stop, middle, output', rfl, keeps, returns, by simp,
            ?_⟩
          intro isHonest known
          obtain ⟨_, impossible⟩ :=
            honest isHonest (known position (Nat.le_refl _) (by omega))
          cases impossible
      | ok reached =>
          obtain ⟨opened, reaches, filled'⟩ := success reached rfl
          obtain ⟨result, after, output'', later, keeps', returns, success',
              honest'⟩ :=
            inductionHypothesis keeps.coherent
              (turn.next stopInside last reaches) filled'
          refine ⟨result, after, output'', later, keeps.trans keeps',
            returns, ?_, ?_⟩
          · intro reached same
            obtain ⟨openedLater, complete, filled''⟩ := success' reached same
            refine ⟨?_, complete, filled''⟩
            intro place after before
            rcases Nat.eq_or_lt_of_le after with rfl | beyond
            · exact opened
            · exact openedLater place (by omega) (by omega)
          · intro isHonest known
            exact honest' (keeps.honest isHonest) fun place after before =>
              known place (by omega) (by omega)

/-- A non-empty range starts in the segment of its first byte. -/
theorem loopAt_first
    (ordered : start < stop)
    (stopInside : stop ≤ message.layout.plaintextLength) :
    LoopAt message start stop
      ((stop - 1) / message.layout.parameters.plaintextSegmentLength + 1 -
        start / message.layout.parameters.plaintextSegmentLength)
      (start / message.layout.parameters.plaintextSegmentLength) 0 := by
  have positive := message.layout.parameters.segmentLength_bounds.1
  have below :=
    Nat.div_mul_le_self start message.layout.parameters.plaintextSegmentLength
  have above :=
    @Nat.lt_div_mul_add start
      message.layout.parameters.plaintextSegmentLength (by omega)
  have monotone :
      start / message.layout.parameters.plaintextSegmentLength ≤
        (stop - 1) / message.layout.parameters.plaintextSegmentLength :=
    Nat.div_le_div_right (by omega)
  have within := message.valid.within
  have counted :
      start / message.layout.parameters.plaintextSegmentLength *
          message.layout.parameters.plaintextSegmentLength <
        message.layout.segmentCount *
          message.layout.parameters.plaintextSegmentLength := by
    omega
  have inside := Nat.lt_of_mul_lt_mul_right counted
  obtain ⟨remaining, shape⟩ :
      ∃ remaining,
        (stop - 1) / message.layout.parameters.plaintextSegmentLength + 1 -
            start / message.layout.parameters.plaintextSegmentLength =
          remaining + 1 :=
    ⟨(stop - 1) / message.layout.parameters.plaintextSegmentLength -
      start / message.layout.parameters.plaintextSegmentLength, by omega⟩
  rw [shape]
  refine ⟨⟨inside, by omega, ?_, by omega, .inl rfl⟩, by omega⟩
  simp only [MessageLayout.entry]
  omega

/-- `read_resolved_range_into` fills its output with the range, and opens
every segment that the range touches. -/
theorem Coherent.readResolvedRangeInto_spec
    (coherent : reader.Coherent platform message)
    (agree : platform.OpensAgree)
    (describes : message.Describes platform plaintext)
    (stopInside : stop ≤ message.layout.plaintextLength)
    (room : stop - start ≤ output.length)
    (fits : stop - start ≤ platform.target.usizeMax) :
    ∃ result after output',
      reader.readResolvedRangeInto platform start stop output =
          (result, after, output') ∧
        reader.Keeps platform message after ∧ result.Returns ∧
        (∀ reached, result = .ok reached →
          (start < stop → ∀ turn,
            start / message.layout.parameters.plaintextSegmentLength ≤ turn →
              turn ≤ (stop - 1) /
                  message.layout.parameters.plaintextSegmentLength →
                ∃ opened, message.OpensAt platform turn opened) ∧
            reached = stop - start ∧
            Filled plaintext output start reached output') ∧
        (reader.inner.Honest →
          (∀ turn, turn < message.layout.segmentCount →
            ∃ opened, message.OpensAt platform turn opened) →
            ∃ reached, result = .ok reached) := by
  unfold readResolvedRangeInto
  by_cases empty : stop ≤ start
  · rw [if_pos empty]
    refine ⟨.ok 0, reader, output, rfl, .refl coherent, Outcome.returns_ok _,
      ?_, fun _ _ => ⟨_, rfl⟩⟩
    intro reached same
    cases same
    exact ⟨fun ordered => (Nat.not_le.mpr ordered empty).elim, by omega,
      filled_zero plaintext output start⟩
  · have ordered : start < stop := Nat.lt_of_not_le empty
    have positive := message.layout.parameters.segmentLength_bounds.1
    have monotone :
        start / message.layout.parameters.plaintextSegmentLength ≤
          (stop - 1) / message.layout.parameters.plaintextSegmentLength :=
      Nat.div_le_div_right (by omega)
    have lastInside :
        (stop - 1) / message.layout.parameters.plaintextSegmentLength <
          message.layout.segmentCount := by
      refine Nat.div_lt_of_lt_mul ?_
      have within := message.valid.within
      rw [Nat.mul_comm]
      omega
    obtain ⟨result, after, output', looped, keeps, returns, success,
        honest⟩ :=
      coherent.readRangeLoop_spec agree describes
        (loopAt_first ordered stopInside)
        (filled_zero plaintext output start) stopInside room fits
    simp only [empty, ↓reduceIte, sub_eq (show 1 ≤ stop by omega),
      MessageLayout.positionForPlaintextOffset, coherent.layout, looped]
    cases result with
    | error stop =>
        refine ⟨.error stop, after, output', rfl, keeps, returns, by simp, ?_⟩
        intro isHonest known
        obtain ⟨_, impossible⟩ :=
          honest isHonest fun turn _ before => known turn (by omega)
        cases impossible
    | ok reached =>
        obtain ⟨opened, complete, filled⟩ := success reached rfl
        have exact : reached = stop - start := by omega
        refine ⟨.ok reached, after, output', ?_, keeps,
          Outcome.returns_ok _, ?_, fun _ _ => ⟨_, rfl⟩⟩
        · simp [exact, Outcome.debugAssert]
        · intro other same
          cases same
          exact ⟨fun _ turn after before => opened turn after (by omega),
            exact, filled⟩

end Ranges

end Reader

end FastFloe
