import FastFloe.SealedStreams
import FastFloe.DecryptReaderRuns

namespace FastFloe

open Rust

/-!
# The encrypting reader emits the sealed stream

What an `EncryptReader` still has to hand out is the rest of the header, the
rest of the segment in its buffer, and the sealed stream of the bytes it has not
sealed yet: the carried lookahead byte and what its source still holds.  Every
`read`, on either path, hands out the next part of this.
-/

namespace EncryptReader

/-! ## Taking plaintext off the source -/

/-- The plaintext that the reader has not sealed yet. -/
def unsealed (self : EncryptReader) : Bytes :=
  self.lookahead.toList ++ self.inner.remaining

/-- The plaintext that `fill_plaintext` takes off the source: what fills the
segment behind the carried byte and, behind a full segment, the byte that it
looks ahead to. -/
def fetched (self : EncryptReader) : Bytes :=
  let room :=
    self.parameters.plaintextSegmentLength - self.lookahead.toList.length
  let filling := handed self.inner room
  if filling.length < room then
    filling
  else
    filling ++ handed (readFully self.inner (zeros room)).2.2 1

section Filling

variable {reader : EncryptReader}

/-- Looking ahead on any source; it keeps the byte that it takes.  On an honest
one it tells whether the source goes on, and loses nothing of it. -/
theorem lookAhead_takes
    (fresh : reader.lookahead = none) :
    ∃ inner lookahead,
      inner.script <:+ reader.inner.script ∧
        ((∃ following,
            reader.lookAhead =
                (.ok following, { reader with inner, lookahead }) ∧
              (lookahead.toList = handed reader.inner 1 ∧
                following = lookahead.isSome) ∧
              (reader.inner.Honest →
                (following = true ↔ reader.inner.remaining ≠ []) ∧
                  inner.Honest ∧
                  lookahead.toList ++ inner.remaining =
                    reader.inner.remaining)) ∨
          ∃ error,
            reader.lookAhead =
                (.error (.err error), { reader with inner, lookahead }) ∧
              OfSource reader.inner error ∧ ¬ reader.inner.Honest) := by
  obtain ⟨result, after, read, reads⟩ :=
    readFully_handed reader.inner (zeros 1)
  have scripted := readFully_scripted reader.inner (zeros 1)
  rw [length_zeros] at read reads
  generalize took : handed reader.inner 1 = taken at read reads ⊢
  rw [read] at scripted
  cases result with
  | error stop =>
      obtain ⟨error, rfl⟩ := reads.returns.stop_eq_err
      refine ⟨after, none, scripted.script,
        .inr ⟨error, ?_, fun _ => scripted.reported error rfl, ?_⟩⟩
      · simp only [lookAhead, read, ← fresh]
        rfl
      · intro honest
        cases (reads.honest honest).1
  | ok _ =>
      cases taken with
      | nil =>
          refine ⟨after, none, scripted.script,
            .inl ⟨false, ?_, ⟨rfl, rfl⟩, ?_⟩⟩
          · simp only [lookAhead, read, ← fresh]
            rfl
          · intro honest
            obtain ⟨_, all, stillHonest, left⟩ := reads.honest honest
            have ended : reader.inner.remaining = [] := by
              rcases List.take_eq_nil_iff.mp all.symm with zero | ended
              · cases zero
              · exact ended
            refine ⟨by simp [ended], stillHonest, ?_⟩
            rw [left, ended]
            rfl
      | cons byte rest =>
          have single : rest = [] := by
            have bounded := reads.bounded
            rw [List.length_cons] at bounded
            exact List.length_eq_zero_iff.mp (by omega)
          subst single
          refine ⟨after, some byte, scripted.script,
            .inl ⟨true, ?_, ⟨rfl, rfl⟩, ?_⟩⟩
          · simp only [lookAhead, read]
            rfl
          · intro honest
            obtain ⟨_, all, stillHonest, left⟩ := reads.honest honest
            refine ⟨?_, stillHonest, ?_⟩
            · simp only [true_iff]
              intro ended
              rw [ended] at all
              cases all
            · change [byte] ++ after.remaining = reader.inner.remaining
              rw [all, left, List.take_append_drop]

/-- The reader with its whole payload region written and its carried byte
spent. -/
def refilled (self : EncryptReader) (inner : Source IoPayload)
    (chunk : Bytes) : EncryptReader :=
  { self with
    inner
    buffer :=
      { self.buffer with
        state := .plaintext self.parameters.plaintextSegmentLength }.withRaw
        (writeBack self.buffer.bytes segmentPayloadOffset chunk)
    lookahead := none }

/-- The end of `fill_plaintext`, behind the read that fills the segment: how
long its plaintext is and whether another segment follows. -/
def declareFilled (self : EncryptReader) (plaintextLength : Nat) :
    IoResult Bool × EncryptReader :=
  match (if plaintextLength < self.parameters.plaintextSegmentLength then
        (.ok false, self)
      else
        self.lookAhead) with
  | (.error stop, self) =>
      (.error stop, self)
  | (.ok following, self) =>
      match self.buffer.truncatePlaintext plaintextLength with
      | (.error stop, buffer) =>
          (Outcome.mapErr encryptionError (.error stop), { self with buffer })
      | (.ok (), buffer) =>
          (.ok (¬ following), { self with buffer })

theorem declareFilled_eq_ok
    {next : EncryptReader}
    {count : Nat}
    {following : Bool}
    {buffer : SegmentBuffer}
    (asked :
      (if count < reader.parameters.plaintextSegmentLength then
          (.ok false, reader)
        else
          reader.lookAhead) = ((.ok following : IoResult Bool), next))
    (truncated : next.buffer.truncatePlaintext count = (.ok (), buffer)) :
    reader.declareFilled count =
      (.ok (¬ following), { next with buffer }) := by
  unfold declareFilled
  rw [asked]
  simp only [truncated]

theorem declareFilled_eq_error
    {next : EncryptReader}
    {count : Nat}
    {stop : Stop (IoError IoPayload)}
    (full : ¬ count < reader.parameters.plaintextSegmentLength)
    (asked : reader.lookAhead = (.error stop, next)) :
    reader.declareFilled count = (.error stop, next) := by
  unfold declareFilled
  rw [if_neg full, asked]

/-- What `fill_plaintext` has taken behind the carried byte, and the chunk that
the payload region then holds. -/
structure Fills (reader : EncryptReader) (result : IoResult Unit)
    (taken : Bytes) (inner : Source IoPayload) (chunk : Bytes) : Prop where
  reads :
    Reads reader.inner
      (reader.parameters.plaintextSegmentLength -
        reader.lookahead.toList.length) result taken inner
  scripted : Scripted reader.inner result inner
  length : chunk.length = reader.parameters.plaintextSegmentLength
  content :
    chunk.take (reader.lookahead.toList.length + taken.length) =
      reader.lookahead.toList ++ taken
  fetched :
    reader.fetched =
      if taken.length <
          reader.parameters.plaintextSegmentLength -
            reader.lookahead.toList.length then
        taken
      else
        taken ++ handed inner 1

/-- A reader carries one byte at most, and a segment has room for it. -/
theorem length_carried
    (reader : EncryptReader) :
    reader.lookahead.toList.length ≤
      reader.parameters.plaintextSegmentLength := by
  have full := reader.buffer.parameters.plaintextSegmentLength_add
  have bounds := reader.buffer.parameters.segmentLength_bounds
  have own : reader.parameters.plaintextSegmentLength =
      reader.buffer.parameters.plaintextSegmentLength :=
    rfl
  cases reader.lookahead <;> simp only [Option.toList, List.length_nil,
    List.length_cons] <;> omega

/-- `fill_plaintext` up to its first read: a source's error ends it, and what
the source delivers stands behind the carried byte. -/
theorem fillPlaintext_fills
    (sized : reader.buffer.Sized) :
    ∃ result taken inner chunk,
      reader.Fills result taken inner chunk ∧
        reader.fillPlaintext =
          match result with
          | .error stop => (.error stop, reader.refilled inner chunk)
          | .ok _ =>
              (reader.refilled inner chunk).declareFilled
                (reader.lookahead.toList.length + taken.length) := by
  have carriedFits := reader.length_carried
  obtain ⟨region, prepared, regionLength⟩ :=
    sized.preparePlaintext
      (Nat.le_refl reader.parameters.plaintextSegmentLength)
  generalize capacity : reader.parameters.plaintextSegmentLength = size at *
  generalize carry : reader.lookahead.toList = carried at *
  have placed :
      (copyRange region 0 carried.length carried : IoResult Bytes) =
        .ok (carried ++ region.drop carried.length) := by
    rw [copyRange_eq (Nat.zero_le _) (by omega) (Nat.sub_zero _).symm,
      writeBack_zero]
  have room : (region.drop carried.length).length = size - carried.length := by
    rw [List.length_drop, regionLength]
  have behind :
      (slice (carried ++ region.drop carried.length) carried.length size :
          IoResult Bytes) =
        .ok (region.drop carried.length) := by
    rw [slice_eq carriedFits (by
        rw [List.length_append]
        omega), List.drop_left, List.take_of_length_le (by omega)]
  obtain ⟨result, inner, read, reads⟩ :=
    readFully_handed reader.inner (region.drop carried.length)
  have scripted :=
    readFully_scripted reader.inner (region.drop carried.length)
  rw [read] at scripted
  have after :
      (readFully reader.inner (zeros (size - carried.length))).2.2 = inner := by
    rw [readFully_after reader.inner (show
        (zeros (size - carried.length)).length =
          (region.drop carried.length).length by
      rw [length_zeros, room]), read]
  rw [room] at read reads
  generalize took : handed reader.inner (size - carried.length) = taken at *
  have bounded := reads.bounded
  obtain ⟨rest, filling, restLength, restShape⟩ :
      ∃ rest,
        writeBack (region.drop carried.length) 0 taken = rest ∧
          rest.length = size - carried.length ∧
          rest.take taken.length = taken := by
    refine ⟨_, rfl, ?_, ?_⟩
    · rw [length_writeBack (by omega), room]
    · rw [writeBack_zero, List.take_left]
  rw [filling] at read
  refine ⟨result, taken, inner, carried ++ rest,
    ⟨by rwa [capacity, carry], ⟨scripted.script, ?_⟩, ?_, ?_, ?_⟩, ?_⟩
  · rintro error rfl
    exact scripted.reported error rfl
  · rw [List.length_append, restLength, capacity]
    omega
  · rw [carry, List.take_length_add_append, restShape]
  · rw [capacity, carry, ← took, ← after]
    simp only [EncryptReader.fetched, capacity, carry]
  · have written :
        writeBack (carried ++ region.drop carried.length) carried.length
            rest =
          carried ++ rest := by
      rw [writeBack_append rfl, List.drop_eq_nil_of_le (by omega),
        List.append_nil]
    unfold fillPlaintext
    simp only [capacity, prepared, carry]
    rw [placed]
    simp only [Outcome.ok_bind, behind, read]
    subst capacity carry
    cases result with
    | error stop =>
        simp only [Except.map, written]
        rfl
    | ok _ =>
        simp only [Except.map, written]
        rfl

namespace Fills

variable {result : IoResult Unit} {taken chunk : Bytes}
  {inner : Source IoPayload}

/-- The carried byte and what was taken are the plaintext, once its length is
declared. -/
theorem holds
    (fills : reader.Fills result taken inner chunk)
    (sized : reader.buffer.Sized) :
    { (reader.refilled inner chunk).buffer with
      state :=
        .plaintext (reader.lookahead.toList.length +
          taken.length) }.HoldsPlaintext
      (reader.lookahead.toList ++ taken) := by
  have carriedFits := reader.length_carried
  have bounded := fills.reads.bounded
  have length := fills.length
  rw [← fills.content]
  exact sized.filled (Nat.le_of_eq length) (by omega)

/-- Declaring the length, when the source said whether it goes on. -/
theorem declareFilled_ok
    (fills : reader.Fills result taken inner chunk)
    {following : Bool}
    {after : Source IoPayload}
    {lookahead : Option UInt8}
    (asked :
      (if reader.lookahead.toList.length + taken.length <
            reader.parameters.plaintextSegmentLength then
          (.ok false, reader.refilled inner chunk)
        else
          (reader.refilled inner chunk).lookAhead) =
        ((.ok following : IoResult Bool),
          { reader.refilled inner chunk with inner := after, lookahead })) :
    (reader.refilled inner chunk).declareFilled
        (reader.lookahead.toList.length + taken.length) =
      (.ok (¬ following),
        { reader with
          inner := after
          buffer :=
            { (reader.refilled inner chunk).buffer with
              state :=
                .plaintext (reader.lookahead.toList.length + taken.length) }
          lookahead }) := by
  have carriedFits := reader.length_carried
  have bounded := fills.reads.bounded
  have truncated :
      (reader.refilled inner chunk).buffer.truncatePlaintext
          (reader.lookahead.toList.length + taken.length) =
        (.ok (),
          { (reader.refilled inner chunk).buffer with
            state :=
              .plaintext
                (reader.lookahead.toList.length + taken.length) }) := by
    refine if_neg ?_
    omega
  exact @declareFilled_eq_ok (reader.refilled inner chunk) _ _ _ _ asked
    truncated

/-- An honest source fills the segment as far as it goes. -/
theorem honest_split
    (fills : reader.Fills result taken inner chunk)
    (honest : reader.inner.Honest) :
    reader.lookahead.toList ++ taken =
        reader.unsealed.take reader.parameters.plaintextSegmentLength ∧
      inner.remaining =
        reader.unsealed.drop reader.parameters.plaintextSegmentLength := by
  obtain ⟨_, all, _, left⟩ := fills.reads.honest honest
  have carriedFits := reader.length_carried
  rw [unsealed, List.take_append, List.take_of_length_le carriedFits,
    List.drop_append, List.drop_eq_nil_of_le carriedFits, List.nil_append]
  exact ⟨by rw [all], left⟩

/-- The source ends when it does not fill the segment. -/
theorem unsealed_le
    (fills : reader.Fills result taken inner chunk)
    (honest : reader.inner.Honest)
    (short :
      taken.length <
        reader.parameters.plaintextSegmentLength -
          reader.lookahead.toList.length) :
    reader.unsealed.length ≤ reader.parameters.plaintextSegmentLength := by
  obtain ⟨_, all, _, _⟩ := fills.reads.honest honest
  have length := congrArg List.length all
  rw [List.length_take] at length
  rw [unsealed, List.length_append]
  omega

end Fills

/-- `fill_plaintext` on any source: it prepares the buffer with a plaintext, or
it fails.  The plaintext and the byte carried behind it are what was carried
before and what was taken.  From an honest source it moves the next segment's
worth and tells whether that was all of it. -/
theorem fillPlaintext_takes
    (sized : reader.buffer.Sized) :
    ∃ inner buffer lookahead,
      inner.script <:+ reader.inner.script ∧
        buffer.Sized ∧ buffer.parameters = reader.buffer.parameters ∧
        ((∃ isFinal plaintext,
            reader.fillPlaintext =
                (.ok isFinal, { reader with inner, buffer, lookahead }) ∧
              buffer.HoldsPlaintext plaintext ∧
              (reader.lookahead.toList ++ reader.fetched =
                  plaintext ++ lookahead.toList ∧
                isFinal = !lookahead.isSome) ∧
              (reader.inner.Honest →
                (isFinal = true ↔
                    reader.unsealed.length ≤
                      reader.parameters.plaintextSegmentLength) ∧
                  plaintext =
                    reader.unsealed.take
                      reader.parameters.plaintextSegmentLength ∧
                  inner.Honest ∧
                  lookahead.toList ++ inner.remaining =
                    reader.unsealed.drop
                      reader.parameters.plaintextSegmentLength)) ∨
          ∃ error,
            reader.fillPlaintext =
                (.error (.err error),
                  { reader with inner, buffer, lookahead }) ∧
              OfSource reader.inner error ∧ ¬ reader.inner.Honest) := by
  obtain ⟨result, taken, inner, chunk, fills, filled⟩ :=
    reader.fillPlaintext_fills sized
  have holds := fills.holds sized
  have carriedFits := reader.length_carried
  have fetched := fills.fetched
  cases result with
  | error stop =>
      obtain ⟨error, rfl⟩ := fills.reads.returns.stop_eq_err
      refine ⟨inner, (reader.refilled inner chunk).buffer, none,
        fills.scripted.script, holds.sized, rfl,
        .inr ⟨error, filled, fun _ => fills.scripted.reported error rfl, ?_⟩⟩
      intro honest
      cases (fills.reads.honest honest).1
  | ok _ =>
      by_cases short : taken.length <
          reader.parameters.plaintextSegmentLength -
            reader.lookahead.toList.length
      · -- The source ended inside this segment.
        have asked := fills.declareFilled_ok
          (if_pos (show reader.lookahead.toList.length + taken.length <
            reader.parameters.plaintextSegmentLength by omega))
        rw [if_pos short] at fetched
        refine ⟨inner, _, none, fills.scripted.script, holds.sized, rfl,
          .inl ⟨true, _, filled.trans asked, holds, ⟨?_, rfl⟩, ?_⟩⟩
        · rw [fetched]
          exact (List.append_nil _).symm
        · intro honest
          have ended := fills.unsealed_le honest short
          have split := fills.honest_split honest
          exact ⟨by simp only [ended], split.1,
            (fills.reads.honest honest).2.2.1, split.2⟩
      · -- The segment is full; the next byte tells whether it is the last.
        have full : ¬ reader.lookahead.toList.length + taken.length <
            reader.parameters.plaintextSegmentLength := by
          omega
        rw [if_neg short] at fetched
        obtain ⟨after, lookahead, used,
            ⟨following, looked, ⟨kept, rfl⟩, honestly⟩ |
            ⟨error, looked, ofSource, dishonest⟩⟩ :=
          @lookAhead_takes (reader.refilled inner chunk) rfl
        · have asked := fills.declareFilled_ok ((if_neg full).trans looked)
          refine ⟨after, _, lookahead, used.trans fills.scripted.script,
            holds.sized, rfl,
            .inl ⟨_, _, filled.trans asked, holds, ⟨?_, ?_⟩, ?_⟩⟩
          · rw [fetched, kept, List.append_assoc]
            rfl
          · cases lookahead <;> rfl
          · intro honest
            have split := fills.honest_split honest
            obtain ⟨goesOn, lastHonest, left⟩ :=
              honestly (fills.reads.honest honest).2.2.1
            refine ⟨?_, split.1, lastHonest, left.trans split.2⟩
            rw [decide_eq_true_eq, goesOn, not_not]
            change inner.remaining = [] ↔ _
            rw [split.2, List.drop_eq_nil_iff]
        · refine ⟨after, (reader.refilled inner chunk).buffer, lookahead,
            used.trans fills.scripted.script, holds.sized, rfl,
            .inr ⟨error, filled.trans ?_,
              ofSource.of_suffix fills.scripted.script, ?_⟩⟩
          · exact declareFilled_eq_error full looked
          · intro honest
            exact dishonest (fills.reads.honest honest).2.2.1

theorem fillPlaintext_cases
    (sized : reader.buffer.Sized) :
    ∃ inner buffer lookahead,
      inner.script <:+ reader.inner.script ∧
        buffer.Sized ∧ buffer.parameters = reader.buffer.parameters ∧
        ((∃ isFinal plaintext,
            reader.fillPlaintext =
                (.ok isFinal, { reader with inner, buffer, lookahead }) ∧
              buffer.HoldsPlaintext plaintext ∧
              (reader.inner.Honest →
                (isFinal = true ↔
                    reader.unsealed.length ≤
                      reader.parameters.plaintextSegmentLength) ∧
                  plaintext =
                    reader.unsealed.take
                      reader.parameters.plaintextSegmentLength ∧
                  inner.Honest ∧
                  lookahead.toList ++ inner.remaining =
                    reader.unsealed.drop
                      reader.parameters.plaintextSegmentLength)) ∨
          ∃ error,
            reader.fillPlaintext =
                (.error (.err error),
                  { reader with inner, buffer, lookahead }) ∧
              OfSource reader.inner error ∧ ¬ reader.inner.Honest) := by
  obtain ⟨inner, buffer, lookahead, used, stored, own,
      ⟨isFinal, plaintext, result, holds, _, honestly⟩ | failed⟩ :=
    reader.fillPlaintext_takes sized
  · exact ⟨inner, buffer, lookahead, used, stored, own,
      .inl ⟨isFinal, plaintext, result, holds, honestly⟩⟩
  · exact ⟨inner, buffer, lookahead, used, stored, own, .inr failed⟩

/-- `fill_plaintext` moves the next segment's worth of plaintext into the
buffer and tells whether that was all of it. -/
theorem fillPlaintext_spec
    (honest : reader.inner.Honest)
    (sized : reader.buffer.Sized) :
    ∃ inner buffer lookahead,
      reader.fillPlaintext =
          (.ok (reader.unsealed.length ≤
              reader.parameters.plaintextSegmentLength),
            { reader with inner, buffer, lookahead }) ∧
        buffer.HoldsPlaintext
          (reader.unsealed.take
            reader.parameters.plaintextSegmentLength) ∧
        buffer.parameters = reader.buffer.parameters ∧
        inner.Honest ∧
        lookahead.toList ++ inner.remaining =
          reader.unsealed.drop
            reader.parameters.plaintextSegmentLength := by
  obtain ⟨inner, buffer, lookahead, _, _, own,
      ⟨isFinal, plaintext, result, holds, honestly⟩ |
        ⟨_, _, _, dishonest⟩⟩ :=
    reader.fillPlaintext_cases sized
  · obtain ⟨final, rfl, stillHonest, kept⟩ := honestly honest
    refine ⟨inner, buffer, lookahead, ?_, holds, own, stillHonest, kept⟩
    rw [result]
    congr 2
    rw [Bool.eq_iff_iff, final, decide_eq_true_eq]
  · exact (dishonest honest).elim

end Filling

/-! ## Sealing what was filled -/

section Sealing

variable {platform : Platform} {reader next : EncryptReader}
  {encryptor following : Encryptor} {error : Error} {left : SegmentBuffer}
  {segment payload output written : Bytes} {count : Nat}

theorem loadSegment_unfilled
    {error : IoError IoPayload}
    (filled : reader.fillPlaintext = (.error (.err error), next)) :
    reader.loadSegment platform =
      (.error (.err error), { next with status := .failed }) := by
  unfold loadSegment tryLoadSegment
  rw [filled]
  rfl

theorem loadSegment_final
    (filled : reader.fillPlaintext = (.ok true, next))
    (present : next.encryptor = some encryptor)
    (sealed :
      encryptor.encryptFinalSegmentInPlace platform next.buffer =
        (.ok segment, left)) :
    reader.loadSegment platform =
      (.ok (),
        { next with
          encryptor := none
          buffer := left
          ciphertextPosition := 0
          ciphertextLength := segment.length
          status := .finished }) := by
  unfold loadSegment tryLoadSegment
  rw [filled]
  simp only [present, sealed, ↓reduceIte, poisonOnError]

theorem loadSegment_final_error
    {error : FinalEncryptError}
    (filled : reader.fillPlaintext = (.ok true, next))
    (present : next.encryptor = some encryptor)
    (refused :
      encryptor.encryptFinalSegmentInPlace platform next.buffer =
        (.error (.err error), left)) :
    reader.loadSegment platform =
      (.error (.err (encryptionError error.intoError)),
        { next with
          encryptor := none
          buffer := left
          ciphertextPosition := 0
          status := .failed }) := by
  unfold loadSegment tryLoadSegment
  rw [filled]
  simp only [present, refused, ↓reduceIte, Outcome.mapErr, poisonOnError]

theorem loadSegment_nonFinal
    (filled : reader.fillPlaintext = (.ok false, next))
    (present : next.encryptor = some encryptor)
    (sealed :
      encryptor.encryptNonFinalSegmentInPlace platform next.buffer =
        (.ok segment, following, left)) :
    reader.loadSegment platform =
      (.ok (),
        { next with
          encryptor := some following
          buffer := left
          ciphertextPosition := 0
          ciphertextLength := segment.length }) := by
  unfold loadSegment tryLoadSegment
  rw [filled]
  simp only [present, sealed, Bool.false_eq_true, ↓reduceIte, poisonOnError]

theorem loadSegment_nonFinal_error
    (filled : reader.fillPlaintext = (.ok false, next))
    (present : next.encryptor = some encryptor)
    (refused :
      encryptor.encryptNonFinalSegmentInPlace platform next.buffer =
        (.error (.err error), following, left)) :
    reader.loadSegment platform =
      (.error (.err (encryptionError error)),
        { next with
          encryptor := some following
          buffer := left
          ciphertextPosition := 0
          status := .failed }) := by
  unfold loadSegment tryLoadSegment
  rw [filled]
  simp only [present, refused, Bool.false_eq_true, ↓reduceIte, Outcome.mapErr,
    poisonOnError]

theorem emitSegmentDirect_unfilled
    {error : IoError IoPayload}
    (filled : reader.fillPlaintext = (.error (.err error), next)) :
    reader.emitSegmentDirect platform output =
      (.error (.err error), { next with status := .failed }, output) := by
  unfold emitSegmentDirect tryEmitSegmentDirect
  rw [filled]
  rfl

theorem emitSegmentDirect_final
    (filled : reader.fillPlaintext = (.ok true, next))
    (present : next.encryptor = some encryptor)
    (content : next.buffer.plaintext = .ok payload)
    (sealed :
      encryptor.encryptFinalSegmentInto platform payload output =
        (.ok count, written)) :
    reader.emitSegmentDirect platform output =
      (.ok count, { next with encryptor := none, status := .finished },
        written) := by
  unfold emitSegmentDirect tryEmitSegmentDirect
  rw [filled]
  simp only [present, content, sealed, ↓reduceIte, Outcome.mapErr,
    poisonOnError]

theorem emitSegmentDirect_final_error
    {error : FinalEncryptError}
    (filled : reader.fillPlaintext = (.ok true, next))
    (present : next.encryptor = some encryptor)
    (content : next.buffer.plaintext = .ok payload)
    (refused :
      encryptor.encryptFinalSegmentInto platform payload output =
        (.error (.err error), written)) :
    reader.emitSegmentDirect platform output =
      (.error (.err (encryptionError error.intoError)),
        { next with encryptor := none, status := .failed }, written) := by
  unfold emitSegmentDirect tryEmitSegmentDirect
  rw [filled]
  simp only [present, content, refused, ↓reduceIte, Outcome.mapErr,
    poisonOnError]

theorem emitSegmentDirect_nonFinal
    (filled : reader.fillPlaintext = (.ok false, next))
    (present : next.encryptor = some encryptor)
    (content : next.buffer.plaintext = .ok payload)
    (sealed :
      encryptor.encryptNonFinalSegmentInto platform payload output =
        (.ok count, following, written)) :
    reader.emitSegmentDirect platform output =
      (.ok count, { next with encryptor := some following }, written) := by
  unfold emitSegmentDirect tryEmitSegmentDirect
  rw [filled]
  simp only [present, content, sealed, Bool.false_eq_true, ↓reduceIte,
    Outcome.mapErr, poisonOnError]

theorem emitSegmentDirect_nonFinal_error
    (filled : reader.fillPlaintext = (.ok false, next))
    (present : next.encryptor = some encryptor)
    (content : next.buffer.plaintext = .ok payload)
    (refused :
      encryptor.encryptNonFinalSegmentInto platform payload output =
        (.error (.err error), following, written)) :
    reader.emitSegmentDirect platform output =
      (.error (.err (encryptionError error)),
        { next with encryptor := some following, status := .failed },
        written) := by
  unfold emitSegmentDirect tryEmitSegmentDirect
  rw [filled]
  simp only [present, content, refused, Bool.false_eq_true, ↓reduceIte,
    Outcome.mapErr, poisonOnError]

end Sealing

/-! ## What is left to hand out -/

/-- The rest of the segment in the reader's buffer. -/
inductive Held (reader : EncryptReader) : Bytes → Prop where
  | nothing
      (drained : reader.ciphertextPosition = reader.ciphertextLength) :
      Held reader []
  | buffered
      {segment : Bytes}
      (holds : reader.buffer.HoldsCiphertext segment)
      (available : reader.ciphertextLength = segment.length)
      (ahead : reader.ciphertextPosition < segment.length) :
      Held reader (segment.drop reader.ciphertextPosition)

/-- The stream of everything that the reader has not sealed yet. -/
inductive Ahead (platform : Platform) (context : MessageContext)
    (reader : EncryptReader) : Bytes → Prop where
  | opened
      {encryptor : Encryptor}
      {position : Nat}
      {stream : Bytes}
      (status : reader.status = .opened)
      (present : reader.encryptor = some encryptor)
      (here : encryptor.At platform context position)
      (seals :
        encryptor.state.SealsStream platform position reader.unsealed
          stream) :
      Ahead platform context reader stream
  | finished
      (status : reader.status = .finished)
      (behind : reader.headerPosition = headerLength) :
      Ahead platform context reader []

/-- A reader that has these bytes left to hand out. -/
structure Emits (platform : Platform) (context : MessageContext)
    (pending : Bytes) (reader : EncryptReader) : Prop where
  honest : reader.inner.Honest
  parameters : reader.buffer.parameters = context.parameters
  sized : reader.buffer.Sized
  within : reader.headerPosition ≤ headerLength
  parts :
    ∃ held stream,
      reader.Held held ∧ reader.Ahead platform context stream ∧
        pending =
          reader.header.val.drop reader.headerPosition ++ (held ++ stream)

section Steps

variable {platform : Platform} {context : MessageContext} {pending : Bytes}
  {reader : EncryptReader}

/-- Nothing is held when everything was handed out. -/
theorem Held.eq_nil
    {held : Bytes}
    (holds : reader.Held held)
    (drained : reader.ciphertextPosition = reader.ciphertextLength) :
    held = [] := by
  cases holds with
  | nothing _ => rfl
  | buffered _ available ahead =>
      rw [drained, available] at ahead
      omega

/-- Behind the header none of its bytes are left. -/
theorem header_passed
    (behind : ¬ reader.headerPosition < headerLength) :
    reader.header.val.drop reader.headerPosition = [] :=
  List.drop_eq_nil_of_le (by
    rw [reader.header.length_val]
    omega)

/-- The reader is finished exactly when nothing is left to hand out. -/
theorem Emits.isFinished_iff
    (emits : reader.Emits platform context pending) :
    reader.isFinished = true ↔ pending = [] := by
  obtain ⟨held, stream, holds, ahead, rfl⟩ := emits.parts
  simp only [isFinished, decide_eq_true_eq]
  constructor
  · rintro ⟨finished, drained⟩
    rw [holds.eq_nil drained]
    cases ahead with
    | opened status _ _ _ =>
        rw [finished] at status
        cases status
    | finished _ behind =>
        rw [header_passed (by omega)]
        rfl
  · intro empty
    obtain ⟨_, rest⟩ := List.append_eq_nil_iff.mp empty
    obtain ⟨noneHeld, noneAhead⟩ := List.append_eq_nil_iff.mp rest
    constructor
    · cases ahead with
      | opened _ _ here seals =>
          exact (here.stream_ne_nil seals noneAhead).elim
      | finished status _ => exact status
    · cases holds with
      | nothing drained => exact drained
      | @buffered segment _ _ before =>
          have size := congrArg List.length noneHeld
          rw [List.length_drop, List.length_nil] at size
          omega

/-- The reader has handed out the header and the segment in its buffer. -/
theorem Emits.ahead_of_drained
    (emits : reader.Emits platform context pending)
    (behind : ¬ reader.headerPosition < headerLength)
    (drained : reader.ciphertextPosition = reader.ciphertextLength) :
    reader.Ahead platform context pending := by
  obtain ⟨held, stream, holds, ahead, rfl⟩ := emits.parts
  rw [holds.eq_nil drained, List.nil_append, header_passed behind]
  exact ahead

/-- `load_segment` seals the next segment in the reader's buffer. -/
theorem Emits.loadSegment_spec
    (emits : reader.Emits platform context pending)
    (behind : ¬ reader.headerPosition < headerLength)
    (drained : reader.ciphertextPosition = reader.ciphertextLength)
    (unfinished : reader.status ≠ .finished) :
    ∃ next,
      reader.loadSegment platform = (.ok (), next) ∧
        next.Emits platform context pending ∧
        next.headerPosition = reader.headerPosition ∧
        next.ciphertextPosition ≠ next.ciphertextLength := by
  have own : reader.parameters = context.parameters := emits.parameters
  have within := emits.within
  cases emits.ahead_of_drained behind drained with
  | finished status _ => exact (unfinished status).elim
  | @opened encryptor position stream status present here seals =>
      have same : encryptor.state.context.parameters = context.parameters := by
        rw [here.ready.context_eq]
      obtain ⟨inner, buffer, lookahead, filled, holds, kept, honest, left⟩ :=
        fillPlaintext_spec emits.honest emits.sized
      rw [own] at filled holds left
      have passed := header_passed behind
      cases seals with
      | @last _ state _ _ segment inside step =>
          have fits := (EncryptionState.fitsKind_of_sealNext step).le
          rw [same] at fits
          rw [List.take_of_length_le fits] at holds
          obtain ⟨sealedBuffer, sealed, settled, keptSealed⟩ :=
            here.lastInPlace holds (kept.trans emits.parameters) step
          have length := here.length_step step
          let next : EncryptReader :=
            { reader with
              inner
              lookahead
              encryptor := none
              buffer := sealedBuffer
              ciphertextPosition := 0
              ciphertextLength := pending.length
              status := .finished }
          refine ⟨next, ?_, ⟨honest, ?_, settled.sized, within,
            pending, [], ?_, .finished rfl (by simp only [next]; omega), ?_⟩,
            rfl, ?_⟩
          · rw [decide_eq_true fits] at filled
            exact loadSegment_final filled present sealed
          · exact (keptSealed.trans kept).trans emits.parameters
          · have held := @Held.buffered next pending settled rfl (by
              simp only [next]
              omega)
            rwa [List.drop_zero] at held
          · simp only [next]
            rw [passed, List.append_nil, List.nil_append]
          · simp only [next]
            omega
      | @more _ state _ _ segment later longer allowed step rest =>
          rw [same] at longer step rest
          obtain ⟨sealedBuffer, sealed, settled, keptSealed, there⟩ :=
            here.stepInPlace allowed holds (kept.trans emits.parameters) step
          have length := here.length_step step
          let next : EncryptReader :=
            { reader with
              inner
              lookahead
              encryptor := some (encryptor.stepped state)
              buffer := sealedBuffer
              ciphertextPosition := 0
              ciphertextLength := segment.length }
          have unsealed : next.unsealed = reader.unsealed.drop
              context.parameters.plaintextSegmentLength :=
            left
          refine ⟨next, ?_, ⟨honest, ?_, settled.sized, within,
            segment, later, ?_, ?_, ?_⟩, rfl, ?_⟩
          · rw [decide_eq_false (Nat.not_le.mpr longer)] at filled
            exact loadSegment_nonFinal filled present sealed
          · exact (keptSealed.trans kept).trans emits.parameters
          · have held := @Held.buffered next segment settled rfl (by
              simp only [next]
              omega)
            rwa [List.drop_zero] at held
          · refine .opened status rfl there ?_
            rw [unsealed]
            exact rest
          · simp only [next]
            rw [passed, List.nil_append]
          · simp only [next]
            omega

/-- `emit_segment_direct` seals the next segment in the caller's buffer. -/
theorem Emits.emitSegmentDirect_spec
    {output : Bytes}
    (agree : platform.SealsAgree)
    (emits : reader.Emits platform context pending)
    (behind : ¬ reader.headerPosition < headerLength)
    (drained : reader.ciphertextPosition = reader.ciphertextLength)
    (unfinished : reader.status ≠ .finished)
    (room : context.parameters.ciphertextSegmentLength ≤ output.length) :
    ∃ next segment later,
      reader.emitSegmentDirect platform output =
          (.ok segment.length, next,
            segment ++ output.drop segment.length) ∧
        pending = segment ++ later ∧
        next.Emits platform context later ∧
        segment ≠ [] ∧
        segment.length ≤ output.length := by
  have own : reader.parameters = context.parameters := emits.parameters
  have within := emits.within
  have full := context.parameters.plaintextSegmentLength_add
  have passed := header_passed behind
  cases emits.ahead_of_drained behind drained with
  | finished status _ => exact (unfinished status).elim
  | @opened encryptor position stream status present here seals =>
      have same : encryptor.state.context.parameters = context.parameters := by
        rw [here.ready.context_eq]
      obtain ⟨inner, buffer, lookahead, filled, holds, kept, honest, left⟩ :=
        fillPlaintext_spec emits.honest emits.sized
      rw [own] at filled holds left
      have content := holds.plaintext_eq
      cases seals with
      | @last _ state _ _ segment inside step =>
          have fits := (EncryptionState.fitsKind_of_sealNext step).le
          rw [same] at fits
          rw [List.take_of_length_le fits] at content
          have length := here.length_step step
          have sealed := here.lastInto agree
            (show reader.unsealed.length + 32 ≤ output.length by omega) step
          let next : EncryptReader :=
            { reader with
              inner
              lookahead
              buffer
              encryptor := none
              status := .finished }
          refine ⟨next, pending, [], ?_, (List.append_nil _).symm,
            ⟨honest, kept.trans emits.parameters, holds.sized, within,
              [], [], .nothing drained,
              .finished rfl (by simp only [next]; omega), ?_⟩, ?_, by omega⟩
          · rw [decide_eq_true fits] at filled
            exact emitSegmentDirect_final filled present content sealed
          · exact passed.symm.trans (List.append_nil _).symm
          · rintro rfl
            simp at length
      | @more _ state _ _ segment later longer allowed step rest =>
          rw [same] at longer step rest
          have length := here.length_step step
          have taken : (reader.unsealed.take
              context.parameters.plaintextSegmentLength).length =
                context.parameters.plaintextSegmentLength := by
            rw [List.length_take]
            omega
          rw [taken] at length
          obtain ⟨sealed, there⟩ := here.stepInto agree allowed
            (show (reader.unsealed.take
                context.parameters.plaintextSegmentLength).length + 32 ≤
              output.length by omega) step
          let next : EncryptReader :=
            { reader with
              inner
              lookahead
              buffer
              encryptor := some (encryptor.stepped state) }
          have unsealed : next.unsealed = reader.unsealed.drop
              context.parameters.plaintextSegmentLength :=
            left
          refine ⟨next, segment, later, ?_, rfl,
            ⟨honest, kept.trans emits.parameters, holds.sized, within,
              [], later, .nothing drained, .opened status rfl there ?_, ?_⟩,
            ?_, by omega⟩
          · rw [decide_eq_false (Nat.not_le.mpr longer)] at filled
            exact emitSegmentDirect_nonFinal filled present content sealed
          · rw [unsealed]
            exact rest
          · simp only [next]
            rw [passed, List.nil_append, List.nil_append]
          · rintro rfl
            simp at length

/-- `read_header_bytes` hands out the next bytes of the header. -/
theorem readHeaderBytes_eq
    (before : reader.headerPosition < headerLength)
    (output : Bytes) :
    ∃ chunk,
      reader.readHeaderBytes output =
          (.ok chunk.length,
            { reader with
              headerPosition := reader.headerPosition + chunk.length },
            chunk ++ output.drop chunk.length) ∧
        chunk.length =
          min output.length (headerLength - reader.headerPosition) ∧
        reader.header.val.drop reader.headerPosition =
          chunk ++
            reader.header.val.drop
              (reader.headerPosition + chunk.length) := by
  have width := reader.header.length_val
  generalize counted :
    min output.length (headerLength - reader.headerPosition) = count
  let chunk := (reader.header.val.drop reader.headerPosition).take count
  have length : chunk.length = count := by
    simp only [chunk, List.length_take, List.length_drop]
    omega
  have sliced :
      (slice reader.header.val reader.headerPosition
          (reader.headerPosition + count) : IoResult Bytes) =
        .ok chunk := by
    rw [slice_eq (Nat.le_add_right _ _) (by omega), Nat.add_sub_cancel_left]
  have copied :
      (copyRange output 0 count chunk : IoResult Bytes) =
        .ok (chunk ++ output.drop chunk.length) := by
    rw [copyRange_eq (Nat.zero_le _) (by omega) (by omega), writeBack_zero]
  refine ⟨chunk, ?_, length, ?_⟩
  · simp only [readHeaderBytes, counted, sliced, Outcome.ok_bind, copied,
      length]
  · rw [length, ← List.drop_drop]
    exact (List.take_append_drop _ _).symm

/-- Handing out header bytes. -/
theorem Emits.readHeaderBytes_spec
    {output : Bytes}
    (emits : reader.Emits platform context pending)
    (before : reader.headerPosition < headerLength) :
    ∃ next chunk left,
      reader.readHeaderBytes output =
          (.ok chunk.length, next, chunk ++ output.drop chunk.length) ∧
        pending = chunk ++ left ∧
        next.Emits platform context left ∧
        (chunk = [] → output = []) ∧
        chunk.length ≤ output.length := by
  obtain ⟨held, stream, holds, ahead, rfl⟩ := emits.parts
  obtain ⟨chunk, result, length, joined⟩ := readHeaderBytes_eq before output
  let next : EncryptReader :=
    { reader with headerPosition := reader.headerPosition + chunk.length }
  refine ⟨next, chunk,
    reader.header.val.drop (reader.headerPosition + chunk.length) ++
      (held ++ stream), result, ?_, ⟨emits.honest, emits.parameters,
      emits.sized, by simp only [next]; omega, held, stream, ?_, ?_, rfl⟩, ?_,
    by omega⟩
  · rw [joined, List.append_assoc]
  · cases holds with
    | nothing drained => exact .nothing drained
    | buffered holds available ahead =>
        exact @Held.buffered next _ holds available ahead
  · cases ahead with
    | opened status present here seals =>
        exact .opened status present here seals
    | finished _ behind => omega
  · intro none
    have zero := congrArg List.length none
    rw [length, List.length_nil] at zero
    exact List.length_eq_zero_iff.mp (by omega)

/-- Handing out buffered ciphertext. -/
theorem Emits.readBuffered_spec
    {output : Bytes}
    (emits : reader.Emits platform context pending)
    (behind : ¬ reader.headerPosition < headerLength)
    (ahead : reader.ciphertextPosition ≠ reader.ciphertextLength) :
    ∃ next chunk left,
      reader.readBuffered output =
          (.ok chunk.length, next, chunk ++ output.drop chunk.length) ∧
        pending = chunk ++ left ∧
        next.Emits platform context left ∧
        (chunk = [] → output = []) ∧
        chunk.length ≤ output.length := by
  obtain ⟨held, stream, holds, later, rfl⟩ := emits.parts
  have passed := header_passed behind
  cases holds with
  | nothing drained => exact (ahead drained).elim
  | @buffered segment holds available before =>
      let chunk :=
        (segment.drop reader.ciphertextPosition).take output.length
      let next : EncryptReader :=
        { reader with
          ciphertextPosition := reader.ciphertextPosition + chunk.length }
      have kept : next.Held
          ((segment.drop reader.ciphertextPosition).drop output.length) := by
        rw [← drop_handedOut]
        by_cases all : next.ciphertextPosition < segment.length
        · exact @Held.buffered next segment holds available all
        · have spent : segment.drop next.ciphertextPosition = [] :=
            List.drop_eq_nil_of_le (Nat.le_of_not_lt all)
          simp only [next, chunk] at spent
          rw [spent]
          refine .nothing ?_
          simp only [next, chunk, List.length_take, List.length_drop]
            at all ⊢
          omega
      refine ⟨next, chunk,
        (segment.drop reader.ciphertextPosition).drop output.length ++ stream,
        ?_, ?_, ⟨emits.honest, emits.parameters, emits.sized, emits.within,
          _, stream, kept, ?_, ?_⟩, ?_, ?_⟩
      · simp only [readBuffered, holds.ciphertext_eq, Outcome.mapErr,
          Outcome.ok_bind]
        rw [handOut_eq available (Nat.le_of_lt before)]
      · rw [passed, List.nil_append, ← List.append_assoc chunk,
          List.take_append_drop]
      · cases later with
        | opened status present here seals =>
            exact .opened status present here seals
        | finished status behind => exact .finished status behind
      · simp only [next]
        rw [passed, List.nil_append]
      · intro none
        have zero := congrArg List.length none
        simp only [chunk, List.length_take, List.length_drop,
          List.length_nil] at zero
        exact List.length_eq_zero_iff.mp (by omega)
      · simp only [chunk, List.length_take]
        omega

/-- Every `read` succeeds and hands out the next bytes of what is left, and
none of them only into an empty output or when nothing is left. -/
theorem Emits.read_step
    (agree : platform.SealsAgree)
    (emits : reader.Emits platform context pending)
    (output : Bytes) :
    ∃ next chunk left,
      reader.read platform output =
          (.ok chunk.length, next, chunk ++ output.drop chunk.length) ∧
        pending = chunk ++ left ∧
        next.Emits platform context left ∧
        (chunk = [] → output = [] ∨ pending = []) ∧
        chunk.length ≤ output.length := by
  by_cases empty : output = []
  · refine ⟨reader, [], pending, ?_, rfl, emits, fun _ => .inl empty, ?_⟩
    · simp only [read, empty, ↓reduceIte]
      rfl
    · exact Nat.zero_le _
  have healthy : reader.status ≠ .failed := by
    obtain ⟨held, stream, _, later, _⟩ := emits.parts
    cases later with
    | opened status _ _ _ =>
        rw [status]
        simp
    | finished status _ =>
        rw [status]
        simp
  by_cases before : reader.headerPosition < headerLength
  · obtain ⟨next, chunk, left, result, shape, nextEmits, blank, within⟩ :=
      @Emits.readHeaderBytes_spec platform context pending reader output emits
        before
    refine ⟨next, chunk, left, ?_, shape, nextEmits,
      fun none => .inl (blank none), within⟩
    simp only [read, empty, healthy, before, ↓reduceIte, result]
  by_cases drained : reader.ciphertextPosition = reader.ciphertextLength
  · by_cases finished : reader.status = .finished
    · have nothing : pending = [] :=
        emits.isFinished_iff.mp (by
          simp only [isFinished, finished, drained, and_self, decide_true])
      refine ⟨reader, [], pending, ?_, rfl, emits, fun _ => .inr nothing, ?_⟩
      · simp only [read, empty, before, drained, finished, ↓reduceIte]
        rfl
      · exact Nat.zero_le _
    · have own : reader.parameters = context.parameters := emits.parameters
      by_cases room :
          context.parameters.ciphertextSegmentLength ≤ output.length
      · obtain ⟨next, segment, later, result, shape, nextEmits, full,
            within⟩ :=
          emits.emitSegmentDirect_spec agree before drained finished room
        refine ⟨next, segment, later, ?_, shape, nextEmits,
          fun none => (full none).elim, within⟩
        simp only [read, empty, healthy, before, drained, finished, own,
          room, ↓reduceIte, result]
      · obtain ⟨loaded, result, loadedEmits, same, ahead⟩ :=
          emits.loadSegment_spec before drained finished
        obtain ⟨next, chunk, left, handed, shape, nextEmits, blank, within⟩ :=
          @Emits.readBuffered_spec platform context pending loaded output
            loadedEmits (by rw [same]; exact before) ahead
        refine ⟨next, chunk, left, ?_, shape, nextEmits,
          fun none => .inl (blank none), within⟩
        simp only [read, empty, healthy, before, drained, finished, own,
          room, ↓reduceIte, result, handed]
  · obtain ⟨next, chunk, left, handed, shape, nextEmits, blank, within⟩ :=
      @Emits.readBuffered_spec platform context pending reader output emits
        before drained
    refine ⟨next, chunk, left, ?_, shape, nextEmits,
      fun none => .inl (blank none), within⟩
    simp only [read, empty, healthy, before, drained, ↓reduceIte, handed]

end Steps

end EncryptReader

end FastFloe
