import FastFloe.RangeReads

namespace FastFloe

open Rust

/-!
# Reads of the plaintext behind a reader

What `read_range`, `read` and `seek` return, in terms of the plaintext that the
reader's layout describes.
-/

/-! ## Bounds -/

/-- A start bound leaves an offset in the range. -/
def Bound.admitsFrom (self : Bound) (offset : Nat) : Bool :=
  match self with
  | .included start => start ≤ offset
  | .excluded start => start < offset
  | .unbounded => true

/-- An end bound leaves an offset in the range. -/
def Bound.admitsTo (self : Bound) (offset : Nat) : Bool :=
  match self with
  | .included stop => offset ≤ stop
  | .excluded stop => offset < stop
  | .unbounded => true

/-- The bytes whose offsets a pair of bounds contains, in order. -/
def bytesWithin (startBound endBound : Bound) (plaintext : Bytes) : Bytes :=
  (plaintext.zipIdx.filter fun item =>
    startBound.admitsFrom item.2 && endBound.admitsTo item.2).map Prod.fst

/-- Filtering a list by an interval of its indices cuts out a stretch. -/
theorem filter_zipIdx_interval
    {items : Bytes}
    {start stop first : Nat}
    {admits : Nat → Bool}
    (interval : ∀ index, first ≤ index → index < first + items.length →
      (admits index = true ↔ start ≤ index ∧ index < stop)) :
    ((items.zipIdx first).filter fun item => admits item.2).map Prod.fst =
      (items.drop (start - first)).take (stop - max start first) := by
  induction items generalizing first with
  | nil =>
      simp
  | cons item items inductionHypothesis =>
      have here := interval first (Nat.le_refl _) (by simp)
      have later := @inductionHypothesis (first + 1) fun index after before =>
        interval index (by omega) (by rw [List.length_cons]; omega)
      rw [List.zipIdx_cons]
      rcases Nat.lt_or_ge first start with before | reached
      · have excluded : admits first = false := by
          rw [Bool.eq_false_iff, ne_eq, here]
          omega
        obtain ⟨rest, shape⟩ : ∃ rest, start - first = rest + 1 :=
          ⟨start - first - 1, by omega⟩
        have shape' : start - (first + 1) = rest := by omega
        rw [shape'] at later
        simp only [List.filter_cons, excluded, Bool.false_eq_true,
          ↓reduceIte, later, shape, List.drop_succ_cons]
        rw [show max start (first + 1) = max start first by omega]
      · rcases Nat.lt_or_ge first stop with inside | beyond
        · have included : admits first = true := here.mpr ⟨reached, inside⟩
          obtain ⟨rest, shape⟩ : ∃ rest, stop - max start first = rest + 1 :=
            ⟨stop - max start first - 1, by omega⟩
          have shape' : stop - max start (first + 1) = rest := by omega
          have zero : start - first = 0 := by omega
          have zero' : start - (first + 1) = 0 := by omega
          rw [shape', zero', List.drop_zero] at later
          simp only [List.filter_cons, included, ↓reduceIte, List.map_cons,
            later, shape, zero, List.drop_zero, List.take_succ_cons]
        · have excluded : admits first = false := by
            rw [Bool.eq_false_iff, ne_eq, here]
            omega
          have none : stop - max start first = 0 := by omega
          have none' : stop - max start (first + 1) = 0 := by omega
          simp only [List.filter_cons, excluded, Bool.false_eq_true,
            ↓reduceIte, later, none, none', List.take_zero]

section Admission

variable {start stop offset plaintextLength : Nat}

theorem Bound.admitsFrom_included :
    (Bound.included start).admitsFrom offset = true ↔ start ≤ offset :=
  decide_eq_true_iff

theorem Bound.admitsFrom_excluded :
    (Bound.excluded start).admitsFrom offset = true ↔ start + 1 ≤ offset :=
  decide_eq_true_iff

theorem Bound.admitsFrom_unbounded :
    Bound.unbounded.admitsFrom offset = true ↔ 0 ≤ offset :=
  iff_of_true rfl (Nat.zero_le _)

theorem Bound.admitsTo_included :
    (Bound.included stop).admitsTo offset = true ↔ offset < stop + 1 :=
  decide_eq_true_iff.trans Nat.lt_succ_iff.symm

theorem Bound.admitsTo_excluded :
    (Bound.excluded stop).admitsTo offset = true ↔ offset < stop :=
  decide_eq_true_iff

theorem Bound.admitsTo_unbounded
    (inside : offset < plaintextLength) :
    Bound.unbounded.admitsTo offset = true ↔ offset < plaintextLength :=
  iff_of_true rfl inside

end Admission

/-- `resolve_bounds` finds the stretch that the bounds contain, or reports
bounds outside the plaintext. -/
theorem resolveBounds_spec
    (startBound endBound : Bound)
    (plaintextLength : Nat) :
    (∃ start stop,
        resolveBounds startBound endBound plaintextLength =
            .ok (start, stop) ∧
          start ≤ stop ∧ stop ≤ plaintextLength ∧
          ∀ offset, offset < plaintextLength →
            ((startBound.admitsFrom offset && endBound.admitsTo offset) =
                true ↔
              start ≤ offset ∧ offset < stop)) ∨
      ∃ error,
        resolveBounds startBound endBound plaintextLength =
          .error (.err error) := by
  have validated (start stop : Nat)
      (lower : ∀ offset,
        startBound.admitsFrom offset = true ↔ start ≤ offset)
      (upper : ∀ offset, offset < plaintextLength →
        (endBound.admitsTo offset = true ↔ offset < stop)) :
      (∃ start' stop',
          (do validateRange start stop plaintextLength
              .ok (start, stop) : IoResult (Nat × Nat)) =
              .ok (start', stop') ∧
            start' ≤ stop' ∧ stop' ≤ plaintextLength ∧
            ∀ offset, offset < plaintextLength →
              ((startBound.admitsFrom offset && endBound.admitsTo offset) =
                  true ↔
                start' ≤ offset ∧ offset < stop')) ∨
        ∃ error,
          (do validateRange start stop plaintextLength
              .ok (start, stop) : IoResult (Nat × Nat)) =
            .error (.err error) := by
    unfold validateRange
    by_cases outside : start > stop ∨ stop > plaintextLength
    · rw [if_pos outside]
      exact .inr ⟨_, rfl⟩
    · rw [if_neg outside]
      refine .inl ⟨start, stop, rfl, by omega, by omega, ?_⟩
      intro offset inside
      rw [Bool.and_eq_true, lower, upper offset inside]
  unfold resolveBounds
  cases startBound with
  | included start =>
      cases endBound with
      | included stop =>
          by_cases fits : stop + 1 ≤ u64Max
          · simp only [checkedAdd, fits, ↓reduceIte, Outcome.okOr,
              Outcome.ok_bind]
            exact validated _ _ (fun _ => Bound.admitsFrom_included)
              fun _ _ => Bound.admitsTo_included
          · exact .inr ⟨lengthOverflow, by
              simp only [checkedAdd, if_neg fits, Outcome.okOr,
                Outcome.ok_bind, Outcome.error_bind]⟩
      | excluded stop =>
          exact validated _ _ (fun _ => Bound.admitsFrom_included)
            fun _ _ => Bound.admitsTo_excluded
      | unbounded =>
          exact validated _ _ (fun _ => Bound.admitsFrom_included)
            fun _ => Bound.admitsTo_unbounded
  | excluded start =>
      by_cases startFits : start + 1 ≤ u64Max
      · simp only [checkedAdd, startFits, ↓reduceIte, Outcome.okOr,
          Outcome.ok_bind]
        cases endBound with
        | included stop =>
            by_cases fits : stop + 1 ≤ u64Max
            · simp only [fits, ↓reduceIte, Outcome.ok_bind]
              exact validated _ _ (fun _ => Bound.admitsFrom_excluded)
                fun _ _ => Bound.admitsTo_included
            · exact .inr ⟨lengthOverflow, by
                simp only [if_neg fits, Outcome.error_bind]⟩
        | excluded stop =>
            exact validated _ _ (fun _ => Bound.admitsFrom_excluded)
              fun _ _ => Bound.admitsTo_excluded
        | unbounded =>
            exact validated _ _ (fun _ => Bound.admitsFrom_excluded)
              fun _ => Bound.admitsTo_unbounded
      · exact .inr ⟨lengthOverflow, by
          simp only [checkedAdd, if_neg startFits, Outcome.okOr,
            Outcome.error_bind]⟩
  | unbounded =>
      cases endBound with
      | included stop =>
          by_cases fits : stop + 1 ≤ u64Max
          · simp only [checkedAdd, fits, ↓reduceIte, Outcome.okOr,
              Outcome.ok_bind]
            exact validated _ _ (fun _ => Bound.admitsFrom_unbounded)
              fun _ _ => Bound.admitsTo_included
          · exact .inr ⟨lengthOverflow, by
              simp only [checkedAdd, if_neg fits, Outcome.okOr,
                Outcome.ok_bind, Outcome.error_bind]⟩
      | excluded stop =>
          exact validated _ _ (fun _ => Bound.admitsFrom_unbounded)
            fun _ _ => Bound.admitsTo_excluded
      | unbounded =>
          exact validated _ _ (fun _ => Bound.admitsFrom_unbounded)
            fun _ => Bound.admitsTo_unbounded

/-- The bytes within resolved bounds are a stretch of the plaintext. -/
theorem bytesWithin_eq
    {startBound endBound : Bound}
    {plaintext : Bytes}
    {start stop : Nat}
    (admits : ∀ offset, offset < plaintext.length →
      ((startBound.admitsFrom offset && endBound.admitsTo offset) = true ↔
        start ≤ offset ∧ offset < stop)) :
    bytesWithin startBound endBound plaintext =
      (plaintext.drop start).take (stop - start) := by
  unfold bytesWithin
  have stretch := @filter_zipIdx_interval plaintext start stop 0
    (fun offset => startBound.admitsFrom offset && endBound.admitsTo offset)
    fun index _ before => admits index (by omega)
  rwa [Nat.sub_zero, Nat.max_eq_left (Nat.zero_le _)] at stretch

/-- Bounds that resolve denote the stretch they resolve to. -/
theorem bytesWithin_of_resolved
    {startBound endBound : Bound}
    {plaintext : Bytes}
    {start stop : Nat}
    (resolved :
      resolveBounds startBound endBound plaintext.length =
        .ok (start, stop)) :
    bytesWithin startBound endBound plaintext =
        (plaintext.drop start).take (stop - start) ∧
      start ≤ stop ∧ stop ≤ plaintext.length := by
  rcases resolveBounds_spec startBound endBound plaintext.length with
    ⟨start', stop', resolved', ordered, inside, admits⟩ | ⟨error, refused⟩
  · rw [resolved'] at resolved
    cases resolved
    exact ⟨bytesWithin_eq admits, ordered, inside⟩
  · rw [refused] at resolved
    cases resolved

namespace Reader

section Calls

variable {platform : Platform} {message : StoredMessage} {reader : Reader}
  {plaintext output : Bytes}

theorem Coherent.plaintextLength_eq
    (coherent : reader.Coherent platform message) :
    reader.plaintextLength = message.layout.plaintextLength := by
  rw [Reader.plaintextLength, coherent.layout]

/-- `read_range` returns a stretch of the plaintext and has opened every
segment that it touches. -/
theorem Coherent.readRange_spec
    (coherent : reader.Coherent platform message)
    (agree : platform.OpensAgree)
    (describes : message.Describes platform plaintext)
    (startBound endBound : Bound) :
    ∃ result after,
      reader.readRange platform startBound endBound = (result, after) ∧
        reader.Keeps platform message after ∧ result.Returns ∧
        (∀ bytes, result = .ok bytes →
          ∃ start stop,
            resolveBounds startBound endBound
                message.layout.plaintextLength = .ok (start, stop) ∧
              bytes = (plaintext.drop start).take (stop - start) ∧
              (start < stop → ∀ turn,
                start / message.layout.parameters.plaintextSegmentLength ≤
                    turn →
                  turn ≤ (stop - 1) /
                      message.layout.parameters.plaintextSegmentLength →
                    ∃ opened, message.OpensAt platform turn opened)) ∧
        (reader.inner.Honest →
          (∃ start stop,
            resolveBounds startBound endBound
                message.layout.plaintextLength = .ok (start, stop) ∧
              stop - start ≤ platform.target.usizeMax) →
            (∀ turn, turn < message.layout.segmentCount →
              ∃ opened, message.OpensAt platform turn opened) →
              ∃ bytes, result = .ok bytes) := by
  unfold readRange
  rw [coherent.plaintextLength_eq]
  rcases resolveBounds_spec startBound endBound
      message.layout.plaintextLength with
    ⟨start, stop, resolved, ordered, inside, _⟩ | ⟨error, refused⟩
  · by_cases fits : stop - start ≤ platform.target.usizeMax
    · obtain ⟨result, after, output, read, keeps, returns, success, honest⟩ :=
        @Coherent.readResolvedRangeInto_spec platform message reader plaintext
          (zeros (stop - start)) start stop coherent agree describes inside
          (Nat.le_of_eq (length_zeros _).symm) fits
      simp only [resolved, Outcome.ok_bind, sub_eq ordered,
        Target.tryFromU64, fits, ↓reduceIte, Outcome.okOr, read]
      cases result with
      | error stop =>
          refine ⟨.error stop, after, rfl, keeps, ?_, by simp, ?_⟩
          · exact returns.of_error
          · intro isHonest _ known
            obtain ⟨_, impossible⟩ := honest isHonest known
            cases impossible
      | ok reached =>
          obtain ⟨opened, rfl, filled⟩ := success reached rfl
          refine ⟨.ok output, after, rfl, keeps, Outcome.returns_ok _, ?_,
            fun _ _ _ => ⟨_, rfl⟩⟩
          intro bytes same
          cases same
          refine ⟨start, stop, rfl, ?_, opened⟩
          rw [Filled] at filled
          rw [filled, List.drop_eq_nil_of_le (Nat.le_of_eq (length_zeros _)),
            List.append_nil]
    · refine ⟨.error (.err lengthOverflow), reader, ?_, .refl coherent,
        Outcome.returns_err _, by simp, ?_⟩
      · simp only [resolved, Outcome.ok_bind, sub_eq ordered,
          Target.tryFromU64, fits, ↓reduceIte, Outcome.okOr,
          Outcome.error_bind]
      · rintro _ ⟨start', stop', same, fits'⟩ _
        rw [resolved] at same
        cases same
        exact (fits fits').elim
  · refine ⟨.error (.err error), reader, ?_, .refl coherent,
      Outcome.returns_err _, by simp, ?_⟩
    · simp only [refused, Outcome.error_bind]
    · rintro _ ⟨start, stop, resolved, _⟩ _
      rw [refused] at resolved
      cases resolved

/-- `read_range_into` writes a stretch of the plaintext to the start of its
output. -/
theorem Coherent.readRangeInto_spec
    (coherent : reader.Coherent platform message)
    (agree : platform.OpensAgree)
    (describes : message.Describes platform plaintext)
    (startBound endBound : Bound) :
    ∃ result after written,
      reader.readRangeInto platform startBound endBound output =
          (result, after, written) ∧
        reader.Keeps platform message after ∧ result.Returns ∧
        ∀ count, result = .ok count →
          ∃ start stop,
            resolveBounds startBound endBound
                message.layout.plaintextLength = .ok (start, stop) ∧
              count = stop - start ∧
              Filled plaintext output start count written := by
  unfold readRangeInto
  rw [coherent.plaintextLength_eq]
  rcases resolveBounds_spec startBound endBound
      message.layout.plaintextLength with
    ⟨start, stop, resolved, ordered, inside, _⟩ | ⟨error, refused⟩
  · by_cases fits : stop - start ≤ platform.target.usizeMax
    · simp only [resolved, Outcome.ok_bind, sub_eq ordered,
        Target.tryFromU64, fits, ↓reduceIte, Outcome.okOr]
      by_cases room : stop - start ≤ output.length
      · obtain ⟨result, after, written, read, keeps, returns, success, _⟩ :=
          coherent.readResolvedRangeInto_spec agree describes inside room fits
        rw [if_neg (Nat.not_lt.mpr room), read]
        refine ⟨result, after, written, rfl, keeps, returns, ?_⟩
        intro count same
        obtain ⟨_, exact, filled⟩ := success count same
        exact ⟨start, stop, rfl, exact, filled⟩
      · rw [if_pos (Nat.lt_of_not_le room)]
        exact ⟨_, reader, output, rfl, .refl coherent, Outcome.returns_err _,
          by simp⟩
    · refine ⟨.error (.err lengthOverflow), reader, output, ?_,
        .refl coherent, Outcome.returns_err _, by simp⟩
      simp only [resolved, Outcome.ok_bind, sub_eq ordered,
        Target.tryFromU64, fits, ↓reduceIte, Outcome.okOr,
        Outcome.error_bind]
  · refine ⟨.error (.err error), reader, output, ?_, .refl coherent,
      Outcome.returns_err _, by simp⟩
    simp only [refused, Outcome.error_bind]

/-- What one `read` returns: the next bytes of the plaintext, at least one
unless nothing is asked for or nothing is left. -/
structure ReadsNext (plaintext output : Bytes) (position count : Nat)
    (written : Bytes) : Prop where
  filled : Filled plaintext output position count written
  room : count ≤ output.length
  inside : count ≤ plaintext.length - position
  progress : 0 < count ∨ plaintext.length ≤ position ∨ output = []

/-- The chunk that `read` copies out of the cached segment. -/
theorem readChunk_eq
    {opened : Bytes}
    {position : Nat}
    (describes : message.Describes platform plaintext)
    (opens : message.OpensAt platform position opened)
    (holds : reader.scratch.HoldsPlaintext opened)
    (below :
      position * message.layout.parameters.plaintextSegmentLength ≤
        reader.plaintextPosition)
    (above :
      reader.plaintextPosition <
        position * message.layout.parameters.plaintextSegmentLength +
          opened.length)
    (wanted : output ≠ []) :
    ∃ chunk,
      reader.readChunk platform (message.layout.entry position)
          output.length = .ok chunk ∧
        chunk =
          (plaintext.drop reader.plaintextPosition).take chunk.length ∧
        0 < chunk.length ∧ chunk.length ≤ output.length ∧
        reader.plaintextPosition + chunk.length ≤
          position * message.layout.parameters.plaintextSegmentLength +
            opened.length := by
  have length := opens.length_eq
  have size := message.layout.parameters.plaintextSegmentLength_add
  have maximum := message.layout.parameters.lt_maximum
  have wide := platform.target.u32Max_le_usizeMax
  have nonempty := List.length_pos_iff.mpr wanted
  have small :
      opened.length ≤ message.layout.parameters.plaintextSegmentLength := by
    rw [length]
    exact Nat.min_le_left _ _
  have stretch := opened_eq_stretch describes opens
  have localFits :
      reader.plaintextPosition -
          position * message.layout.parameters.plaintextSegmentLength ≤
        platform.target.usizeMax := by
    omega
  have localInside :
      reader.plaintextPosition -
          position * message.layout.parameters.plaintextSegmentLength ≤
        opened.length := by
    omega
  have joined :
      position * message.layout.parameters.plaintextSegmentLength +
          (reader.plaintextPosition -
            position * message.layout.parameters.plaintextSegmentLength) =
        reader.plaintextPosition := by
    omega
  have below' :
      (message.layout.entry position).plaintextOffset ≤
        reader.plaintextPosition :=
    below
  have localFits' :
      reader.plaintextPosition -
          (message.layout.entry position).plaintextOffset ≤
        platform.target.usizeMax :=
    localFits
  have localInside' :
      reader.plaintextPosition -
          (message.layout.entry position).plaintextOffset ≤
        opened.length :=
    localInside
  simp only [readChunk, holds.plaintext_eq, Outcome.mapErr, Outcome.ok_bind,
    sub_eq below', Target.tryFromU64, localFits', ↓reduceIte, Outcome.okOr,
    sub_eq localInside']
  change ∃ chunk,
    (slice opened
        (reader.plaintextPosition -
          position * message.layout.parameters.plaintextSegmentLength)
        (reader.plaintextPosition -
            position * message.layout.parameters.plaintextSegmentLength +
          min output.length (opened.length -
            (reader.plaintextPosition -
              position *
                message.layout.parameters.plaintextSegmentLength))) :
        IoResult Bytes) = .ok chunk ∧ _
  generalize localOffset :
    reader.plaintextPosition -
      position * message.layout.parameters.plaintextSegmentLength = offset
    at localInside joined
  generalize counted : min output.length (opened.length - offset) = count
  have within : count ≤ opened.length - offset := by omega
  have exact : ((opened.drop offset).take count).length = count := by
    rw [List.length_take, List.length_drop, Nat.min_eq_left within]
  refine ⟨(opened.drop offset).take count, ?_, ?_, by omega, by omega,
    by omega⟩
  · rw [slice_eq (Nat.le_add_right _ _) (by omega), Nat.add_sub_cancel_left]
  · calc (opened.drop offset).take count
        = (((plaintext.drop (position *
              message.layout.parameters.plaintextSegmentLength)).take
            opened.length).drop offset).take count :=
          congrArg (fun bytes : Bytes => (bytes.drop offset).take count)
            stretch
      _ = (plaintext.drop reader.plaintextPosition).take count := by
          rw [List.drop_take, List.drop_drop, joined, List.take_take,
            Nat.min_eq_left within]
      _ = _ := by rw [exact]

/-- `read` returns the next bytes and moves past them; a failed one moves
nothing. -/
theorem Coherent.read_spec
    (coherent : reader.Coherent platform message)
    (agree : platform.OpensAgree)
    (describes : message.Describes platform plaintext) :
    ∃ result after written,
      reader.read platform output = (result, after, written) ∧
        after.Coherent platform message ∧
        (reader.inner.Honest → after.inner.Honest) ∧ result.Returns ∧
        (∀ count, result = .ok count →
          ReadsNext plaintext output reader.plaintextPosition count written ∧
            after.plaintextPosition = reader.plaintextPosition + count) ∧
        ∀ stop, result = .error stop →
          after.plaintextPosition = reader.plaintextPosition := by
  have length := describes.length
  have idle (reason : plaintext.length ≤ reader.plaintextPosition ∨
      output = []) :
      ReadsNext plaintext output reader.plaintextPosition 0 output :=
    ⟨filled_zero _ _ _, Nat.zero_le _, Nat.zero_le _, .inr reason⟩
  unfold Reader.read
  by_cases empty : output = []
  · rw [if_pos empty]
    refine ⟨.ok 0, reader, output, rfl, coherent, id, Outcome.returns_ok _,
      ?_, by simp⟩
    intro count same
    cases same
    exact ⟨idle (.inr empty), rfl⟩
  rw [if_neg empty, coherent.plaintextLength_eq]
  by_cases past : reader.plaintextPosition ≥ message.layout.plaintextLength
  · rw [if_pos past]
    refine ⟨.ok 0, reader, output, rfl, coherent, id, Outcome.returns_ok _,
      ?_, by simp⟩
    intro count same
    cases same
    exact ⟨idle (.inl (by omega)), rfl⟩
  rw [if_neg past]
  have before :
      reader.plaintextPosition < message.layout.plaintextLength :=
    Nat.lt_of_not_le past
  have turn := (@loopAt_first message reader.plaintextPosition
    (reader.plaintextPosition + 1) (Nat.lt_succ_self _) before)
  rw [Nat.add_sub_cancel, Nat.add_sub_cancel_left] at turn
  obtain ⟨⟨inside, below, above, _, _⟩, _⟩ := turn
  rw [Nat.add_zero] at below above
  simp only [MessageLayout.positionForPlaintextOffset, coherent.layout]
  generalize
    reader.plaintextPosition /
      message.layout.parameters.plaintextSegmentLength = position
    at inside below above ⊢
  have found :
      reader.segment platform position =
        .ok (message.layout.entry position) := by
    rcases coherent.segment_spec position with ⟨_, found⟩ | ⟨outside, _⟩
    · exact found
    · exact (Nat.not_le.mpr inside outside).elim
  simp only [found]
  obtain ⟨result, after, loaded, keeps, returns, cached, _⟩ :=
    coherent.loadCachedSegment_spec agree inside
  simp only [loaded]
  cases result with
  | error stop =>
      refine ⟨.error stop, after, output, rfl, keeps.coherent, keeps.honest,
        ?_, by simp, fun _ _ => keeps.position⟩
      exact returns.of_error
  | ok _ =>
      obtain ⟨opened, opens, holds⟩ := cached rfl
      rw [← opens.length_eq] at above
      rw [← keeps.position] at below above
      obtain ⟨chunk, cut, stretch, positive, room, reached⟩ :=
        @readChunk_eq platform message after plaintext output opened _
          describes opens holds below above empty
      rw [keeps.position] at stretch reached below above
      have bounds := (message.valid.entry_bounds inside).1
      rw [← opens.length_eq] at bounds
      have whole := message.valid.ciphertext_eq
      have representable := message.valid.representable
      have moved :
          reader.plaintextPosition + chunk.length ≤ u64Max := by
        omega
      have copied :
          (copyRange output 0 chunk.length chunk : IoResult Bytes) =
            .ok (writeBack output 0 chunk) :=
        copyRange_eq (Nat.zero_le _) room (Nat.sub_zero _).symm
      simp only [cut, Outcome.ok_bind, copied, keeps.position,
        add_eq moved]
      refine ⟨.ok chunk.length, _, _, rfl, { keeps.coherent with },
        keeps.honest, Outcome.returns_ok _, ?_, by simp⟩
      intro count same
      cases same
      refine ⟨⟨?_, room, by omega, .inl positive⟩, rfl⟩
      have filled :=
        (filled_zero plaintext output reader.plaintextPosition).writeBack
          (show reader.plaintextPosition + 0 ≤ plaintext.length by omega)
          stretch
      rwa [Nat.zero_add] at filled

end Calls

end Reader

end FastFloe
