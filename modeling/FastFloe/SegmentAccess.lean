import FastFloe.RandomAccess
import FastFloe.Reading
import FastFloe.StoredMessages

namespace FastFloe

open Rust

/-!
# Segment access of the seekable reader

The reader's two caches are coherent when the scratch buffer holds the plaintext
of the segment that `cachedPosition` names, and the wrapped reader stands where
`innerPosition` says.  Every access to a segment keeps them coherent, whether it
succeeds or stops at any of its error exits.
-/

/-- A reader over the stored message whose caches are coherent. -/
structure Reader.Coherent (platform : Platform) (message : StoredMessage)
    (reader : Reader) : Prop where
  data : reader.inner.data = message.data
  state : reader.state.Ready platform message.context
  layout : reader.layout = message.layout
  start : reader.messageStart = message.start
  sized : reader.scratch.Sized
  parameters : reader.scratch.parameters = message.context.parameters
  cached : ∀ position, reader.cachedPosition = some position →
    ∃ plaintext, message.OpensAt platform position plaintext ∧
      reader.scratch.HoldsPlaintext plaintext
  tracked : ∀ offset, reader.innerPosition = some offset →
    reader.inner.cursor = offset

/-- What every access keeps: the caches coherent, the logical position, and
the honesty of the wrapped reader. -/
structure Reader.Keeps (platform : Platform) (message : StoredMessage)
    (before after : Reader) : Prop where
  coherent : after.Coherent platform message
  position : after.plaintextPosition = before.plaintextPosition
  honest : before.inner.Honest → after.inner.Honest

namespace Reader

theorem Keeps.refl
    {platform : Platform}
    {message : StoredMessage}
    {reader : Reader}
    (coherent : reader.Coherent platform message) :
    reader.Keeps platform message reader :=
  ⟨coherent, rfl, id⟩

theorem Keeps.trans
    {platform : Platform}
    {message : StoredMessage}
    {first second third : Reader}
    (earlier : first.Keeps platform message second)
    (later : second.Keeps platform message third) :
    first.Keeps platform message third :=
  ⟨later.coherent, later.position.trans earlier.position,
    later.honest ∘ earlier.honest⟩

section Access

variable {platform : Platform} {message : StoredMessage} {reader : Reader}
  {position : Nat}

/-- Forgetting the cached segment. -/
theorem Coherent.invalidated
    (coherent : reader.Coherent platform message) :
    { reader with cachedPosition := none }.Coherent platform message :=
  { coherent with cached := by simp }

/-- `segment` finds the entries of the layout. -/
theorem Coherent.segment_spec
    (coherent : reader.Coherent platform message)
    (position : Nat) :
    (position < message.layout.segmentCount ∧
        reader.segment platform position =
          .ok (message.layout.entry position)) ∨
      (message.layout.segmentCount ≤ position ∧
        ∃ error,
          reader.segment platform position = .error (.err error)) := by
  unfold Reader.segment
  rw [coherent.layout]
  by_cases inside : position < message.layout.segmentCount
  · rw [message.valid.segmentForPosition_eq platform.target inside]
    exact .inl ⟨inside, rfl⟩
  · rw [MessageLayout.segmentForPosition_none platform.target
      (Nat.le_of_not_lt inside)]
    exact .inr ⟨Nat.le_of_not_lt inside, _, rfl⟩

/-- `seek_inner_to` leaves the wrapped reader at its offset, or reports the
seek's error. -/
theorem Coherent.seekInnerTo_spec
    (coherent : reader.Coherent platform message)
    (offset : Nat) :
    ∃ result after,
      reader.seekInnerTo offset = (result, after) ∧
        reader.Keeps platform message after ∧
        after.cachedPosition = reader.cachedPosition ∧ result.Returns ∧
        (result = .ok () → after.innerPosition = some offset) ∧
        (reader.inner.Honest → result = .ok ()) := by
  unfold seekInnerTo
  by_cases there : reader.innerPosition = some offset
  · exact ⟨.ok (), reader, by simp [there], .refl coherent, rfl,
      Outcome.returns_ok _, fun _ => there, fun _ => rfl⟩
  · simp only [there, ↓reduceIte]
    have data := reader.inner.seekTo_data offset
    unfold Source.seekStart
    cases sought : reader.inner.seekTo offset with
    | mk result inner =>
        rw [sought] at data
        have kept : inner.data = message.data := data.trans coherent.data
        cases result with
        | ok landed =>
            obtain ⟨_, cursor⟩ := Source.seekTo_ok sought
            refine ⟨.ok (), _, rfl, ⟨{ coherent with
              data := kept
              tracked := ?_ }, rfl, ?_⟩, rfl, Outcome.returns_ok _,
              fun _ => rfl, fun _ => rfl⟩
            · intro other same
              cases same
              exact cursor
            · intro honest
              obtain ⟨moved, shape, stillHonest, _⟩ := honest.seekTo offset
              rw [shape] at sought
              cases sought
              exact stillHonest
        | error stop =>
            have returns := reader.inner.seekTo_returns offset
            rw [sought] at returns
            obtain ⟨error, rfl⟩ := returns.stop_eq_err
            have dishonest : ¬ reader.inner.Honest := by
              intro honest
              obtain ⟨moved, shape, _⟩ := honest.seekTo offset
              rw [shape] at sought
              cases sought
            exact ⟨.error (.err error), _, rfl, ⟨{ coherent with
              data := kept
              tracked := by simp }, rfl,
              fun honest => (dishonest honest).elim⟩, rfl,
              Outcome.returns_err _, by simp,
              fun honest => (dishonest honest).elim⟩

/-- Seeking to an offset behind the start of the message. -/
theorem Coherent.seekPast_spec
    (coherent : reader.Coherent platform message)
    (offset : Nat) :
    ∃ result after,
      (match checkedAdd u64Max reader.messageStart offset with
        | none => (.error (.err lengthOverflow), reader)
        | some target => reader.seekInnerTo target :
          IoResult Unit × Reader) = (result, after) ∧
        reader.Keeps platform message after ∧
        after.cachedPosition = reader.cachedPosition ∧ result.Returns ∧
        (result = .ok () →
          after.innerPosition = some (message.start + offset)) ∧
        (reader.inner.Honest → message.start + offset ≤ u64Max →
          result = .ok ()) := by
  rw [coherent.start]
  by_cases fits : message.start + offset ≤ u64Max
  · simp only [checkedAdd, fits, ↓reduceIte]
    obtain ⟨result, after, sought, keeps, cached, returns, landed, honest⟩ :=
      coherent.seekInnerTo_spec (message.start + offset)
    exact ⟨result, after, sought, keeps, cached, returns, landed,
      fun isHonest _ => honest isHonest⟩
  · exact ⟨.error (.err lengthOverflow), reader,
      by simp [checkedAdd, fits], .refl coherent, rfl,
      Outcome.returns_err _, by simp,
      fun _ impossible => (fits impossible).elim⟩

/-- `seek_to_segment`. -/
theorem Coherent.seekToSegment_spec
    (coherent : reader.Coherent platform message)
    (entry : SegmentLayout) :
    ∃ result after,
      reader.seekToSegment entry = (result, after) ∧
        reader.Keeps platform message after ∧
        after.cachedPosition = reader.cachedPosition ∧ result.Returns ∧
        (result = .ok () →
          after.innerPosition =
            some (message.start + entry.ciphertextOffset)) ∧
        (reader.inner.Honest →
          message.start + entry.ciphertextOffset ≤ u64Max →
            result = .ok ()) :=
  coherent.seekPast_spec entry.ciphertextOffset

/-- `seek_to_body_start`. -/
theorem Coherent.seekToBodyStart_spec
    (coherent : reader.Coherent platform message) :
    ∃ result after,
      reader.seekToBodyStart = (result, after) ∧
        reader.Keeps platform message after ∧
        after.cachedPosition = reader.cachedPosition ∧ result.Returns ∧
        (result = .ok () →
          after.innerPosition = some (message.start + headerLength)) ∧
        (reader.inner.Honest → message.start + headerLength ≤ u64Max →
          result = .ok ()) :=
  coherent.seekPast_spec headerLength

/-- `prepare_ciphertext` makes room for a segment of the layout. -/
theorem prepareEntry
    {buffer : SegmentBuffer}
    (message : StoredMessage)
    (position : Nat)
    (sized : buffer.Sized)
    (parameters : buffer.parameters = message.context.parameters) :
    ∃ region,
      buffer.prepareCiphertext
          (message.layout.entry position).ciphertextLength =
        (.ok region, buffer.markCiphertext
          (message.layout.entry position).ciphertextLength) ∧
      region.length = (message.layout.entry position).ciphertextLength ∧
      (message.layout.entry position).ciphertextLength ≤
        buffer.bytes.length := by
  have size := message.layout.parameters.plaintextSegmentLength_add
  obtain ⟨prepared, inside⟩ := sized.prepareCiphertext
    (show segmentOverhead ≤ (message.layout.entry position).ciphertextLength by
      rw [segmentOverhead_eq]
      exact Nat.le_add_left _ _)
    (by
      rw [parameters, ← message.matching]
      simp only [MessageLayout.entry]
      omega)
  exact ⟨_, prepared, by rw [List.length_take, Nat.min_eq_left inside], inside⟩

/-- `fetch_segment_ciphertext` puts the complete stored segment into the
scratch buffer, or reports an error; either way nothing stays cached. -/
theorem Coherent.fetchSegmentCiphertext_spec
    (coherent : reader.Coherent platform message)
    (position : Nat) :
    ∃ result after,
      reader.fetchSegmentCiphertext (message.layout.entry position) =
          (result, after) ∧
        reader.Keeps platform message after ∧
        after.cachedPosition = none ∧ result.Returns ∧
        (result = .ok () →
          after.scratch.HoldsCiphertext (message.segment position) ∧
            (message.segment position).length =
              (message.layout.entry position).ciphertextLength) ∧
        (reader.inner.Honest →
          (message.segment position).length =
              (message.layout.entry position).ciphertextLength →
            result = .ok ()) := by
  unfold fetchSegmentCiphertext
  obtain ⟨result, sought, step, keeps, cached, returns, landed, honest⟩ :=
    coherent.invalidated.seekToSegment_spec (message.layout.entry position)
  have started : reader.Keeps platform message sought :=
    ⟨keeps.coherent, keeps.position, keeps.honest⟩
  have positive :
      32 ≤ (message.layout.entry position).ciphertextLength :=
    Nat.le_add_left _ _
  rw [step]
  cases result with
  | error stop =>
      refine ⟨.error stop, sought, rfl, started, cached, returns, by simp, ?_⟩
      intro isHonest complete
      have addressable := reader.inner.addressable
      rw [coherent.data] at addressable
      rw [StoredMessage.segment, List.length_take,
        List.length_drop] at complete
      exact honest isHonest (by omega)
  | ok _ =>
      have here := landed rfl
      have stands := keeps.coherent.tracked _ here
      obtain ⟨region, prepared, regionLength, room⟩ :=
        prepareEntry message position keeps.coherent.sized
          keeps.coherent.parameters
      obtain ⟨result, written, inner, read, data, length, returns, filled,
          isHonest⟩ := readExactSegment_spec sought.inner region
      rw [regionLength] at length filled isHonest
      have place :
          sought.inner.remaining.take
              (message.layout.entry position).ciphertextLength =
            message.segment position := by
        rw [Source.remaining, keeps.coherent.data, stands]
        rfl
      rw [place] at filled
      have sized :
          ((sought.scratch.markCiphertext
              (message.layout.entry position).ciphertextLength).withRaw
            (writeBack sought.scratch.bytes 0 written)).Sized := by
        have sized := keeps.coherent.sized
        unfold SegmentBuffer.Sized at sized ⊢
        exact (length_writeBack (by omega)).trans sized
      simp only [prepared, SegmentBuffer.markCiphertext, read]
      cases result with
      | error stop =>
          refine ⟨.error stop, _, rfl, ⟨{ keeps.coherent with
            data := data.trans keeps.coherent.data
            sized := sized
            cached := ?_
            tracked := by simp }, started.position, ?_⟩, cached, returns, by simp,
            ?_⟩
          · intro other impossible
            rw [cached] at impossible
            cases impossible
          · exact fun initially => (isHonest (keeps.honest initially)).1
          · intro initially complete
            refine (isHonest (keeps.honest initially)).2 ?_
            rw [← place, List.length_take] at complete
            omega
      | ok _ =>
          obtain ⟨same, exact, cursor⟩ := filled rfl
          refine ⟨.ok (), _, rfl, ⟨{ keeps.coherent with
            data := data.trans keeps.coherent.data
            sized := sized
            cached := ?_
            tracked := ?_ }, started.position, ?_⟩, cached,
            Outcome.returns_ok _, ?_, fun _ _ => rfl⟩
          · intro other impossible
            rw [cached] at impossible
            cases impossible
          · intro offset tracked
            simp only [here, Option.bind_some, checkedAdd] at tracked
            split at tracked
            · cases tracked
              rw [cursor, stands]
            · cases tracked
          · exact fun initially => (isHonest (keeps.honest initially)).1
          · intro _
            rw [← same]
            refine ⟨?_, exact⟩
            have holds := SegmentBuffer.Sized.holdsCiphertext keeps.coherent.sized
              (show written.length ≤ sought.scratch.bytes.length by omega)
            rw [exact] at holds
            exact holds

/-- `load_segment` caches the opened segment, or reports an error and caches
nothing. -/
theorem Coherent.loadSegment_spec
    (coherent : reader.Coherent platform message)
    (agree : platform.OpensAgree)
    (inside : position < message.layout.segmentCount) :
    ∃ result after,
      reader.loadSegment platform (message.layout.entry position) =
          (result, after) ∧
        reader.Keeps platform message after ∧ result.Returns ∧
        (result = .ok () → after.cachedPosition = some position) ∧
        (reader.inner.Honest →
          (∃ plaintext, message.OpensAt platform position plaintext) →
            result = .ok ()) := by
  unfold loadSegment
  obtain ⟨result, fetched, step, keeps, cached, returns, holds, honest⟩ :=
    coherent.fetchSegmentCiphertext_spec position
  rw [step]
  cases result with
  | error stop =>
      refine ⟨.error stop, fetched, rfl, keeps, returns, by simp, ?_⟩
      rintro isHonest ⟨plaintext, opens⟩
      exact honest isHonest opens.complete
  | ok _ =>
      obtain ⟨holds, complete⟩ := holds rfl
      have fits : LayoutFits message.context (message.layout.entry position)
          (message.segment position).length :=
        ⟨message.matching, complete⟩
      obtain ⟨state, ready, success | failure⟩ :=
        @DecryptionState.decryptSegmentInPlace_spec platform
          platform.kdfExpand message.context fetched.state
          (message.segment position) (message.layout.entry position)
          fetched.scratch (.refl _) agree keeps.coherent.state holds
      · obtain ⟨plaintext, scratch, _, _, opens, opened, held, parameters⟩ :=
          success
        have opensAt : message.OpensAt platform position plaintext :=
          ⟨inside, complete, opens⟩
        have opened' :
            fetched.state.decryptSegmentInPlace platform fetched.scratch
                (message.layout.entry position) =
              (.ok plaintext, scratch, state) :=
          opened
        simp only [opened']
        refine ⟨.ok (), _, rfl, ⟨{ keeps.coherent with
          state := ready
          sized := held.sized
          parameters := parameters.trans keeps.coherent.parameters
          cached := ?_ }, keeps.position, keeps.honest⟩,
          Outcome.returns_ok _, fun _ => rfl, fun _ _ => rfl⟩
        intro other same
        cases same
        exact ⟨plaintext, opensAt, held⟩
      · obtain ⟨error, scratch, closed, failed, sized, parameters⟩ := failure
        have failed' :
            fetched.state.decryptSegmentInPlace platform fetched.scratch
                (message.layout.entry position) =
              (.error (.err error), scratch, state) :=
          failed
        simp only [failed']
        refine ⟨_, _, rfl, ⟨{ keeps.coherent with
          state := ready
          sized := sized
          parameters := parameters.trans keeps.coherent.parameters
          cached := ?_ }, keeps.position, keeps.honest⟩,
          Outcome.returns_err _, by simp, ?_⟩
        · intro other impossible
          simp only [cached] at impossible
          cases impossible
        · rintro _ ⟨plaintext, opens⟩
          exact (closed fits keeps.coherent.parameters plaintext
            opens.opens).elim

/-- `load_cached_segment` has the segment cached, or reports an error. -/
theorem Coherent.loadCachedSegment_spec
    (coherent : reader.Coherent platform message)
    (agree : platform.OpensAgree)
    (inside : position < message.layout.segmentCount) :
    ∃ result after,
      reader.loadCachedSegment platform (message.layout.entry position) =
          (result, after) ∧
        reader.Keeps platform message after ∧ result.Returns ∧
        (result = .ok () →
          ∃ plaintext, message.OpensAt platform position plaintext ∧
            after.scratch.HoldsPlaintext plaintext) ∧
        (reader.inner.Honest →
          (∃ plaintext, message.OpensAt platform position plaintext) →
            result = .ok ()) := by
  unfold loadCachedSegment
  by_cases loaded : reader.cachedPosition = some position
  · exact ⟨.ok (), reader, if_pos loaded, .refl coherent,
      Outcome.returns_ok _, fun _ => coherent.cached position loaded,
      fun _ _ => rfl⟩
  · obtain ⟨result, after, step, keeps, returns, cached, honest⟩ :=
      coherent.loadSegment_spec agree inside
    exact ⟨result, after, (if_neg loaded).trans step, keeps, returns,
      fun ok => keeps.coherent.cached position (cached ok), honest⟩

/-- `decrypt_segment_direct` opens the segment into its output, or reports an
error. -/
theorem Coherent.decryptSegmentDirect_spec
    {output : Bytes}
    (coherent : reader.Coherent platform message)
    (agree : platform.OpensAgree)
    (inside : position < message.layout.segmentCount)
    (exact :
      output.length = (message.layout.entry position).plaintextLength) :
    ∃ result after written,
      reader.decryptSegmentDirect platform (message.layout.entry position)
          output = (result, after, written) ∧
        reader.Keeps platform message after ∧ result.Returns ∧
        written.length = output.length ∧
        (result = .ok () → message.OpensAt platform position written) ∧
        (reader.inner.Honest →
          (∃ plaintext, message.OpensAt platform position plaintext) →
            result = .ok ()) := by
  unfold decryptSegmentDirect
  obtain ⟨result, fetched, step, keeps, cached, returns, holds, honest⟩ :=
    coherent.fetchSegmentCiphertext_spec position
  rw [step]
  cases result with
  | error stop =>
      refine ⟨.error stop, fetched, output, rfl, keeps, returns, rfl, by simp,
        ?_⟩
      rintro isHonest ⟨plaintext, opens⟩
      exact honest isHonest opens.complete
  | ok _ =>
      obtain ⟨holds, complete⟩ := holds rfl
      have fits : LayoutFits message.context (message.layout.entry position)
          (message.segment position).length :=
        ⟨message.matching, complete⟩
      simp only [holds.ciphertext_eq]
      obtain ⟨state, ready, success | failure⟩ :=
        @DecryptionState.decryptSegmentInto_spec platform platform.kdfExpand
          message.context fetched.state (message.segment position) output
          (message.layout.entry position) (.refl _) keeps.coherent.state
          (.inl agree)
      · obtain ⟨plaintext, _, opens, _, opened⟩ := success
        have opensAt : message.OpensAt platform position plaintext :=
          ⟨inside, complete, opens⟩
        have length := opensAt.length_eq
        have opened' :
            fetched.state.decryptSegmentInto platform
                (message.segment position) (message.layout.entry position)
                output = (.ok plaintext.length, state, plaintext) := by
          refine Eq.trans opened ?_
          rw [List.drop_eq_nil_of_le (by omega), List.append_nil]
        simp only [opened']
        exact ⟨.ok (), _, plaintext, rfl, ⟨{ keeps.coherent with
          state := ready }, keeps.position, keeps.honest⟩,
          Outcome.returns_ok _, by omega, fun _ => opensAt, fun _ _ => rfl⟩
      · obtain ⟨error, written, closed, failed, length⟩ := failure
        have failed' :
            fetched.state.decryptSegmentInto platform
                (message.segment position) (message.layout.entry position)
                output = (.error (.err error), state, written) :=
          failed
        simp only [failed']
        refine ⟨_, _, written, rfl, ⟨{ keeps.coherent with
          state := ready }, keeps.position, keeps.honest⟩,
          Outcome.returns_err _, length, by simp, ?_⟩
        rintro _ ⟨plaintext, opens⟩
        have short := closed fits plaintext opens.opens
        have kept := opens.length_eq
        omega

end Access

end Reader

end FastFloe
