import FastFloe.ManualEncryption
import FastFloe.SegmentAccess
import FastFloe.WorkerPools

namespace FastFloe

open Rust

/-!
# Decrypting a file segment by segment

The other loop of `manual_file` takes the length of its input for that of the
message and decrypts the segments where the layout of this length has them.  It
accepts the files that `decrypt_with_parameters` accepts; where it fails, it has
written the beginning of a plaintext that was authenticated.
-/

namespace ManualFile

section Decryption

variable {platform : Platform} {context : MessageContext}
  {layout : MessageLayout} {ciphertext : Bytes} {position : Nat}
  {decryption : DecryptionState} {buffer : SegmentBuffer}
  {input : Source IoPayload}

/-- The loop of `decrypt_file` before the segment at a position. -/
structure Decrypting (platform : Platform) (context : MessageContext)
    (layout : MessageLayout) (ciphertext : Bytes) (position : Nat)
    (decryption : DecryptionState) (buffer : SegmentBuffer)
    (input : Source IoPayload) : Prop where
  ready : decryption.Ready platform context
  sized : buffer.Sized
  parameters : buffer.parameters = context.parameters
  left : input.remaining = ciphertext.drop (layout.reach position)

/-- The read of the next segment: an honest source fills the buffer with the
segment that the layout has here, and stands behind it. -/
theorem Decrypting.readEntry
    (valid : layout.Valid)
    (matching : layout.parameters = context.parameters)
    (whole : ciphertext.length = layout.ciphertextLength)
    (inside : position < layout.segmentCount)
    (decrypting :
      Decrypting platform context layout ciphertext position decryption buffer
        input) :
    ∃ region result filled following,
      buffer.prepareCiphertext (layout.entry position).ciphertextLength =
          (.ok region,
            buffer.markCiphertext
              (layout.entry position).ciphertextLength) ∧
        readExact input region = (result, filled, following) ∧
        result.Returns ∧
        (input.Honest → result = .ok () ∧ following.Honest) ∧
        (result = .ok () →
          ((buffer.markCiphertext
                (layout.entry position).ciphertextLength).withRaw
              (writeBack
                (buffer.markCiphertext
                  (layout.entry position).ciphertextLength).bytes 0
                filled)).HoldsCiphertext
              ((layout.entry position).segment ciphertext) ∧
            following.remaining =
              ciphertext.drop (layout.reach (position + 1))) := by
  have ends := (valid.entry_bounds inside).2
  have starts := valid.reach_eq inside
  obtain ⟨region, prepared, length, room⟩ :
      ∃ region,
        buffer.prepareCiphertext (layout.entry position).ciphertextLength =
            (.ok region,
              buffer.markCiphertext
                (layout.entry position).ciphertextLength) ∧
          region.length = (layout.entry position).ciphertextLength ∧
          (layout.entry position).ciphertextLength ≤ buffer.bytes.length :=
    Reader.prepareEntry ⟨context, layout, [], 0, valid, matching⟩ position
      decrypting.sized decrypting.parameters
  obtain ⟨result, filled, following, read, returns, exactly, honest⟩ :=
    readExact_spec input region
  have enough : region.length ≤ input.remaining.length := by
    rw [length, decrypting.left, List.length_drop, starts, whole]
    omega
  refine ⟨region, result, filled, following, prepared, read, returns,
    fun isHonest => honest isHonest enough, fun ok => ?_⟩
  obtain ⟨filledLength, taken⟩ := exactly ok
  rw [decrypting.left] at taken
  have sameLength :
      filled.length = (layout.entry position).ciphertextLength :=
    filledLength.trans length
  have content : filled = (layout.entry position).segment ciphertext := by
    rw [SegmentLayout.segment, ← starts, ← sameLength, ← taken,
      List.take_left]
  have holds := decrypting.sized.holdsCiphertext
    (show filled.length ≤ _ by rw [sameLength]; exact room)
  rw [sameLength] at holds
  refine ⟨content ▸ holds, ?_⟩
  rw [valid.reach_succ inside, ← List.drop_drop, ← taken, ← sameLength,
    List.drop_left]

/-- One turn of the loop of `decrypt_file`: it appends what the next segment
opens to and goes on, or fails with at most a part of that written. -/
theorem Decrypting.turn
    (agree : platform.OpensAgree)
    (valid : layout.Valid)
    (matching : layout.parameters = context.parameters)
    (whole : ciphertext.length = layout.ciphertextLength)
    (inside : position < layout.segmentCount)
    (decrypting :
      Decrypting platform context layout ciphertext position decryption buffer
        input)
    (fuel : Nat)
    (output : Sink IoPayload) :
    (∃ payload next after following written,
        context.Opens platform position (layout.entry position).kind
            ((layout.entry position).segment ciphertext) payload ∧
          decryptLoop platform (fuel + 1)
              ⟨layout, position, layout.segmentCount⟩ decryption buffer input
              output =
            decryptLoop platform fuel
              ⟨layout, position + 1, layout.segmentCount⟩ next after following
              written ∧
          Decrypting platform context layout ciphertext (position + 1) next
            after following ∧
          written.accepted = output.accepted ++ payload ∧
          (input.Honest → following.Honest) ∧
          (output.Reliable → written.Reliable)) ∨
      ∃ error written,
        decryptLoop platform (fuel + 1)
              ⟨layout, position, layout.segmentCount⟩ decryption buffer input
              output =
            (.error (.err error), written) ∧
          ((written.accepted = output.accepted ∧
              (input.Honest → ∀ payload,
                ¬ context.Opens platform position (layout.entry position).kind
                  ((layout.entry position).segment ciphertext) payload)) ∨
            ∃ payload part,
              context.Opens platform position (layout.entry position).kind
                  ((layout.entry position).segment ciphertext) payload ∧
                part <+: payload ∧
                written.accepted = output.accepted ++ part ∧
                ¬ output.Reliable) := by
  obtain ⟨region, result, filled, following, prepared, read, returns, honest,
      exactly⟩ :=
    decrypting.readEntry valid matching whole inside
  have fits :
      LayoutFits context (layout.entry position)
        ((layout.entry position).segment ciphertext).length := by
    have ends := (valid.entry_bounds inside).2
    refine ⟨matching, ?_⟩
    rw [SegmentLayout.segment, List.length_take, List.length_drop, whole]
    omega
  cases result with
  | error stop =>
      obtain ⟨error, rfl⟩ := returns.stop_eq_err
      right
      refine ⟨.io error, output, ?_, .inl ⟨rfl, fun isHonest => ?_⟩⟩
      · simp only [decryptLoop, valid.next_eq, inside, ↓reduceIte, prepared,
          read, Outcome.mapErr]
      · cases (honest isHonest).1
  | ok _ =>
      obtain ⟨holds, rest⟩ := exactly rfl
      obtain ⟨next, ready, ⟨payload, after, _, _, opens, result, opened, same⟩ |
          ⟨error, failed, closed, result, _⟩⟩ :=
        @DecryptionState.decryptSegmentInPlace_spec platform platform.kdfExpand
          context decryption _ (layout.entry position) _
          (Kdf.FaultOf.refl platform.kdfExpand) agree decrypting.ready holds
      · rcases output.writeAll_cases payload with
          ⟨written, wrote, accepted, steady⟩ |
            ⟨error, written, part, wrote, lead, accepted, unreliable⟩
        · left
          refine ⟨payload, next, after, following, written, opens, ?_,
            ⟨ready, opened.sized, same.trans decrypting.parameters, rest⟩,
            accepted, fun isHonest => (honest isHonest).2, steady⟩
          simp only [decryptLoop, valid.next_eq, inside, ↓reduceIte, prepared,
            read]
          simp only [show decryption.decryptSegmentInPlace platform _ _ = _
            from result, wrote]
        · right
          refine ⟨.io error, written, ?_, .inr ⟨payload, part, opens, lead,
            accepted, unreliable⟩⟩
          simp only [decryptLoop, valid.next_eq, inside, ↓reduceIte, prepared,
            read]
          simp only [show decryption.decryptSegmentInPlace platform _ _ = _
            from result, wrote, Outcome.mapErr]
      · right
        refine ⟨.floe error, output, ?_, .inl ⟨rfl, fun _ payload opens =>
          closed fits decrypting.parameters payload opens⟩⟩
        simp only [decryptLoop, valid.next_eq, inside, ↓reduceIte, prepared,
          read]
        simp only [show decryption.decryptSegmentInPlace platform _ _ = _
          from result, Outcome.mapErr]

/-- A payload that opens is the next frame of the body. -/
theorem passed_entry
    {body payload : Bytes}
    {payloads : List Bytes}
    (valid : layout.Valid)
    (whole : ciphertext.length = layout.ciphertextLength)
    (inside : position < layout.segmentCount)
    (passed :
      (segmentStream platform context).Passed 0 body payloads false
        (ciphertext.drop (layout.reach position)))
    (count : payloads.length = position)
    (opens :
      context.Opens platform position (layout.entry position).kind
        ((layout.entry position).segment ciphertext) payload) :
    (segmentStream platform context).Passed 0 body (payloads ++ [payload])
      (decide (position + 1 = layout.segmentCount))
      (ciphertext.drop (layout.reach (position + 1))) := by
  have isFrame := isFrame_iff.mpr ⟨valid.positionAllows inside, opens⟩
  have starts := valid.reach_eq inside
  have ends := (valid.entry_bounds inside).2
  have length : ((layout.entry position).segment ciphertext).length =
      (layout.entry position).ciphertextLength := by
    rw [SegmentLayout.segment, List.length_take, List.length_drop, whole]
    omega
  have split : ciphertext.drop (layout.reach position) =
      (layout.entry position).segment ciphertext ++
        ciphertext.drop (layout.reach (position + 1)) := by
    rw [valid.reach_succ inside, ← List.drop_drop, starts,
      SegmentLayout.segment, List.take_append_drop]
  have parsed := isFrame.parse_append
    (ciphertext.drop (layout.reach (position + 1)))
  rw [split] at passed
  have longer := passed.next (by
    rw [Nat.zero_add, count]
    exact parsed)
  rwa [List.drop_left, MessageLayout.isFinal_entry] at longer

/-- The loop of `decrypt_file` comes back, having written a beginning of what
the segments open to.  Where it succeeds, it has read the whole message and
written all of it; it succeeds where all segments open and the calls to the
system succeed. -/
theorem Decrypting.decryptLoop_spec
    {body : Bytes}
    {payloads : List Bytes}
    {output : Sink IoPayload}
    {fuel left : Nat}
    (agree : platform.OpensAgree)
    (valid : layout.Valid)
    (matching : layout.parameters = context.parameters)
    (whole : ciphertext.length = layout.ciphertextLength)
    (here : position + left = layout.segmentCount)
    (enough : left < fuel)
    (decrypting :
      Decrypting platform context layout ciphertext position decryption buffer
        input)
    (passed :
      (segmentStream platform context).Passed 0 body payloads
        (decide (position = layout.segmentCount))
        (ciphertext.drop (layout.reach position)))
    (count : payloads.length = position)
    (accepted : output.accepted = payloads.flatten) :
    ∃ result after all ended rest,
      decryptLoop platform fuel ⟨layout, position, layout.segmentCount⟩
          decryption buffer input output =
          (result, after) ∧
        result.Returns ∧
        (segmentStream platform context).Passed 0 body all ended rest ∧
        after.accepted <+: all.flatten ∧
        (result = .ok () →
          after.accepted = all.flatten ∧ ended = true ∧ rest = []) ∧
        (input.Honest → output.Reliable →
          (∀ index, position ≤ index → index < layout.segmentCount →
            ∃ payload,
              context.Opens platform index (layout.entry index).kind
                ((layout.entry index).segment ciphertext) payload) →
          result = .ok ()) := by
  induction left generalizing position decryption buffer input output payloads
      fuel with
  | zero =>
      obtain ⟨fuel, rfl⟩ : ∃ more, fuel = more + 1 := ⟨fuel - 1, by omega⟩
      have done : ¬ position < layout.segmentCount := by omega
      have last : position = layout.segmentCount := here
      rw [decide_eq_true last] at passed
      refine ⟨.ok (), output, payloads, true, _, ?_, Outcome.returns_ok _,
        passed, ?_, fun _ => ⟨accepted, rfl, ?_⟩, fun _ _ _ => rfl⟩
      · simp only [decryptLoop, valid.next_eq, done, ↓reduceIte]
      · exact accepted ▸ List.prefix_rfl
      · rw [last, valid.reach_last, ← whole, List.drop_length]
  | succ left inductionHypothesis =>
      obtain ⟨fuel, rfl⟩ : ∃ more, fuel = more + 1 := ⟨fuel - 1, by omega⟩
      have inside : position < layout.segmentCount := by omega
      have unfinished : decide (position = layout.segmentCount) = false :=
        decide_eq_false (Nat.ne_of_lt inside)
      rw [unfinished] at passed
      have further {payload : Bytes}
          (opens :
            context.Opens platform position (layout.entry position).kind
              ((layout.entry position).segment ciphertext) payload) :=
        passed_entry valid whole inside passed count opens
      rcases decrypting.turn agree valid matching whole inside fuel output with
        ⟨payload, next, after, following, written, opens, goesOn, onward,
          longer, honest, reliable⟩ | ⟨error, written, failed, stopped⟩
      · obtain ⟨result, final, all, ended, rest, looped, returns, passedAll,
            isPrefix, complete, succeeds⟩ :=
          @inductionHypothesis _ _ _ _ (payloads ++ [payload]) written fuel
            (by omega) (by omega) onward (further opens)
            (by rw [List.length_append, count, List.length_singleton])
            (by
              rw [longer, accepted, List.flatten_append,
                List.flatten_singleton])
        exact ⟨result, final, all, ended, rest, goesOn.trans looped, returns,
          passedAll, isPrefix, complete,
          fun isHonest isReliable open' =>
            succeeds (honest isHonest) (reliable isReliable)
              fun index later => open' index (by omega)⟩
      · rcases stopped with ⟨unchanged, closed⟩ |
            ⟨payload, part, opens, begins, longer, unreliable⟩
        · refine ⟨_, written, payloads, false, _, failed,
            Outcome.returns_err _, passed, ?_,
            (fun impossible => by cases impossible),
            fun isHonest _ open' => ?_⟩
          · exact (unchanged.trans accepted) ▸ List.prefix_rfl
          · obtain ⟨payload, opens⟩ :=
              open' position (Nat.le_refl _) inside
            exact (closed isHonest payload opens).elim
        · refine ⟨_, written, payloads ++ [payload], _, _, failed,
            Outcome.returns_err _, further opens, ?_,
            (fun impossible => by cases impossible),
            fun _ isReliable => (unreliable isReliable).elim⟩
          rw [longer, accepted, List.flatten_append, List.flatten_singleton]
          exact (List.prefix_append_right_inj _).mpr begins

/-- Reading the header: it is the beginning of the stored bytes, and an honest
source has the header of all that is accepted. -/
theorem readHeader_spec
    (platform : Platform)
    (key : Key)
    (parameters : Parameters)
    (whole : input.remaining = ciphertext) :
    ∃ result filled following,
      readExact input (zeros headerLength) = (result, filled, following) ∧
        result.Returns ∧
        (result = .ok () →
          ∃ header : Header,
            Octets.ofSlice? headerLength filled = some header ∧
              ciphertext = header.val ++ following.remaining) ∧
        (input.Honest → ∀ plaintext,
          decryptWithParameters platform key fileAad parameters ciphertext =
              .ok plaintext →
            result = .ok () ∧ following.Honest) := by
  obtain ⟨result, filled, following, read, returns, exactly, honest⟩ :=
    readExact_spec input (zeros headerLength)
  refine ⟨result, filled, following, read, returns, fun ok => ?_,
    fun isHonest plaintext accepted => ?_⟩
  · obtain ⟨filledLength, taken⟩ := exactly ok
    rw [length_zeros] at filledLength
    rw [whole] at taken
    exact ⟨⟨filled, filledLength⟩, Octets.ofSlice?_of_length filledLength,
      taken.symm⟩
  · obtain ⟨header, body, _, shape, _⟩ :=
      startDecryption_of_accepted accepted
    apply honest isHonest
    rw [length_zeros, whole, shape, List.length_append, header.length_val]
    exact Nat.le_add_right _ _

/-- The loop of `decrypt_file` behind a header that authenticates, over the
layout that the file's length has. -/
theorem decryptLoop_leaves
    {key : Key}
    {parameters : Parameters}
    {header : Header}
    {state : DecryptionState}
    {output : Sink IoPayload}
    (agree : platform.OpensAgree)
    (begun :
      startDecryption platform key fileAad parameters header = .ok state)
    (parts : ciphertext = header.val ++ input.remaining)
    (valid : layout.Valid)
    (same : layout.parameters = parameters)
    (length : layout.ciphertextLength = ciphertext.length)
    (fresh : output.accepted = []) :
    ∃ result after,
      decryptLoop platform (layout.segmentCount + 1) layout.intoIter state
          (SegmentBuffer.new parameters) input output =
          (result, after) ∧
        LeavesOpened platform key parameters ciphertext result
          after.accepted ∧
        (input.Honest → output.Reliable → ∀ plaintext,
          decryptWithParameters platform key fileAad parameters ciphertext =
              .ok plaintext →
            result = .ok ()) := by
  obtain ⟨authentic, own⟩ := startDecryption_authenticates begun
  have unfinished : decide (0 = layout.segmentCount) = false :=
    decide_eq_false (Nat.ne_of_lt valid.count_pos)
  have matching : layout.parameters = state.context.parameters :=
    same.trans own.symm
  have left : input.remaining = ciphertext.drop (layout.reach 0) := by
    rw [layout.reach_zero, ← headerLength_eq, parts,
      List.drop_left' header.length_val]
  have decrypting :
      Decrypting platform state.context layout ciphertext 0 state
        (SegmentBuffer.new parameters) input :=
    ⟨startDecryption_ready begun, SegmentBuffer.sized_new _, own.symm, left⟩
  obtain ⟨result, after, payloads, ended, rest, looped, comesBack, passed,
      isPrefix, complete, succeeds⟩ :=
    @Decrypting.decryptLoop_spec platform state.context layout ciphertext 0
      state (SegmentBuffer.new parameters) input input.remaining [] output
      (layout.segmentCount + 1) layout.segmentCount agree valid matching
      length.symm (Nat.zero_add _) (Nat.lt_succ_self _) decrypting
      (by rw [unfinished, ← left]; exact .start) rfl fresh
  refine ⟨result, after, looped, ⟨comesBack, fun ok => ?_,
    .inr ⟨header, state.context, _, payloads, ended, rest, parts, authentic,
      passed, isPrefix⟩⟩,
    fun isHonest isReliable plaintext accepted => ?_⟩
  · obtain ⟨written, rfl, rfl⟩ := complete ok
    exact (decryptWithParameters_iff_message begun parts _).mpr
      ⟨payloads, passed.message, written⟩
  · exact succeeds isHonest isReliable fun index _ inside =>
      ⟨_, (decrypt_opens (decryptWithParameters_eq_ok_iff.mp accepted).1
        authentic parts valid matching length inside).2⟩

/-- A file is not accepted when its length is that of no layout. -/
theorem not_accepted_of_absent
    {key : Key}
    {parameters : Parameters}
    {header : Header}
    {state : DecryptionState}
    {body plaintext : Bytes}
    (begun :
      startDecryption platform key fileAad parameters header = .ok state)
    (parts : ciphertext = header.val ++ body)
    (representable : ciphertext.length ≤ u64Max)
    (absent :
      ∀ layout : MessageLayout, layout.Valid →
        layout.parameters = parameters →
          layout.ciphertextLength ≠ ciphertext.length) :
    decryptWithParameters platform key fileAad parameters ciphertext ≠
      .ok plaintext := by
  intro accepted
  obtain ⟨_, own⟩ := startDecryption_authenticates begun
  obtain ⟨payloads, message, _⟩ :=
    (decryptWithParameters_iff_message begun parts plaintext).mp accepted
  have total : ciphertext.length = 74 + body.length := by
    rw [parts, List.length_append, header.length_val]
    rfl
  obtain ⟨layout, valid, same, length⟩ :=
    StoredMessage.exists_layout message (by omega)
  exact absent layout valid (same.trans own) (length.trans total.symm)

/-- What `decrypt_file` writes into the file that it created. -/
theorem decryptInto_spec
    {output : Sink IoPayload}
    (agree : platform.OpensAgree)
    (key : Key)
    (parameters : Parameters)
    (representable : ciphertext.length ≤ u64Max)
    (whole : input.remaining = ciphertext)
    (fresh : output.accepted = []) :
    ∃ result after,
      decryptInto platform key parameters ciphertext.length input output =
          (result, after) ∧
        LeavesOpened platform key parameters ciphertext result
          after.accepted ∧
        (input.Honest → output.Reliable → ∀ plaintext,
          decryptWithParameters platform key fileAad parameters ciphertext =
              .ok plaintext →
            result = .ok ()) := by
  obtain ⟨result, filled, following, read, returns, exactly, honest⟩ :=
    readHeader_spec platform key parameters whole
  -- It fails before anything is written.
  have early {result : AnyResult Unit}
      (comesBack : result.Returns)
      (failed : result ≠ .ok ()) :
      LeavesOpened platform key parameters ciphertext result
        output.accepted := by
    rw [fresh]
    exact .nothing comesBack failed
  unfold decryptInto
  cases result with
  | error stop =>
      obtain ⟨error, rfl⟩ := returns.stop_eq_err
      refine ⟨_, output, by simp only [read]; rfl,
        early (Outcome.returns_err _) (by simp), ?_⟩
      intro isHonest _ plaintext accepted
      cases (honest isHonest plaintext accepted).1
  | ok _ =>
      obtain ⟨header, array, parts⟩ := exactly rfl
      simp only [read, array, Outcome.expect, Outcome.ok_bind]
      cases begun : startDecryption platform key fileAad parameters header with
      | error stop =>
          have comesBack :=
            startDecryption_returns platform key fileAad parameters header
          rw [begun] at comesBack
          obtain ⟨error, rfl⟩ := comesBack.stop_eq_err
          refine ⟨.error (.err (.floe error)), output,
            by simp only [Outcome.error_bind, Outcome.mapErr],
            early (Outcome.returns_err _) (by simp),
            fun _ _ plaintext accepted => ?_⟩
          -- What is accepted has this header, and it starts.
          obtain ⟨other, body, state, shape, started⟩ :=
            startDecryption_of_accepted accepted
          obtain ⟨same, _⟩ := List.append_inj (parts.symm.trans shape)
            (header.length_val.trans other.length_val.symm)
          rw [← Subtype.ext same, begun] at started
          cases started
      | ok state =>
          rcases parameters.ciphertextLayout_spec platform.target
              representable with
            ⟨layout, calculated, valid, same, length⟩ |
              ⟨⟨error, refused⟩, absent⟩
          · obtain ⟨result, after, looped, leaves, succeeds⟩ :=
              decryptLoop_leaves agree begun parts valid same length fresh
            refine ⟨result, after,
              by simp only [Outcome.ok_bind, calculated, looped], leaves,
              fun isHonest isReliable plaintext accepted => ?_⟩
            exact succeeds (honest isHonest plaintext accepted).2 isReliable
              plaintext accepted
          · refine ⟨.error (.err (.floe error)), output,
              by simp only [Outcome.ok_bind, refused, Outcome.error_bind,
                Outcome.mapErr],
              early (Outcome.returns_err _) (by simp),
              fun _ _ plaintext accepted => ?_⟩
            exact (not_accepted_of_absent begun parts representable absent
              accepted).elim

/-- `decrypt_file` fails without an effect, or gets to writing its output. -/
theorem decryptFile_cases
    (platform : Platform)
    (environment : Environment IoPayload)
    (disk : Disk)
    (inputPath outputPath : Path)
    (key : Key)
    (parameters : Parameters) :
    (∃ error,
        decryptFile platform environment disk inputPath outputPath key
            parameters =
          (.error (.err error), disk) ∧
        (environment.Faultless → disk.file outputPath = none →
          ∀ ciphertext, disk.file inputPath = some ciphertext →
            u64Max < ciphertext.length)) ∨
      ∃ source ciphertext,
        disk.file inputPath = some ciphertext ∧
          disk.file outputPath = none ∧
          source.remaining = ciphertext ∧
          ciphertext.length ≤ u64Max ∧
          (environment.Faultless → source.Honest) ∧
          decryptFile platform environment disk inputPath outputPath key
              parameters =
            ((decryptInto platform key parameters ciphertext.length source
                ⟨[], environment.writes⟩).1,
              disk.put outputPath
                (decryptInto platform key parameters ciphertext.length source
                  ⟨[], environment.writes⟩).2.accepted) := by
  unfold decryptFile
  rcases @openFile_spec _ environment disk inputPath with
    ⟨ciphertext, source, opened, present, data, cursor, script⟩ |
      ⟨⟨error, refused⟩, large⟩
  · simp only [opened, Outcome.mapErr, Outcome.ok_bind]
    rcases @metadataLen_spec _ environment source with
      measured | ⟨⟨error, refused⟩, faulty⟩
    · rcases @createNew_spec _ environment disk outputPath with
        ⟨created, absent⟩ | ⟨⟨error, refused⟩, occupied⟩
      · right
        refine ⟨source, ciphertext, present, absent, ?_, ?_,
          fun faultless event member => ?_, ?_⟩
        · rw [Source.remaining, data, cursor, List.drop_zero]
        · rw [← data]
          exact source.addressable
        · rw [script] at member
          exact faultless.reads event member
        · simp only [measured, created, Outcome.ok_bind, data, Disk.put_put]
      · left
        refine ⟨.io error, ?_, fun faultless absent => ?_⟩
        · simp only [measured, refused, Outcome.ok_bind, Outcome.error_bind]
        · exact (occupied faultless.creates absent).elim
    · left
      refine ⟨.io error, ?_, fun faultless => ?_⟩
      · simp only [refused, Outcome.error_bind]
      · exact (faulty faultless.measures).elim
  · left
    refine ⟨.io error, ?_, fun faultless _ ciphertext present => ?_⟩
    · simp only [refused, Outcome.mapErr, Outcome.error_bind]
    · exact large faultless.opens ciphertext present

/-- `decrypt_file` under any answers of the system; without faults it accepts
what `decrypt_with_parameters` accepts. -/
theorem decryptFile_decryptsFile
    (agree : platform.OpensAgree)
    (environment : Environment IoPayload)
    (disk : Disk)
    (inputPath outputPath : Path)
    (key : Key)
    (parameters : Parameters) :
    DecryptsFile platform key parameters disk inputPath outputPath
        (decryptFile platform environment disk inputPath outputPath key
          parameters) ∧
      (environment.Faultless → disk.file outputPath = none →
        ∀ ciphertext plaintext,
          disk.file inputPath = some ciphertext →
            ciphertext.length ≤ u64Max →
            decryptWithParameters platform key fileAad parameters ciphertext =
              .ok plaintext →
            (decryptFile platform environment disk inputPath outputPath key
              parameters).1 = .ok ()) := by
  rcases decryptFile_cases platform environment disk inputPath outputPath key
      parameters with
    ⟨error, failed, large⟩ |
      ⟨source, contents, present, absent, whole, representable, honest,
        computed⟩
  · rw [failed]
    refine ⟨.inl ⟨Outcome.returns_err _, by simp, rfl⟩,
      fun faultless absent ciphertext _ present short => ?_⟩
    have long := large faultless absent ciphertext present
    omega
  · obtain ⟨result, after, wrote, leaves, succeeds⟩ :=
      @decryptInto_spec platform contents source ⟨[], environment.writes⟩
        agree key parameters representable whole rfl
    rw [computed, wrote]
    refine ⟨.inr ⟨contents, after.accepted, present, absent, rfl, leaves⟩,
      fun faultless _ ciphertext plaintext found _ accepted => ?_⟩
    rw [present] at found
    cases found
    exact succeeds (honest faultless) faultless.writes plaintext accepted

end Decryption

end ManualFile

end FastFloe
