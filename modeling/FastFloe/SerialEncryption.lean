import FastFloe.EncryptReaderRuns
import FastFloe.FileOutcomes
import FastFloe.FileReads
import FastFloe.TakenPlaintexts

namespace FastFloe

open Rust

/-!
# Encrypting a file through the reader

`serial_file` copies an `EncryptReader` on its input into its output.  On a
file, which ends only where its contents end, the reader takes the file's bytes
in their order, so what the program leaves behind is a beginning of a sealed
message of the input.
-/

namespace EncryptReader

section Steady

variable {platform : Platform} {reader next : EncryptReader}

/-- Looking ahead in a steady source loses nothing, and sees where it ends. -/
theorem lookAhead_steady
    {following : Bool}
    (steady : Steady reader.inner)
    (looked : reader.lookAhead = (.ok following, next)) :
    handed reader.inner 1 ++ next.inner.remaining = reader.inner.remaining ∧
      Steady next.inner ∧
      (following = false → next.inner.remaining = []) := by
  obtain ⟨result, after, read, reads⟩ := readFully_handed reader.inner (zeros 1)
  cases result with
  | error stop =>
      simp only [lookAhead, read, Except.map] at looked
      cases looked
  | ok _ =>
      obtain ⟨taken, left, still⟩ := steady.readFully read
      rw [length_zeros] at taken left
      have whole : handed reader.inner 1 ++ after.remaining =
          reader.inner.remaining := by
        rw [taken, left, List.take_append_drop]
      simp only [lookAhead, read, Except.map, length_zeros] at looked
      rcases shape : (handed reader.inner 1).length with _ | more
      · rw [shape] at looked
        cases looked
        refine ⟨whole, still, fun _ => ?_⟩
        rw [taken, List.length_take] at shape
        rw [left]
        apply List.drop_eq_nil_of_le
        omega
      · rw [shape] at looked
        cases looked
        exact ⟨whole, still, fun impossible => by cases impossible⟩

/-- `fill_plaintext` on a steady source takes what comes next, and finds the end
of the source where it is. -/
theorem fillPlaintext_steady
    {isFinal : Bool}
    (steady : Steady reader.inner)
    (filled : reader.fillPlaintext = (.ok isFinal, next)) :
    reader.fetched ++ next.inner.remaining = reader.inner.remaining ∧
      Steady next.inner ∧
      (isFinal = true → next.inner.remaining = []) := by
  unfold fillPlaintext at filled
  dsimp only at filled
  rcases prepared :
      reader.buffer.preparePlaintext
        reader.parameters.plaintextSegmentLength with ⟨stop | region, buffer⟩
  · rw [prepared] at filled
    rcases stop with error | _ | _ <;> cases filled
  rw [prepared] at filled
  dsimp only at filled
  rcases carried : (copyRange region 0 reader.lookahead.toList.length
      reader.lookahead.toList : IoResult Bytes) with stop | plaintext
  · rw [carried] at filled
    cases filled
  rw [carried] at filled
  simp only [Outcome.ok_bind] at filled
  rcases cut : (slice plaintext reader.lookahead.toList.length
      reader.parameters.plaintextSegmentLength : IoResult Bytes) with
    stop | rest
  · rw [cut] at filled
    cases filled
  rw [cut] at filled
  simp only [Outcome.ok_bind] at filled
  have room : rest.length =
      reader.parameters.plaintextSegmentLength -
        reader.lookahead.toList.length := by
    unfold slice at cut
    split at cut
    next inside =>
      cases cut
      rw [List.length_take, List.length_drop]
      omega
    · cases cut
  obtain ⟨result, inner, read, _⟩ := readFully_handed reader.inner rest
  cases result with
  | error stop =>
      rw [read] at filled
      cases filled
  | ok _ =>
      obtain ⟨taken, left, still⟩ := steady.readFully read
      have whole : handed reader.inner rest.length ++ inner.remaining =
          reader.inner.remaining := by
        rw [taken, left, List.take_append_drop]
      rw [read] at filled
      simp only [Except.map] at filled
      by_cases short :
          reader.lookahead.toList.length +
              (handed reader.inner rest.length).length <
            reader.parameters.plaintextSegmentLength
      · have fetched : reader.fetched = handed reader.inner rest.length := by
          unfold fetched
          dsimp only
          rw [← room]
          exact if_pos (by omega)
        simp only [short, ↓reduceIte] at filled
        have ended : inner.remaining = [] := by
          rw [taken, List.length_take] at short
          rw [left]
          apply List.drop_eq_nil_of_le
          omega
        split at filled
        · cases Outcome.mapErr_eq_ok.mp (congrArg Prod.fst filled)
        · cases filled
          rw [fetched]
          exact ⟨whole, still, fun _ => ended⟩
      · have fetched : reader.fetched =
            handed reader.inner rest.length ++ handed inner 1 := by
          have after := readFully_after reader.inner
            (length_zeros rest.length)
          rw [read] at after
          unfold EncryptReader.fetched
          dsimp only
          rw [← room, after]
          exact if_neg (by omega)
        simp only [short, ↓reduceIte] at filled
        split at filled
        · cases filled
        next following ahead looked =>
          obtain ⟨ahead, further, ended⟩ := lookAhead_steady still looked
          split at filled
          · cases Outcome.mapErr_eq_ok.mp (congrArg Prod.fst filled)
          · cases filled
            rw [fetched, List.append_assoc, ahead]
            exact ⟨whole, further, by simpa using ended⟩

/-- A step that takes plaintext off a steady source. -/
structure Takes (before after : EncryptReader) (taken : Bytes) : Prop where
  whole : taken ++ after.inner.remaining = before.inner.remaining
  steady : Steady after.inner
  ended :
    after.status = .finished →
      before.status = .finished ∨ after.inner.remaining = []

/-- A step that leaves the source alone. -/
theorem Takes.idle
    (steady : Steady reader.inner)
    (inner : next.inner = reader.inner)
    (status : next.status = reader.status) :
    reader.Takes next [] :=
  ⟨by rw [inner]; rfl, by rwa [inner],
    fun finished => .inl (status.symm.trans finished)⟩

/-- A successful `load_segment` has filled and sealed. -/
theorem tryLoadSegment_of_loaded
    (loaded : reader.loadSegment platform = (.ok (), next)) :
    reader.tryLoadSegment platform = (.ok (), next) := by
  unfold loadSegment at loaded
  rcases tried : reader.tryLoadSegment platform with
    ⟨(error | _ | _) | _, after⟩ <;>
    rw [tried] at loaded <;> simp only [poisonOnError] at loaded <;>
    cases loaded
  rfl

/-- A successful `emit_segment_direct` has filled and sealed. -/
theorem tryEmitSegmentDirect_of_emitted
    {output left : Bytes}
    {count : Nat}
    (emitted :
      reader.emitSegmentDirect platform output = (.ok count, next, left)) :
    reader.tryEmitSegmentDirect platform output =
      (.ok count, next, left) := by
  unfold emitSegmentDirect at emitted
  rcases tried : reader.tryEmitSegmentDirect platform output with
    ⟨(error | _ | _) | _, after, rest⟩ <;>
    rw [tried] at emitted <;> simp only [poisonOnError] at emitted <;>
    cases emitted
  rfl

/-- `load_segment` takes what `fill_plaintext` takes. -/
theorem loadSegment_takes
    (steady : Steady reader.inner)
    (sized : reader.buffer.Sized)
    (opened : reader.status = .opened)
    (loaded : reader.loadSegment platform = (.ok (), next)) :
    reader.Takes next reader.fetched := by
  have tried := tryLoadSegment_of_loaded loaded
  obtain ⟨inner, buffer, lookahead, _, _, _,
      ⟨isFinal, payload, filled, _⟩ | ⟨error, filled, _⟩⟩ :=
    reader.fillPlaintext_takes sized
  · obtain ⟨whole, still, ended⟩ := fillPlaintext_steady steady filled
    unfold tryLoadSegment at tried
    rw [filled] at tried
    dsimp only at tried
    cases present : reader.encryptor with
    | none =>
        rw [present] at tried
        cases tried
    | some encryptor =>
        rw [present] at tried
        cases isFinal with
        | true =>
            simp only [↓reduceIte] at tried
            split at tried
            · cases Outcome.mapErr_eq_ok.mp (congrArg Prod.fst tried)
            · cases tried
              exact ⟨whole, still, fun _ => .inr (ended rfl)⟩
        | false =>
            simp only [Bool.false_eq_true, ↓reduceIte] at tried
            split at tried
            · cases Outcome.mapErr_eq_ok.mp (congrArg Prod.fst tried)
            · cases tried
              refine ⟨whole, still, fun finished => ?_⟩
              simp only [opened, reduceCtorEq] at finished
  · unfold tryLoadSegment at tried
    rw [filled] at tried
    cases tried

/-- `emit_segment_direct` takes what `fill_plaintext` takes. -/
theorem emitSegmentDirect_takes
    {output left : Bytes}
    {count : Nat}
    (steady : Steady reader.inner)
    (sized : reader.buffer.Sized)
    (opened : reader.status = .opened)
    (emitted :
      reader.emitSegmentDirect platform output = (.ok count, next, left)) :
    reader.Takes next reader.fetched := by
  have tried := tryEmitSegmentDirect_of_emitted emitted
  obtain ⟨inner, buffer, lookahead, _, _, _,
      ⟨isFinal, payload, filled, holds, _⟩ | ⟨error, filled, _⟩⟩ :=
    reader.fillPlaintext_takes sized
  · obtain ⟨whole, still, ended⟩ := fillPlaintext_steady steady filled
    have content :
        (Outcome.mapErr encryptionError buffer.plaintext : IoResult Bytes) =
          .ok payload := by
      rw [holds.plaintext_eq]
      rfl
    unfold tryEmitSegmentDirect at tried
    rw [filled] at tried
    dsimp only at tried
    rw [content] at tried
    cases present : reader.encryptor with
    | none =>
        rw [present] at tried
        cases tried
    | some encryptor =>
        rw [present] at tried
        cases isFinal with
        | true =>
            simp only [↓reduceIte] at tried
            split at tried
            · cases Outcome.mapErr_eq_ok.mp (congrArg Prod.fst tried)
            · cases tried
              exact ⟨whole, still, fun _ => .inr (ended rfl)⟩
        | false =>
            simp only [Bool.false_eq_true, ↓reduceIte,
              Prod.mk.injEq] at tried
            obtain ⟨_, rfl, _⟩ := tried
            refine ⟨whole, still, fun finished => ?_⟩
            simp only [opened, reduceCtorEq] at finished
  · unfold tryEmitSegmentDirect at tried
    rw [filled] at tried
    cases tried

/-- A read that succeeds takes what it accounts for. -/
theorem Consistent.read_takes
    {output left : Bytes}
    {count : Nat}
    (consistent : reader.Consistent)
    (steady : Steady reader.inner)
    (result : reader.read platform output = (.ok count, next, left)) :
    reader.Takes next (reader.takes output) := by
  have unfailed := consistent.unfailed
  by_cases loads : output ≠ [] ∧ reader.status = .opened ∧
      ¬ reader.headerPosition < headerLength ∧
      reader.ciphertextPosition = reader.ciphertextLength
  · have takes : reader.takes output = reader.fetched := if_pos loads
    obtain ⟨some, opened, before, drained⟩ := loads
    have sized := (consistent.canLoad opened).sized
    rw [takes]
    simp only [read, some, opened, reduceCtorEq, before, drained,
      ↓reduceIte] at result
    split at result
    · exact emitSegmentDirect_takes steady sized opened result
    · split at result
      · cases result
      next loaded computed =>
        have taken := loadSegment_takes steady sized opened computed
        obtain ⟨position, kept⟩ := @readBuffered_keeps loaded output
        rw [result] at kept
        rw [show next = { loaded with ciphertextPosition := position } from
          kept]
        exact ⟨taken.whole, taken.steady, taken.ended⟩
  · have takes : reader.takes output = [] := if_neg loads
    rw [takes]
    by_cases empty : output = []
    · simp only [read, empty, ↓reduceIte] at result
      cases result
      exact .idle steady rfl rfl
    by_cases before : reader.headerPosition < headerLength
    · obtain ⟨position, kept⟩ := @readHeaderBytes_keeps reader output
      simp only [read, empty, unfailed, before, ↓reduceIte] at result
      rw [result] at kept
      rw [show next = { reader with headerPosition := position } from kept]
      exact .idle steady rfl rfl
    by_cases drained : reader.ciphertextPosition = reader.ciphertextLength
    · have complete : reader.status = .finished := by
        by_contra unfinished
        exact loads ⟨empty, consistent.opened unfinished, before, drained⟩
      simp only [read, empty, before, drained, complete, reduceCtorEq,
        ↓reduceIte] at result
      cases result
      exact .idle steady rfl rfl
    · obtain ⟨position, kept⟩ := @readBuffered_keeps reader output
      simp only [read, empty, unfailed, before, drained, ↓reduceIte] at result
      rw [result] at kept
      rw [show next = { reader with ciphertextPosition := position } from kept]
      exact .idle steady rfl rfl

/-- A read into a real output that hands out nothing finds the reader
finished. -/
theorem Tracks.finished_of_read_zero
    {context : MessageContext}
    {taken : Bytes}
    {blocks : List (Bytes × Bytes)}
    {output left : Bytes}
    (agree : platform.SealsAgree)
    (tracks : reader.Tracks platform context taken blocks)
    (some : output ≠ [])
    (result : reader.read platform output = (.ok 0, next, left)) :
    reader.isComplete = true ∧ reader.unserved = [] := by
  have consistent := tracks.consistent
  have unfailed := consistent.unfailed
  have positive := List.length_pos_iff.mpr some
  by_cases before : reader.headerPosition < headerLength
  · simp only [read, some, unfailed, before, ↓reduceIte,
      readHeaderBytes] at result
    split at result
    · cases result
    · have none := Except.ok.inj (congrArg Prod.fst result)
      omega
  by_cases drained : reader.ciphertextPosition = reader.ciphertextLength
  · have passed : reader.headerPosition = headerLength := by
      have most := consistent.inside
      omega
    have nothing : reader.unserved = [] :=
      consistent.unserved_eq_nil_iff.mpr ⟨passed, drained⟩
    by_cases complete : reader.status = .finished
    · exact ⟨by simp [isComplete, complete], nothing⟩
    have opened := consistent.opened complete
    by_cases direct :
        output.length ≥ reader.parameters.ciphertextSegmentLength
    · simp only [read, some, opened, reduceCtorEq, before, drained, direct,
        ↓reduceIte] at result
      obtain ⟨encryptor, present, here, _⟩ := tracks.opened opened
      obtain ⟨kind, payload, sealed, _⟩ :=
        emitSegmentDirect_sealsNext agree (consistent.canLoad opened).sized
          opened present here result
      have length := sealed.seals.framed.1
      rw [List.take_zero] at length
      cases length
    · simp only [read, some, opened, reduceCtorEq, before, drained, direct,
        ↓reduceIte] at result
      obtain ⟨loaded, ⟨segment, payload, computed, still, _, same, ahead, _⟩ |
          ⟨error, computed, _⟩⟩ :=
        tracks.loadSegment_spec opened passed
      · obtain ⟨rest, served, _⟩ :=
          still.consistent.readBuffered_eq ahead output
        rw [computed] at result
        dsimp only at result
        rw [served] at result
        have none := Except.ok.inj (congrArg Prod.fst result)
        omega
      · rw [computed] at result
        cases result
  · have ahead := Nat.lt_of_le_of_ne consistent.within drained
    obtain ⟨rest, served, _⟩ := consistent.readBuffered_eq ahead output
    simp only [read, some, unfailed, before, drained, ↓reduceIte] at result
    rw [served] at result
    have none := Except.ok.inj (congrArg Prod.fst result)
    omega

end Steady

/-! ## How much a reader can hand out -/

/-- The lengths of full segments and of their payloads. -/
theorem lengths_of_sealedRun
    {platform : Platform}
    {context : MessageContext}
    {position : Nat}
    {blocks : List (Bytes × Bytes)}
    (run : SealedRun platform context position blocks) :
    (blocks.map Prod.fst).flatten.length =
        blocks.length * context.parameters.ciphertextSegmentLength ∧
      (blocks.map Prod.snd).flatten.length =
        blocks.length * context.parameters.plaintextSegmentLength := by
  have each (segment payload : Bytes) (member : (segment, payload) ∈ blocks) :
      segment.length = context.parameters.ciphertextSegmentLength ∧
        payload.length = context.parameters.plaintextSegmentLength := by
    obtain ⟨index, found⟩ := List.mem_iff_getElem?.mp member
    have seals := (run index segment payload found).2
    have full : payload.length =
        context.parameters.plaintextSegmentLength :=
      seals.fits
    have total := context.parameters.plaintextSegmentLength_add
    exact ⟨by rw [seals.framed.1, full, total], full⟩
  constructor
  · rw [Blocks.length_flatten, List.length_map]
    intro part member
    obtain ⟨block, inside, rfl⟩ := List.mem_map.mp member
    exact (each _ _ inside).1
  · rw [Blocks.length_flatten, List.length_map]
    intro part member
    obtain ⟨block, inside, rfl⟩ := List.mem_map.mp member
    exact (each _ _ inside).2

/-- What a reader has sealed is bounded by what it has taken. -/
theorem Progress.length_le
    {platform : Platform}
    {context : MessageContext}
    {taken : Bytes}
    {blocks : List (Bytes × Bytes)}
    {reader : EncryptReader}
    (progress : reader.Progress platform context taken blocks) :
    (blocks.map Prod.fst).flatten.length ≤
      (segmentOverhead + 1) * (taken.length + 1) := by
  have bounds := context.parameters.segmentLength_bounds
  have total := context.parameters.plaintextSegmentLength_add
  -- A full segment has a payload.
  have most (count : Nat) :
      count * context.parameters.ciphertextSegmentLength ≤
        33 * (count * context.parameters.plaintextSegmentLength) := by
    rw [context.parameters.mul_segmentLength]
    have monotone := Nat.mul_le_mul_left count
      (show 1 ≤ context.parameters.plaintextSegmentLength by omega)
    omega
  rw [segmentOverhead_eq]
  cases progress with
  | opened _ _ _ run kept =>
      obtain ⟨segments, payloads⟩ := lengths_of_sealedRun run
      have bound := most blocks.length
      have length := congrArg List.length kept
      rw [List.length_append] at length
      omega
  | @finished middle _ _ _ whole message kept =>
      obtain ⟨segments, payloads⟩ := lengths_of_sealedRun message.run
      have last := message.last.framed.1
      have length := congrArg List.length kept
      have bound := most middle.length
      subst whole
      simp only [List.map_append, List.map_cons, List.map_nil,
        List.flatten_append, List.flatten_singleton,
        List.length_append] at length ⊢
      rw [segments, last]
      rw [payloads] at length
      omega

end EncryptReader

namespace SerialFile

section Encryption

variable {platform : Platform} {context : MessageContext} {header : Header}
  {plaintext : Bytes} {reader : EncryptReader} {given : Bytes}

/-- A reader that has handed these bytes out and accounts for its file: what it
took of it is sealed or carried, and the rest is left. -/
structure Emitting (platform : Platform) (context : MessageContext)
    (header : Header) (plaintext : Bytes) (reader : EncryptReader)
    (given : Bytes) : Prop where
  ledger :
    ∃ taken blocks,
      reader.Tracks platform context taken blocks ∧
        given ++ reader.unserved =
          header.val ++ (blocks.map Prod.fst).flatten ∧
        taken ++ reader.inner.remaining = plaintext
  steady : Steady reader.inner
  ended : reader.isComplete = true → reader.inner.remaining = []

/-- A poisoned reader has handed out everything that it sealed. -/
structure Refusing (platform : Platform) (context : MessageContext)
    (header : Header) (plaintext : Bytes) (reader : EncryptReader)
    (given : Bytes) : Prop where
  failed : reader.status = .failed
  ledger :
    ∃ blocks,
      SealedRun platform context 0 blocks ∧
        (blocks.map Prod.snd).flatten <+: plaintext ∧
        given = header.val ++ (blocks.map Prod.fst).flatten

/-- An encrypting reader on a file goes on delivering until it fails. -/
theorem emitting_delivers
    {capacity : Nat}
    (agree : platform.SealsAgree)
    (positive : 0 < capacity) :
    Delivering (EncryptReader.read platform) capacity
      (headerLength + (segmentOverhead + 1) * (plaintext.length + 1))
      (Emitting platform context header plaintext)
      (Refusing platform context header plaintext) := by
  have some : zeros capacity ≠ [] := by
    apply List.ne_nil_of_length_pos
    rw [length_zeros]
    exact positive
  refine ⟨fun reader given emitting => ?_, fun reader given refusing => ?_,
    fun reader given emitting => ?_⟩
  · obtain ⟨taken, blocks, tracks, served, kept⟩ := emitting.ledger
    obtain ⟨next, left, ⟨count, more, result, again, _, balance⟩ |
        ⟨error, result, failed, opened, nothing⟩⟩ :=
      tracks.read_spec agree (zeros capacity)
    · have inside : count ≤ left.length := by
        obtain ⟨_, _, ⟨_, _, other, inside, _⟩ | ⟨_, other, _⟩⟩ :=
          tracks.consistent.read_cases platform (zeros capacity)
        · rw [result] at other
          cases other
          exact inside
        · rw [result] at other
          cases other
      have takes := tracks.consistent.read_takes emitting.steady result
      refine .inl ⟨count, next, left, result, inside,
        ⟨_, _, again, ?_, ?_⟩, takes.steady, fun complete => ?_⟩
      · rw [List.append_assoc, balance, ← List.append_assoc, served,
          List.map_append, List.flatten_append, List.append_assoc]
      · rw [List.append_assoc, takes.whole, kept]
      · rcases takes.ended (of_decide_eq_true complete) with before | ended
        · have whole := takes.whole
          rw [emitting.ended (decide_eq_true before)] at whole
          exact (List.append_eq_nil_iff.mp whole).2
        · exact ended
    · obtain ⟨_, _, _, run, held⟩ := tracks.opened opened
      refine .inr ⟨error, next, left, result, failed, blocks, run, ?_, ?_⟩
      · rw [← kept, held, List.append_assoc]
        exact List.prefix_append _ _
      · rw [nothing, List.append_nil] at served
        exact served
  · refine ⟨poisonedError, reader, zeros capacity, ?_, by decide⟩
    simp only [EncryptReader.read, some, refusing.failed, ↓reduceIte]
  · obtain ⟨taken, blocks, tracks, served, kept⟩ := emitting.ledger
    have most := tracks.progress.length_le
    have total := congrArg List.length served
    have length := congrArg List.length kept
    have monotone := Nat.mul_le_mul_left (segmentOverhead + 1)
      (show taken.length + 1 ≤ plaintext.length + 1 by
        rw [← length, List.length_append]
        omega)
    rw [List.length_append, List.length_append, header.length_val] at total
    omega

/-- What has been handed out, once the copy is done. -/
theorem Emitting.leaves
    {written : Bytes}
    {result : AnyResult Unit}
    (roundTrips : platform.RoundTrips)
    (emitting : Emitting platform context header plaintext reader given)
    (returns : result.Returns)
    (begins : written <+: given)
    (succeeds :
      result = .ok () →
        written = given ∧ reader.isComplete = true ∧ reader.unserved = []) :
    LeavesSealed platform context header plaintext result written := by
  obtain ⟨taken, blocks, tracks, served, kept⟩ := emitting.ledger
  obtain ⟨passed, ahead, balance, _, settled⟩ :=
    tracks.progress.passed roundTrips
  refine ⟨returns, _, _, _, passed, ?_, fun complete => ?_, ?_, fun ok => ?_⟩
  · rw [← kept, balance, List.append_assoc]
    exact List.prefix_append _ _
  · rw [← kept, emitting.ended complete, balance, settled complete,
      List.append_nil, List.append_nil]
  · rw [← served]
    exact begins.trans (List.prefix_append _ _)
  · obtain ⟨rfl, complete, nothing⟩ := succeeds ok
    rw [nothing, List.append_nil] at served
    exact ⟨served, complete⟩

/-- What a poisoned reader has handed out. -/
theorem Refusing.leaves
    {written : Bytes}
    {result : AnyResult Unit}
    (roundTrips : platform.RoundTrips)
    (refusing : Refusing platform context header plaintext reader given)
    (returns : result.Returns)
    (failed : result ≠ .ok ())
    (begins : written <+: given) :
    LeavesSealed platform context header plaintext result written := by
  obtain ⟨blocks, run, lead, rfl⟩ := refusing.ledger
  exact ⟨returns, _, _, false, .of_frames (run.frames roundTrips), lead,
    (fun impossible => by cases impossible), begins,
    fun ok => (failed ok).elim⟩

/-- What `encrypt_file` writes into the file that it created. -/
theorem encryptInto_leaves
    {environment : Environment IoPayload}
    {output : Sink IoPayload}
    (agree : platform.SealsAgree)
    (roundTrips : platform.RoundTrips)
    (emitting : Emitting platform context header plaintext reader [])
    (whole : reader.inner.data = plaintext)
    (fresh : output.accepted = []) :
    LeavesSealed platform context header plaintext
      (encryptInto platform environment reader output).1
      (encryptInto platform environment reader output).2.accepted := by
  have positive := environment.positive
  have some : zeros environment.capacity ≠ [] := by
    apply List.ne_nil_of_length_pos
    rw [length_zeros]
    exact positive
  obtain ⟨⟨handedOut, written, last, accepted, within, either, ends⟩, returns⟩ :=
    (emitting_delivers agree positive).copyLoop_spec emitting
      (copyBudget reader.inner) output
  have comesBack := returns (by
    rw [copyBudget, whole]
    simp)
  rw [fresh, List.nil_append] at accepted
  rw [List.nil_append] at either ends
  unfold encryptInto
  rcases copied : copyLoop (EncryptReader.read platform) environment.capacity
      (copyBudget reader.inner) reader output with ⟨stop | _, next, after⟩
  · rw [copied] at accepted comesBack
    obtain ⟨error, rfl⟩ := comesBack.stop_eq_err
    have same : after.accepted = written := accepted
    simp only [Outcome.mapErr, same]
    rcases either with holds | stopped
    · exact holds.leaves roundTrips (Outcome.returns_err _) within
        (fun impossible => by cases impossible)
    · exact stopped.leaves roundTrips (Outcome.returns_err _) (by simp) within
  · rw [copied] at accepted ends
    obtain ⟨rfl, _, final, left, holds, zero⟩ := ends rfl
    obtain ⟨taken, blocks, tracks, _⟩ := holds.ledger
    have finished := tracks.finished_of_read_zero agree some zero
    obtain ⟨flushed, same, result | ⟨error, result⟩⟩ := after.flush_spec
    · simp only [result, Outcome.mapErr, same]
      rw [show after.accepted = written from accepted]
      exact holds.leaves roundTrips (Outcome.returns_ok _) List.prefix_rfl
        fun _ => ⟨rfl, finished⟩
    · simp only [result, Outcome.mapErr, same]
      rw [show after.accepted = written from accepted]
      exact holds.leaves roundTrips (Outcome.returns_err _) List.prefix_rfl
        (fun impossible => by cases impossible)

/-- A reader on a file that is read without faults has a beginning of this
answer handed out. -/
def Streaming (platform : Platform) (context : MessageContext)
    (header : Header) (plaintext answer : Bytes) (reader : EncryptReader)
    (given : Bytes) : Prop :=
  Emitting platform context header plaintext reader given ∧
    ∃ pending, reader.Emits platform context pending ∧
      given ++ pending = answer

/-- An encrypting reader on a file that is read without faults never fails. -/
theorem streaming_delivers
    {capacity : Nat}
    {answer : Bytes}
    (agree : platform.SealsAgree)
    (positive : 0 < capacity) :
    Delivering (EncryptReader.read platform) capacity
      (headerLength + (segmentOverhead + 1) * (plaintext.length + 1))
      (Streaming platform context header plaintext answer)
      (fun _ _ => False) := by
  have delivers :=
    @emitting_delivers platform context header plaintext capacity agree
      positive
  refine ⟨fun reader given streaming => ?_,
    fun _ _ impossible => impossible.elim,
    fun reader given streaming => delivers.bounded reader given streaming.1⟩
  obtain ⟨emitting, pending, emits, shape⟩ := streaming
  obtain ⟨next, chunk, left, result, rest, still, _⟩ :=
    emits.read_step agree (zeros capacity)
  rcases delivers.step reader given emitting with
    ⟨count, after, filled, computed, inside, again⟩ |
      ⟨_, _, _, computed, _⟩
  · rw [result] at computed
    cases computed
    refine .inl ⟨_, next, _, result, inside, again, left, still, ?_⟩
    rw [List.take_left, List.append_assoc, ← rest, shape]
  · rw [result] at computed
    cases computed

/-- What `encrypt_file` writes is a beginning of what `encrypt` returns. -/
theorem encryptInto_streams
    {environment : Environment IoPayload}
    {output : Sink IoPayload}
    {answer : Bytes}
    (agree : platform.SealsAgree)
    (streaming : Streaming platform context header plaintext answer reader [])
    (whole : reader.inner.data = plaintext)
    (fresh : output.accepted = []) :
    ∃ result after,
      encryptInto platform environment reader output = (result, after) ∧
        after.accepted <+: answer ∧
        (result = .ok () → after.accepted = answer) ∧
        (output.Reliable → result = .ok ()) := by
  have positive := environment.positive
  have some : zeros environment.capacity ≠ [] := by
    apply List.ne_nil_of_length_pos
    rw [length_zeros]
    exact positive
  have delivers :=
    @streaming_delivers platform context header plaintext environment.capacity
      answer agree positive
  have enough :
      headerLength + (segmentOverhead + 1) * (plaintext.length + 1) + 2 ≤
        ([] : Bytes).length + copyBudget reader.inner := by
    rw [copyBudget, whole]
    simp
  obtain ⟨⟨handedOut, written, last, accepted, within, either, ends⟩,
      returns⟩ :=
    delivers.copyLoop_spec streaming (copyBudget reader.inner) output
  have comesBack := returns enough
  rw [fresh, List.nil_append] at accepted
  rw [List.nil_append] at either ends
  have lead : handedOut <+: answer := by
    rcases either with ⟨_, pending, _, shape⟩ | impossible
    · exact ⟨pending, shape⟩
    · exact impossible.elim
  have copies (reliable : output.Reliable) :=
    delivers.copyLoop_reliable (fun _ _ => id) streaming reliable enough
  unfold encryptInto
  rcases copied : copyLoop (EncryptReader.read platform) environment.capacity
      (copyBudget reader.inner) reader output with ⟨stop | _, next, after⟩
  · rw [copied] at accepted comesBack
    obtain ⟨error, rfl⟩ := comesBack.stop_eq_err
    refine ⟨_, after, rfl, ?_, (fun impossible => by cases impossible),
      fun reliable => ?_⟩
    · rw [show after.accepted = written from accepted]
      exact within.trans lead
    · obtain ⟨_, _, succeeds, _⟩ := copies reliable
      rw [copied] at succeeds
      cases succeeds
  · rw [copied] at accepted ends
    obtain ⟨rfl, _, final, left, ⟨_, pending, emits, shape⟩, zero⟩ := ends rfl
    have all : written = answer := by
      obtain ⟨_, chunk, rest, result, split, _, blank, _⟩ :=
        emits.read_step agree (zeros environment.capacity)
      rw [zero] at result
      have nothing : chunk = [] := by
        have none := Except.ok.inj (congrArg Prod.fst result)
        exact List.length_eq_zero_iff.mp none.symm
      rcases blank nothing with impossible | spent
      · exact (some impossible).elim
      · rw [spent, List.append_nil] at shape
        exact shape
    have same : after.accepted = answer := by
      rw [← all]
      exact accepted
    have kept : after.flush.2.accepted = after.accepted := by
      obtain ⟨flushed, kept, result | ⟨_, result⟩⟩ := after.flush_spec <;>
        rw [result, kept]
    refine ⟨Outcome.mapErr .io after.flush.1, after.flush.2, rfl, ?_, ?_,
      fun reliable => ?_⟩
    · exact (kept.trans same) ▸ List.prefix_rfl
    · exact fun _ => kept.trans same
    · obtain ⟨_, _, succeeds, steady⟩ := copies reliable
      rw [copied] at succeeds
      cases succeeds
      rw [steady.flush]
      rfl

/-- A file that was opened is read from its start to its end. -/
theorem emitting_new
    {environment : Environment IoPayload}
    {key : Key}
    {parameters : Parameters}
    {rng : ProviderRng}
    {source : Source IoPayload}
    (created :
      EncryptReader.new platform source key fileAad parameters rng =
        .ok reader)
    (whole : source.remaining = plaintext)
    (script : source.script = environment.reads) :
    ∃ context,
      HeaderAuthenticates platform key fileAad reader.header context ∧
        context.parameters = parameters ∧
        reader.inner = source ∧
        Emitting platform context reader.header plaintext reader [] := by
  obtain ⟨context, authentic, ⟨consistent, progress⟩, _, served⟩ :=
    EncryptReader.conserves_new created
  obtain ⟨encryptor, started, shape⟩ := Outcome.bind_eq_ok.mp created
  cases shape
  obtain ⟨own, same, _⟩ :=
    Encryptor.new_eq_ok (Kdf.FaultOf.refl platform.kdfExpand)
      (Outcome.mapErr_eq_ok.mp started)
  cases authentic.unique own
  refine ⟨_, own, same, rfl, ⟨[], [], ⟨consistent, progress⟩, served.symm,
    whole⟩, ?_, fun impossible => by cases impossible⟩
  intro cursor
  rw [show source.script = environment.reads from script]
  exact environment.whole cursor

/-- `encrypt_file` fails without an effect, or gets to writing its output. -/
theorem encryptFile_cases
    (platform : Platform)
    (environment : Environment IoPayload)
    (rng : ProviderRng)
    (disk : Disk)
    (inputPath outputPath : Path)
    (key : Key)
    (parameters : Parameters) :
    (∃ error,
        encryptFile platform environment rng disk inputPath outputPath key
            parameters =
          (.error (.err error), disk) ∧
        (environment.Faultless → disk.file outputPath = none →
          ∀ encryptor plaintext,
            Encryptor.new platform key fileAad parameters rng =
                .ok encryptor →
              disk.file inputPath = some plaintext →
              u64Max < plaintext.length)) ∨
      ∃ reader source plaintext,
        EncryptReader.new platform source key fileAad parameters rng =
            .ok reader ∧
          disk.file inputPath = some plaintext ∧
          disk.file outputPath = none ∧
          source.data = plaintext ∧
          source.remaining = plaintext ∧
          source.script = environment.reads ∧
          encryptFile platform environment rng disk inputPath outputPath key
              parameters =
            ((encryptInto platform environment reader
                ⟨[], environment.writes⟩).1,
              disk.put outputPath
                (encryptInto platform environment reader
                  ⟨[], environment.writes⟩).2.accepted) := by
  unfold encryptFile
  rcases @openFile_spec _ environment disk inputPath with
    ⟨plaintext, source, opened, present, data, cursor, script⟩ |
      ⟨⟨error, refused⟩, large⟩
  · simp only [opened, Outcome.ok_bind, EncryptReader.new]
    rcases started : Encryptor.new platform key fileAad parameters rng with
      stop | encryptor
    · have returns :=
        startEncryption_returns platform key fileAad parameters rng
      obtain ⟨error, rfl⟩ : ∃ error, stop = .err error := by
        rcases begun : startEncryption platform key fileAad parameters rng with
          other | _
        · rw [begun] at returns
          simp only [Encryptor.new, begun, Outcome.error_bind] at started
          cases started
          exact returns.stop_eq_err
        · simp only [Encryptor.new, begun, Outcome.ok_bind] at started
          cases started
      exact .inl ⟨.io (encryptionError error), rfl, fun _ _ _ _ impossible => by
        cases impossible⟩
    · simp only [Outcome.mapErr, Outcome.ok_bind]
      rcases @createNew_spec _ environment disk outputPath with
        ⟨created, absent⟩ | ⟨⟨error, refused⟩, occupied⟩
      · right
        refine ⟨_, source, plaintext, rfl, present, absent, data, ?_, script,
          ?_⟩
        · rw [Source.remaining, data, cursor, List.drop_zero]
        · simp only [created, Outcome.ok_bind, Disk.put_put]
      · left
        refine ⟨.io error, ?_, fun faultless absent => ?_⟩
        · simp only [refused, Outcome.error_bind]
        · exact (occupied faultless.creates absent).elim
  · left
    refine ⟨.io error, ?_, fun faultless _ _ plaintext _ present => ?_⟩
    · simp only [refused, Outcome.error_bind]
      rfl
    · exact large faultless.opens plaintext present

/-- `encrypt_file` under any answers of the system. -/
theorem encryptFile_encryptsFile
    (agree : platform.SealsAgree)
    (roundTrips : platform.RoundTrips)
    (environment : Environment IoPayload)
    (rng : ProviderRng)
    (disk : Disk)
    (inputPath outputPath : Path)
    (key : Key)
    (parameters : Parameters) :
    EncryptsFile platform key parameters disk inputPath outputPath
      (encryptFile platform environment rng disk inputPath outputPath key
        parameters) := by
  rcases encryptFile_cases platform environment rng disk inputPath outputPath
      key parameters with
    ⟨error, failed, _⟩ |
      ⟨reader, source, plaintext, created, present, absent, data, whole, script,
        computed⟩
  · rw [failed]
    exact .inl ⟨Outcome.returns_err _, by simp, rfl⟩
  · obtain ⟨context, authentic, own, same, emitting⟩ :=
      emitting_new created whole script
    rw [computed]
    refine .inr ⟨plaintext, reader.header, context, _, present, absent, rfl,
      authentic, own, encryptInto_leaves agree roundTrips emitting ?_ rfl⟩
    rw [same, data]

/-- `encrypt_file` on a file for which `encrypt` has an answer, when no read
fails. -/
theorem encryptFile_answersFile
    {environment : Environment IoPayload}
    {rng : ProviderRng}
    {disk : Disk}
    {inputPath outputPath : Path}
    {key : Key}
    {parameters : Parameters}
    {ciphertext : Bytes}
    (agree : platform.SealsAgree)
    (present : disk.file inputPath = some plaintext)
    (absent : disk.file outputPath = none)
    (fragments : ∀ event ∈ environment.reads, event.Fragments)
    (encrypted :
      encrypt platform key fileAad parameters rng plaintext =
        .ok ciphertext) :
    AnswersFile disk outputPath ciphertext
        (encryptFile platform environment rng disk inputPath outputPath key
          parameters) ∧
      (environment.Faultless →
        (encryptFile platform environment rng disk inputPath outputPath key
          parameters).1 = .ok ()) := by
  obtain ⟨encryptor, stream, begun, seals, answer⟩ :=
    encrypt_sealsStream agree encrypted
  rcases encryptFile_cases platform environment rng disk inputPath outputPath
      key parameters with
    ⟨error, failed, large⟩ |
      ⟨reader, source, contents, created, found, _, data, whole, script,
        computed⟩
  · rw [failed]
    refine ⟨.inl ⟨by simp, rfl⟩, fun faultless => ?_⟩
    have size := large faultless absent _ plaintext begun present
    have addressable := encrypt_addressable encrypted
    omega
  · rw [present] at found
    cases found
    obtain ⟨context, authentic, own, same, emitting⟩ :=
      emitting_new created whole script
    have honest : source.Honest := by
      intro event member
      rw [script] at member
      exact fragments event member
    rw [← whole] at seals
    obtain ⟨emits, other, again⟩ :=
      EncryptReader.new_emits honest begun seals
    rw [created] at other
    cases other
    have header : reader.header = encryptor.header := by
      simp only [EncryptReader.new, begun, Outcome.mapErr,
        Outcome.ok_bind] at created
      cases created
      rfl
    obtain ⟨authenticates, _⟩ :=
      Encryptor.new_eq_ok (Kdf.FaultOf.refl platform.kdfExpand) begun
    rw [← header] at authenticates
    cases authentic.unique authenticates
    obtain ⟨result, after, wrote, isPrefix, complete, succeeds⟩ :=
      encryptInto_streams agree
        ⟨emitting, _, again, (List.nil_append _).trans answer.symm⟩
        (same ▸ data)
        (show (⟨[], environment.writes⟩ : Sink IoPayload).accepted = [] from
          rfl)
    rw [computed, wrote]
    exact ⟨.inr ⟨after.accepted, rfl, isPrefix, complete⟩,
      fun faultless => succeeds faultless.writes⟩

end Encryption

end SerialFile

end FastFloe
