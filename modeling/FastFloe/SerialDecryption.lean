import FastFloe.FileOutcomes
import FastFloe.FileReads
import FastFloe.StreamIntegrity

namespace FastFloe

open Rust

/-!
# Decrypting a file through the reader

`serial_file` copies a `DecryptReader` on its input into its output and
finalizes it.  What it leaves behind is a beginning of the plaintext of the
segments that it took, and it succeeds on a message that ends with its file
only.
-/

/-- The plaintext of segments is shorter than the segments. -/
theorem length_flatten_le_of_passed
    {platform : Platform}
    {context : MessageContext}
    {position : Nat}
    {stream rest : Bytes}
    {payloads : List Bytes}
    {ended : Bool}
    (passed :
      (segmentStream platform context).Passed position stream payloads ended
        rest) :
    payloads.flatten.length + rest.length ≤ stream.length := by
  apply passed.length_flatten_le
  intro position stream frame parsed
  obtain ⟨framing, decoded, inside, _, opened, length, _⟩ :=
    parseSegment_eq_some.mp parsed
  have payload := (framingOf_eq_some decoded).1.payload
  have taken := List.length_take_of_le inside
  have whole := MessageContext.length_of_openSegment opened (by omega)
  omega

/-- `read_header` takes the header off a steady source. -/
theorem readHeader_steady
    {reader after : Source IoPayload}
    {header : Header}
    (steady : Steady reader)
    (read : readHeader reader = (.ok header, after)) :
    reader.remaining = header.val ++ after.remaining ∧
      after.data = reader.data ∧ Steady after := by
  obtain ⟨_, _, computed, data, _, lead, _⟩ := readHeader_spec reader
  rw [read] at computed
  cases computed
  rcases taken : readFully reader (zeros headerLength) with
    ⟨stop | count, filled, next⟩
  · simp only [readHeader, taken] at read
    cases read
  · obtain ⟨_, left, still⟩ := steady.readFully taken
    have same : after = next := by
      simp only [readHeader, taken] at read
      split at read
      · exact (congrArg Prod.snd read).symm
      · cases read
    rw [length_zeros, ← same] at left
    refine ⟨?_, data, same ▸ still⟩
    rw [lead header rfl, left, List.take_append_drop]

namespace SerialFile

section Decryption

variable {platform : Platform} {context : MessageContext}
  {start : Source IoPayload} {reader : DecryptReader} {given : Bytes}

/-- A reader that has handed these bytes out, which are what the segments it
took off its file opened to, up to what it still holds. -/
structure Opening (platform : Platform) (context : MessageContext)
    (start : Source IoPayload) (reader : DecryptReader) (given : Bytes) :
    Prop where
  ledger :
    ∃ payloads pending,
      reader.Tracks platform context (bytesTaken start reader.inner) payloads
          pending ∧
        payloads.flatten = given ++ pending
  consistent : reader.Consistent
  data : reader.inner.data = start.data
  cursor : start.cursor ≤ reader.inner.cursor
  steady : Steady reader.inner
  unended : reader.status ≠ .streamComplete

/-- A poisoned reader has handed out a beginning of what it opened. -/
structure Halting (platform : Platform) (context : MessageContext)
    (start : Source IoPayload) (reader : DecryptReader) (given : Bytes) :
    Prop where
  failed : reader.status = .failed
  beginning :
    ∃ taken payloads ended,
      (segmentStream platform context).Passed 0 taken payloads ended [] ∧
        taken <+: start.remaining ∧
        given <+: payloads.flatten

theorem bytesTaken_begins (before after : Source IoPayload) :
    bytesTaken before after <+: before.remaining :=
  List.take_prefix _ _

/-- A decrypting reader on a file goes on delivering until it fails. -/
theorem opening_delivers
    {capacity : Nat}
    (agree : platform.OpensAgree)
    (positive : 0 < capacity) :
    Delivering (DecryptReader.read platform) capacity start.data.length
      (Opening platform context start)
      (Halting platform context start) := by
  have some : zeros capacity ≠ [] := by
    apply List.ne_nil_of_length_pos
    rw [length_zeros]
    exact positive
  refine ⟨fun reader given opening => ?_, fun reader given halting => ?_,
    fun reader given opening => ?_⟩
  · obtain ⟨payloads, pending, tracks, handedOut⟩ := opening.ledger
    obtain ⟨next, filled, ⟨chunk, more, left, result, goesOn, balance, _⟩ |
        ⟨⟨error, result⟩, failed⟩⟩ :=
      tracks.read_spec agree (zeros capacity)
    · obtain ⟨_, _, ⟨count, lengths, other, serves⟩ | ⟨_, other, _⟩⟩ :=
        opening.consistent.read_cases platform (zeros capacity)
      · rw [result] at other
        cases other
        left
        refine ⟨chunk.length, next, _, result, ?_,
          ⟨payloads ++ more, left, ?_, ?_⟩, serves.consistent,
          goesOn.data.trans opening.data,
          opening.cursor.trans goesOn.cursor,
          opening.steady.later serves.passes.script,
          fun ended => opening.unended (goesOn.unended ended)⟩
        · rw [List.length_append]
          exact Nat.le_add_right _ _
        · rw [← DecryptReader.bytesTaken_trans opening.data opening.cursor
          goesOn.cursor]
          exact goesOn.tracks
        · rw [List.take_left, List.flatten_append, handedOut,
            List.append_assoc, balance, List.append_assoc]
      · rw [result] at other
        cases other
    · exact .inr ⟨error, next, filled, result, failed, _, payloads, _,
        tracks.passed, bytesTaken_begins _ _, pending, handedOut.symm⟩
  · refine ⟨poisonedError, reader, zeros capacity, ?_, by decide⟩
    simp only [DecryptReader.read, some, halting.failed, ↓reduceIte]
  · obtain ⟨payloads, pending, tracks, handedOut⟩ := opening.ledger
    have most := length_flatten_le_of_passed tracks.passed
    have taken := (bytesTaken_begins start reader.inner).length_le
    have whole := congrArg List.length handedOut
    rw [Source.remaining, List.length_drop] at taken
    rw [List.length_append] at whole
    omega

/-- A reader that has nothing more to hand out has seen the final segment. -/
theorem Opening.finished
    {output left : Bytes}
    {before : DecryptReader}
    (agree : platform.OpensAgree)
    (opening : Opening platform context start before given)
    (some : output ≠ [])
    (result : before.read platform output = (.ok 0, reader, left)) :
    ∃ payloads,
      reader.Tracks platform context (bytesTaken start reader.inner) payloads
          [] ∧
        reader.isComplete = true ∧ payloads.flatten = given := by
  obtain ⟨payloads, pending, tracks, handedOut⟩ := opening.ledger
  obtain ⟨next, _, ⟨chunk, more, rest, other, goesOn, balance, ends⟩ |
      ⟨⟨error, other⟩, _⟩⟩ :=
    tracks.read_spec agree output
  · rw [result] at other
    have nothing : chunk = [] := by
      have none := Except.ok.inj (congrArg Prod.fst other)
      exact List.length_eq_zero_iff.mp none.symm
    obtain rfl : reader = next := congrArg (fun answer => answer.2.1) other
    obtain ⟨complete, rfl⟩ := (ends nothing).resolve_left some
    refine ⟨payloads ++ more, ?_, complete, ?_⟩
    · rw [← DecryptReader.bytesTaken_trans opening.data opening.cursor
          goesOn.cursor]
      exact goesOn.tracks
    · rw [List.flatten_append, handedOut, List.append_assoc, balance, nothing,
        List.append_nil, List.append_nil]
  · rw [result] at other
    cases other

/-- `finish` behind the final segment succeeds where the file ends. -/
theorem Opening.finish_spec
    (opening : Opening platform context start reader given)
    (complete : reader.isComplete = true) :
    (reader.finish platform).1.Returns ∧
      ((reader.finish platform).1 = .ok () →
        bytesTaken start reader.inner = start.remaining) := by
  have status : reader.status = .frameComplete := by
    simp only [DecryptReader.isComplete, decide_eq_true_eq] at complete
    exact complete.resolve_right opening.unended
  obtain ⟨result, after, read, reads⟩ :=
    readFully_handed reader.inner (zeros 1)
  simp only [DecryptReader.finish, DecryptReader.tryFinish,
    DecryptReader.drainMessage, DecryptReader.drainLoop, status, reduceCtorEq,
    ↓reduceIte, read]
  rw [length_zeros]
  cases result with
  | error stop =>
      obtain ⟨error, rfl⟩ := reads.returns.stop_eq_err
      exact ⟨Outcome.returns_err _, fun impossible => by cases impossible⟩
  | ok _ =>
      obtain ⟨taken, _, _⟩ := opening.steady.readFully read
      rw [length_zeros] at taken
      cases shape : (handed reader.inner 1).length with
      | zero =>
          refine ⟨Outcome.returns_ok _, fun _ => ?_⟩
          -- Nothing is left behind the final segment.
          have ended : reader.inner.remaining = [] := by
            rw [taken, List.length_take] at shape
            apply List.eq_nil_of_length_eq_zero
            omega
          have reached := List.drop_eq_nil_iff.mp ended
          rw [opening.data] at reached
          apply List.take_of_length_le
          rw [Source.remaining, List.length_drop]
          omega
      | succ more =>
          exact ⟨Outcome.returns_err _, fun impossible => by cases impossible⟩

/-- What a copy leaves that has come this far. -/
theorem leavesOpened_of_passed
    {key : Key}
    {parameters : Parameters}
    {ciphertext taken written : Bytes}
    {header : Header}
    {payloads : List Bytes}
    {ended : Bool}
    {result : AnyResult Unit}
    (authentic : HeaderAuthenticates platform key fileAad header context)
    (whole : ciphertext = header.val ++ start.remaining)
    (passed :
      (segmentStream platform context).Passed 0 taken payloads ended [])
    (lead : taken <+: start.remaining)
    (begins : written <+: payloads.flatten)
    (returns : result.Returns)
    (accepted :
      result = .ok () →
        decryptWithParameters platform key fileAad parameters ciphertext =
          .ok written) :
    LeavesOpened platform key parameters ciphertext result written := by
  obtain ⟨rest, shape⟩ := lead
  have further := passed.append rest
  rw [shape] at further
  exact ⟨returns, accepted, .inr ⟨header, context, _, payloads, ended, _, whole,
    authentic, further, begins⟩⟩

/-- A reader that was opened on a file stands behind its header. -/
theorem opening_new
    {key : Key}
    {parameters : Parameters}
    {source : Source IoPayload}
    (steady : Steady source)
    (created :
      DecryptReader.newWithParameters platform source key fileAad parameters =
        .ok reader) :
    ∃ state,
      startDecryption platform key fileAad parameters reader.header =
          .ok state ∧
        source.remaining = reader.header.val ++ reader.inner.remaining ∧
        reader.Tracks platform state.context [] [] [] ∧
        Opening platform state.context reader.inner reader [] := by
  have accounts := DecryptReader.Created.accounts (.newWithParameters created)
  unfold DecryptReader.newWithParameters at created
  rcases fetched : readHeader source with ⟨stop | header, inner⟩
  · rw [fetched] at created
    cases created
  · rw [fetched] at created
    obtain ⟨whole, _, still⟩ := readHeader_steady steady fetched
    obtain ⟨decryptor, begun, shape⟩ := Outcome.bind_eq_ok.mp created
    obtain ⟨state, started, built⟩ :=
      Outcome.bind_eq_ok.mp (Outcome.mapErr_eq_ok.mp begun)
    cases built
    cases shape
    obtain ⟨context, authentic, delivers⟩ :=
      DecryptReader.delivers_of_started
        (startDecryption_eq_ok_iff.mp started).1 inner
    obtain ⟨own, _⟩ := startDecryption_authenticates started
    cases authentic.unique own
    refine ⟨state, started, whole, delivers.tracks, ⟨[], [], ?_, rfl⟩,
      accounts.consistent, rfl, Nat.le_refl _, still,
      by simp [DecryptReader.fromDecryptor]⟩
    rw [bytesTaken, Nat.sub_self, List.take_zero]
    exact delivers.tracks

/-- What `decrypt_file` writes into the file that it created. -/
theorem decryptInto_leaves
    {environment : Environment IoPayload}
    {output : Sink IoPayload}
    {key : Key}
    {parameters : Parameters}
    {state : DecryptionState}
    {ciphertext : Bytes}
    (agree : platform.OpensAgree)
    (started :
      startDecryption platform key fileAad parameters reader.header =
        .ok state)
    (whole : ciphertext = reader.header.val ++ reader.inner.remaining)
    (opening : Opening platform state.context reader.inner reader [])
    (fresh : output.accepted = []) :
    LeavesOpened platform key parameters ciphertext
      (decryptInto platform environment reader output).1
      (decryptInto platform environment reader output).2.accepted := by
  have positive := environment.positive
  have some : zeros environment.capacity ≠ [] := by
    apply List.ne_nil_of_length_pos
    rw [length_zeros]
    exact positive
  obtain ⟨authentic, _⟩ := startDecryption_authenticates started
  obtain ⟨⟨handedOut, written, last, accepted, within, either, ends⟩,
      returns⟩ :=
    (opening_delivers agree positive).copyLoop_spec opening
      (copyBudget reader.inner) output
  have comesBack := returns (by
    rw [copyBudget, segmentOverhead_eq, List.length_nil]
    omega)
  rw [fresh, List.nil_append] at accepted
  rw [List.nil_append] at either ends
  unfold decryptInto
  rcases copied : copyLoop (DecryptReader.read platform) environment.capacity
      (copyBudget reader.inner) reader output with ⟨stop | _, next, after⟩
  · rw [copied] at accepted comesBack
    obtain ⟨error, rfl⟩ := comesBack.stop_eq_err
    simp only [Outcome.mapErr, show after.accepted = written from accepted]
    rcases either with holds | halted
    · obtain ⟨payloads, pending, tracks, split⟩ := holds.ledger
      apply leavesOpened_of_passed authentic whole tracks.passed
        (bytesTaken_begins _ _) _ (Outcome.returns_err _)
        (fun impossible => by cases impossible)
      rw [split]
      exact within.trans (List.prefix_append _ _)
    · obtain ⟨taken, payloads, ended, passed, lead, begins⟩ :=
        halted.beginning
      exact leavesOpened_of_passed authentic whole passed lead
        (within.trans begins) (Outcome.returns_err _)
        (fun impossible => by cases impossible)
  · rw [copied] at accepted ends
    obtain ⟨rfl, still, final, left, holds, zero⟩ := ends rfl
    obtain ⟨payloads, tracks, complete, rfl⟩ :=
      holds.finished agree some zero
    obtain ⟨finishes, reaches⟩ := still.finish_spec complete
    have leaves {result : AnyResult Unit}
        (returns : result.Returns)
        (finished : result = .ok () → (next.finish platform).1 = .ok ()) :
        LeavesOpened platform key parameters ciphertext result
          payloads.flatten := by
      have passed := tracks.passed
      rw [complete] at passed
      apply leavesOpened_of_passed authentic whole passed
        (bytesTaken_begins _ _) List.prefix_rfl returns
      intro ok
      rw [reaches (finished ok)] at passed
      exact (decryptWithParameters_iff_message started whole _).mpr
        ⟨payloads, passed.message, rfl⟩
    have same : after.accepted = payloads.flatten := accepted
    rcases ended : next.finish platform with ⟨stop | _, source⟩
    · rw [ended] at finishes
      obtain ⟨error, rfl⟩ := finishes.stop_eq_err
      simp only [ended, Outcome.mapErr, same]
      exact leaves (Outcome.returns_err _) (fun impossible => by
        cases impossible)
    · obtain ⟨flushed, kept, result | ⟨error, result⟩⟩ := after.flush_spec
      · simp only [ended, result, Outcome.mapErr, kept, same]
        exact leaves (Outcome.returns_ok _) (fun _ => by rw [ended])
      · simp only [ended, result, Outcome.mapErr, kept, same]
        exact leaves (Outcome.returns_err _) (fun impossible => by
          cases impossible)

/-! ## Without faults -/

/-- A reader on a file that is read without faults. -/
def Following (platform : Platform) (context : MessageContext)
    (start : Source IoPayload) (reader : DecryptReader) (given : Bytes) :
    Prop :=
  Opening platform context start reader given ∧
    ∃ payloads ended pending,
      reader.Follows platform context start payloads ended pending

/-- A decrypting reader on a message that is read without faults never
fails. -/
theorem following_delivers
    {capacity : Nat}
    {all : List Bytes}
    (agree : platform.OpensAgree)
    (positive : 0 < capacity)
    (message :
      (segmentStream platform context).Message 0 start.remaining all) :
    Delivering (DecryptReader.read platform) capacity start.data.length
      (Following platform context start)
      (fun _ _ => False) := by
  have delivers :=
    @opening_delivers platform context start capacity agree positive
  refine ⟨fun reader given following => ?_,
    fun _ _ impossible => impossible.elim,
    fun reader given following => delivers.bounded reader given following.1⟩
  obtain ⟨opening, payloads, ended, pending, follows⟩ := following
  have step := follows.read_step agree (zeros capacity)
  rcases delivers.step reader given opening with
    ⟨count, next, left, result, inside, still⟩ |
      ⟨error, next, left, result, _⟩
  · rw [result] at step
    refine .inl ⟨count, next, left, result, inside, still, ?_⟩
    generalize answer : ((.ok count, next, left) :
      IoResult Nat × DecryptReader × Bytes) = given at step
    cases step with
    | handed further =>
        cases answer
        exact ⟨_, _, _, further⟩
    | refused =>
        cases answer
  · rw [result] at step
    generalize answer : ((.error (.err error), next, left) :
      IoResult Nat × DecryptReader × Bytes) = given at step
    cases step with
    | handed =>
        cases answer
    | refused _ opened _ missing =>
        -- The message goes on with another segment.
        have scanned := follows.passed.scan_eq
        rw [opened, Nat.zero_add,
          (segmentStream platform context).scan_of_none missing,
          show _ = _ from message] at scanned
        cases congrArg Prod.snd scanned

/-- `decrypt_file` succeeds on a message that is read and written without
faults. -/
theorem decryptInto_succeeds
    {environment : Environment IoPayload}
    {output : Sink IoPayload}
    {all : List Bytes}
    (agree : platform.OpensAgree)
    (following : Following platform context reader.inner reader [])
    (message :
      (segmentStream platform context).Message 0 reader.inner.remaining all)
    (reliable : output.Reliable) :
    (decryptInto platform environment reader output).1 = .ok () := by
  have delivers :=
    @following_delivers platform context reader.inner environment.capacity all
      agree environment.positive message
  have enough :
      reader.inner.data.length + 2 ≤
        ([] : Bytes).length + copyBudget reader.inner := by
    rw [copyBudget, segmentOverhead_eq, List.length_nil]
    omega
  obtain ⟨next, after, copied, steady⟩ :=
    delivers.copyLoop_reliable (fun _ _ => id) following reliable enough
  obtain ⟨⟨handedOut, written, last, _, _, _, ends⟩, _⟩ :=
    delivers.copyLoop_spec following (copyBudget reader.inner) output
  rw [copied] at ends
  obtain ⟨_, ⟨_, payloads, ended, pending, follows⟩, _⟩ := ends rfl
  have finishes : (next.finish platform).1 = .ok () := by
    simp only [DecryptReader.finish]
    obtain ⟨final, ⟨_, result, _⟩ | ⟨_, closed⟩ |
        ⟨_, rest, _, scanned, some, _⟩⟩ :=
      follows.tryFinish_spec agree
    · rw [result]
    · rw [show _ = _ from message] at closed
      cases closed
    · rw [show _ = _ from message] at scanned
      cases scanned
      exact (some rfl).elim
  simp only [decryptInto, copied]
  rcases ended : next.finish platform with ⟨result, source⟩
  rw [ended] at finishes
  cases finishes
  simp only [steady.flush, Outcome.mapErr]

/-- A reader that was opened on a file that is read without faults. -/
theorem following_new
    {key : Key}
    {parameters : Parameters}
    {source : Source IoPayload}
    (honest : source.Honest)
    (created :
      DecryptReader.newWithParameters platform source key fileAad parameters =
        .ok reader)
    (tracks : reader.Tracks platform context [] [] [])
    (opening : Opening platform context reader.inner reader []) :
    Following platform context reader.inner reader [] := by
  refine ⟨opening, [], false, [], ?_⟩
  unfold DecryptReader.newWithParameters at created
  obtain ⟨after, ⟨header, enough, _, fetched, advanced⟩ |
      ⟨_, error, fetched⟩⟩ :=
    readHeader_honest honest
  · rw [fetched] at created
    obtain ⟨decryptor, _, shape⟩ := Outcome.bind_eq_ok.mp created
    cases shape
    have inside : after.cursor ≤ after.data.length := by
      rw [Source.remaining, List.length_drop] at enough
      have header : 0 < headerLength := by decide
      rw [advanced.cursor, advanced.data]
      omega
    exact ⟨advanced.honest, rfl, inside, .start, tracks.parameters,
      tracks.sized, rfl, fun _ => tracks.decryptor rfl, .nothing rfl⟩
  · rw [fetched] at created
    cases created

/-- A reader opens on what `decrypt_with_parameters` accepts. -/
theorem newWithParameters_of_accepted
    {key : Key}
    {parameters : Parameters}
    {source : Source IoPayload}
    {plaintext : Bytes}
    (honest : source.Honest)
    (accepted :
      decryptWithParameters platform key fileAad parameters source.remaining =
        .ok plaintext) :
    ∃ reader,
      DecryptReader.newWithParameters platform source key fileAad parameters =
        .ok reader := by
  obtain ⟨header, body, state, whole, started⟩ :=
    startDecryption_of_accepted accepted
  unfold DecryptReader.newWithParameters
  obtain ⟨after, ⟨other, _, lead, fetched, _⟩ | ⟨short, _⟩⟩ :=
    readHeader_honest honest
  · rw [whole, List.take_left' header.length_val] at lead
    cases Subtype.ext lead
    simp only [fetched, Decryptor.newWithParameters, started,
      Outcome.ok_bind, Outcome.mapErr]
    exact ⟨_, rfl⟩
  · rw [whole, List.length_append, header.length_val] at short
    omega

/-- A reader opens, or an error says why it does not. -/
theorem newWithParameters_returns
    (platform : Platform)
    (source : Source IoPayload)
    (key : Key)
    (parameters : Parameters) :
    (DecryptReader.newWithParameters platform source key fileAad
      parameters).Returns := by
  obtain ⟨result, after, read, _, returns, _⟩ := readHeader_spec source
  unfold DecryptReader.newWithParameters
  rw [read]
  cases result with
  | error stop =>
      obtain ⟨error, rfl⟩ := returns.stop_eq_err
      exact Outcome.returns_err _
  | ok header =>
      have started :=
        startDecryption_returns platform key fileAad parameters header
      simp only [Decryptor.newWithParameters]
      cases begun :
          startDecryption platform key fileAad parameters header with
      | ok state =>
          exact Outcome.returns_ok _
      | error stop =>
          rw [begun] at started
          obtain ⟨error, rfl⟩ := started.stop_eq_err
          exact Outcome.returns_err _

/-! ## The whole program -/

/-- `decrypt_file` fails without an effect, or gets to writing its output. -/
theorem decryptFile_cases
    (platform : Platform)
    (environment : Environment IoPayload)
    (disk : Disk)
    (inputPath outputPath : Path)
    (key : Key)
    (parameters : Parameters) :
    (∃ error,
        decryptFile platform environment disk inputPath outputPath key
            parameters =
          (.error (.err error), disk) ∧
        (environment.Faultless → disk.file outputPath = none →
          ∀ ciphertext plaintext,
            disk.file inputPath = some ciphertext →
              decryptWithParameters platform key fileAad parameters
                  ciphertext = .ok plaintext →
                u64Max < ciphertext.length)) ∨
      ∃ reader source ciphertext,
        DecryptReader.newWithParameters platform source key fileAad
            parameters = .ok reader ∧
          disk.file inputPath = some ciphertext ∧
          disk.file outputPath = none ∧
          source.remaining = ciphertext ∧
          source.script = environment.reads ∧
          decryptFile platform environment disk inputPath outputPath key
              parameters =
            ((decryptInto platform environment reader
                ⟨[], environment.writes⟩).1,
              disk.put outputPath
                (decryptInto platform environment reader
                  ⟨[], environment.writes⟩).2.accepted) := by
  unfold decryptFile
  rcases @openFile_spec _ environment disk inputPath with
    ⟨ciphertext, source, opened, present, data, cursor, script⟩ |
      ⟨⟨error, refused⟩, large⟩
  · have whole : source.remaining = ciphertext := by
      rw [Source.remaining, data, cursor, List.drop_zero]
    simp only [opened, Outcome.ok_bind]
    rcases created : DecryptReader.newWithParameters platform source key
        fileAad parameters with stop | reader
    · have returns := newWithParameters_returns platform source key parameters
      rw [created] at returns
      obtain ⟨error, rfl⟩ := returns.stop_eq_err
      refine .inl ⟨.io error, rfl, fun faultless _ other plaintext found
        accepted => ?_⟩
      rw [present] at found
      cases found
      have honest : source.Honest := by
        intro event member
        rw [script] at member
        exact faultless.reads event member
      rw [← whole] at accepted
      obtain ⟨reader, succeeds⟩ := newWithParameters_of_accepted honest accepted
      rw [created] at succeeds
      cases succeeds
    · simp only [Outcome.ok_bind]
      rcases @createNew_spec _ environment disk outputPath with
        ⟨created, absent⟩ | ⟨⟨error, refused⟩, occupied⟩
      · right
        refine ⟨reader, source, ciphertext, by assumption, present, absent,
          whole, script, ?_⟩
        simp only [created, Outcome.ok_bind, Disk.put_put]
      · left
        refine ⟨.io error, ?_, fun faultless absent => ?_⟩
        · simp only [refused, Outcome.error_bind, Outcome.mapErr]
        · exact (occupied faultless.creates absent).elim
  · left
    refine ⟨.io error, ?_, fun faultless _ ciphertext _ present _ => ?_⟩
    · simp only [refused, Outcome.error_bind]
      rfl
    · exact large faultless.opens ciphertext present

/-- `decrypt_file` under any answers of the system; without faults it accepts
what `decrypt_with_parameters` accepts. -/
theorem decryptFile_decryptsFile
    (agree : platform.OpensAgree)
    (environment : Environment IoPayload)
    (disk : Disk)
    (inputPath outputPath : Path)
    (key : Key)
    (parameters : Parameters) :
    DecryptsFile platform key parameters disk inputPath outputPath
        (decryptFile platform environment disk inputPath outputPath key
          parameters) ∧
      (environment.Faultless → disk.file outputPath = none →
        ∀ ciphertext plaintext,
          disk.file inputPath = some ciphertext →
            ciphertext.length ≤ u64Max →
            decryptWithParameters platform key fileAad parameters ciphertext =
              .ok plaintext →
            (decryptFile platform environment disk inputPath outputPath key
              parameters).1 = .ok ()) := by
  rcases decryptFile_cases platform environment disk inputPath outputPath key
      parameters with
    ⟨error, failed, large⟩ |
      ⟨reader, source, contents, created, present, absent, whole, script,
        computed⟩
  · rw [failed]
    refine ⟨.inl ⟨Outcome.returns_err _, by simp, rfl⟩,
      fun faultless absent ciphertext plaintext present short accepted => ?_⟩
    have long := large faultless absent ciphertext plaintext present accepted
    omega
  · have steady : Steady source := by
      intro cursor
      rw [script]
      exact environment.whole cursor
    obtain ⟨state, started, parts, tracks, opening⟩ :=
      opening_new steady created
    rw [whole] at parts
    rw [computed]
    refine ⟨.inr ⟨contents, _, present, absent, rfl,
      decryptInto_leaves agree started parts opening rfl⟩,
      fun faultless _ ciphertext plaintext found _ accepted => ?_⟩
    rw [present] at found
    cases found
    obtain ⟨payloads, message, _⟩ :=
      (decryptWithParameters_iff_message started parts plaintext).mp accepted
    have honest : source.Honest := by
      intro event member
      rw [script] at member
      exact faultless.reads event member
    exact decryptInto_succeeds agree (following_new honest created tracks opening)
      message faultless.writes

end Decryption

end SerialFile

end FastFloe
