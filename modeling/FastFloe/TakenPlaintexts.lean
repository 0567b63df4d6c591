import FastFloe.PlaintextStreams
import FastFloe.EncryptReaderRuns

namespace FastFloe

open Rust

/-!
# Conservation of plaintext in encrypting readers

Over any run of reads on an `EncryptReader`, with the source exchanged through
`get_mut` in between and failing in any way, every byte that it took off its
sources is in a segment that it sealed, or it is the one byte carried ahead.
What the reader hands out is its header and these segments, and when it reports
to be finished, `decrypt` returns from that what was taken.
-/

namespace EncryptReader

/-- A reader that accounts for what it has handed out and for what it took. -/
structure Conserves (platform : Platform) (context : MessageContext)
    (header : Header) (history : History) (taken : Bytes)
    (blocks : List (Bytes × Bytes)) (reader : EncryptReader) : Prop where
  tracks : reader.Tracks platform context taken blocks
  same : reader.header = header
  balance :
    history.delivered ++ reader.unserved =
      header.val ++ (blocks.map Prod.fst).flatten

/-- A poisoned reader: the segments that it has sealed before are no complete
message, and it hands out nothing more. -/
structure Halted (platform : Platform) (context : MessageContext)
    (header : Header) (history : History) (taken : Bytes)
    (blocks : List (Bytes × Bytes)) (reader : EncryptReader) : Prop where
  failed : reader.status = .failed
  run : SealedRun platform context 0 blocks
  beginning : (blocks.map Prod.snd).flatten <+: taken
  delivered :
    history.delivered = header.val ++ (blocks.map Prod.fst).flatten

section Runs

variable {platform : Platform} {context : MessageContext} {header : Header}
  {history : History} {taken : Bytes} {blocks : List (Bytes × Bytes)}
  {reader : EncryptReader}

/-- One call on a reader that has not failed. -/
theorem Conserves.step
    (agree : platform.SealsAgree)
    (conserves :
      reader.Conserves platform context header history taken blocks)
    (call : Call) :
    (∃ more,
        (call.perform platform reader).2.Conserves platform context header
          (history.record platform call reader) (taken ++ call.taken reader)
          (blocks ++ more)) ∨
      (call.perform platform reader).2.Halted platform context header
        (history.record platform call reader) (taken ++ call.taken reader)
        blocks := by
  have tracks := conserves.tracks
  cases call with
  | read output =>
      obtain ⟨next, left, ⟨count, more, result, again, same, served⟩ |
          ⟨error, result, failed, opened, nothing⟩⟩ :=
        tracks.read_spec agree output
      · left
        refine ⟨more, ?_⟩
        simp only [Call.perform, History.record, Call.taken, result,
          Except.map]
        refine ⟨again, same.trans conserves.same, ?_⟩
        rw [List.append_assoc, served, ← List.append_assoc,
          conserves.balance, List.map_append, List.flatten_append,
          List.append_assoc]
      · right
        obtain ⟨_, _, _, run, kept⟩ := tracks.opened opened
        simp only [Call.perform, History.record, Call.taken, result,
          Except.map]
        refine ⟨failed, run, ?_, ?_⟩
        · rw [kept, List.append_assoc]
          exact List.prefix_append _ _
        · rw [← conserves.balance, nothing, List.append_nil]
  | getMut use =>
      left
      refine ⟨[], ?_⟩
      simp only [Call.perform, History.record, Call.taken, List.append_nil]
      exact ⟨⟨tracks.consistent.getMut use,
        tracks.progress.idle rfl rfl rfl⟩, conserves.same,
        conserves.balance⟩

/-- A poisoned reader takes nothing more and hands out nothing more. -/
theorem Halted.step
    (halted : reader.Halted platform context header history taken blocks)
    (call : Call) :
    (call.perform platform reader).2.Halted platform context header
      (history.record platform call reader) (taken ++ call.taken reader)
      blocks := by
  obtain ⟨failed, run, beginning, delivered⟩ := halted
  have longer : (blocks.map Prod.snd).flatten <+:
      taken ++ call.taken reader :=
    beginning.trans (List.prefix_append _ _)
  cases call with
  | read output =>
      by_cases empty : output = []
      · have idle : reader.read platform output = (.ok 0, reader, output) := by
          simp only [read, empty, ↓reduceIte]
        simp only [Call.perform, History.record, idle, Except.map,
          List.take_zero, List.append_nil]
        exact ⟨failed, run, longer, delivered⟩
      · have refused : reader.read platform output =
            (.error (.err poisonedError), reader, output) := by
          simp only [read, empty, failed, ↓reduceIte]
        simp only [Call.perform, History.record, refused, Except.map]
        exact ⟨failed, run, longer, delivered⟩
  | getMut use =>
      simp only [Call.perform, History.record, List.append_nil]
      exact ⟨failed, run, longer, delivered⟩

/-- A run of calls conserves the plaintext that it takes, or ends with a
poisoned reader. -/
theorem Conserves.performAll
    (agree : platform.SealsAgree)
    (conserves :
      reader.Conserves platform context header history taken blocks)
    (calls : List Call) :
    ∃ all,
      (reader.performAll history
            (calls.map (Prod.mk platform))).1.Conserves platform context
          header
          (reader.performAll history (calls.map (Prod.mk platform))).2
          (taken ++ reader.takenAll platform calls) all ∨
        (reader.performAll history
            (calls.map (Prod.mk platform))).1.Halted platform context header
          (reader.performAll history (calls.map (Prod.mk platform))).2
          (taken ++ reader.takenAll platform calls) all := by
  have either :
      ∃ all,
        reader.Conserves platform context header history taken all ∨
          reader.Halted platform context header history taken all :=
    ⟨blocks, .inl conserves⟩
  clear conserves
  induction calls generalizing reader history taken with
  | nil =>
      simpa only [List.map_nil, EncryptReader.performAll, takenAll,
        List.append_nil] using either
  | cons call calls inductionHypothesis =>
      simp only [List.map_cons, EncryptReader.performAll, takenAll]
      rw [← List.append_assoc]
      apply inductionHypothesis
      obtain ⟨all, conserves | halted⟩ := either
      · rcases conserves.step agree call with ⟨more, again⟩ | halted
        · exact ⟨all ++ more, .inl again⟩
        · exact ⟨all, .inr halted⟩
      · exact ⟨all, .inr (halted.step call)⟩

/-- A new reader has taken nothing and sealed nothing. -/
theorem conserves_new
    {key : Key}
    {aad : Bytes}
    {parameters : Parameters}
    {rng : ProviderRng}
    {source : Source IoPayload}
    (created :
      EncryptReader.new platform source key aad parameters rng = .ok reader) :
    ∃ context,
      HeaderAuthenticates platform key aad reader.header context ∧
        reader.Conserves platform context reader.header History.start []
          [] := by
  have accounts := Created.accounts ⟨_, _, _, _, _, _, created⟩
  obtain ⟨encryptor, started, shape⟩ := Outcome.bind_eq_ok.mp created
  cases shape
  obtain ⟨authentic, _, here⟩ :=
    Encryptor.new_eq_ok (Kdf.FaultOf.refl platform.kdfExpand)
      (Outcome.mapErr_eq_ok.mp started)
  refine ⟨encryptor.state.context, authentic, ⟨accounts.consistent, ?_⟩, rfl,
    ?_⟩
  · exact .opened rfl rfl here (sealedRun_nil _ _ _) rfl
  · rw [unserved_of_drained rfl]
    exact (List.append_nil _).symm

/-! ## What was sealed can be opened again -/

/-- The segments that were sealed are frames, and their payloads are what was
taken up to the byte that is carried ahead. -/
theorem Progress.passed
    (roundTrips : platform.RoundTrips)
    (progress : reader.Progress platform context taken blocks) :
    (segmentStream platform context).Passed 0
        (blocks.map Prod.fst).flatten (blocks.map Prod.snd)
        reader.isComplete [] ∧
      ∃ ahead,
        taken = (blocks.map Prod.snd).flatten ++ ahead ∧ ahead.length ≤ 1 ∧
          (reader.isComplete = true → ahead = []) := by
  cases progress with
  | opened status _ _ run kept =>
      have unfinished : reader.isComplete = false := by
        simp [isComplete, status]
      rw [unfinished]
      refine ⟨.of_frames (run.frames roundTrips), _, kept, ?_, ?_⟩
      · cases reader.lookahead <;> simp
      · intro impossible
        cases impossible
  | @finished middle last lastPayload status whole message kept =>
      have complete : reader.isComplete = true := by
        simp [isComplete, status]
      have isFrame :
          (segmentStream platform context).IsFrame
            (0 + (middle.map Prod.snd).length) true last lastPayload := by
        rw [List.length_map]
        exact (@isFrame_iff _ _ _ .final _ _).mpr
          ⟨message.inside, message.last.opens roundTrips⟩
      have passed :=
        (Framing.Parser.Passed.of_frames
          (message.run.frames roundTrips)).frame isFrame
      rw [complete]
      refine ⟨?_, [], kept.trans (List.append_nil _).symm, Nat.zero_le _,
        fun _ => rfl⟩
      rw [whole]
      simpa using passed

end Runs

end EncryptReader

/-- An `EncryptReader` conserves plaintext, whatever its sources do and however
it is read and given other sources.  What it has handed out is the beginning of
its header and of segments that open, one after the other, to a beginning of
what it took; until it fails it is at most one byte behind, and once it has
sealed the final segment it is not behind at all.  When it reports to be
finished, `decrypt` returns what it took from what it handed out. -/
theorem encryptReader_sealsTaken
    {platform : Platform}
    {key : Key}
    {aad : Bytes}
    {parameters : Parameters}
    {rng : ProviderRng}
    {source : Source IoPayload}
    {reader : EncryptReader}
    (agree : platform.SealsAgree)
    (roundTrips : platform.RoundTrips)
    (created :
      EncryptReader.new platform source key aad parameters rng = .ok reader) :
    ∃ context,
      HeaderAuthenticates platform key aad reader.header context ∧
        ∀ calls : List EncryptReader.Call,
          ∃ body payloads,
            (reader.afterCalls platform calls).2.delivered <+:
                reader.header.val ++ body ∧
              (segmentStream platform context).Passed 0 body payloads
                (reader.afterCalls platform calls).1.isComplete [] ∧
              payloads.flatten <+: reader.takenAll platform calls ∧
              ((reader.afterCalls platform calls).1.status ≠ .failed →
                (reader.takenAll platform calls).length ≤
                  payloads.flatten.length + 1) ∧
              ((reader.afterCalls platform calls).1.isComplete = true →
                payloads.flatten = reader.takenAll platform calls) ∧
              ((reader.afterCalls platform calls).1.isFinished = true →
                decrypt platform key aad
                    (reader.afterCalls platform calls).2.delivered =
                  .ok (reader.takenAll platform calls)) := by
  obtain ⟨context, authentic, conserves⟩ :=
    EncryptReader.conserves_new created
  refine ⟨context, authentic, fun calls => ?_⟩
  obtain ⟨blocks, conserved | halted⟩ := conserves.performAll agree calls
  · rw [List.nil_append] at conserved
    obtain ⟨passed, ahead, kept, most, settled⟩ :=
      conserved.tracks.progress.passed roundTrips
    have balance := conserved.balance
    refine ⟨_, _, ⟨_, balance⟩, passed, ⟨ahead, kept.symm⟩, fun _ => ?_,
      fun complete => ?_, fun finished => ?_⟩
    · rw [kept, List.length_append]
      exact Nat.add_le_add_left most _
    · rw [kept, settled complete, List.append_nil]
    · obtain ⟨complete, nothing⟩ :=
        conserved.tracks.consistent.isFinished_iff.mp finished
      have message := (complete ▸ passed).message
      rw [nothing, List.append_nil] at balance
      apply (decrypt_iff_message authentic balance).mpr
      refine ⟨_, message, ?_⟩
      rw [kept, settled complete, List.append_nil]
  · rw [List.nil_append] at halted
    have failed :
        (reader.afterCalls platform calls).1.status = .failed :=
      halted.failed
    have unfinished :
        (reader.afterCalls platform calls).1.isComplete = false := by
      simp [EncryptReader.isComplete, failed]
    rw [unfinished]
    refine ⟨_, _, ⟨[], ?_⟩, .of_frames (halted.run.frames roundTrips),
      halted.beginning, fun unfailed => (unfailed failed).elim,
      (fun impossible => by cases impossible), fun finished => ?_⟩
    · rw [List.append_nil]
      exact halted.delivered
    · simp [EncryptReader.isFinished, failed] at finished

/-- One byte, then an early end that loses its place. -/
def oneByte : Source IoPayload where
  data := [7]
  addressable := by decide
  cursor := 0
  script := [.interrupted, .short 0, .early 5]

set_option maxRecDepth 100000 in
theorem encryptReader_sealsTaken_example :
    ∃ reader,
      EncryptReader.new openPlatform fragmentedPlaintext zeroKey []
          shortestSegments zeroRng = .ok reader ∧
        decrypt openPlatform zeroKey []
            (reader.afterCalls openPlatform
              [.read (zeros 100), .read (zeros 100), .getMut fun _ => oneByte,
                .read (zeros 10), .read (zeros 24)]).2.delivered =
          .ok (List.replicate 33 7 ++ [7]) := by
  obtain ⟨reader, created, finished, taken⟩ :
      ∃ reader,
        EncryptReader.new openPlatform fragmentedPlaintext zeroKey []
            shortestSegments zeroRng = .ok reader ∧
          (reader.afterCalls openPlatform
            [.read (zeros 100), .read (zeros 100), .getMut fun _ => oneByte,
              .read (zeros 10), .read (zeros 24)]).1.isFinished = true ∧
          reader.takenAll openPlatform
            [.read (zeros 100), .read (zeros 100), .getMut fun _ => oneByte,
              .read (zeros 10), .read (zeros 24)] =
            List.replicate 33 7 ++ [7] :=
    ⟨_, rfl, rfl, rfl⟩
  obtain ⟨_, _, run⟩ :=
    encryptReader_sealsTaken transparent_sealsAgree transparent_roundTrips
      created
  obtain ⟨_, _, _, _, _, _, _, decrypts⟩ :=
    run [.read (zeros 100), .read (zeros 100), .getMut fun _ => oneByte,
      .read (zeros 10), .read (zeros 24)]
  refine ⟨reader, created, ?_⟩
  rw [decrypts finished, taken]

end FastFloe
