import FastFloe.AuthenticStreams
import FastFloe.DecryptReaderRuns
import FastFloe.DecryptReaderStates
import FastFloe.HeaderPaths
import FastFloe.Integrity

namespace FastFloe

open Rust

/-!
# Integrity of decrypting readers

An adversary who controls the source of a `DecryptReader`, its bytes and its
faults, against the runs that were encrypted under the key.  Behind the header
of a run the reader hands out nothing but the beginning of that run's plaintext,
in whatever order it is read, finalized and given other sources; it calls the
message complete only when it has taken all of the run's segments.
-/

namespace DecryptReader

/-! ## What a run of calls hands out -/

/-- The plaintext that a call hands to its caller. -/
def Call.handed (platform : Platform) (reader : DecryptReader) : Call → Bytes
  | .read output =>
      match reader.read platform output with
      | (.ok count, _, filled) => filled.take count
      | (.error _, _, _) => []
  | .tryFinish => []
  | .tryFinishFrame => []
  | .getMut _ => []

/-- The plaintext that a run of calls hands to its caller. -/
def handedAll (platform : Platform) : DecryptReader → List Call → Bytes
  | _, [] =>
      []
  | reader, call :: calls =>
      call.handed platform reader ++
        handedAll platform (call.perform platform reader).2 calls

/-- The reader and its history after a run of calls. -/
def afterCalls (platform : Platform) (reader : DecryptReader)
    (calls : List Call) : DecryptReader × History :=
  reader.performAll History.start (calls.map (Prod.mk platform))

/-- A reader that has handed these bytes out of the segments in its history. -/
structure Delivers (platform : Platform) (context : MessageContext)
    (history : History) (handed : Bytes) (payloads : List Bytes)
    (pending : Bytes) (reader : DecryptReader) : Prop where
  tracks :
    reader.Tracks platform context history.taken payloads pending
  balance :
    history.discarded = false → payloads.flatten = handed ++ pending
  discarded :
    history.discarded = true →
      reader.isComplete = true ∧ pending = [] ∧ handed <+: payloads.flatten
  ended : reader.status = .streamComplete → history.discarded = true

/-- A poisoned reader, with what it has handed out before. -/
structure Stopped (platform : Platform) (context : MessageContext)
    (history : History) (handed : Bytes) (reader : DecryptReader) :
    Prop where
  failed : reader.status = .failed
  beginning :
    ∃ payloads ended,
      (segmentStream platform context).Passed 0 history.taken payloads ended
          [] ∧
        handed <+: payloads.flatten

section Steps

variable {platform : Platform} {context : MessageContext}
  {history : History} {handed : Bytes} {payloads : List Bytes}
  {pending : Bytes} {reader : DecryptReader}

/-- What has been handed out is the beginning of what was opened. -/
theorem Delivers.isPrefix
    (delivers :
      reader.Delivers platform context history handed payloads pending) :
    handed <+: payloads.flatten := by
  cases discarded : history.discarded with
  | true =>
      exact (delivers.discarded discarded).2.2
  | false =>
      rw [delivers.balance discarded]
      exact List.prefix_append _ _

/-- A call that fails poisons the reader. -/
theorem Delivers.stops
    {next : DecryptReader}
    {ended : Bool}
    (delivers :
      reader.Delivers platform context history handed payloads pending)
    (failed : next.status = .failed) :
    next.Stopped platform context
      { history with ended, erred := true } handed :=
  ⟨failed, payloads, _, delivers.tracks.passed, delivers.isPrefix⟩

/-- A finalizer that succeeds gives up what is held. -/
theorem Delivers.finalizes
    {next drained : DecryptReader}
    {more : List Bytes}
    {ended : Bool}
    {served : Nat}
    (delivers :
      reader.Delivers platform context history handed payloads pending)
    (complete : next.isComplete = true)
    (tracks :
      next.Tracks platform context
        (history.taken ++ bytesTaken reader.inner drained.inner)
        (payloads ++ more) []) :
    next.Delivers platform context
      { taken := history.taken ++ bytesTaken reader.inner drained.inner
        served
        discarded := true
        ended
        erred := history.erred } handed (payloads ++ more) [] := by
  refine ⟨tracks, fun impossible => ?_, fun _ => ⟨complete, rfl, ?_⟩,
    fun _ => rfl⟩
  · cases impossible
  · rw [List.flatten_append]
    exact delivers.isPrefix.trans (List.prefix_append _ _)

/-- One call on a reader that has not failed. -/
theorem Delivers.step
    (agree : platform.OpensAgree)
    (delivers :
      reader.Delivers platform context history handed payloads pending)
    (call : Call) :
    (∃ all left,
        (call.perform platform reader).2.Delivers platform context
          (history.record platform call reader)
          (handed ++ call.handed platform reader) all left) ∨
      (call.perform platform reader).2.Stopped platform context
        (history.record platform call reader)
        (handed ++ call.handed platform reader) := by
  have tracks := delivers.tracks
  cases call with
  | read output =>
      obtain ⟨next, filled, ⟨chunk, more, left, result, goesOn, balance, _⟩ |
          ⟨⟨error, result⟩, failed⟩⟩ :=
        tracks.read_spec agree output
      · left
        refine ⟨payloads ++ more, left, ?_⟩
        simp only [Call.perform, History.record, Call.loaded, Call.handed,
          Call.endSeen, Call.finalizes, Bool.or_false, result, List.take_left]
        refine ⟨goesOn.tracks, fun kept => ?_, fun discarded => ?_,
          fun ended => delivers.ended (goesOn.unended ended)⟩
        · rw [List.flatten_append, delivers.balance kept, List.append_assoc,
            balance, List.append_assoc]
        · -- Nothing was left, so the read came back with nothing.
          obtain ⟨complete, rfl, given⟩ := delivers.discarded discarded
          obtain ⟨rfl, stillComplete⟩ := goesOn.complete complete
          rw [List.flatten_nil, List.append_nil] at balance
          obtain ⟨rfl, rfl⟩ := List.append_eq_nil_iff.mp balance.symm
          refine ⟨stillComplete, rfl, ?_⟩
          rw [List.append_nil, List.append_nil]
          exact given
      · right
        simp only [Call.perform, History.record, Call.handed, result,
          List.append_nil]
        exact delivers.stops failed
  | tryFinish =>
      simp only [Call.handed, List.append_nil]
      by_cases ended : reader.status = .streamComplete
      · obtain ⟨complete, rfl, given⟩ :=
          delivers.discarded (delivers.ended ended)
        have drained : reader.drainMessage platform =
            (.ok (),
              { reader with
                plaintextConsumed := reader.plaintextAvailable }) := by
          simp only [drainMessage, drainLoop, ended, reduceCtorEq, ↓reduceIte]
        left
        refine ⟨payloads ++ [], [], ?_⟩
        simp only [Call.perform, History.record, Call.loaded, Call.finalizes,
          Bool.or_true, tryFinish_streamComplete platform ended, drained]
        refine @Delivers.finalizes _ _ _ _ _ _ _ reader reader _ _ _ delivers
          complete ?_
        rw [bytesTaken, Nat.sub_self, List.take_zero, List.append_nil,
          List.append_nil]
        exact tracks
      · obtain ⟨drained, next, ⟨more, loaded, result, _, complete, after⟩ |
            ⟨⟨error, result⟩, failed⟩⟩ :=
          tracks.tryFinish_spec agree ended
        · left
          refine ⟨payloads ++ more, [], ?_⟩
          simp only [Call.perform, History.record, Call.loaded,
            Call.finalizes, Bool.or_true, result, loaded]
          exact delivers.finalizes complete after
        · right
          simp only [Call.perform, History.record, result]
          exact delivers.stops failed
  | tryFinishFrame =>
      simp only [Call.handed, List.append_nil]
      obtain ⟨next, ⟨more, result, goesOn, complete⟩ |
          ⟨⟨error, result⟩, failed⟩⟩ :=
        tracks.drainMessage_spec agree
      · left
        refine ⟨payloads ++ more, [], ?_⟩
        simp only [Call.perform, History.record, Call.loaded,
          Call.finalizes, Bool.or_true, tryFinishFrame, result]
        exact delivers.finalizes complete goesOn.tracks
      · right
        simp only [Call.perform, History.record, tryFinishFrame, result]
        exact delivers.stops failed
  | getMut use =>
      obtain ⟨same, complete, unended⟩ := tracks.getMut use
      left
      refine ⟨payloads, pending, ?_⟩
      simp only [Call.perform, History.record, Call.loaded, Call.handed,
        Call.finalizes, Bool.or_false, bytesTaken, Nat.sub_self,
        List.take_zero, List.append_nil]
      refine ⟨same, delivers.balance, fun discarded => ?_,
        fun ended => (unended ended).elim⟩
      rw [complete]
      exact delivers.discarded discarded

/-- A poisoned reader hands out nothing more. -/
theorem Stopped.step
    (stopped : reader.Stopped platform context history handed)
    (call : Call) :
    (call.perform platform reader).2.Stopped platform context
      (history.record platform call reader)
      (handed ++ call.handed platform reader) := by
  have failed := stopped.failed
  obtain ⟨payloads, ended, passed, isPrefix⟩ := stopped.beginning
  have drained : reader.drainMessage platform =
      (.error (.err poisonedError),
        { reader with plaintextConsumed := reader.plaintextAvailable }) := by
    simp only [drainMessage, drainLoop, failed, reduceCtorEq, ↓reduceIte]
  cases call with
  | read output =>
      by_cases empty : output = []
      · have idle : reader.read platform output = (.ok 0, reader, output) := by
          simp only [DecryptReader.read, empty, ↓reduceIte]
        simp only [Call.perform, History.record, Call.loaded, Call.handed,
          idle, bytesTaken, Nat.sub_self, List.take_zero, List.append_nil]
        exact ⟨failed, payloads, ended, passed, isPrefix⟩
      · have refused : reader.read platform output =
            (.error (.err poisonedError), reader, output) := by
          simp only [DecryptReader.read, empty, failed, ↓reduceIte]
        simp only [Call.perform, History.record, Call.handed, refused,
          List.append_nil]
        exact ⟨failed, payloads, ended, passed, isPrefix⟩
  | tryFinish =>
      simp only [Call.perform, History.record, Call.handed,
        DecryptReader.tryFinish, failed, reduceCtorEq, ↓reduceIte, drained,
        List.append_nil]
      exact ⟨rfl, payloads, ended, passed, isPrefix⟩
  | tryFinishFrame =>
      simp only [Call.perform, History.record, Call.handed,
        DecryptReader.tryFinishFrame, drained, List.append_nil]
      exact ⟨failed, payloads, ended, passed, isPrefix⟩
  | getMut use =>
      simp only [Call.perform, History.record, Call.loaded, Call.handed,
        bytesTaken, Nat.sub_self, List.take_zero, List.append_nil]
      refine ⟨?_, payloads, ended, passed, isPrefix⟩
      simp only [DecryptReader.getMut, failed, reduceCtorEq, ↓reduceIte]

/-- A run of calls hands out the plaintext of the segments in its history, or
ends with a poisoned reader. -/
theorem Delivers.performAll
    (agree : platform.OpensAgree)
    (delivers :
      reader.Delivers platform context history handed payloads pending)
    (calls : List Call) :
    (∃ all left,
        (reader.performAll history
              (calls.map (Prod.mk platform))).1.Delivers platform context
          (reader.performAll history (calls.map (Prod.mk platform))).2
          (handed ++ reader.handedAll platform calls) all left) ∨
      (reader.performAll history
            (calls.map (Prod.mk platform))).1.Stopped platform context
        (reader.performAll history (calls.map (Prod.mk platform))).2
        (handed ++ reader.handedAll platform calls) := by
  have either :
      (∃ all left,
          reader.Delivers platform context history handed all left) ∨
        reader.Stopped platform context history handed :=
    .inl ⟨payloads, pending, delivers⟩
  clear delivers
  induction calls generalizing reader history handed with
  | nil =>
      simpa only [List.map_nil, DecryptReader.performAll, handedAll,
        List.append_nil] using either
  | cons call calls inductionHypothesis =>
      simp only [List.map_cons, DecryptReader.performAll, handedAll]
      rw [← List.append_assoc]
      apply inductionHypothesis
      rcases either with ⟨all, left, delivers⟩ | stopped
      · exact delivers.step agree call
      · exact .inr (stopped.step call)

end Steps

/-! ## Opened readers -/

/-- The readers that are opened on a source under a key and an AAD. -/
inductive OpenedOn (platform : Platform) (source : Source IoPayload)
    (key : Key) (aad : Bytes) : DecryptReader → Prop where
  | new
      {reader : DecryptReader}
      (created : new platform source key aad = .ok reader) :
      OpenedOn platform source key aad reader
  | newWithParameters
      {reader : DecryptReader}
      {parameters : Parameters}
      (created :
        newWithParameters platform source key aad parameters = .ok reader) :
      OpenedOn platform source key aad reader

/-- A decryptor that was started stands behind a header that authenticates. -/
theorem delivers_of_started
    {platform : Platform}
    {key : Key}
    {aad : Bytes}
    {header : Header}
    {state : DecryptionState}
    (started :
      startDecryptionInferred platform key aad header = .ok state)
    (inner : Source IoPayload) :
    ∃ context,
      HeaderAuthenticates platform key aad header context ∧
        (fromDecryptor inner
            { state, counter := SegmentCounter.new } header).Delivers platform
          context History.start [] [] [] := by
  rcases startDecryptionInferred_spec platform key aad header with
    ⟨context, other, authentic, same, ready, _⟩ | ⟨⟨error, failed⟩, _⟩
  · rw [started] at same
    cases same
    have here : Decryptor.At platform context 0
        { state, counter := SegmentCounter.new } :=
      ⟨ready, rfl, by decide⟩
    refine ⟨context, authentic, ⟨by simp [fromDecryptor], .start,
      ready.parameters_eq, SegmentBuffer.sized_new _,
      fun _ => ⟨_, rfl, here⟩, .nothing rfl⟩, fun _ => rfl,
      fun impossible => ?_, fun impossible => ?_⟩
    · cases impossible
    · cases impossible
  · rw [started] at failed
    cases failed

theorem OpenedOn.delivers
    {platform : Platform}
    {source : Source IoPayload}
    {key : Key}
    {aad : Bytes}
    {reader : DecryptReader}
    (opened : OpenedOn platform source key aad reader) :
    ∃ context,
      HeaderAuthenticates platform key aad reader.header context ∧
        reader.Delivers platform context History.start [] [] [] := by
  cases opened with
  | new created =>
      unfold DecryptReader.new at created
      rcases fetched : readHeader source with ⟨stop | header, inner⟩
      · rw [fetched] at created
        cases created
      · rw [fetched] at created
        obtain ⟨decryptor, begun, shape⟩ := Outcome.bind_eq_ok.mp created
        obtain ⟨state, started, built⟩ :=
          Outcome.bind_eq_ok.mp (Outcome.mapErr_eq_ok.mp begun)
        cases built
        cases shape
        exact delivers_of_started started inner
  | newWithParameters created =>
      unfold DecryptReader.newWithParameters at created
      rcases fetched : readHeader source with ⟨stop | header, inner⟩
      · rw [fetched] at created
        cases created
      · rw [fetched] at created
        obtain ⟨decryptor, begun, shape⟩ := Outcome.bind_eq_ok.mp created
        obtain ⟨state, started, built⟩ :=
          Outcome.bind_eq_ok.mp (Outcome.mapErr_eq_ok.mp begun)
        cases built
        cases shape
        exact delivers_of_started (startDecryption_eq_ok_iff.mp started).1
          inner

end DecryptReader

/-! ## Behind the header of an honest run -/

section Integrity

variable {platform : Platform} {key : Key} {ι : Type}
  {runs : ι → HonestRun platform key}

/-- Under the header of a run its segments are the only frames. -/
theorem admits_emissions
    (agree : platform.SealsAgree)
    (distinct : ∀ first second,
      (runs first).triple = (runs second).triple → first = second)
    (ideal : IdealAead runs)
    (injective : InjectiveKdf runs)
    (run : ι) :
    (segmentStream platform (runs run).context).Admits
      (runs run).emissions := by
  intro position last segment plaintext inside frame
  obtain ⟨kind, rfl⟩ : ∃ kind : SegmentKind, kind.isFinal = last := by
    cases last with
    | false => exact ⟨.nonFinal, rfl⟩
    | true => exact ⟨.final, rfl⟩
  obtain ⟨rfl, member⟩ :=
    emission_of_isFrame agree distinct ideal injective inside frame
  refine ⟨member, ?_⟩
  unfold HonestRun.kind kindAt
  split
  next complete => simp [complete, SegmentKind.isFinal]
  next more => simp [more, SegmentKind.isFinal]

/-- What was read off a stream under the header of a run is the beginning of
that run, and all of it behind a final segment. -/
theorem beginning_of_passed
    {taken : Bytes}
    {payloads : List Bytes}
    {ended : Bool}
    (agree : platform.SealsAgree)
    (distinct : ∀ first second,
      (runs first).triple = (runs second).triple → first = second)
    (ideal : IdealAead runs)
    (injective : InjectiveKdf runs)
    (run : ι)
    (passed :
      (segmentStream platform (runs run).context).Passed 0 taken payloads
        ended []) :
    taken <+: (runs run).segments ∧
      payloads.flatten <+: (runs run).plaintext ∧
      (ended = true →
        taken = (runs run).segments ∧
          payloads.flatten = (runs run).plaintext) := by
  have something : (runs run).emissions ≠ [] :=
    List.ne_nil_of_length_pos ((runs run).emissions_pos agree)
  obtain ⟨opened, bytes, _, complete⟩ := passed.of_admits
    (admits_emissions agree distinct ideal injective run) something
  have beginning (count : Nat) (part : Bytes × Bytes → Bytes) :
      (((runs run).emissions.take count).map part).flatten <+:
        ((runs run).emissions.map part).flatten := by
    refine ⟨(((runs run).emissions.drop count).map part).flatten, ?_⟩
    rw [← List.flatten_append, ← List.map_append, List.take_append_drop]
  rw [List.append_nil] at bytes
  refine ⟨?_, ?_, fun ends => ?_⟩
  · rw [bytes]
    exact beginning _ Prod.fst
  · rw [opened]
    exact beginning _ Prod.snd
  · have whole := complete.mp ends
    rw [opened, bytes, whole, List.take_length]
    exact ⟨rfl, rfl⟩

end Integrity

/-! ### Whatever the source does -/

open DecryptReader in
/-- Behind the header of an honest run a decrypting reader releases nothing but
that run's plaintext, from its beginning on: for every source, whatever bytes it
returns and however it fails, and for every sequence of reads, finalizations and
exchanges of the source.  It regards the message as complete only with all of
the run's segments taken.  Until a finalizer succeeds, and with that gives up
the plaintext that was not read, it is finished, and reports the end of the
plaintext, only when it has released all of it. -/
theorem decryptReader_releasesRun
    {platform : Platform}
    {key : Key}
    {ι : Type}
    {runs : ι → HonestRun platform key}
    {source : Source IoPayload}
    {reader : DecryptReader}
    (agree : platform.SealsAgree)
    (opensAgree : platform.OpensAgree)
    (distinct : ∀ first second,
      (runs first).triple = (runs second).triple → first = second)
    (ideal : IdealAead runs)
    (injective : InjectiveKdf runs)
    (run : ι)
    (opened : OpenedOn platform source key (runs run).aad reader)
    (same : reader.header = (runs run).encryptor.header)
    (calls : List Call) :
    reader.handedAll platform calls <+: (runs run).plaintext ∧
      (reader.afterCalls platform calls).2.taken <+: (runs run).segments ∧
      ((reader.afterCalls platform calls).1.isComplete = true →
        (reader.afterCalls platform calls).2.taken = (runs run).segments) ∧
      ((reader.afterCalls platform calls).2.discarded = false →
        ((reader.afterCalls platform calls).1.isFinished = true →
          reader.handedAll platform calls = (runs run).plaintext) ∧
        ∀ output next filled,
          output ≠ [] →
            (reader.afterCalls platform calls).1.read platform output =
                (.ok 0, next, filled) →
              reader.handedAll platform calls = (runs run).plaintext) := by
  obtain ⟨context, authentic, delivers⟩ := opened.delivers
  rw [same] at authentic
  obtain rfl := authentic.unique (runs run).authentic
  have beginning {taken : Bytes} {payloads : List Bytes} {ended : Bool}
      (passed :
        (segmentStream platform (runs run).context).Passed 0 taken payloads
          ended []) :=
    beginning_of_passed agree distinct ideal injective run passed
  rcases delivers.performAll opensAgree calls with
    ⟨all, left, delivered⟩ | stopped
  · have tracks := delivered.tracks
    obtain ⟨taken, released, complete⟩ := beginning tracks.passed
    refine ⟨delivered.isPrefix.trans released, taken,
      fun ended => (complete ended).1, fun kept => ⟨fun finished => ?_,
        fun output next filled something answered => ?_⟩⟩
    · simp only [isFinished, decide_eq_true_eq] at finished
      obtain ⟨ended, drained⟩ := finished
      obtain rfl := tracks.pending.eq_nil drained
      have everything := delivered.balance kept
      rw [List.append_nil, (complete ended).2] at everything
      exact everything.symm
    · obtain ⟨next', _, ⟨chunk, more, rest, result, goesOn, balance, ends⟩ |
          ⟨⟨error, result⟩, _⟩⟩ := tracks.read_spec opensAgree output
      · have nothing : chunk = [] := by
          rw [afterCalls] at answered
          rw [answered] at result
          cases chunk with
          | nil => rfl
          | cons byte bytes => cases result
        obtain ⟨ended, rfl⟩ := (ends nothing).resolve_left something
        rw [nothing, List.append_nil] at balance
        have everything := ((beginning goesOn.tracks.passed).2.2 ended).2
        rw [List.flatten_append, delivered.balance kept, List.append_assoc,
          balance, List.append_nil] at everything
        exact everything
      · rw [afterCalls] at answered
        rw [answered] at result
        cases result
  · obtain ⟨payloads, ended, passed, isPrefix⟩ := stopped.beginning
    obtain ⟨taken, released, _⟩ := beginning passed
    have failed := stopped.failed
    refine ⟨isPrefix.trans released, taken, fun impossible => ?_,
      fun _ => ⟨fun impossible => ?_,
        fun output next filled something answered => ?_⟩⟩
    · simp [afterCalls, isComplete, failed] at impossible
    · simp [afterCalls, isFinished, isComplete, failed] at impossible
    · rw [afterCalls] at answered
      simp only [DecryptReader.read, something, failed, ↓reduceIte] at answered
      cases answered

/-- Reads past the first segment of the first sample run. -/
def threeReads : List DecryptReader.Call :=
  [.read (zeros 20), .read (zeros 20), .read (zeros 20)]

set_option maxRecDepth 100000 in
/-- A reader of the first sample run's header and first segment and of the other
run's segment, from a source that interrupts it. -/
theorem exists_splicedReader :
    ∃ (source : Source IoPayload) (reader : DecryptReader),
      source.data = sampleStored (sampleSegment 33 100 [5]) ∧
        DecryptReader.new samplePlatform source zeroKey [] = .ok reader ∧
        reader.header = (sampleRuns false).encryptor.header ∧
        reader.handedAll samplePlatform threeReads = List.replicate 32 7 ∧
        (reader.afterCalls samplePlatform threeReads).1.isComplete =
          false :=
  ⟨{ data := sampleStored (sampleSegment 33 100 [5])
     addressable := by decide +kernel
     cursor := 0
     script := [.interrupted, .short 73, .short 30, .interrupted] },
    _, rfl, rfl, rfl, by decide +kernel⟩

set_option maxRecDepth 100000 in
/-- A reader of the first sample run and another byte. -/
theorem exists_wholeReader :
    ∃ (source : Source IoPayload) (reader : DecryptReader),
      source.data = sampleStored (sampleSegment 34 12 [8, 9] ++ [3]) ∧
        DecryptReader.new samplePlatform source zeroKey [] = .ok reader ∧
        reader.header = (sampleRuns false).encryptor.header ∧
        reader.handedAll samplePlatform threeReads =
          List.replicate 32 7 ++ [8, 9] ∧
        (reader.afterCalls samplePlatform threeReads).1.isFinished = true ∧
        (reader.afterCalls samplePlatform threeReads).2.discarded = false :=
  ⟨{ data := sampleStored (sampleSegment 34 12 [8, 9] ++ [3])
     addressable := by decide +kernel
     cursor := 0
     script := [.interrupted, .short 73, .short 30, .interrupted] },
    _, rfl, rfl, rfl, by decide +kernel⟩

/-- Behind the first sample run's header and first segment: with the other run's
segment after them, three reads get the first segment's plaintext, and no calls
get more than the beginning of the run's; with the run's own last segment and
a byte more, they get all of it. -/
theorem decryptReader_releasesRun_example :
    ∃ (spliced whole : Source IoPayload) (first second : DecryptReader),
      spliced.data = sampleStored (sampleSegment 33 100 [5]) ∧
        whole.data = sampleStored (sampleSegment 34 12 [8, 9] ++ [3]) ∧
        DecryptReader.new samplePlatform spliced zeroKey [] = .ok first ∧
        DecryptReader.new samplePlatform whole zeroKey [] = .ok second ∧
        first.handedAll samplePlatform threeReads = List.replicate 32 7 ∧
        (first.afterCalls samplePlatform threeReads).1.isComplete = false ∧
        second.handedAll samplePlatform threeReads =
          List.replicate 32 7 ++ [8, 9] ∧
        (second.afterCalls samplePlatform threeReads).1.isFinished = true ∧
        (second.afterCalls samplePlatform threeReads).2.discarded = false ∧
        ∀ reader ∈ [first, second], ∀ calls,
          reader.handedAll samplePlatform calls <+:
              List.replicate 32 7 ++ [8, 9] ∧
            ((reader.afterCalls samplePlatform calls).1.isComplete = true →
              (reader.afterCalls samplePlatform calls).2.taken =
                (sampleRuns false).segments) ∧
            ((reader.afterCalls samplePlatform calls).2.discarded = false →
              (reader.afterCalls samplePlatform calls).1.isFinished = true →
                reader.handedAll samplePlatform calls =
                  List.replicate 32 7 ++ [8, 9]) := by
  obtain ⟨spliced, first, splicedData, firstOpened, firstHeader, firstHanded,
    incomplete⟩ := exists_splicedReader
  obtain ⟨whole, second, wholeData, secondOpened, secondHeader, secondHanded,
    finished, kept⟩ := exists_wholeReader
  refine ⟨spliced, whole, first, second, splicedData, wholeData, firstOpened,
    secondOpened, firstHanded, incomplete, secondHanded, finished, kept,
    fun reader member calls => ?_⟩
  obtain ⟨source, opened, same⟩ :
      ∃ source, DecryptReader.new samplePlatform source zeroKey [] =
          .ok reader ∧
        reader.header = (sampleRuns false).encryptor.header := by
    rcases List.mem_pair.mp member with rfl | rfl
    · exact ⟨spliced, firstOpened, firstHeader⟩
    · exact ⟨whole, secondOpened, secondHeader⟩
  obtain ⟨released, _, complete, everything⟩ :=
    decryptReader_releasesRun keyed_sealsAgree keyed_opensAgree
      sampleRuns_distinct sampleRuns_idealAead sampleRuns_injectiveKdf false
      (.new opened) same calls
  rw [sampleRuns_plaintext] at released everything
  exact ⟨released, complete, fun kept => (everything kept).1⟩

end FastFloe
