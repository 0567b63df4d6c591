import FastFloe.DecryptReaderCalls

namespace FastFloe

open Rust

/-!
# The states of a decrypting reader

A run of calls on a `DecryptReader` is recorded in a history of what its caller
and its source have seen.  The history decides the state that the reader is in:
whether it is poisoned, whether it has seen the final segment and the end of the
stream, and how much of the plaintext it still holds.
-/

namespace DecryptReader

/-! ## Histories -/

/-- What the caller of a reader and its source have seen of it. -/
structure History where
  /-- What successful calls took off the source as segments. -/
  taken : Bytes
  /-- How many plaintext bytes the reads handed out. -/
  served : Nat
  /-- A finalizer succeeded, which discards what was not read. -/
  discarded : Bool
  /-- The end of the stream was seen, and the source not touched since. -/
  ended : Bool
  /-- A call failed. -/
  erred : Bool
  deriving Repr, DecidableEq

namespace History

def start : History := ⟨[], 0, false, false, false⟩

/-- The history after one more call. -/
def record (platform : Platform) (call : Call) (reader : DecryptReader)
    (history : History) : History :=
  match (call.perform platform reader).1 with
  | .error _ =>
      { history with erred := true }
  | .ok count =>
      { taken := history.taken ++
          bytesTaken reader.inner (call.loaded platform reader).inner
        served := history.served + count
        discarded := history.discarded || call.finalizes
        ended := call.endSeen platform reader history.ended
        erred := history.erred }

end History

/-- The reader and its history after a sequence of calls, each with a provider
of its own. -/
def performAll (reader : DecryptReader) (history : History) :
    List (Platform × Call) → DecryptReader × History
  | [] =>
      (reader, history)
  | (platform, call) :: calls =>
      performAll (call.perform platform reader).2
        (history.record platform call reader) calls

/-! ## Accounts -/

/-- The state of a reader accounts for a history without failures. -/
structure Accounts (reader : DecryptReader) (history : History) : Prop where
  consistent : reader.Consistent
  erred : history.erred = false
  ended : history.ended = true ↔ reader.status = .streamComplete
  passed :
    ∃ lengths,
      (framingStream reader.parameters).Passed 0 history.taken lengths
          reader.isComplete [] ∧
        (history.discarded = false →
          history.served + reader.unserved = lengths.sum)
  discarded :
    history.discarded = true →
      reader.isComplete = true ∧ reader.unserved = 0

/-- The state of a reader accounts for a history with a failure. -/
structure Poisoned (reader : DecryptReader) (history : History) : Prop where
  erred : history.erred = true
  ended : history.ended = false
  status : reader.status = .failed
  drained : reader.plaintextConsumed = reader.plaintextAvailable

/-- A poisoned reader refuses every read of something and every finalizer, and
leaves its source alone. -/
structure Refuses (reader : DecryptReader) : Prop where
  read :
    ∀ platform output, output ≠ [] →
      reader.read platform output =
        (.error (.err poisonedError), reader, output)
  tryFinish :
    ∀ platform,
      reader.tryFinish platform = (.error (.err poisonedError), reader)
  tryFinishFrame :
    ∀ platform,
      reader.tryFinishFrame platform = (.error (.err poisonedError), reader)
  finish :
    ∀ platform,
      reader.finish platform = (.error (.err poisonedError), reader.inner)
  finishFrame :
    ∀ platform,
      reader.finishFrame platform =
        (.error (.err poisonedError), reader.inner)

section Steps

variable (platform : Platform) {reader : DecryptReader} {history : History}

theorem Poisoned.refuses
    (poisoned : reader.Poisoned history) :
    reader.Refuses := by
  have failed := poisoned.status
  have drain (platform : Platform) :
      reader.drainMessage platform =
        (.error (.err poisonedError), reader) := by
    simp only [drainMessage, discard_eq poisoned.drained]
    simp only [drainLoop, failed, reduceCtorEq, ↓reduceIte]
  have finish (platform : Platform) :
      reader.tryFinish platform = (.error (.err poisonedError), reader) := by
    simp only [DecryptReader.tryFinish, failed, reduceCtorEq, ↓reduceIte,
      drain]
  refine ⟨fun platform output something => ?_, finish, drain, ?_, ?_⟩
  · simp only [DecryptReader.read, something, failed, ↓reduceIte]
  · intro platform
    simp only [DecryptReader.finish, finish]
  · intro platform
    simp only [DecryptReader.finishFrame, tryFinishFrame, drain]

/-- A poisoned reader stays poisoned. -/
theorem Poisoned.step
    (poisoned : reader.Poisoned history)
    (call : Call) :
    (call.perform platform reader).2.Poisoned
      (history.record platform call reader) := by
  have refuses := poisoned.refuses
  have failed := poisoned.status
  cases call with
  | read output =>
      by_cases empty : output = []
      · have idle : reader.read platform output = (.ok 0, reader, output) := by
          simp only [DecryptReader.read, empty, ↓reduceIte]
        simp only [Call.perform, History.record, idle, Call.endSeen]
        exact ⟨poisoned.erred, poisoned.ended, failed, poisoned.drained⟩
      · simp only [Call.perform, History.record,
          refuses.read platform output empty]
        exact ⟨rfl, poisoned.ended, failed, poisoned.drained⟩
  | tryFinish =>
      simp only [Call.perform, History.record, refuses.tryFinish platform]
      exact ⟨rfl, poisoned.ended, failed, poisoned.drained⟩
  | tryFinishFrame =>
      simp only [Call.perform, History.record,
        refuses.tryFinishFrame platform]
      exact ⟨rfl, poisoned.ended, failed, poisoned.drained⟩
  | getMut use =>
      simp only [Call.perform, History.record, Call.endSeen]
      refine ⟨poisoned.erred, rfl, ?_, poisoned.drained⟩
      simp only [DecryptReader.getMut, failed, reduceCtorEq, ↓reduceIte]

/-- A reader whose call succeeded accounts for the longer history. -/
theorem Accounts.performs
    {call : Call}
    {next : DecryptReader}
    {count : Nat}
    (accounts : reader.Accounts history)
    (result : call.perform platform reader = (.ok count, next))
    (performs : Performs platform call reader next count) :
    next.Accounts (history.record platform call reader) := by
  obtain ⟨earlier, passed, served⟩ := accounts.passed
  obtain ⟨lengths, passes, counted⟩ := performs.passes
  have own : next.parameters = reader.parameters := performs.parameters
  have recorded :
      history.record platform call reader =
        { taken := history.taken ++
            bytesTaken reader.inner (call.loaded platform reader).inner
          served := history.served + count
          discarded := history.discarded || call.finalizes
          ended := call.endSeen platform reader history.ended
          erred := history.erred } := by
    simp only [History.record, result]
  rw [recorded]
  refine ⟨performs.consistent, accounts.erred, ?_,
    ⟨earlier ++ lengths, ?_, ?_⟩, ?_⟩
  · have before : history.ended =
        decide (reader.status = .streamComplete) := by
      rw [Bool.eq_iff_iff, decide_eq_true_eq, accounts.ended]
    rw [before]
    exact performs.ended.symm
  · rw [own, performs.complete]
    exact passes.passed _ _ passed
  · intro kept
    simp only [Bool.or_eq_false_iff] at kept
    have total := served kept.1
    have more := counted kept.2
    rw [List.sum_append]
    simp only
    omega
  · intro gone
    cases finalizes : call.finalizes with
    | true => exact performs.finalized finalizes
    | false =>
        -- Nothing was left before, so the call found nothing to do.
        simp only [finalizes, Bool.or_false] at gone
        obtain ⟨complete, nothing⟩ := accounts.discarded gone
        have more := counted finalizes
        rw [passes.complete complete, List.sum_nil] at more
        rw [performs.complete]
        exact ⟨passes.still_complete complete, by omega⟩

/-- Every call keeps the account. -/
theorem Accounts.step
    (accounts : reader.Accounts history)
    (call : Call) :
    (call.perform platform reader).2.Accounts
        (history.record platform call reader) ∨
      (call.perform platform reader).2.Poisoned
        (history.record platform call reader) := by
  obtain ⟨next, ⟨count, result, performs⟩ | ⟨error, result, fails⟩⟩ :=
    accounts.consistent.perform_cases platform call
  · left
    rw [result]
    exact accounts.performs platform result performs
  · right
    have unended : history.ended = false := by
      cases ended : history.ended with
      | false => rfl
      | true => exact (fails.unended (accounts.ended.mp ended)).elim
    simp only [History.record, result]
    exact ⟨rfl, unended, fails.status, fails.drained⟩

/-- A run of calls keeps the account, or poisons the reader for good. -/
theorem Accounts.performAll
    (accounts : reader.Accounts history)
    (calls : List (Platform × Call)) :
    (reader.performAll history calls).1.Accounts
        (reader.performAll history calls).2 ∨
      (reader.performAll history calls).1.Poisoned
        (reader.performAll history calls).2 := by
  have either : reader.Accounts history ∨ reader.Poisoned history :=
    .inl accounts
  clear accounts
  induction calls generalizing reader history with
  | nil =>
      exact either
  | cons first calls inductionHypothesis =>
      obtain ⟨platform, call⟩ := first
      rcases either with accounts | poisoned
      · exact inductionHypothesis (accounts.step platform call)
      · exact inductionHypothesis (.inr (poisoned.step platform call))

end Steps

/-! ## Soundness -/

/-- Whole-stream finalization asks the source for its end. -/
structure ChecksEnd (platform : Platform) (reader : DecryptReader) :
    Prop where
  reads :
    (reader.tryFinish platform).2.inner =
      (readFully reader.inner (zeros 1)).2.2
  succeeds :
    (reader.tryFinish platform).1 = .ok () ↔
      (readFully reader.inner (zeros 1)).1 = .ok 0

/-- What the state of a reader says about its history, and what it does
next. -/
structure Sound (reader : DecryptReader) (history : History) : Prop where
  /-- An open reader has its decryptor. -/
  present :
    reader.status = .opened →
      ∃ decryptor, reader.decryptor = some decryptor
  /-- A reader that has not failed does not claim to be poisoned. -/
  unpoisoned :
    reader.status ≠ .failed →
      ∀ platform (call : Call) error,
        (call.perform platform reader).1 = .error (.err error) →
          OfSource reader.inner error
  /-- No call panics or runs forever. -/
  returns :
    ∀ platform (call : Call), (call.perform platform reader).1.Returns
  within : reader.plaintextConsumed ≤ reader.plaintextAvailable
  /-- Plaintext that was not served yet is what the buffer is prepared with. -/
  buffered :
    reader.plaintextConsumed < reader.plaintextAvailable →
      reader.buffer.state = .plaintext reader.plaintextAvailable
  /-- It can be served. -/
  serves :
    reader.plaintextConsumed < reader.plaintextAvailable →
      ∀ platform output, output ≠ [] →
        ∃ left,
          reader.read platform output =
            (.ok (min output.length reader.unserved),
              { reader with
                plaintextConsumed :=
                  reader.plaintextConsumed +
                    min output.length reader.unserved },
              left)
  /-- After a failure every call is refused. -/
  refuses : history.erred = true → reader.Refuses
  /-- Only an observed end of the stream completes it. -/
  ended : reader.status = .streamComplete ↔ history.ended = true
  /-- The end of the stream counts behind the final segment only. -/
  endedMessage :
    history.ended = true →
      ∃ lengths,
        (framingStream reader.parameters).Message 0 history.taken lengths
  idempotent :
    reader.status = .streamComplete →
      ∀ platform, reader.tryFinish platform = (.ok (), reader)
  rechecks :
    reader.status = .streamComplete →
      ∀ platform use, (reader.getMut use).ChecksEnd platform
  /-- The reader is finished when it has passed the final segment and nothing of
  the message is left to serve. -/
  finished :
    reader.isFinished = true ↔
      history.erred = false ∧
        ∃ lengths,
          (framingStream reader.parameters).Message 0 history.taken
              lengths ∧
            (history.served = lengths.sum ∨ history.discarded = true)

section Soundness

variable {reader : DecryptReader} {history : History}

/-- A complete reader without held plaintext goes straight to the check. -/
theorem checksEnd_of_frameComplete
    (platform : Platform)
    (complete : reader.status = .frameComplete) :
    reader.ChecksEnd platform := by
  have drained : reader.drainMessage platform =
      (.ok (),
        { reader with
          plaintextConsumed := reader.plaintextAvailable }) := by
    simp only [drainMessage, drainLoop, complete, reduceCtorEq, ↓reduceIte]
  obtain ⟨outcome, taken, after, read, reads⟩ :=
    readFully_spec reader.inner (zeros 1)
  have unended : reader.status ≠ .streamComplete := by simp [complete]
  cases outcome with
  | error stop =>
      obtain ⟨error, rfl⟩ := reads.returns.stop_eq_err
      constructor
      · simp only [tryFinish, unended, ↓reduceIte, drained, read]
        rfl
      · simp only [tryFinish, unended, ↓reduceIte, drained, read]
        exact ⟨(fun impossible => by cases impossible),
          (fun impossible => by cases impossible)⟩
  | ok _ =>
      cases taken with
      | nil =>
          constructor
          · simp only [tryFinish, unended, ↓reduceIte, drained, read]
            rfl
          · simp only [tryFinish, unended, ↓reduceIte, drained, read]
            exact ⟨fun _ => rfl, fun _ => rfl⟩
      | cons byte rest =>
          constructor
          · simp only [tryFinish, unended, ↓reduceIte, drained, read]
            rfl
          · simp only [tryFinish, unended, ↓reduceIte, drained, read]
            exact ⟨(fun impossible => by cases impossible),
              (fun impossible => by cases impossible)⟩

theorem Accounts.sound
    (accounts : reader.Accounts history) :
    reader.Sound history := by
  have consistent := accounts.consistent
  obtain ⟨earlier, passed, served⟩ := accounts.passed
  have seen : reader.status = .streamComplete ↔ history.ended = true :=
    accounts.ended.symm
  refine
    { present := fun opened => ?_
      unpoisoned := fun _ platform call error failed => ?_
      returns := fun platform call => ?_
      within := consistent.within
      buffered := fun ahead => (consistent.held ahead).1
      serves := fun ahead platform output something => ?_
      refuses := fun impossible => ?_
      ended := seen
      endedMessage := fun ended => ⟨earlier, ?_⟩
      idempotent := fun ended platform =>
        tryFinish_streamComplete platform ended
      rechecks := fun ended platform use => ?_
      finished := ?_ }
  · obtain ⟨decryptor, present, _⟩ := (consistent.canLoad opened).decryptor
    exact ⟨decryptor, present⟩
  · obtain ⟨next, ⟨count, result, _⟩ | ⟨other, result, fails⟩⟩ :=
      consistent.perform_cases platform call
    · rw [result] at failed
      cases failed
    · rw [result] at failed
      cases failed
      exact fails.ofSource
  · obtain ⟨next, ⟨count, result, _⟩ | ⟨other, result, _⟩⟩ :=
      consistent.perform_cases platform call
    · rw [result]
      exact Outcome.returns_ok _
    · rw [result]
      exact Outcome.returns_err _
  · obtain ⟨left, result⟩ := consistent.readBuffered_eq ahead output
    refine ⟨left, ?_⟩
    simp only [read, something, consistent.unfailed, Nat.ne_of_lt ahead,
      ↓reduceIte, result]
  · rw [accounts.erred] at impossible
    cases impossible
  · have complete : reader.isComplete = true := by
      simp [isComplete, seen.mpr ended]
    rw [complete] at passed
    exact passed.message
  · refine checksEnd_of_frameComplete platform ?_
    simp only [getMut, ended, ↓reduceIte]
  · simp only [isFinished, decide_eq_true_eq]
    constructor
    · rintro ⟨complete, drained⟩
      rw [complete] at passed
      refine ⟨accounts.erred, earlier, passed.message, ?_⟩
      cases discarded : history.discarded with
      | true => exact .inr rfl
      | false =>
          have total := served discarded
          rw [unserved, drained, Nat.sub_self] at total
          exact .inl total
    · rintro ⟨_, lengths, isMessage, all⟩
      have passed' := passed
      rw [← List.append_nil history.taken] at passed'
      obtain ⟨rfl, complete, _⟩ := passed'.exhausts isMessage
      have within := consistent.within
      refine ⟨complete, ?_⟩
      cases discarded : history.discarded with
      | true =>
          have nothing := (accounts.discarded discarded).2
          unfold unserved at nothing
          omega
      | false =>
          have total := served discarded
          rw [discarded] at all
          rcases all with all | impossible
          · unfold unserved at total
            omega
          · cases impossible

theorem Poisoned.sound
    (poisoned : reader.Poisoned history) :
    reader.Sound history := by
  have failed := poisoned.status
  have drained := poisoned.drained
  have refuses := poisoned.refuses
  refine
    { present := fun opened => ?_
      unpoisoned := fun unfailed => (unfailed failed).elim
      returns := fun platform call => ?_
      within := Nat.le_of_eq drained
      buffered := fun ahead => (Nat.ne_of_lt ahead drained).elim
      serves := fun ahead => (Nat.ne_of_lt ahead drained).elim
      refuses := fun _ => refuses
      ended := ?_
      endedMessage := fun impossible => ?_
      idempotent := fun ended => ?_
      rechecks := fun ended => ?_
      finished := ?_ }
  · rw [failed] at opened
    cases opened
  · cases call with
    | read output =>
        by_cases empty : output = []
        · simp only [Call.perform, DecryptReader.read, empty, ↓reduceIte]
          exact Outcome.returns_ok _
        · simp only [Call.perform, refuses.read platform output empty]
          exact Outcome.returns_err _
    | tryFinish =>
        simp only [Call.perform, refuses.tryFinish platform]
        exact Outcome.returns_err _
    | tryFinishFrame =>
        simp only [Call.perform, refuses.tryFinishFrame platform]
        exact Outcome.returns_err _
    | getMut use =>
        exact Outcome.returns_ok _
  · simp [failed, poisoned.ended]
  · rw [poisoned.ended] at impossible
    cases impossible
  · rw [failed] at ended
    cases ended
  · rw [failed] at ended
    cases ended
  · simp [isFinished, isComplete, failed, poisoned.erred]

/-! ### Readers of any origin -/

/-- The readers that the two constructors return. -/
inductive Created : DecryptReader → Prop where
  | new
      {platform : Platform} {source : Source IoPayload} {key : Key}
      {aad : Bytes} {reader : DecryptReader}
      (created : DecryptReader.new platform source key aad = .ok reader) :
      Created reader
  | newWithParameters
      {platform : Platform} {source : Source IoPayload} {key : Key}
      {aad : Bytes} {parameters : Parameters} {reader : DecryptReader}
      (created :
        DecryptReader.newWithParameters platform source key aad parameters =
          .ok reader) :
      Created reader

/-- A new reader has taken nothing and handed nothing out. -/
theorem fromDecryptor_accounts
    (inner : Source IoPayload)
    (decryptor : Decryptor)
    (header : Header) :
    (fromDecryptor inner decryptor header).Accounts History.start where
  consistent :=
    { unfailed := by simp [fromDecryptor]
      sized := SegmentBuffer.sized_new _
      canLoad := fun _ =>
        ⟨rfl, SegmentBuffer.sized_new _, decryptor, rfl, rfl⟩
      within := Nat.le_refl _
      held := fun impossible => (Nat.lt_irrefl _ impossible).elim
      spent := fun _ => rfl }
  erred := rfl
  ended := by simp [History.start, fromDecryptor]
  passed := ⟨[], .start, fun _ => rfl⟩
  discarded := fun impossible => by cases impossible

theorem Created.accounts
    (created : reader.Created) :
    reader.Accounts History.start := by
  cases created with
  | @new platform source key aad _ created =>
      unfold DecryptReader.new at created
      rcases fetched : readHeader source with ⟨stop | header, inner⟩
      · rw [fetched] at created
        cases created
      · rw [fetched] at created
        obtain ⟨decryptor, _, shape⟩ := Outcome.bind_eq_ok.mp created
        cases shape
        exact fromDecryptor_accounts inner decryptor header
  | @newWithParameters platform source key aad parameters _ created =>
      unfold DecryptReader.newWithParameters at created
      rcases fetched : readHeader source with ⟨stop | header, inner⟩
      · rw [fetched] at created
        cases created
      · rw [fetched] at created
        obtain ⟨decryptor, _, shape⟩ := Outcome.bind_eq_ok.mp created
        cases shape
        exact fromDecryptor_accounts inner decryptor header

/-- Any calls leave a reader in a sound state. -/
theorem Created.sound
    (created : reader.Created)
    (calls : List (Platform × Call)) :
    (reader.performAll History.start calls).1.Sound
      (reader.performAll History.start calls).2 := by
  rcases created.accounts.performAll calls with accounts | poisoned
  · exact accounts.sound
  · exact poisoned.sound

end Soundness

end DecryptReader

end FastFloe
