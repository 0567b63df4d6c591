import FastFloe.EncryptReaderCalls

namespace FastFloe

open Rust

/-!
# The states of an encrypting reader

A run of calls on an `EncryptReader` is recorded in a history of the bytes that
its caller has been given.  The history decides whether the reader is poisoned
and whether it has handed out a whole message; the rest of what it has sealed is
what it can still serve.
-/

namespace EncryptReader

/-! ## Calls -/

/-- A call on an encrypting reader. -/
inductive Call where
  | read (output : Bytes)
  | getMut (use : Source IoPayload → Source IoPayload)

/-- Performs a call and returns the bytes it handed out. -/
def Call.perform (platform : Platform) :
    Call → EncryptReader → IoResult Bytes × EncryptReader
  | .read output, reader =>
      match reader.read platform output with
      | (result, reader, left) =>
          (result.map fun count => left.take count, reader)
  | .getMut use, reader =>
      (.ok [], reader.getMut use)

/-- What the caller of a reader has seen of it. -/
structure History where
  /-- The bytes that the reads handed out. -/
  delivered : Bytes
  /-- A call failed. -/
  erred : Bool
  deriving Repr, DecidableEq

namespace History

def start : History := ⟨[], false⟩

/-- The history after one more call. -/
def record (platform : Platform) (call : Call) (reader : EncryptReader)
    (history : History) : History :=
  match (call.perform platform reader).1 with
  | .error _ =>
      { history with erred := true }
  | .ok bytes =>
      { history with delivered := history.delivered ++ bytes }

end History

/-- The reader and its history after a sequence of calls, each with a provider
of its own. -/
def performAll (reader : EncryptReader) (history : History) :
    List (Platform × Call) → EncryptReader × History
  | [] =>
      (reader, history)
  | (platform, call) :: calls =>
      performAll (call.perform platform reader).2
        (history.record platform call reader) calls

/-! ## Accounts -/

/-- The state of a reader accounts for a history without failures. -/
structure Accounts (reader : EncryptReader) (history : History) : Prop where
  consistent : reader.Consistent
  erred : history.erred = false
  sealed :
    ∃ body lengths,
      history.delivered ++ reader.unserved = reader.header.val ++ body ∧
        (framingStream reader.parameters).Passed 0 body lengths
          reader.isComplete []

/-- The state of a reader accounts for a history with a failure: it has handed
out everything that it sealed, which was no whole message. -/
structure Poisoned (reader : EncryptReader) (history : History) : Prop where
  erred : history.erred = true
  status : reader.status = .failed
  within : reader.ciphertextPosition ≤ reader.ciphertextLength
  sealed :
    ∃ body lengths,
      history.delivered = reader.header.val ++ body ∧
        (framingStream reader.parameters).Passed 0 body lengths false []

/-- A poisoned reader refuses every read of something, and leaves its source
alone. -/
def Refuses (reader : EncryptReader) : Prop :=
  ∀ platform output, output ≠ [] →
    reader.read platform output = (.error (.err poisonedError), reader, output)

section Steps

variable (platform : Platform) {reader : EncryptReader} {history : History}

/-- The caller's use of the source changes nothing else. -/
theorem Consistent.getMut
    (consistent : reader.Consistent)
    (use : Source IoPayload → Source IoPayload) :
    (reader.getMut use).Consistent where
  unfailed := consistent.unfailed
  canLoad := fun opened =>
    ⟨opened, (consistent.canLoad opened).sized,
      (consistent.canLoad opened).encryptor⟩
  within := consistent.within
  held := consistent.held
  inside := consistent.inside
  started := consistent.started

/-- Every call hands bytes out, or fails with everything handed out. -/
theorem Consistent.perform_cases
    (consistent : reader.Consistent)
    (call : Call) :
    ∃ next,
      (∃ bytes fresh,
          call.perform platform reader = (.ok bytes, next) ∧
            reader.Serves next bytes fresh) ∨
        ∃ error,
          call.perform platform reader = (.error (.err error), next) ∧
            reader.Fails next error ∧
            reader.status = .opened ∧ reader.unserved = [] := by
  cases call with
  | read output =>
      obtain ⟨next, left, ⟨count, fresh, result, _, serves⟩ |
          ⟨error, result, fails, opened, nothing⟩⟩ :=
        consistent.read_cases platform output
      · refine ⟨next, .inl ⟨left.take count, fresh, ?_, serves⟩⟩
        simp only [Call.perform, result, Except.map]
      · refine ⟨next, .inr ⟨error, ?_, fails, opened, nothing⟩⟩
        simp only [Call.perform, result, Except.map]
  | getMut use =>
      exact ⟨_, .inl ⟨[], [], rfl,
        (consistent.getMut use).serves rfl rfl rfl rfl⟩⟩

theorem Poisoned.refuses
    (poisoned : reader.Poisoned history) :
    reader.Refuses := by
  intro platform output something
  simp only [read, something, poisoned.status, ↓reduceIte]

/-- A poisoned reader stays poisoned. -/
theorem Poisoned.step
    (poisoned : reader.Poisoned history)
    (call : Call) :
    (call.perform platform reader).2.Poisoned
      (history.record platform call reader) := by
  cases call with
  | read output =>
      by_cases empty : output = []
      · have idle : reader.read platform output = (.ok 0, reader, output) := by
          simp only [read, empty, ↓reduceIte]
        simp only [Call.perform, History.record, idle, Except.map,
          List.take_zero, List.append_nil]
        exact poisoned
      · simp only [Call.perform, History.record,
          poisoned.refuses platform output empty, Except.map]
        exact ⟨rfl, poisoned.status, poisoned.within, poisoned.sealed⟩
  | getMut use =>
      simp only [Call.perform, History.record, List.append_nil]
      exact ⟨poisoned.erred, poisoned.status, poisoned.within,
        poisoned.sealed⟩

/-- Every call keeps the account, or fails and closes it. -/
theorem Accounts.step
    (accounts : reader.Accounts history)
    (call : Call) :
    (call.perform platform reader).2.Accounts
        (history.record platform call reader) ∨
      (call.perform platform reader).2.Poisoned
        (history.record platform call reader) := by
  obtain ⟨body, lengths, kept, passed⟩ := accounts.sealed
  obtain ⟨next, ⟨bytes, fresh, result, serves⟩ |
      ⟨error, result, fails, opened, nothing⟩⟩ :=
    accounts.consistent.perform_cases platform call
  · left
    obtain ⟨more, passes⟩ := serves.passed
    have own : next.parameters = reader.parameters := serves.parameters
    simp only [History.record, result]
    refine ⟨serves.consistent, accounts.erred, body ++ fresh, lengths ++ more,
      ?_, ?_⟩
    · rw [List.append_assoc, serves.kept, ← List.append_assoc, kept,
        serves.header, List.append_assoc]
    · rw [own]
      exact passes body lengths passed
  · right
    have own : next.parameters = reader.parameters := fails.parameters
    simp only [History.record, result]
    refine ⟨rfl, fails.status, fails.within, body, lengths, ?_, ?_⟩
    · rw [fails.header, ← kept, nothing, List.append_nil]
    · have unfinished : reader.isComplete = false := by
        simp [isComplete, opened]
      rw [own, ← unfinished]
      exact passed

/-- A run of calls keeps the account, or poisons the reader for good. -/
theorem Accounts.performAll
    (accounts : reader.Accounts history)
    (calls : List (Platform × Call)) :
    (reader.performAll history calls).1.Accounts
        (reader.performAll history calls).2 ∨
      (reader.performAll history calls).1.Poisoned
        (reader.performAll history calls).2 := by
  have either : reader.Accounts history ∨ reader.Poisoned history :=
    .inl accounts
  clear accounts
  induction calls generalizing reader history with
  | nil =>
      exact either
  | cons first calls inductionHypothesis =>
      obtain ⟨platform, call⟩ := first
      rcases either with accounts | poisoned
      · exact inductionHypothesis (accounts.step platform call)
      · exact inductionHypothesis (.inr (poisoned.step platform call))

end Steps

/-! ## Soundness -/

/-- What the state of a reader says about its history, and what it does
next. -/
structure Sound (reader : EncryptReader) (history : History) : Prop where
  /-- An open reader has its encryptor. -/
  present :
    reader.status = .opened →
      ∃ encryptor, reader.encryptor = some encryptor
  /-- A reader that has not failed does not claim to be poisoned. -/
  unpoisoned :
    reader.status ≠ .failed →
      ∀ platform (call : Call) error,
        (call.perform platform reader).1 = .error (.err error) →
          OfSource reader.inner error
  /-- No call panics or runs forever. -/
  returns :
    ∀ platform (call : Call), (call.perform platform reader).1.Returns
  within : reader.ciphertextPosition ≤ reader.ciphertextLength
  /-- Ciphertext that was not served yet is what the buffer holds. -/
  buffered :
    reader.status ≠ .failed →
      reader.ciphertextPosition < reader.ciphertextLength →
        reader.buffer.state = .ciphertext reader.ciphertextLength
  /-- It can be served. -/
  serves :
    reader.status ≠ .failed →
      reader.ciphertextPosition < reader.ciphertextLength →
        ∀ platform output, output ≠ [] →
          ∃ left,
            reader.read platform output =
              (.ok (min output.length
                  (reader.ciphertextLength - reader.ciphertextPosition)),
                { reader with
                  ciphertextPosition :=
                    reader.ciphertextPosition + min output.length
                      (reader.ciphertextLength -
                        reader.ciphertextPosition) },
                left)
  /-- The reader has failed when a call has. -/
  failed : reader.status = .failed ↔ history.erred = true
  /-- After a failure every read is refused. -/
  refuses : history.erred = true → reader.Refuses
  /-- The reader is finished when it has handed out its header and a whole
  message behind it. -/
  finished :
    reader.isFinished = true ↔
      ∃ body lengths,
        history.delivered = reader.header.val ++ body ∧
          (framingStream reader.parameters).Message 0 body lengths

section Soundness

variable {reader : EncryptReader} {history : History}

theorem Consistent.isFinished_iff
    (consistent : reader.Consistent) :
    reader.isFinished = true ↔
      reader.isComplete = true ∧ reader.unserved = [] := by
  have most := consistent.inside
  simp only [isFinished, isComplete, decide_eq_true_eq,
    consistent.unserved_eq_nil_iff]
  constructor
  · rintro ⟨finished, drained⟩
    refine ⟨finished, ?_, drained⟩
    by_cases before : reader.headerPosition < headerLength
    · have opened := (consistent.started before).1
      rw [finished] at opened
      cases opened
    · omega
  · rintro ⟨finished, _, drained⟩
    exact ⟨finished, drained⟩

theorem Accounts.sound
    (accounts : reader.Accounts history) :
    reader.Sound history := by
  have consistent := accounts.consistent
  obtain ⟨body, lengths, kept, passed⟩ := accounts.sealed
  refine
    { present := fun opened => ?_
      unpoisoned := fun _ platform call error failed => ?_
      returns := fun platform call => ?_
      within := consistent.within
      buffered := fun _ ahead => ?_
      serves := fun _ ahead platform output something => ?_
      failed := ?_
      refuses := fun impossible => ?_
      finished := ?_ }
  · obtain ⟨encryptor, present, _⟩ := (consistent.canLoad opened).encryptor
    exact ⟨encryptor, present⟩
  · obtain ⟨next, ⟨bytes, fresh, result, _⟩ | ⟨other, result, fails, _⟩⟩ :=
      consistent.perform_cases platform call
    · rw [result] at failed
      cases failed
    · rw [result] at failed
      cases failed
      exact fails.ofSource
  · obtain ⟨next, ⟨bytes, fresh, result, _⟩ | ⟨other, result, _⟩⟩ :=
      consistent.perform_cases platform call
    · rw [result]
      exact Outcome.returns_ok _
    · rw [result]
      exact Outcome.returns_err _
  · obtain ⟨segment, holds, length⟩ := consistent.held ahead
    rw [holds.state, length]
  · obtain ⟨left, result, _⟩ := consistent.readBuffered_eq ahead output
    have behind : ¬ reader.headerPosition < headerLength := by
      intro before
      have drained := (consistent.started before).2
      omega
    refine ⟨left, ?_⟩
    simp only [read, something, consistent.unfailed, behind,
      Nat.ne_of_lt ahead, ↓reduceIte, result]
  · simp [consistent.unfailed, accounts.erred]
  · rw [accounts.erred] at impossible
    cases impossible
  · rw [consistent.isFinished_iff]
    constructor
    · rintro ⟨complete, nothing⟩
      rw [nothing, List.append_nil] at kept
      rw [complete] at passed
      exact ⟨body, lengths, kept, passed.message⟩
    · rintro ⟨message, all, delivered, isMessage⟩
      rw [delivered, List.append_assoc, List.append_cancel_left_eq] at kept
      rw [← kept] at passed
      obtain ⟨_, complete, nothing⟩ := passed.exhausts isMessage
      exact ⟨complete, nothing⟩

theorem Poisoned.sound
    (poisoned : reader.Poisoned history) :
    reader.Sound history := by
  have failed := poisoned.status
  have refuses := poisoned.refuses
  obtain ⟨body, lengths, kept, passed⟩ := poisoned.sealed
  refine
    { present := fun opened => ?_
      unpoisoned := fun unfailed => (unfailed failed).elim
      returns := fun platform call => ?_
      within := poisoned.within
      buffered := fun unfailed => (unfailed failed).elim
      serves := fun unfailed => (unfailed failed).elim
      failed := by simp [failed, poisoned.erred]
      refuses := fun _ => refuses
      finished := ?_ }
  · rw [failed] at opened
    cases opened
  · cases call with
    | read output =>
        by_cases empty : output = []
        · simp only [Call.perform, read, empty, ↓reduceIte, Except.map]
          exact Outcome.returns_ok _
        · simp only [Call.perform, refuses platform output empty, Except.map]
          exact Outcome.returns_err _
    | getMut use =>
        exact Outcome.returns_ok _
  · simp only [isFinished, failed, reduceCtorEq, false_and, decide_false,
      Bool.false_eq_true, false_iff]
    rintro ⟨message, all, delivered, isMessage⟩
    rw [delivered, List.append_cancel_left_eq] at kept
    rw [← kept, ← List.append_nil message] at passed
    obtain ⟨_, impossible, _⟩ := passed.exhausts isMessage
    cases impossible

/-! ### Readers of any origin -/

/-- The readers that the constructor returns. -/
def Created (reader : EncryptReader) : Prop :=
  ∃ platform source key aad parameters rng,
    EncryptReader.new platform source key aad parameters rng = .ok reader

/-- A new reader has its header left to hand out. -/
theorem Created.accounts
    (created : reader.Created) :
    reader.Accounts History.start := by
  obtain ⟨platform, source, key, aad, parameters, rng, created⟩ := created
  obtain ⟨encryptor, started, shape⟩ := Outcome.bind_eq_ok.mp created
  cases shape
  obtain ⟨_, own, here⟩ :=
    Encryptor.new_eq_ok (Kdf.FaultOf.refl platform.kdfExpand)
      (Outcome.mapErr_eq_ok.mp started)
  refine
    { consistent :=
        { unfailed := by simp
          canLoad := fun _ =>
            ⟨rfl, SegmentBuffer.sized_new _, encryptor, rfl, own,
              here.ready.served⟩
          within := Nat.le_refl _
          held := fun impossible => (Nat.lt_irrefl _ impossible).elim
          inside := Nat.zero_le _
          started := fun _ => ⟨rfl, rfl⟩ }
      erred := rfl
      sealed := ⟨[], [], ?_, .start⟩ }
  rw [unserved_of_drained rfl, List.append_nil]
  rfl

/-- Any calls leave a reader in a sound state. -/
theorem Created.sound
    (created : reader.Created)
    (calls : List (Platform × Call)) :
    (reader.performAll History.start calls).1.Sound
      (reader.performAll History.start calls).2 := by
  rcases created.accounts.performAll calls with accounts | poisoned
  · exact accounts.sound
  · exact poisoned.sound

end Soundness

end EncryptReader

end FastFloe
