import FastFloe.EncryptorRuns
import FastFloe.Library.Runs

namespace FastFloe

open Rust

/-!
# The positions of the online states

Every call of a run has its own behaviour of the generator, the key derivation
and the provider.  Whatever fails in between, the successful calls of an
`Encryptor` or a `Decryptor` work at the positions 0, 1, 2, … in order.
-/

/-! ## Encryption -/

/-- One call on an encryptor, with the platform as it behaves during it. -/
structure SealCall where
  platform : Platform
  kind : SegmentKind
  form : CallForm

namespace SealCall

/-- The call of the low-level state that a call makes at a position. -/
def encryptAt (call : SealCall) (position : Nat) (state : EncryptionState) :
    Result Bytes × EncryptionState :=
  match call.form with
  | .vec plaintext =>
      state.encryptSegmentAt call.platform plaintext position call.kind
  | .into plaintext output =>
      match state.encryptSegmentIntoAt call.platform plaintext position
          call.kind output with
      | (result, state, output) => (result.map output.take, state)
  | .inPlace buffer =>
      match state.encryptSegmentInPlaceAt call.platform buffer position
          call.kind with
      | (result, state, _) => (result, state)

/-- A non-final call, and the encryptor it leaves. -/
def performNonFinal (call : SealCall) (encryptor : Encryptor) :
    Result Bytes × Encryptor :=
  match call.form with
  | .vec plaintext =>
      encryptor.encryptNonFinalSegment call.platform plaintext
  | .into plaintext output =>
      match encryptor.encryptNonFinalSegmentInto call.platform plaintext
          output with
      | (result, encryptor, output) => (result.map output.take, encryptor)
  | .inPlace buffer =>
      match encryptor.encryptNonFinalSegmentInPlace call.platform buffer with
      | (result, encryptor, _) => (result, encryptor)

/-- A final call, whose error holds the encryptor. -/
def performFinal (call : SealCall) (encryptor : Encryptor) :
    Outcome FinalEncryptError Bytes :=
  match call.form with
  | .vec plaintext =>
      encryptor.encryptFinalSegment call.platform plaintext
  | .into plaintext output =>
      match encryptor.encryptFinalSegmentInto call.platform plaintext
          output with
      | (result, output) => result.map output.take
  | .inPlace buffer =>
      (encryptor.encryptFinalSegmentInPlace call.platform buffer).1

/-- What a call answers. -/
def perform (call : SealCall) (encryptor : Encryptor) :
    Runs.Answer Encryptor Bytes :=
  match call.kind with
  | .nonFinal =>
      match call.performNonFinal encryptor with
      | (.ok segment, next) => .done segment (some next)
      | (.error (.err _), next) => .refused next
      | (.error _, _) => .stopped
  | .final =>
      match call.performFinal encryptor with
      | .ok segment => .done segment none
      | .error (.err failure) => .refused failure.intoEncryptor
      | .error _ => .stopped

/-- A non-final call is the low-level call at the reserved position. -/
theorem performNonFinal_eq
    {call : SealCall}
    (kind : call.kind = .nonFinal)
    (encryptor : Encryptor) :
    call.performNonFinal encryptor =
      match encryptor.counter.positionFor .nonFinal with
      | .error stop => (.error stop, encryptor)
      | .ok position =>
          match call.encryptAt position encryptor.state with
          | (.error stop, state) => (.error stop, { encryptor with state })
          | (.ok segment, state) => (.ok segment, encryptor.stepped state) := by
  obtain ⟨platform, callKind, form⟩ := call
  cases kind
  cases form with
  | vec plaintext =>
      simp only [performNonFinal, encryptAt, Encryptor.encryptNonFinalSegment,
        Encryptor.advance, Encryptor.stepped]
      cases encryptor.counter.positionFor .nonFinal with
      | error stop => rfl
      | ok position =>
          simp only
          cases encryptor.state.encryptSegmentAt platform plaintext position
            .nonFinal with
          | mk result state => cases result <;> rfl
  | into plaintext output =>
      simp only [performNonFinal, encryptAt,
        Encryptor.encryptNonFinalSegmentInto, Encryptor.advance,
        Encryptor.stepped]
      cases encryptor.counter.positionFor .nonFinal with
      | error stop => rfl
      | ok position =>
          simp only
          cases encryptor.state.encryptSegmentIntoAt platform plaintext
            position .nonFinal output with
          | mk result rest => cases result <;> rfl
  | inPlace buffer =>
      simp only [performNonFinal, encryptAt,
        Encryptor.encryptNonFinalSegmentInPlace, Encryptor.advance,
        Encryptor.stepped]
      cases encryptor.counter.positionFor .nonFinal with
      | error stop => rfl
      | ok position =>
          simp only
          cases encryptor.state.encryptSegmentInPlaceAt platform buffer
            position .nonFinal with
          | mk result rest => cases result <;> rfl

/-- A final call is the low-level call at the reserved position. -/
theorem performFinal_eq
    {call : SealCall}
    (kind : call.kind = .final)
    (encryptor : Encryptor) :
    call.performFinal encryptor =
      match encryptor.counter.positionFor .final with
      | .error stop =>
          Outcome.mapErr (FinalEncryptError.mk encryptor) (.error stop)
      | .ok position =>
          match call.encryptAt position encryptor.state with
          | (result, state) =>
              result.mapErr (FinalEncryptError.mk { encryptor with state }) := by
  have mapped {ε ε' : Type} (change : ε → ε') (read : Nat → Bytes)
      (result : Outcome ε Nat) :
      (Outcome.mapErr change result).map read =
        Outcome.mapErr change (result.map read) := by
    rcases result with (_ | _ | _) | _ <;> rfl
  obtain ⟨platform, callKind, form⟩ := call
  cases kind
  cases form with
  | vec plaintext =>
      simp only [performFinal, encryptAt, Encryptor.encryptFinalSegment,
        Encryptor.finalize]
      cases encryptor.counter.positionFor .final with
      | error stop => rfl
      | ok position => rfl
  | into plaintext output =>
      simp only [performFinal, encryptAt, Encryptor.encryptFinalSegmentInto,
        Encryptor.finalize]
      cases encryptor.counter.positionFor .final with
      | error stop => cases stop <;> rfl
      | ok position => exact mapped _ _ _
  | inPlace buffer =>
      simp only [performFinal, encryptAt,
        Encryptor.encryptFinalSegmentInPlace, Encryptor.finalize]
      cases encryptor.counter.positionFor .final with
      | error stop => rfl
      | ok position => rfl

/-- The call is answered with a value at this position. -/
def SucceedsAt (call : SealCall) (position : Nat) (state : EncryptionState)
    (segment : Bytes) : Prop :=
  PositionAllows position call.kind ∧
    ∃ after, call.encryptAt position state = (.ok segment, after)

/-- A call on an open encryptor works at its next position, or it leaves the
counter where it is. -/
theorem perform_cases
    {call : SealCall}
    {encryptor : Encryptor}
    {position : Nat}
    (counter : encryptor.counter = ⟨position, false⟩)
    (inside : position < aeadMaxSegments) :
    (∃ segment next,
        call.SucceedsAt position encryptor.state segment ∧
          call.perform encryptor = .done segment next ∧
          match call.kind with
          | .nonFinal =>
              ∃ after, next = some after ∧
                after.counter = ⟨position + 1, false⟩
          | .final => next = none) ∨
      ((∀ segment,
          ¬ call.SucceedsAt position encryptor.state segment) ∧
        ((∃ next,
            call.perform encryptor = .refused next ∧
              next.counter = encryptor.counter) ∨
          call.perform encryptor = .stopped)) := by
  have guard := SegmentCounter.positionFor_spec inside call.kind
  rw [← counter] at guard
  unfold SucceedsAt perform
  cases kind : call.kind with
  | nonFinal =>
      rw [kind] at guard
      simp only [performNonFinal_eq kind]
      rcases guard with ⟨allowed, reserved⟩ | ⟨refused, limit⟩
      · simp only [reserved]
        cases sealedAt : call.encryptAt position encryptor.state with
        | mk result state =>
            cases result with
            | ok segment =>
                refine .inl ⟨segment, _, ⟨allowed, state, rfl⟩, rfl, _, rfl, ?_⟩
                simp only [Encryptor.stepped, counter,
                  SegmentCounter.complete]
            | error stop =>
                refine .inr ⟨by simp, ?_⟩
                cases stop with
                | err error => exact .inl ⟨_, rfl, rfl⟩
                | panic => exact .inr rfl
                | diverge => exact .inr rfl
      · simp only [limit]
        exact .inr ⟨fun _ success => refused success.1, .inl ⟨_, rfl, rfl⟩⟩
  | final =>
      rw [kind] at guard
      simp only [performFinal_eq kind]
      rcases guard with ⟨allowed, reserved⟩ | ⟨refused, limit⟩
      · simp only [reserved]
        cases sealedAt : call.encryptAt position encryptor.state with
        | mk result state =>
            cases result with
            | ok segment =>
                exact .inl ⟨segment, none, ⟨allowed, state, rfl⟩, rfl, rfl⟩
            | error stop =>
                refine .inr ⟨by simp, ?_⟩
                cases stop with
                | err error => exact .inl ⟨_, rfl, rfl⟩
                | panic => exact .inr rfl
                | diverge => exact .inr rfl
      · exact (refused inside).elim

/-- At the last position a non-final call is refused, and a final call is the
low-level call there. -/
theorem perform_last
    {call : SealCall}
    {encryptor : Encryptor}
    (counter : encryptor.counter = ⟨2 ^ 40 - 1, false⟩) :
    match call.kind with
    | .nonFinal => call.perform encryptor = .refused encryptor
    | .final =>
        ∀ segment,
          (∃ next, call.perform encryptor = .done segment next) ↔
            ∃ after,
              call.encryptAt (2 ^ 40 - 1) encryptor.state =
                (.ok segment, after) := by
  unfold perform
  cases kind : call.kind with
  | nonFinal =>
      simp only [performNonFinal_eq kind, counter]
      rfl
  | final =>
      intro segment
      have reserved :
          (⟨2 ^ 40 - 1, false⟩ : SegmentCounter).positionFor .final =
            .ok (2 ^ 40 - 1) :=
        rfl
      simp only [performFinal_eq kind, counter, reserved]
      rcases call.encryptAt (2 ^ 40 - 1) encryptor.state with
        ⟨(_ | _ | _) | _, _⟩ <;> simp [Outcome.mapErr]

end SealCall

/-- The log of a run on a new encryptor, and what is left of it: the calls that
succeeded took the positions in order, a final one is the last, and an encryptor
that is left stands behind the last position taken. -/
structure EncryptorDiscipline
    (log : List (Runs.Entry Encryptor SealCall Bytes))
    (last : Option Encryptor) : Prop where
  used : ∀ (position : Nat) entry, log[position]? = some entry →
    entry.before.counter = ⟨position, false⟩ ∧
      entry.call.SucceedsAt position entry.before.state entry.value
  final : ∀ (position : Nat) entry, log[position]? = some entry →
    entry.call.kind = .final → position + 1 = log.length ∧ last = none
  left : ∀ encryptor, last = some encryptor →
    encryptor.counter = ⟨log.length, false⟩ ∧ log.length < aeadMaxSegments

/-- A list that gained an entry. -/
theorem getElem?_snoc
    {α : Type}
    {items : List α}
    {item found : α}
    {index : Nat}
    (member : (items ++ [item])[index]? = some found) :
    items[index]? = some found ∨ index = items.length ∧ item = found := by
  rcases Nat.lt_trichotomy index items.length with before | rfl | after
  · left
    rwa [List.getElem?_append_left before] at member
  · right
    rw [List.getElem?_append_right (Nat.le_refl _), Nat.sub_self] at member
    exact ⟨rfl, Option.some.inj member⟩
  · rw [List.getElem?_append_right (Nat.le_of_lt after)] at member
    have bound := (List.getElem?_eq_some_iff.mp member).1
    rw [List.length_singleton] at bound
    omega

/-- A call keeps the discipline. -/
theorem EncryptorDiscipline.step
    {log : List (Runs.Entry Encryptor SealCall Bytes)}
    {encryptor : Encryptor}
    {call : SealCall}
    (discipline : EncryptorDiscipline log (some encryptor)) :
    (call.perform encryptor).Preserves EncryptorDiscipline log encryptor
      call := by
  obtain ⟨counter, inside⟩ := discipline.left encryptor rfl
  have noFinal {position : Nat}
      {entry : Runs.Entry Encryptor SealCall Bytes}
      (member : log[position]? = some entry) :
      entry.call.kind ≠ .final := by
    intro kind
    have impossible := (discipline.final position entry member kind).2
    cases impossible
  rcases SealCall.perform_cases counter inside with
    ⟨segment, next, success, answer, after⟩ | ⟨_, ⟨next, answer, same⟩ | answer⟩
  · rw [answer]
    refine ⟨?_, ?_, ?_⟩
    · intro position entry member
      rcases getElem?_snoc member with earlier | ⟨rfl, rfl⟩
      · exact discipline.used position entry earlier
      · exact ⟨counter, success⟩
    · intro position entry member kind
      rcases getElem?_snoc member with earlier | ⟨rfl, rfl⟩
      · exact (noFinal earlier kind).elim
      · simp only at kind
        rw [kind] at after
        exact ⟨by rw [List.length_append, List.length_singleton], after⟩
    · intro left same
      rw [List.length_append, List.length_singleton]
      cases kind : call.kind with
      | nonFinal =>
          simp only [kind] at after
          obtain ⟨stepped, rfl, stands⟩ := after
          cases same
          have allowed := success.1
          rw [kind] at allowed
          exact ⟨stands, allowed⟩
      | final =>
          simp only [kind] at after
          rw [after] at same
          cases same
  · rw [answer]
    refine ⟨discipline.used, fun position entry member kind =>
      (noFinal member kind).elim, ?_⟩
    intro left same'
    cases same'
    exact ⟨same.trans counter, inside⟩
  · rw [answer]
    exact ⟨discipline.used, fun position entry member kind =>
      (noFinal member kind).elim, by simp⟩

/-! ## Decryption -/

/-- The three forms of a decryption call and the memory they are given. -/
inductive OpenForm where
  | vec (segment : Bytes)
  | into (segment output : Bytes)
  | inPlace (buffer : SegmentBuffer)

/-- One call on a decryptor, with the platform as it behaves during it. -/
structure OpenCall where
  platform : Platform
  form : OpenForm

namespace OpenCall

/-- The framing that a call finds in its segment. -/
def framing (call : OpenCall) (decryptor : Decryptor) :
    Result SegmentFraming :=
  match call.form with
  | .vec segment => decryptor.framing segment
  | .into segment _ => decryptor.framing segment
  | .inPlace buffer => do
      let ciphertext ← buffer.ciphertext
      decryptor.framing ciphertext

/-- The call of the low-level state that a call makes at a position. -/
def decryptAt (call : OpenCall) (framing : SegmentFraming) (position : Nat)
    (state : DecryptionState) : Result Bytes × DecryptionState :=
  match call.form with
  | .vec segment =>
      state.decryptSegmentAtFramed call.platform segment position framing
  | .into segment output =>
      match state.decryptSegmentIntoAtFramed call.platform segment position
          framing output with
      | (result, state, output) => (result.map output.take, state)
  | .inPlace buffer =>
      match state.decryptSegmentInPlaceAtFramed call.platform buffer position
          framing with
      | (.ok length, state, buffer) =>
          (slice buffer.bytes segmentPayloadOffset
            (segmentPayloadOffset + length), state)
      | (.error stop, state, _) => (.error stop, state)

/-- What a call returns, and the decryptor it leaves. -/
def performOn (call : OpenCall) (decryptor : Decryptor) :
    Result Bytes × Decryptor :=
  match call.form with
  | .vec segment =>
      decryptor.decryptSegment call.platform segment
  | .into segment output =>
      match decryptor.decryptSegmentInto call.platform segment output with
      | (result, decryptor, output) => (result.map output.take, decryptor)
  | .inPlace buffer =>
      match decryptor.decryptSegmentInPlace call.platform buffer with
      | (result, _, decryptor) => (result, decryptor)

/-- The answer that a result and a state are. -/
def answer : Result Bytes × Decryptor → Runs.Answer Decryptor Bytes
  | (.ok plaintext, next) => .done plaintext (some next)
  | (.error (.err _), next) => .refused next
  | (.error _, _) => .stopped

/-- What a call answers. -/
def perform (call : OpenCall) (decryptor : Decryptor) :
    Runs.Answer Decryptor Bytes :=
  answer (call.performOn decryptor)

/-- A call is the low-level call at the position reserved for the kind that the
segment declares. -/
theorem perform_eq
    (call : OpenCall)
    (decryptor : Decryptor) :
    call.perform decryptor =
      match call.framing decryptor with
      | .error stop => answer (.error stop, decryptor)
      | .ok framing =>
          match decryptor.counter.positionFor framing.kind with
          | .error stop => answer (.error stop, decryptor)
          | .ok position =>
              match call.decryptAt framing position decryptor.state with
              | (.error stop, state) =>
                  answer (.error stop, { decryptor with state })
              | (.ok plaintext, state) =>
                  answer (.ok plaintext,
                    ⟨state, decryptor.counter.complete framing.kind⟩) := by
  obtain ⟨platform, form⟩ := call
  cases form with
  | vec segment =>
      simp only [perform, performOn, framing, decryptAt,
        Decryptor.decryptSegment, Decryptor.advance]
      cases decryptor.framing segment with
      | error stop => rfl
      | ok framing =>
          simp only
          cases decryptor.counter.positionFor framing.kind with
          | error stop => rfl
          | ok position =>
              simp only
              cases decryptor.state.decryptSegmentAtFramed platform segment
                position framing with
              | mk result state => cases result <;> rfl
  | into segment output =>
      simp only [perform, performOn, framing, decryptAt,
        Decryptor.decryptSegmentInto, Decryptor.decryptSegmentIntoFramed,
        Decryptor.advance]
      cases decryptor.framing segment with
      | error stop => rfl
      | ok framing =>
          simp only
          cases decryptor.counter.positionFor framing.kind with
          | error stop => rfl
          | ok position =>
              simp only
              cases decryptor.state.decryptSegmentIntoAtFramed platform
                segment position framing output with
              | mk result rest => cases result <;> rfl
  | inPlace buffer =>
      simp only [perform, performOn, framing, decryptAt,
        Decryptor.decryptSegmentInPlace, SegmentBuffer.decryptWith,
        Decryptor.advance]
      cases (do
        let ciphertext ← buffer.ciphertext
        decryptor.framing ciphertext : Result SegmentFraming) with
      | error stop => cases stop <;> rfl
      | ok framing =>
          simp only
          cases decryptor.counter.positionFor framing.kind with
          | error stop => cases stop <;> rfl
          | ok position =>
              simp only
              cases decryptor.state.decryptSegmentInPlaceAtFramed platform
                buffer position framing with
              | mk result rest =>
                  cases result with
                  | error stop => cases stop <;> rfl
                  | ok length =>
                      simp only [slice]
                      split <;> rfl

/-- The call is answered with a value at this position, for a segment of this
kind. -/
def SucceedsAt (call : OpenCall) (position : Nat) (decryptor : Decryptor)
    (kind : SegmentKind) (plaintext : Bytes) : Prop :=
  PositionAllows position kind ∧
    ∃ framing after,
      call.framing decryptor = .ok framing ∧ framing.kind = kind ∧
        call.decryptAt framing position decryptor.state =
          (.ok plaintext, after)

/-- A call on an open decryptor works at its next position, or it leaves the
counter where it is. -/
theorem perform_cases
    {call : OpenCall}
    {decryptor : Decryptor}
    {position : Nat}
    (counter : decryptor.counter = ⟨position, false⟩)
    (inside : position < aeadMaxSegments) :
    (∃ plaintext kind next,
        call.SucceedsAt position decryptor kind plaintext ∧
          call.perform decryptor = .done plaintext (some next) ∧
          next.counter =
            (⟨position, false⟩ : SegmentCounter).complete kind) ∨
      ((∀ plaintext kind,
          ¬ call.SucceedsAt position decryptor kind plaintext) ∧
        ((∃ next,
            call.perform decryptor = .refused next ∧
              next.counter = decryptor.counter) ∨
          call.perform decryptor = .stopped)) := by
  have refusal {next : Decryptor} {stop : Stop Error}
      (same : next.counter = decryptor.counter) :
      (∃ next',
          answer (.error stop, next) = .refused next' ∧
            next'.counter = decryptor.counter) ∨
        answer (.error stop, next) = .stopped := by
    cases stop with
    | err error => exact .inl ⟨_, rfl, same⟩
    | panic => exact .inr rfl
    | diverge => exact .inr rfl
  rw [perform_eq]
  unfold SucceedsAt
  cases framed : call.framing decryptor with
  | error stop =>
      exact .inr ⟨by simp, refusal rfl⟩
  | ok framing =>
      have guard := SegmentCounter.positionFor_spec inside framing.kind
      rw [← counter] at guard
      rcases guard with ⟨allowed, reserved⟩ | ⟨refused, limit⟩
      · simp only [reserved]
        cases opened : call.decryptAt framing position decryptor.state with
        | mk result state =>
            cases result with
            | ok plaintext =>
                exact .inl ⟨plaintext, framing.kind, _,
                  ⟨allowed, framing, state, rfl, rfl, opened⟩, rfl,
                  by rw [counter]⟩
            | error stop =>
                refine .inr ⟨?_, refusal rfl⟩
                rintro plaintext kind ⟨_, other, after, same, _, result⟩
                cases same
                rw [opened] at result
                cases result
      · simp only [limit]
        refine .inr ⟨?_, refusal rfl⟩
        rintro plaintext kind ⟨allowed, other, after, same, rfl, _⟩
        cases same
        exact refused allowed

/-- At the last position a call on a non-final segment is refused, and a call on
a final one is the low-level call there. -/
theorem perform_last
    {call : OpenCall}
    {decryptor : Decryptor}
    {framing : SegmentFraming}
    (counter : decryptor.counter = ⟨2 ^ 40 - 1, false⟩)
    (framed : call.framing decryptor = .ok framing) :
    match framing.kind with
    | .nonFinal => call.perform decryptor = .refused decryptor
    | .final =>
        ∀ plaintext,
          (∃ next, call.perform decryptor = .done plaintext next) ↔
            ∃ after,
              call.decryptAt framing (2 ^ 40 - 1) decryptor.state =
                (.ok plaintext, after) := by
  have performed := perform_eq call decryptor
  cases kind : framing.kind with
  | nonFinal =>
      have limit :
          decryptor.counter.positionFor .nonFinal =
            .error (.err .segmentLimit) := by
        rw [counter]
        rfl
      simp only [framed, kind, limit] at performed
      exact performed
  | final =>
      have reserved :
          decryptor.counter.positionFor .final = .ok (2 ^ 40 - 1) := by
        rw [counter]
        rfl
      intro plaintext
      simp only [framed, kind, reserved] at performed
      rw [performed]
      rcases call.decryptAt framing (2 ^ 40 - 1) decryptor.state with
        ⟨(_ | _ | _) | _, _⟩ <;> simp [answer]

/-- A closed decryptor answers no call. -/
theorem perform_closed
    {call : OpenCall}
    {decryptor : Decryptor}
    (closed : decryptor.counter.closed = true) :
    call.perform decryptor = .refused decryptor ∨
      call.perform decryptor = .stopped := by
  have refusal (stop : Stop Error) :
      answer (.error stop, decryptor) = .refused decryptor ∨
        answer (.error stop, decryptor) = .stopped := by
    cases stop with
    | err error => exact .inl rfl
    | panic => exact .inr rfl
    | diverge => exact .inr rfl
  rw [perform_eq]
  cases call.framing decryptor with
  | error stop => exact refusal stop
  | ok framing =>
      simp only [SegmentCounter.positionFor, closed, ↓reduceIte]
      exact refusal _

end OpenCall

/-- One of the logged calls was on a final segment. -/
def ProcessedFinal (log : List (Runs.Entry Decryptor OpenCall Bytes)) :
    Prop :=
  ∃ (position : Nat) (entry : Runs.Entry Decryptor OpenCall Bytes),
    log[position]? = some entry ∧
      entry.call.SucceedsAt position entry.before .final entry.value

/-- The log of a run on a new decryptor, and what is left of it: the calls that
succeeded took the positions in order, and one on a final segment is the last
and closes the decryptor. -/
structure DecryptorDiscipline
    (log : List (Runs.Entry Decryptor OpenCall Bytes))
    (last : Option Decryptor) : Prop where
  used : ∀ (position : Nat) entry, log[position]? = some entry →
    entry.before.counter = ⟨position, false⟩ ∧
      ∃ kind,
        entry.call.SucceedsAt position entry.before kind entry.value ∧
          (kind = .final →
            position + 1 = log.length ∧
              ∀ decryptor, last = some decryptor →
                decryptor.counter = ⟨position, true⟩)
  left : ∀ decryptor, last = some decryptor →
    decryptor.counter.next < aeadMaxSegments ∧
      (decryptor.counter = ⟨log.length, false⟩ ∨
        decryptor.counter.closed = true ∧ ProcessedFinal log)

/-- A call keeps the discipline. -/
theorem DecryptorDiscipline.step
    {log : List (Runs.Entry Decryptor OpenCall Bytes)}
    {decryptor : Decryptor}
    {call : OpenCall}
    (discipline : DecryptorDiscipline log (some decryptor)) :
    (call.perform decryptor).Preserves DecryptorDiscipline log decryptor
      call := by
  obtain ⟨inside, stands⟩ := discipline.left decryptor rfl
  have kept {next : Decryptor} (same : next.counter = decryptor.counter) :
      DecryptorDiscipline log (some next) := by
    refine ⟨?_, ?_⟩
    · intro position entry member
      obtain ⟨counter, kind, success, final⟩ :=
        discipline.used position entry member
      refine ⟨counter, kind, success, fun isFinal => ?_⟩
      obtain ⟨isLast, closed⟩ := final isFinal
      refine ⟨isLast, fun left same' => ?_⟩
      cases same'
      exact same.trans (closed decryptor rfl)
    · intro left same'
      cases same'
      rw [same]
      exact ⟨inside, stands⟩
  have ended : DecryptorDiscipline log none := by
    refine ⟨?_, by simp⟩
    intro position entry member
    obtain ⟨counter, kind, success, final⟩ :=
      discipline.used position entry member
    exact ⟨counter, kind, success, fun isFinal =>
      ⟨(final isFinal).1, by simp⟩⟩
  rcases stands with counter | ⟨closed, _⟩
  · rw [counter] at inside
    rcases OpenCall.perform_cases counter inside with
      ⟨plaintext, kind, next, success, answer, after⟩ |
        ⟨_, ⟨next, answer, same⟩ | answer⟩
    · rw [answer]
      refine ⟨?_, ?_⟩
      · intro position entry member
        rw [List.length_append, List.length_singleton]
        rcases getElem?_snoc member with earlier | ⟨rfl, rfl⟩
        · obtain ⟨counter', kind', success', final⟩ :=
            discipline.used position entry earlier
          refine ⟨counter', kind', success', fun isFinal => ?_⟩
          have closed := (final isFinal).2 decryptor rfl
          rw [counter] at closed
          cases closed
        · refine ⟨counter, kind, success, fun isFinal => ⟨rfl, ?_⟩⟩
          intro left same
          cases same
          rw [after, isFinal]
          rfl
      · intro left same
        cases same
        rw [after, List.length_append, List.length_singleton]
        have allowed := success.1
        cases kind with
        | nonFinal => exact ⟨allowed, .inl rfl⟩
        | final =>
            refine ⟨allowed, .inr ⟨rfl, log.length,
              ⟨decryptor, call, plaintext⟩, ?_, success⟩⟩
            exact List.getElem?_concat_length
    · rw [answer]
      exact kept same
    · rw [answer]
      exact ended
  · rcases @OpenCall.perform_closed call decryptor closed with
      answer | answer
    · rw [answer]
      exact kept rfl
    · rw [answer]
      exact ended

/-! ## Runs from new states -/

/-- What holds of an encryptor that a run left behind the logged calls. -/
structure Encryptor.StandsBehind (encryptor : Encryptor)
    (log : List (Runs.Entry Encryptor SealCall Bytes)) : Prop where
  next : encryptor.nextPosition = log.length
  bounded : encryptor.nextPosition ≤ 2 ^ 40 - 1
  refused : ∀ (call : SealCall) next,
    call.perform encryptor = .refused next →
      next.counter = encryptor.counter
  succeeds : ∀ (call : SealCall) segment,
    (∃ next, call.perform encryptor = .done segment next) ↔
      call.SucceedsAt encryptor.nextPosition encryptor.state segment
  -- The last position is for a final segment only.
  last :
    encryptor.nextPosition = 2 ^ 40 - 1 → ∀ call : SealCall,
      match call.kind with
      | .nonFinal => call.perform encryptor = .refused encryptor
      | .final =>
          ∀ segment,
            (∃ next, call.perform encryptor = .done segment next) ↔
              ∃ after,
                call.encryptAt (2 ^ 40 - 1) encryptor.state =
                  (.ok segment, after)

/-- What holds of a decryptor that a run left behind the logged calls. -/
structure Decryptor.StandsBehind (decryptor : Decryptor)
    (log : List (Runs.Entry Decryptor OpenCall Bytes)) : Prop where
  bounded : decryptor.counter.next ≤ 2 ^ 40 - 1
  refused : ∀ (call : OpenCall) next,
    call.perform decryptor = .refused next →
      next.counter = decryptor.counter
  finished :
    ProcessedFinal log →
      decryptor.finish = .ok () ∧
        ∀ (call : OpenCall) plaintext next,
          call.perform decryptor ≠ .done plaintext next
  unfinished :
    ¬ ProcessedFinal log →
      decryptor.finish = .error (.err .truncated) ∧
        decryptor.counter.next = log.length ∧
        ∀ (call : OpenCall) plaintext,
          (∃ next, call.perform decryptor = .done plaintext next) ↔
            ∃ kind, call.SucceedsAt log.length decryptor kind plaintext
  last :
    decryptor.counter = ⟨2 ^ 40 - 1, false⟩ →
      ∀ (call : OpenCall) framing,
        call.framing decryptor = .ok framing →
          match framing.kind with
          | .nonFinal => call.perform decryptor = .refused decryptor
          | .final =>
              ∀ plaintext,
                (∃ next, call.perform decryptor = .done plaintext next) ↔
                  ∃ after,
                    call.decryptAt framing (2 ^ 40 - 1) decryptor.state =
                      (.ok plaintext, after)

/-- An encryptor that the discipline leaves. -/
theorem EncryptorDiscipline.standsBehind
    {log : List (Runs.Entry Encryptor SealCall Bytes)}
    {encryptor : Encryptor}
    (discipline : EncryptorDiscipline log (some encryptor)) :
    encryptor.StandsBehind log := by
  obtain ⟨counter, inside⟩ := discipline.left encryptor rfl
  have next : encryptor.nextPosition = log.length := by
    rw [Encryptor.nextPosition, counter]
  have cases (call : SealCall) := @SealCall.perform_cases call _ _ counter inside
  refine ⟨next, next ▸ Nat.le_sub_one_of_lt inside, ?_, ?_,
    fun atLast call => SealCall.perform_last ?_⟩
  · intro call left refused
    rcases cases call with
      ⟨_, _, _, answer, _⟩ | ⟨_, ⟨other, answer, same⟩ | answer⟩
    · rw [answer] at refused
      cases refused
    · rw [answer] at refused
      cases refused
      exact same
    · rw [answer] at refused
      cases refused
  · intro call segment
    rw [next]
    rcases cases call with
      ⟨segment', left, success, answer, _⟩ | ⟨failure, rest⟩
    · constructor
      · rintro ⟨other, done⟩
        rw [answer] at done
        cases done
        exact success
      · rintro ⟨allowed, after, sealedAt⟩
        obtain ⟨_, after', sealedAt'⟩ := success
        rw [sealedAt'] at sealedAt
        cases sealedAt
        exact ⟨left, answer⟩
    · refine ⟨?_, fun success => (failure segment success).elim⟩
      rintro ⟨other, done⟩
      rcases rest with ⟨_, answer, _⟩ | answer
      · rw [answer] at done
        cases done
      · rw [answer] at done
        cases done
  · rw [counter, ← atLast, next]

/-- A decryptor that the discipline leaves. -/
theorem DecryptorDiscipline.standsBehind
    {log : List (Runs.Entry Decryptor OpenCall Bytes)}
    {decryptor : Decryptor}
    (discipline : DecryptorDiscipline log (some decryptor)) :
    decryptor.StandsBehind log := by
  obtain ⟨inside, stands⟩ := discipline.left decryptor rfl
  rcases stands with counter | ⟨closed, processed⟩
  · rw [counter] at inside
    have cases (call : OpenCall) :=
      @OpenCall.perform_cases call _ _ counter inside
    refine ⟨counter ▸ Nat.le_sub_one_of_lt inside, ?_, ?_, ?_,
      fun atLast _ _ => OpenCall.perform_last atLast⟩
    · intro call left refused
      rcases cases call with
        ⟨_, _, _, _, answer, _⟩ | ⟨_, ⟨other, answer, same⟩ | answer⟩
      · rw [answer] at refused
        cases refused
      · rw [answer] at refused
        cases refused
        exact same
      · rw [answer] at refused
        cases refused
    · rintro ⟨position, entry, member, success⟩
      obtain ⟨_, kind, success', final⟩ :=
        discipline.used position entry member
      have sameKind : kind = .final := by
        obtain ⟨_, framing, _, framed, rfl, _⟩ := success'
        obtain ⟨_, framing', _, framed', isFinal, _⟩ := success
        rw [framed] at framed'
        cases framed'
        exact isFinal
      have impossible := (final sameKind).2 decryptor rfl
      rw [counter] at impossible
      cases impossible
    · intro _
      refine ⟨?_, by rw [counter], ?_⟩
      · simp only [Decryptor.finish, SegmentCounter.finish, counter,
          Bool.false_eq_true, ↓reduceIte]
      · intro call plaintext
        rcases cases call with
          ⟨plaintext', kind, left, success, answer, _⟩ | ⟨failure, rest⟩
        · constructor
          · rintro ⟨other, done⟩
            rw [answer] at done
            cases done
            exact ⟨kind, success⟩
          · rintro ⟨kind', _, framing, after, framed, _, opened⟩
            obtain ⟨_, framing', after', framed', _, opened'⟩ := success
            rw [framed'] at framed
            cases framed
            rw [opened'] at opened
            cases opened
            exact ⟨some left, answer⟩
        · refine ⟨?_, ?_⟩
          · rintro ⟨other, done⟩
            rcases rest with ⟨_, answer, _⟩ | answer
            · rw [answer] at done
              cases done
            · rw [answer] at done
              cases done
          · rintro ⟨kind, success⟩
            exact (failure plaintext kind success).elim
  · have closedCall (call : OpenCall) :=
      @OpenCall.perform_closed call decryptor closed
    refine ⟨Nat.le_sub_one_of_lt inside, ?_, fun _ => ⟨?_, ?_⟩,
      fun none => (none processed).elim,
      fun atLast _ _ => OpenCall.perform_last atLast⟩
    · intro call left refused
      rcases closedCall call with answer | answer
      · rw [answer] at refused
        cases refused
        rfl
      · rw [answer] at refused
        cases refused
    · simp only [Decryptor.finish, SegmentCounter.finish, closed, ↓reduceIte]
    · intro call plaintext left done
      rcases closedCall call with answer | answer
      · rw [answer] at done
        cases done
      · rw [answer] at done
        cases done

theorem encryptorDiscipline_new
    {platform : Platform}
    {key : Key}
    {aad : Bytes}
    {parameters : Parameters}
    {rng : ProviderRng}
    {encryptor : Encryptor}
    (created : Encryptor.new platform key aad parameters rng = .ok encryptor) :
    EncryptorDiscipline [] (some encryptor) := by
  obtain ⟨⟨state, header⟩, _, shape⟩ := Outcome.bind_eq_ok.mp created
  cases shape
  refine ⟨by simp, by simp, ?_⟩
  intro left same
  cases same
  exact ⟨rfl, by decide⟩

/-- A decryptor that a constructor returned. -/
inductive NewDecryptor (decryptor : Decryptor) : Prop where
  | new (platform : Platform) (key : Key) (aad : Bytes) (header : Header)
      (created : Decryptor.new platform key aad header = .ok decryptor)
  | newWithParameters (platform : Platform) (key : Key) (aad : Bytes)
      (parameters : Parameters) (header : Header)
      (created :
        Decryptor.newWithParameters platform key aad parameters header =
          .ok decryptor)

theorem NewDecryptor.discipline
    {decryptor : Decryptor}
    (created : NewDecryptor decryptor) :
    DecryptorDiscipline [] (some decryptor) := by
  have counter : decryptor.counter = ⟨0, false⟩ := by
    cases created with
    | new platform key aad header created =>
        obtain ⟨state, _, shape⟩ := Outcome.bind_eq_ok.mp created
        cases shape
        rfl
    | newWithParameters platform key aad parameters header created =>
        obtain ⟨state, _, shape⟩ := Outcome.bind_eq_ok.mp created
        cases shape
        rfl
  refine ⟨by simp, ?_⟩
  intro left same
  cases same
  rw [counter]
  exact ⟨by decide, .inl rfl⟩

/-- Whatever calls are made on a new encryptor or decryptor, and however they
fail, those that succeed take the positions in order, up to the last one, which
only a final segment takes; a final segment ends the sequence. -/
theorem onlineStates_takePositionsInOrder :
    (∀ platform key aad parameters rng encryptor,
        Encryptor.new platform key aad parameters rng = .ok encryptor →
          ∀ calls log last,
            Runs.run SealCall.perform [] (some encryptor) calls =
                (log, last) →
              EncryptorDiscipline log last ∧
                ∀ reached, last = some reached →
                  reached.StandsBehind log) ∧
      ∀ decryptor, NewDecryptor decryptor →
        ∀ calls log last,
          Runs.run OpenCall.perform [] (some decryptor) calls =
              (log, last) →
            DecryptorDiscipline log last ∧
              ∀ reached, last = some reached →
                reached.StandsBehind log := by
  constructor
  · intro platform key aad parameters rng encryptor created calls log last ran
    have discipline :=
      Runs.run_preserves (fun _ _ _ => EncryptorDiscipline.step)
        (encryptorDiscipline_new created) calls
    rw [ran] at discipline
    refine ⟨discipline, ?_⟩
    rintro reached rfl
    exact discipline.standsBehind
  · intro decryptor created calls log last ran
    have discipline :=
      Runs.run_preserves (fun _ _ _ => DecryptorDiscipline.step)
        created.discipline calls
    rw [ran] at discipline
    refine ⟨discipline, ?_⟩
    rintro reached rfl
    exact discipline.standsBehind

/-- A call of a wrong length, a full segment, and a final call without room for
its segment. -/
def disciplinedSeals : List SealCall :=
  [⟨openPlatform, .nonFinal, .vec [1]⟩,
    ⟨openPlatform, .nonFinal, .vec (zeros 32)⟩,
    ⟨openPlatform, .final, .into [2] []⟩]

/-- A string that is too short, a full segment, a final one, and this one
again. -/
def disciplinedOpens : List OpenCall :=
  let full := transparentSegment u32Max (Octets.zero aeadIvLength) (zeros 32)
  let final := transparentSegment 33 (Octets.zero aeadIvLength) [2]
  [⟨openPlatform, .vec [1]⟩, ⟨openPlatform, .vec full⟩,
    ⟨openPlatform, .into final [0]⟩, ⟨openPlatform, .vec final⟩]

set_option maxRecDepth 100000 in
/-- A run that leaves an encryptor, one that closes a decryptor, and a final
call at the last position. -/
theorem exists_disciplinedRuns :
    ∃ encryptor decryptor,
      Encryptor.new openPlatform zeroKey [] shortestSegments zeroRng =
          .ok encryptor ∧
        Decryptor.new openPlatform zeroKey [] transparentHeader =
          .ok decryptor ∧
        (Runs.run SealCall.perform [] (some encryptor)
          disciplinedSeals).2.map Encryptor.counter = some ⟨1, false⟩ ∧
        (Runs.run OpenCall.perform [] (some decryptor)
          disciplinedOpens).2.map Decryptor.counter = some ⟨1, true⟩ ∧
        ∃ segment,
          (⟨openPlatform, .final, .vec []⟩ : SealCall).perform
              { encryptor with counter := ⟨2 ^ 40 - 1, false⟩ } =
            .done segment none :=
  ⟨_, _, rfl, rfl, rfl, by decide +kernel, _, rfl⟩

theorem onlineStates_takePositionsInOrder_example :
    ∃ encryptor decryptor,
      Encryptor.new openPlatform zeroKey [] shortestSegments zeroRng =
          .ok encryptor ∧
        Decryptor.new openPlatform zeroKey [] transparentHeader =
          .ok decryptor ∧
        (∃ sealLog sealLeft,
          Runs.run SealCall.perform [] (some encryptor) disciplinedSeals =
              (sealLog, some sealLeft) ∧
            EncryptorDiscipline sealLog (some sealLeft) ∧
            sealLeft.StandsBehind sealLog ∧ sealLog.length = 1) ∧
        (∃ openLog openLeft,
          Runs.run OpenCall.perform [] (some decryptor) disciplinedOpens =
              (openLog, some openLeft) ∧
            DecryptorDiscipline openLog (some openLeft) ∧
            openLeft.StandsBehind openLog ∧ openLeft.finish = .ok ()) ∧
        ∃ segment,
          (⟨openPlatform, .final, .vec []⟩ : SealCall).perform
              { encryptor with counter := ⟨2 ^ 40 - 1, false⟩ } =
            .done segment none := by
  obtain ⟨encryptor, decryptor, created, opened, sealCounter, openCounter,
    last⟩ := exists_disciplinedRuns
  rcases sealRun : Runs.run SealCall.perform [] (some encryptor)
    disciplinedSeals with ⟨sealLog, _ | sealLeft⟩
  · rw [sealRun] at sealCounter
    cases sealCounter
  rcases openRun : Runs.run OpenCall.perform [] (some decryptor)
    disciplinedOpens with ⟨openLog, _ | openLeft⟩
  · rw [openRun] at openCounter
    cases openCounter
  rw [sealRun] at sealCounter
  rw [openRun] at openCounter
  obtain ⟨sealDiscipline, sealStands⟩ := onlineStates_takePositionsInOrder.1
    _ _ _ _ _ _ created _ _ _ sealRun
  obtain ⟨openDiscipline, openStands⟩ := onlineStates_takePositionsInOrder.2
    _ (.new _ _ _ _ opened) _ _ _ openRun
  have counter := (sealDiscipline.left sealLeft rfl).1
  have closed := Option.some.inj openCounter
  rw [Option.some.inj sealCounter] at counter
  refine ⟨encryptor, decryptor, created, opened,
    ⟨sealLog, sealLeft, sealRun, sealDiscipline, sealStands sealLeft rfl, ?_⟩,
    ⟨openLog, openLeft, openRun, openDiscipline, openStands openLeft rfl, ?_⟩,
    last⟩
  · exact (congrArg SegmentCounter.next counter).symm
  · rw [Decryptor.finish, closed]
    rfl

end FastFloe
