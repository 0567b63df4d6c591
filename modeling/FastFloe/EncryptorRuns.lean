import FastFloe.SealedMessages
import FastFloe.Transparent

namespace FastFloe

open Rust

/-!
# Runs of the online encryptor

A run is a list of calls on one `Encryptor`: non-final and final calls, in any
of the three forms, each at a moment with its own key derivation behaviour.  A
failed call leaves the encryptor to the next one, a failed final call through
its `FinalEncryptError`; a successful final call consumes it.
-/

/-- The three forms of an encryption call and the memory they are given. -/
inductive CallForm where
  | vec (plaintext : Bytes)
  | into (plaintext output : Bytes)
  | inPlace (buffer : SegmentBuffer)

/-- One call on an encryptor; `kdf` is how key derivation behaves during it. -/
structure EncryptorCall where
  kind : SegmentKind
  form : CallForm
  kdf : Kdf

/-- What a call on an encryptor leaves. -/
inductive CallOutcome where
  /-- The call returned this segment, for this plaintext. -/
  | emitted (segment plaintext : Bytes) (next : Option Encryptor)
  /-- The call failed; the encryptor is still there. -/
  | failed (next : Encryptor)
  /-- The call panicked and took the encryptor with it. -/
  | lost

/-- A non-final call. -/
def nonFinalCall (platform : Platform) (encryptor : Encryptor) :
    CallForm → CallOutcome
  | .vec plaintext =>
      match encryptor.encryptNonFinalSegment platform plaintext with
      | (.ok segment, next) => .emitted segment plaintext (some next)
      | (.error (.err _), next) => .failed next
      | (.error _, _) => .lost
  | .into plaintext output =>
      match encryptor.encryptNonFinalSegmentInto platform plaintext output with
      | (.ok written, next, output) =>
          .emitted (output.take written) plaintext (some next)
      | (.error (.err _), next, _) => .failed next
      | (.error _, _, _) => .lost
  | .inPlace buffer =>
      match encryptor.encryptNonFinalSegmentInPlace platform buffer,
          buffer.plaintext with
      | (.ok segment, next, _), .ok plaintext =>
          .emitted segment plaintext (some next)
      | (.error (.err _), next, _), _ => .failed next
      | _, _ => .lost

/-- A final call; a failed one gives the encryptor back. -/
def finalCall (platform : Platform) (encryptor : Encryptor) :
    CallForm → CallOutcome
  | .vec plaintext =>
      match encryptor.encryptFinalSegment platform plaintext with
      | .ok segment => .emitted segment plaintext none
      | .error (.err failure) => .failed failure.intoEncryptor
      | .error _ => .lost
  | .into plaintext output =>
      match encryptor.encryptFinalSegmentInto platform plaintext output with
      | (.ok written, output) =>
          .emitted (output.take written) plaintext none
      | (.error (.err failure), _) => .failed failure.intoEncryptor
      | (.error _, _) => .lost
  | .inPlace buffer =>
      match encryptor.encryptFinalSegmentInPlace platform buffer,
          buffer.plaintext with
      | (.ok segment, _), .ok plaintext => .emitted segment plaintext none
      | (.error (.err failure), _), _ => .failed failure.intoEncryptor
      | _, _ => .lost

/-- One call of a run. -/
def EncryptorCall.perform (platform : Platform) (call : EncryptorCall)
    (encryptor : Encryptor) : CallOutcome :=
  match call.kind with
  | .nonFinal =>
      nonFinalCall (platform.withKdf call.kdf) encryptor call.form
  | .final =>
      finalCall (platform.withKdf call.kdf) encryptor call.form

/-- The segments a run returns, each with its plaintext, in call order, and
whether a final call succeeded. -/
def runCalls (platform : Platform) :
    Encryptor → List EncryptorCall → List (Bytes × Bytes) × Bool
  | _, [] =>
      ([], false)
  | encryptor, call :: rest =>
      match call.perform platform encryptor with
      | .emitted segment plaintext (some next) =>
          let later := runCalls platform next rest
          ((segment, plaintext) :: later.1, later.2)
      | .emitted segment plaintext none =>
          ([(segment, plaintext)], true)
      | .failed next =>
          runCalls platform next rest
      | .lost =>
          ([], false)

/-- The encryptor that a run leaves; the one that a successful final call was
made on. -/
def encryptorAfter (platform : Platform) :
    Encryptor → List EncryptorCall → Encryptor
  | encryptor, [] =>
      encryptor
  | encryptor, call :: rest =>
      match call.perform platform encryptor with
      | .emitted _ _ (some next) => encryptorAfter platform next rest
      | .emitted _ _ none => encryptor
      | .failed next => encryptorAfter platform next rest
      | .lost => encryptor

section Runs

variable {platform : Platform} {context : MessageContext} {position : Nat}
  {encryptor : Encryptor}

/-- What one call does to an encryptor at a position: a returned segment is
sealed there, and a failed call stays there; no call is lost. -/
def CallOutcome.Follows (platform : Platform) (context : MessageContext)
    (position : Nat) (kind : SegmentKind) : CallOutcome → Prop
  | .emitted segment plaintext next =>
      PositionAllows position kind ∧
        context.Seals platform position kind plaintext segment ∧
          match kind with
          | .nonFinal =>
              ∃ encryptor, next = some encryptor ∧
                encryptor.At platform context (position + 1)
          | .final => next = none
  | .failed next => next.At platform context position
  | .lost => False

/-- A non-final call follows the sequence of positions. -/
theorem nonFinalCall_follows
    {faulty : Kdf}
    (form : CallForm)
    (sound : faulty.FaultOf platform.kdfExpand)
    (agree : platform.SealsAgree)
    (here : encryptor.At platform context position) :
    (nonFinalCall (platform.withKdf faulty) encryptor form).Follows platform
      context position .nonFinal := by
  have seals {plaintext segment : Bytes} {state : EncryptionState}
      (step :
        encryptor.state.sealNext (platform.withKdf faulty) plaintext position
            .nonFinal = (some segment, state)) :
      context.Seals platform position .nonFinal plaintext segment :=
    (EncryptionState.sealNext_spec plaintext position .nonFinal sound
      here.ready).2 segment (by rw [step])
  cases form with
  | vec plaintext =>
      rcases here.encryptNonFinalSegment_spec plaintext sound agree with
        ⟨segment, state, allowed, step, ready, result⟩ |
          ⟨error, state, _, ready, result⟩
      · simp only [nonFinalCall, result]
        exact ⟨allowed, seals step, _, rfl, here.stepped allowed ready⟩
      · simp only [nonFinalCall, result]
        exact here.failed ready
  | into plaintext output =>
      rcases here.encryptNonFinalSegmentInto_spec plaintext output sound agree
        with
        ⟨segment, state, allowed, step, _, _, ready, result⟩ |
          ⟨error, state, failed, _, ready, result, _⟩
      · simp only [nonFinalCall, result, List.take_left]
        exact ⟨allowed, seals step, _, rfl, here.stepped allowed ready⟩
      · simp only [nonFinalCall, result]
        exact here.failed ready
  | inPlace buffer =>
      rcases here.encryptNonFinalSegmentInPlace_spec buffer sound with
        ⟨plaintext, segment, state, sealedBuffer, allowed, held, step, ready,
            result, _⟩ |
          ⟨error, state, failed, _, ready, result, _⟩
      · simp only [nonFinalCall, result, held]
        exact ⟨allowed, seals step, _, rfl, here.stepped allowed ready⟩
      · simp only [nonFinalCall, result]
        exact here.failed ready

/-- A final call ends the sequence of positions, or stays where it was. -/
theorem finalCall_follows
    {faulty : Kdf}
    (form : CallForm)
    (sound : faulty.FaultOf platform.kdfExpand)
    (agree : platform.SealsAgree)
    (here : encryptor.At platform context position) :
    (finalCall (platform.withKdf faulty) encryptor form).Follows platform
      context position .final := by
  have seals {plaintext segment : Bytes} {state : EncryptionState}
      (step :
        encryptor.state.sealNext (platform.withKdf faulty) plaintext position
            .final = (some segment, state)) :
      context.Seals platform position .final plaintext segment :=
    (EncryptionState.sealNext_spec plaintext position .final sound
      here.ready).2 segment (by rw [step])
  cases form with
  | vec plaintext =>
      rcases here.encryptFinalSegment_spec plaintext sound agree with
        ⟨segment, state, step, result⟩ | ⟨error, state, _, ready, result⟩
      · simp only [finalCall, result]
        exact ⟨here.inside, seals step, rfl⟩
      · simp only [finalCall, result]
        exact here.failed ready
  | into plaintext output =>
      rcases here.encryptFinalSegmentInto_spec plaintext output sound agree
        with
        ⟨segment, state, step, _, _, result⟩ |
          ⟨error, state, failed, _, ready, result, _⟩
      · simp only [finalCall, result, List.take_left]
        exact ⟨here.inside, seals step, rfl⟩
      · simp only [finalCall, result]
        exact here.failed ready
  | inPlace buffer =>
      rcases here.encryptFinalSegmentInPlace_spec buffer sound with
        ⟨plaintext, segment, state, sealedBuffer, held, step, result, _⟩ |
          ⟨error, state, failed, _, ready, result, _⟩
      · simp only [finalCall, result, held]
        exact ⟨here.inside, seals step, rfl⟩
      · simp only [finalCall, result]
        exact here.failed ready

/-- Each call of a run follows the sequence of positions. -/
theorem EncryptorCall.perform_follows
    {call : EncryptorCall}
    (sound : call.kdf.FaultOf platform.kdfExpand)
    (agree : platform.SealsAgree)
    (here : encryptor.At platform context position) :
    (call.perform platform encryptor).Follows platform context position
      call.kind := by
  unfold perform
  cases call.kind with
  | nonFinal => exact nonFinalCall_follows call.form sound agree here
  | final => exact finalCall_follows call.form sound agree here

/-- A run in which a final call succeeds has returned a complete message. -/
theorem runCalls_sealedMessage
    {calls : List EncryptorCall}
    {emissions : List (Bytes × Bytes)}
    (agree : platform.SealsAgree)
    (here : encryptor.At platform context position)
    (sound : ∀ call ∈ calls, call.kdf.FaultOf platform.kdfExpand)
    (completed : runCalls platform encryptor calls = (emissions, true)) :
    ∃ middle last lastPlaintext,
      emissions = middle ++ [(last, lastPlaintext)] ∧
        SealedMessage platform context position middle last
          lastPlaintext := by
  induction calls generalizing encryptor position emissions with
  | nil =>
      simp [runCalls] at completed
  | cons call rest inductionHypothesis =>
      have follows := call.perform_follows (sound call (by simp)) agree here
      have laterSound : ∀ later ∈ rest,
          later.kdf.FaultOf platform.kdfExpand :=
        fun later member => sound later (by simp [member])
      simp only [runCalls] at completed
      cases outcome : call.perform platform encryptor with
      | emitted segment plaintext next =>
          rw [outcome] at follows completed
          obtain ⟨allowed, seals, next_eq⟩ := follows
          cases kind : call.kind with
          | nonFinal =>
              rw [kind] at allowed seals next_eq
              obtain ⟨encryptor', rfl, there⟩ := next_eq
              simp only [Prod.mk.injEq] at completed
              obtain ⟨rfl, finished⟩ := completed
              obtain ⟨middle, last, lastPlaintext, shape, message⟩ :=
                inductionHypothesis there laterSound
                  (Prod.ext rfl finished)
              exact ⟨(segment, plaintext) :: middle, last, lastPlaintext,
                congrArg (List.cons (segment, plaintext)) shape,
                .cons allowed seals message⟩
          | final =>
              rw [kind] at allowed seals next_eq
              simp only at next_eq
              subst next_eq
              simp only [Prod.mk.injEq, and_true] at completed
              subst completed
              exact ⟨[], segment, plaintext, rfl,
                sealedRun_nil platform context position, seals, allowed⟩
      | failed next =>
          rw [outcome] at follows completed
          exact inductionHypothesis follows laterSound completed
      | lost =>
          rw [outcome] at follows
          exact follows.elim

end Runs

/-- The bytes of a completed run decrypt to the plaintexts of its successful
calls, in call order, whatever other calls failed in between. -/
theorem completedRun_decrypts
    {platform : Platform}
    {key : Key}
    {aad : Bytes}
    {parameters : Parameters}
    {rng : ProviderRng}
    {kdf : Kdf}
    {encryptor : Encryptor}
    {calls : List EncryptorCall}
    {emissions : List (Bytes × Bytes)}
    (agree : platform.SealsAgree)
    (roundTrips : platform.RoundTrips)
    (startSound : kdf.FaultOf platform.kdfExpand)
    (created :
      Encryptor.new (platform.withKdf kdf) key aad parameters rng =
        .ok encryptor)
    (sound : ∀ call ∈ calls, call.kdf.FaultOf platform.kdfExpand)
    (completed : runCalls platform encryptor calls = (emissions, true)) :
    decrypt platform key aad
        (encryptor.header.val ++ (emissions.map Prod.fst).flatten) =
      .ok (emissions.map Prod.snd).flatten := by
  obtain ⟨authentic, _, here⟩ := Encryptor.new_eq_ok startSound created
  obtain ⟨middle, last, lastPlaintext, rfl, message⟩ :=
    runCalls_sealedMessage agree here sound completed
  have decrypted := message.decrypt_eq roundTrips authentic
  simpa using decrypted

/-- A non-final call of a wrong length, a full segment, a final call with no
room for its output, and an empty final segment. -/
def recoveringCalls : List EncryptorCall :=
  [⟨.nonFinal, .vec [1], openPlatform.kdfExpand⟩,
    ⟨.nonFinal, .vec (zeros 32), openPlatform.kdfExpand⟩,
    ⟨.final, .into [2] [], openPlatform.kdfExpand⟩,
    ⟨.final, .vec [], openPlatform.kdfExpand⟩]

set_option maxRecDepth 100000 in
theorem completedRun_decrypts_example :
    ∃ encryptor emissions,
      Encryptor.new openPlatform zeroKey [] shortestSegments zeroRng =
          .ok encryptor ∧
        runCalls openPlatform encryptor recoveringCalls =
            (emissions, true) ∧
          decrypt openPlatform zeroKey []
              (encryptor.header.val ++ (emissions.map Prod.fst).flatten) =
            .ok (emissions.map Prod.snd).flatten := by
  refine ⟨_, _, rfl, rfl, ?_⟩
  refine @completedRun_decrypts _ _ _ shortestSegments zeroRng
    openPlatform.kdfExpand _ recoveringCalls _ transparent_sealsAgree
    transparent_roundTrips (Kdf.FaultOf.refl _) rfl ?_ rfl
  simp [recoveringCalls, Kdf.FaultOf.refl]

end FastFloe
