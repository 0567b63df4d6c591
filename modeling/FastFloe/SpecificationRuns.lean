import FastFloe.SpecificationSegments
import FastFloe.EncryptorRuns
import FastFloe.OneShotEncryption

namespace FastFloe

open Rust

/-!
# Encryptor runs are runs of the specification

The online state of the specification is the message's state with the counter
of the encryptor.  Every successful call on an encryptor is the specification's
online call on that state, and a failed one leaves it as it is.
-/

/-- The specification's online state of a message at a position. -/
def MessageContext.onlineAt (self : MessageContext) (position : Nat) :
    Specification.OnlineState :=
  ⟨self.specified, position, false⟩

/-- The specification's online state after a segment of this kind. -/
def MessageContext.onlineAfter (self : MessageContext) (position : Nat) :
    SegmentKind → Specification.OnlineState
  | .nonFinal => self.onlineAt (position + 1)
  | .final => ⟨self.specified, position, true⟩

section Requests

open Specification

variable {platform : Platform} {externals : Externals}
  {context : MessageContext} {position : Nat} {kind : SegmentKind}
  {next : OnlineState} {segment : Bytes}

/-- The specification answers a request at a position exactly with the segment
that the payload is sealed to there. -/
theorem Platform.Implements.encryptRequest_iff
    {nonce : Octets aeadIvLength}
    {plaintext : Bytes}
    (implements : platform.Implements context.provider externals)
    (inside : position < aeadMaxSegments) :
    encryptRequest externals context.parameters.ciphertextSegmentLength
        (context.onlineAt position)
        ⟨kind.isFinal, plaintext, nonce.val⟩ = some (next, segment) ↔
      PositionAllows position kind ∧
        (FitsKind context.parameters kind plaintext.length ∧
          context.sealSegment platform position kind nonce plaintext =
            some segment) ∧
        context.onlineAfter position kind = next := by
  rw [implements.seals_iff inside]
  cases kind with
  | nonFinal =>
      have limit : position ≠ Specification.aeadMaxSegments - 1 ↔
          PositionAllows position .nonFinal := by
        simp only [PositionAllows, Specification.aeadMaxSegments,
          aeadMaxSegments] at inside ⊢
        omega
      simp only [encryptRequest, SegmentKind.isFinal, encryptOnlineSegment,
        MessageContext.onlineAt, MessageContext.onlineAfter, limit,
        Option.bind_eq_bind, Option.bind_eq_some_iff, assert_eq_some,
        exists_const, true_and, Option.some.injEq, Prod.mk.injEq,
        Bool.false_eq_true, ↓reduceIte]
      constructor
      · rintro ⟨allowed, _, encrypted, rfl, rfl⟩
        exact ⟨allowed, encrypted, rfl⟩
      · rintro ⟨allowed, encrypted, rfl⟩
        exact ⟨allowed, segment, encrypted, rfl, rfl⟩
  | final =>
      simp only [encryptRequest, SegmentKind.isFinal, encryptLastSegment,
        MessageContext.onlineAt, MessageContext.onlineAfter,
        Option.bind_eq_bind, Option.bind_eq_some_iff, assert_eq_some,
        exists_const, true_and, Option.some.injEq, Prod.mk.injEq,
        ↓reduceIte]
      constructor
      · rintro ⟨_, encrypted, rfl, rfl⟩
        exact ⟨inside, encrypted, rfl⟩
      · rintro ⟨_, encrypted, rfl⟩
        exact ⟨segment, encrypted, rfl, rfl⟩

/-- A first request and the requests behind it. -/
theorem Specification.encryptAll_cons
    {encSegLen : Nat}
    {online later last : OnlineState}
    {request : Request}
    {rest : List Request}
    {segments : List Bytes}
    (first :
      encryptRequest externals encSegLen online request =
        some (later, segment))
    (others :
      encryptAll externals encSegLen later rest = some (last, segments)) :
    encryptAll externals encSegLen online (request :: rest) =
      some (last, segment :: segments) := by
  simp only [encryptAll, first, others, Option.bind_eq_bind,
    Option.bind_some]

/-- A closed state answers no request. -/
theorem Specification.encryptRequest_closed
    {encSegLen : Nat}
    {online : OnlineState}
    (closed : online.closed = true)
    (request : Request) :
    encryptRequest externals encSegLen online request = none := by
  simp [encryptRequest, encryptLastSegment, encryptOnlineSegment, assert,
    closed]

end Requests

/-! ## Runs with failures -/

section Runs

open Specification

variable {platform : Platform} {externals : Externals}
  {context : MessageContext} {position : Nat} {encryptor : Encryptor}

/-- What a run returns, the specification returns for the plaintexts of its
successful calls under IVs of its own. -/
theorem runCalls_encryptAll
    {calls : List EncryptorCall}
    (implements : platform.Implements context.provider externals)
    (agree : platform.SealsAgree)
    (here : encryptor.At platform context position)
    (sound : ∀ call ∈ calls, call.kdf.FaultOf platform.kdfExpand) :
    ∃ requests online,
      requests.map Request.plaintext =
          (runCalls platform encryptor calls).1.map Prod.snd ∧
        (∀ request ∈ requests, request.aeadIv.length = aeadIvLen) ∧
        encryptAll externals context.parameters.ciphertextSegmentLength
            (context.onlineAt position) requests =
          some (online,
            (runCalls platform encryptor calls).1.map Prod.fst) ∧
        online.closed = (runCalls platform encryptor calls).2 ∧
        online.counter =
          (encryptorAfter platform encryptor calls).counter.next := by
  induction calls generalizing encryptor position with
  | nil =>
      refine ⟨[], context.onlineAt position, rfl, by simp, rfl, rfl, ?_⟩
      rw [encryptorAfter, here.counter]
      rfl
  | cons call rest inductionHypothesis =>
      have follows := call.perform_follows (sound call (by simp)) agree here
      have laterSound : ∀ later ∈ rest,
          later.kdf.FaultOf platform.kdfExpand :=
        fun later member => sound later (by simp [member])
      simp only [runCalls, encryptorAfter]
      cases outcome : call.perform platform encryptor with
      | emitted segment plaintext next =>
          rw [outcome] at follows
          obtain ⟨allowed, ⟨fits, nonce, sealedAs⟩, next_eq⟩ := follows
          have answered := (implements.encryptRequest_iff here.inside).mpr
            ⟨allowed, ⟨fits, sealedAs⟩, rfl⟩
          cases kind : call.kind with
          | nonFinal =>
              rw [kind] at next_eq answered
              obtain ⟨encryptor', rfl, there⟩ := next_eq
              obtain ⟨requests, online, plaintexts, ivs, all, ends⟩ :=
                inductionHypothesis there laterSound
              refine ⟨⟨false, plaintext, nonce.val⟩ :: requests, online, ?_,
                ?_, encryptAll_cons answered all, ends⟩
              · simp only [List.map_cons, plaintexts]
              · simp only [List.mem_cons, forall_eq_or_imp]
                exact ⟨nonce.length_val, ivs⟩
          | final =>
              rw [kind] at next_eq answered
              simp only at next_eq
              subst next_eq
              refine ⟨[⟨true, plaintext, nonce.val⟩],
                context.onlineAfter position .final, rfl, ?_,
                encryptAll_cons answered rfl, rfl, ?_⟩
              · simp only [List.mem_singleton, forall_eq]
                exact nonce.length_val
              · rw [here.counter]
                rfl
      | failed next =>
          rw [outcome] at follows
          exact inductionHypothesis follows laterSound
      | lost =>
          rw [outcome] at follows
          exact follows.elim

end Runs

/-! ## Runs without failures -/

/-- A form of a call that presents a plaintext in memory that suffices: an
output with room for its segment, a buffer that holds it. -/
def CallForm.Presents (parameters : Parameters) (plaintext : Bytes) :
    CallForm → Prop
  | .vec given => given = plaintext
  | .into given output =>
      given = plaintext ∧ plaintext.length + 32 ≤ output.length
  | .inPlace buffer =>
      buffer.HoldsPlaintext plaintext ∧ buffer.parameters = parameters

/-- A call with memory that suffices for its plaintext. -/
structure ProvidedCall (parameters : Parameters) where
  kind : SegmentKind
  plaintext : Bytes
  form : CallForm
  presents : form.Presents parameters plaintext

/-- The call at a moment at which key derivation does not fail. -/
def ProvidedCall.call
    {parameters : Parameters}
    (platform : Platform)
    (self : ProvidedCall parameters) :
    EncryptorCall :=
  ⟨self.kind, self.form, platform.kdfExpand⟩

/-- The requests for the plaintexts of calls whose IVs are the next nonces of a
tape. -/
def requestsOn
    {parameters : Parameters}
    (tape : Nat → UInt8) :
    (count : Nat) → List (ProvidedCall parameters) →
      List Specification.Request
  | _, [] =>
      []
  | count, input :: rest =>
      ⟨input.kind.isFinal, input.plaintext, (nonceAt tape count).val⟩ ::
        requestsOn tape (count + 1) rest

/-- A run returns at most one segment for each of its calls. -/
theorem length_runCalls
    (platform : Platform)
    (encryptor : Encryptor)
    (calls : List EncryptorCall) :
    (runCalls platform encryptor calls).1.length ≤ calls.length := by
  induction calls generalizing encryptor with
  | nil =>
      exact Nat.le_refl _
  | cons call rest inductionHypothesis =>
      simp only [runCalls]
      cases call.perform platform encryptor with
      | emitted segment plaintext next =>
          cases next with
          | some next => exact Nat.succ_le_succ (inductionHypothesis next)
          | none => exact Nat.succ_le_succ (Nat.zero_le _)
      | failed next => exact Nat.le_succ_of_le (inductionHypothesis next)
      | lost => exact Nat.zero_le _

section Healthy

open Specification

variable {platform : Platform} {externals : Externals}
  {context : MessageContext} {position count : Nat} {tape : Nat → UInt8}

/-- A step of a state on a tape seals its payload under the next nonce, or the
payload cannot be sealed under it. -/
theorem EncryptionState.Draws.sealNext_cases
    {state : EncryptionState}
    (kind : SegmentKind)
    (plaintext : Bytes)
    (implements : platform.Implements context.provider externals)
    (draws : state.Draws platform context tape count)
    (inside : position < aeadMaxSegments) :
    ∃ next,
      (∃ segment,
          state.sealNext platform plaintext position kind =
              (some segment, next) ∧
            (FitsKind context.parameters kind plaintext.length ∧
              context.sealSegment platform position kind
                (nonceAt tape count) plaintext = some segment) ∧
            (next.Ready platform context →
              next.Draws platform context tape (count + 1))) ∨
        state.sealNext platform plaintext position kind = (none, next) ∧
          ∀ segment,
            ¬ (FitsKind context.parameters kind plaintext.length ∧
              context.sealSegment platform position kind
                (nonceAt tape count) plaintext = some segment) := by
  obtain ⟨material, scheduled, _⟩ := implements.segmentKey inside
  have upcoming := draws.upcoming_eq
  have remaining := draws.remaining
  obtain ⟨⟨rfl, coherent, served⟩, random, _⟩ := draws
  by_cases fits : FitsKind state.context.parameters kind plaintext.length
  · obtain ⟨nonces, drawn, steady, _, drew⟩ :=
      NonceGenerator.draw_tape served random
    obtain ⟨keys, _, ⟨key, given, found⟩ | ⟨error, missing, _⟩⟩ :=
      KeyCache.keyForPosition_spec (Kdf.FaultOf.refl platform.kdfExpand)
        coherent position
    · rw [scheduled, Option.some.injEq] at given
      subst given
      have found' :
          state.keys.keyForPosition platform state.context position =
            (.ok ⟨state.context.provider, material⟩, keys) :=
        found
      refine ⟨{ state with keys, nonces }, ?_⟩
      simp only [EncryptionState.sealNext, fits, ↓reduceIte, drawn, found',
        upcoming, MessageContext.sealSegment, scheduled, true_and,
        Option.bind_eq_bind, Option.bind_some]
      cases sealed : (⟨state.context.provider, material⟩ : AeadKey).sealed
          platform (nonceAt tape count) (segmentAad position kind)
          plaintext with
      | none =>
          exact .inr ⟨rfl, fun _ impossible => by cases impossible⟩
      | some payload =>
          refine .inl ⟨_, rfl, rfl, fun ready => ⟨ready, steady, ?_⟩⟩
          intro index
          rw [drew index, remaining, Nat.succ_mul]
          congr 1
          omega
    · have missing' :
          state.context.segmentKey platform position = none :=
        missing
      rw [scheduled] at missing'
      cases missing'
  · refine ⟨state, .inr ⟨?_, fun _ both => fits both.1⟩⟩
    simp only [EncryptionState.sealNext, fits, ↓reduceIte]

/-- A provided call takes the encryptor's next step, or is refused with it. -/
theorem ProvidedCall.perform_cases
    {encryptor : Encryptor}
    (input : ProvidedCall context.parameters)
    (agree : platform.SealsAgree)
    (here : encryptor.At platform context position) :
    (∃ segment state left,
        PositionAllows position input.kind ∧
          encryptor.state.sealNext platform input.plaintext position
              input.kind = (some segment, state) ∧
          (input.call platform).perform platform encryptor =
            .emitted segment input.plaintext left ∧
          match input.kind with
          | .nonFinal =>
              left = some (encryptor.stepped state) ∧
                state.Ready platform context
          | .final => left = none) ∨
      ∃ state next,
        (PositionAllows position input.kind →
          encryptor.state.sealNext platform input.plaintext position
              input.kind = (none, state)) ∧
          (input.call platform).perform platform encryptor =
            .failed next := by
  have refl := Kdf.FaultOf.refl platform.kdfExpand
  obtain ⟨kind, plaintext, form, presents⟩ := input
  simp only [EncryptorCall.perform, ProvidedCall.call]
  cases form with
  | vec given =>
      obtain rfl : given = plaintext := presents
      cases kind with
      | nonFinal =>
          rcases here.encryptNonFinalSegment_spec given refl agree with
            ⟨segment, state, allowed, step, ready, result⟩ |
              ⟨error, state, failed, _, result⟩
          · simp only [nonFinalCall, result]
            exact .inl ⟨segment, state, _, allowed, step, rfl, rfl, ready⟩
          · simp only [nonFinalCall, result]
            exact .inr ⟨state, _, failed, rfl⟩
      | final =>
          rcases here.encryptFinalSegment_spec given refl agree with
            ⟨segment, state, step, result⟩ | ⟨error, state, failed, _, result⟩
          · simp only [finalCall, result]
            exact .inl ⟨segment, state, _, here.inside, step, rfl, rfl⟩
          · simp only [finalCall, result]
            exact .inr ⟨state, _, fun _ => failed, rfl⟩
  | into given output =>
      obtain ⟨rfl, room⟩ := presents
      have enough {state : EncryptionState}
          (failed :
            encryptor.state.FailsTo platform given position kind
              output.length state) :
          encryptor.state.sealNext platform given position kind =
            (none, state) :=
        failed.resolve_right fun narrow =>
          absurd room (Nat.not_le.mpr narrow.2)
      cases kind with
      | nonFinal =>
          rcases here.encryptNonFinalSegmentInto_spec given output refl agree
            with
            ⟨segment, state, allowed, step, _, _, ready, result⟩ |
              ⟨error, state, written, failed, _, result, _⟩
          · simp only [nonFinalCall, result, List.take_left]
            exact .inl ⟨segment, state, _, allowed, step, rfl, rfl, ready⟩
          · simp only [nonFinalCall, result]
            exact .inr ⟨state, _, fun allowed => enough (failed allowed), rfl⟩
      | final =>
          rcases here.encryptFinalSegmentInto_spec given output refl agree with
            ⟨segment, state, step, _, _, result⟩ |
              ⟨error, state, written, failed, _, result, _⟩
          · simp only [finalCall, result, List.take_left]
            exact .inl ⟨segment, state, _, here.inside, step, rfl, rfl⟩
          · simp only [finalCall, result]
            exact .inr ⟨state, _, fun _ => enough failed, rfl⟩
  | inPlace buffer =>
      obtain ⟨holds, same⟩ := presents
      have content {other : Bytes} (held : buffer.plaintext = .ok other) :
          other = plaintext :=
        (Except.ok.inj (holds.plaintext_eq.symm.trans held)).symm
      cases kind with
      | nonFinal =>
          rcases here.encryptNonFinalSegmentInPlace_spec buffer refl with
            ⟨other, segment, state, _, allowed, held, step, ready, result, _⟩ |
              ⟨error, state, left, failed, _, result, _⟩
          · obtain rfl := content held
            simp only [nonFinalCall, result, held]
            exact .inl ⟨segment, state, _, allowed, step, rfl, rfl, ready⟩
          · simp only [nonFinalCall, result]
            exact .inr ⟨state, _,
              fun allowed => failed plaintext allowed holds same, rfl⟩
      | final =>
          rcases here.encryptFinalSegmentInPlace_spec buffer refl with
            ⟨other, segment, state, _, held, step, result, _⟩ |
              ⟨error, state, left, failed, _, result, _⟩
          · obtain rfl := content held
            simp only [finalCall, result, held]
            exact .inl ⟨segment, state, _, here.inside, step, rfl, rfl⟩
          · simp only [finalCall, result]
            exact .inr ⟨state, _, fun _ => failed plaintext holds same, rfl⟩

/-- What a provided call does to an encryptor on a tape: what the specification
does to its online state, under the next nonce. -/
theorem ProvidedCall.perform_spec
    {encryptor : Encryptor}
    (input : ProvidedCall context.parameters)
    (implements : platform.Implements context.provider externals)
    (agree : platform.SealsAgree)
    (here : encryptor.At platform context position)
    (draws : encryptor.state.Draws platform context tape count) :
    (∃ segment left,
        encryptRequest externals context.parameters.ciphertextSegmentLength
            (context.onlineAt position)
            ⟨input.kind.isFinal, input.plaintext,
              (nonceAt tape count).val⟩ =
          some (context.onlineAfter position input.kind, segment) ∧
        (input.call platform).perform platform encryptor =
          .emitted segment input.plaintext left ∧
        match input.kind with
        | .nonFinal =>
            ∃ next, left = some next ∧
              next.At platform context (position + 1) ∧
              next.state.Draws platform context tape (count + 1)
        | .final => left = none) ∨
      encryptRequest externals context.parameters.ciphertextSegmentLength
          (context.onlineAt position)
          ⟨input.kind.isFinal, input.plaintext, (nonceAt tape count).val⟩ =
        none ∧
        ∃ next,
          (input.call platform).perform platform encryptor =
            .failed next := by
  obtain ⟨next, sealing⟩ :=
    draws.sealNext_cases input.kind input.plaintext implements here.inside
  rcases input.perform_cases agree here with
    ⟨segment, state, left, allowed, step, performed, after⟩ |
      ⟨state, failed, refused, performed⟩
  · rcases sealing with ⟨other, taken, sealedAs, moves⟩ | ⟨impossible, _⟩
    · cases step.symm.trans taken
      refine .inl ⟨segment, left, (implements.encryptRequest_iff
        here.inside).mpr ⟨allowed, sealedAs, rfl⟩, performed, ?_⟩
      cases kind : input.kind with
      | nonFinal =>
          rw [kind] at allowed after
          exact ⟨_, after.1, here.stepped allowed after.2, moves after.2⟩
      | final =>
          rw [kind] at after
          exact after
    · cases step.symm.trans impossible
  · refine .inr ⟨Option.eq_none_iff_forall_ne_some.mpr ?_, failed, performed⟩
    rintro ⟨online, segment⟩ answered
    obtain ⟨allowed, sealedAs, _⟩ :=
      (implements.encryptRequest_iff here.inside).mp answered
    rcases sealing with ⟨other, taken, _⟩ | ⟨_, unsealed⟩
    · cases (refused allowed).symm.trans taken
    · exact unsealed segment sealedAs

/-- The closed state answers no request. -/
theorem encryptAll_closed
    {specified : Specification.State}
    {counter length count : Nat}
    {inputs : List (ProvidedCall context.parameters)}
    {online : OnlineState}
    {segments : List Bytes} :
    encryptAll externals length ⟨specified, counter, true⟩
        (requestsOn tape count inputs) = some (online, segments) ↔
      inputs = [] ∧ segments = [] ∧ online = ⟨specified, counter, true⟩ := by
  cases inputs with
  | nil =>
      simp only [requestsOn, encryptAll, Option.some.injEq, Prod.mk.injEq,
        true_and]
      exact ⟨fun ⟨same, empty⟩ => ⟨empty.symm, same.symm⟩,
        fun ⟨empty, same⟩ => ⟨same.symm, empty.symm⟩⟩
  | cons input rest =>
      simp only [requestsOn, encryptAll, encryptRequest_closed,
        Option.bind_eq_bind, Option.bind_none, reduceCtorEq, false_and]

/-- A run of provided calls on a tape returns a segment for each of its calls
exactly when the specification encrypts their plaintexts under the nonces of
the tape.  Then it returns the same segments and ends at the same counter. -/
theorem runCalls_iff_encryptAll
    {encryptor : Encryptor}
    {inputs : List (ProvidedCall context.parameters)}
    {segments : List Bytes}
    {online : OnlineState}
    (implements : platform.Implements context.provider externals)
    (agree : platform.SealsAgree)
    (here : encryptor.At platform context position)
    (draws : encryptor.state.Draws platform context tape count) :
    encryptAll externals context.parameters.ciphertextSegmentLength
        (context.onlineAt position) (requestsOn tape count inputs) =
          some (online, segments) ↔
      segments.length = inputs.length ∧
        runCalls platform encryptor
            (inputs.map (ProvidedCall.call platform)) =
          (segments.zip (inputs.map ProvidedCall.plaintext),
            online.closed) ∧
        online.state = context.specified ∧
        online.counter =
          (encryptorAfter platform encryptor
            (inputs.map (ProvidedCall.call platform))).counter.next := by
  obtain ⟨onlineState, counter, closed⟩ := online
  induction inputs generalizing encryptor position count segments with
  | nil =>
      have start := here.counter
      simp only [List.map_nil, List.length_nil, List.length_eq_zero_iff,
        runCalls, encryptorAfter, requestsOn, encryptAll, start,
        MessageContext.onlineAt, Option.some.injEq, Prod.mk.injEq,
        OnlineState.mk.injEq]
      constructor
      · rintro ⟨⟨rfl, rfl, rfl⟩, rfl⟩
        exact ⟨rfl, ⟨rfl, rfl⟩, rfl, rfl⟩
      · rintro ⟨rfl, ⟨_, rfl⟩, rfl, rfl⟩
        exact ⟨⟨rfl, rfl, rfl⟩, rfl⟩
  | cons input rest inductionHypothesis =>
      have bound (next : Encryptor) := length_runCalls platform next
        (rest.map (ProvidedCall.call platform))
      simp only [List.map_cons, List.length_cons, runCalls, encryptorAfter,
        requestsOn, encryptAll, Option.bind_eq_bind]
      rcases input.perform_spec implements agree here draws with
        ⟨segment, left, answered, performed, after⟩ |
          ⟨thrown, next, performed⟩
      · simp only [answered, performed, Option.bind_some,
          Option.bind_eq_some_iff, Option.some.injEq, Prod.mk.injEq,
          Prod.exists]
        cases kind : input.kind with
        | nonFinal =>
            rw [kind] at after
            obtain ⟨next, rfl, there, moved⟩ := after
            have later (others : List Bytes) :=
              @inductionHypothesis (position + 1) (count + 1) next others
                there moved
            simp only [MessageContext.onlineAfter, Prod.mk.injEq]
            constructor
            · rintro ⟨_, others, encrypted, rfl, rfl⟩
              obtain ⟨length, returned, state, counter⟩ :=
                (later others).mp encrypted
              rw [returned]
              exact ⟨congrArg Nat.succ length, ⟨rfl, rfl⟩, state, counter⟩
            · rintro ⟨length, ⟨returned, closes⟩, state, counter⟩
              cases segments with
              | nil => cases length
              | cons first others =>
                  rw [List.zip_cons_cons, List.cons.injEq,
                    Prod.mk.injEq] at returned
                  obtain ⟨⟨rfl, _⟩, returned⟩ := returned
                  exact ⟨_, others, (later others).mpr
                    ⟨Nat.succ.inj length, Prod.ext returned closes, state,
                      counter⟩, rfl, rfl⟩
        | final =>
            rw [kind] at after
            subst after
            have start := here.counter
            simp only [MessageContext.onlineAfter, start, Prod.mk.injEq]
            simp only [encryptAll_closed]
            constructor
            · rintro ⟨_, _, ⟨rfl, rfl, shape⟩, rfl, rfl⟩
              cases shape
              exact ⟨rfl, ⟨rfl, rfl⟩, rfl, rfl⟩
            · rintro ⟨length, ⟨returned, rfl⟩, rfl, rfl⟩
              have single := congrArg List.length returned
              simp only [List.length_zip, List.length_cons, List.length_nil,
                List.length_map] at single
              obtain ⟨first, rfl⟩ :=
                List.length_eq_one_iff.mp (show segments.length = 1 by omega)
              obtain rfl := List.length_eq_zero_iff.mp
                (show rest.length = 0 by omega)
              cases returned
              exact ⟨_, _, ⟨rfl, rfl, rfl⟩, rfl, rfl⟩
      · simp only [thrown, performed, Option.bind_none]
        constructor
        · intro impossible
          cases impossible
        · rintro ⟨length, returned, _⟩
          have short := bound next
          rw [returned] at short
          simp only [List.length_zip, List.length_cons, List.length_map,
            length, Nat.min_self] at short
          omega

end Healthy

/-! ## New encryptors -/

/-- A started message takes its FLOE IV from the generator, and its nonces from
what the generator returns next. -/
theorem startEncryption_drawn
    {platform : Platform}
    {key : Key}
    {aad : Bytes}
    {parameters : Parameters}
    {rng : ProviderRng}
    {state : EncryptionState}
    {header : Header}
    (started :
      startEncryption platform key aad parameters rng =
        .ok (state, header)) :
    state.context.floeIv.val = (rng.fill floeIvLength).2.1 ∧
      state.nonces = NonceGenerator.new (rng.fill floeIvLength).2.2 := by
  unfold startEncryption at started
  simp only [Outcome.bind_eq_ok] at started
  obtain ⟨provider, _, _, _, floeIv, exact, tag, _, messageKey, _, keys, _,
    shape⟩ := started
  simp only [Except.ok.injEq, Prod.mk.injEq] at shape
  obtain ⟨rfl, _⟩ := shape
  refine ⟨?_, rfl⟩
  cases cut : Octets.ofSlice? floeIvLength (rng.fill floeIvLength).2.1 with
  | none =>
      rw [cut] at exact
      cases exact
  | some octets =>
      rw [cut] at exact
      cases exact
      exact (Octets.ofSlice?_eq_some.mp cut).symm

section New

open Specification

variable {platform : Platform} {externals : Externals} {key : Key}
  {provider : Provider} {aad : Bytes} {parameters : Parameters}
  {rng : ProviderRng} {encryptor : Encryptor}

/-- A new encryptor stands where the specification's online encryption starts,
under the IV that the generator returned. -/
theorem Platform.Implements.startOnlineEncryption_eq
    {kdf : Kdf}
    (implements : platform.Implements provider externals)
    (resolved : key.resolveProvider platform = .ok provider)
    (startSound : kdf.FaultOf platform.kdfExpand)
    (created :
      Encryptor.new (platform.withKdf kdf) key aad parameters rng =
        .ok encryptor) :
    encryptor.state.context.provider = provider ∧
      startOnlineEncryption externals parameters.ciphertextSegmentLength
          key.bytes.val aad (rng.fill floeIvLength).2.1 =
        (encryptor.state.context.onlineAt 0, encryptor.header.val) := by
  obtain ⟨authentic, rfl, _⟩ := Encryptor.new_eq_ok startSound created
  have provider_eq : encryptor.state.context.provider = provider := by
    have other := authentic.provider
    rw [resolved] at other
    exact (Except.ok.inj other).symm
  obtain ⟨⟨state, header⟩, started, shape⟩ := Outcome.bind_eq_ok.mp created
  cases shape
  subst provider_eq
  refine ⟨rfl, ?_⟩
  rw [startOnlineEncryption, ← (startEncryption_drawn started).1,
    implements.startEncryption_eq authentic]
  rfl

/-- Every run of an encryptor is a run of the specification.  Whatever calls
are made in whatever form, and whichever of them fail, the header is the one
that the specification's online encryption starts with under the drawn IV, and
the segments of the successful calls are what it returns for their plaintexts
under twelve-byte IVs.  It ends closed exactly if a final call succeeded, at the
counter of the encryptor that is left or that this call was made on. -/
theorem encryptorRun_isSpecified
    {kdf : Kdf}
    {calls : List EncryptorCall}
    (implements : platform.Implements provider externals)
    (resolved : key.resolveProvider platform = .ok provider)
    (agree : platform.SealsAgree)
    (startSound : kdf.FaultOf platform.kdfExpand)
    (created :
      Encryptor.new (platform.withKdf kdf) key aad parameters rng =
        .ok encryptor)
    (sound : ∀ call ∈ calls, call.kdf.FaultOf platform.kdfExpand) :
    ∃ start requests online,
      startOnlineEncryption externals parameters.ciphertextSegmentLength
          key.bytes.val aad (rng.fill floeIvLength).2.1 =
        (start, encryptor.header.val) ∧
      requests.map Request.plaintext =
          (runCalls platform encryptor calls).1.map Prod.snd ∧
      (∀ request ∈ requests, request.aeadIv.length = aeadIvLen) ∧
      encryptAll externals parameters.ciphertextSegmentLength start
          requests =
        some (online, (runCalls platform encryptor calls).1.map Prod.fst) ∧
      online.closed = (runCalls platform encryptor calls).2 ∧
      online.counter =
        (encryptorAfter platform encryptor calls).counter.next := by
  obtain ⟨_, sameParameters, here⟩ := Encryptor.new_eq_ok startSound created
  obtain ⟨rfl, started⟩ :=
    implements.startOnlineEncryption_eq resolved startSound created
  obtain ⟨requests, online, plaintexts, ivs, all, ends⟩ :=
    runCalls_encryptAll implements agree here sound
  rw [sameParameters] at all
  exact ⟨_, requests, online, started, plaintexts, ivs, all, ends⟩

set_option maxRecDepth 100000 in
/-- A run in which a call of a wrong length and a final call without room for
its segment fail. -/
theorem encryptorRun_isSpecified_example :
    ∃ encryptor start requests online,
      Encryptor.new openPlatform zeroKey [] shortestSegments zeroRng =
          .ok encryptor ∧
        requests.map Request.plaintext = [zeros 32, []] ∧
        encryptAll transparentExternals 64 start requests =
          some (online,
            (runCalls openPlatform encryptor recoveringCalls).1.map
              Prod.fst) ∧
        online.closed = true ∧ online.counter = 1 := by
  obtain ⟨encryptor, created, closes, plaintexts, reaches⟩ :
      ∃ encryptor,
        Encryptor.new openPlatform zeroKey [] shortestSegments zeroRng =
            .ok encryptor ∧
          (runCalls openPlatform encryptor recoveringCalls).2 = true ∧
          (runCalls openPlatform encryptor recoveringCalls).1.map
            Prod.snd = [zeros 32, []] ∧
          (encryptorAfter openPlatform encryptor
            recoveringCalls).counter.next = 1 :=
    ⟨_, rfl, rfl, rfl, rfl⟩
  obtain ⟨start, requests, online, _, same, _, all, closed, counter⟩ :=
    @encryptorRun_isSpecified openPlatform transparentExternals zeroKey
      .rustCrypto [] shortestSegments zeroRng encryptor
      openPlatform.kdfExpand recoveringCalls (openPlatform_implements _) rfl
      transparent_sealsAgree (Kdf.FaultOf.refl _) created
      (by simp [recoveringCalls, Kdf.FaultOf.refl])
  exact ⟨encryptor, start, requests, online, created, same.trans plaintexts,
    all, closed.trans closes, counter.trans reaches⟩

/-- With nothing failing, an encryptor answers a sequence of plaintexts as the
specification does, in whatever forms the calls are made with memory that
suffices.  It returns a segment for each of them exactly when the specification
encrypts them under the nonces that the generator returns, and then the
segments, the counter and the closed flag are the same. -/
theorem encryptorRun_iff_specified
    (implements : platform.Implements provider externals)
    (resolved : key.resolveProvider platform = .ok provider)
    (agree : platform.SealsAgree)
    (random : rng.NeverFails)
    (created :
      Encryptor.new platform key aad parameters rng = .ok encryptor)
    (inputs : List (ProvidedCall parameters))
    (segments : List Bytes)
    (online : OnlineState) :
    encryptAll externals parameters.ciphertextSegmentLength
        (startOnlineEncryption externals parameters.ciphertextSegmentLength
          key.bytes.val aad (rng.fill floeIvLength).2.1).1
        (requestsOn (NonceGenerator.new (rng.fill floeIvLength).2.2).tape 0
          inputs) = some (online, segments) ↔
      segments.length = inputs.length ∧
        runCalls platform encryptor
            (inputs.map (ProvidedCall.call platform)) =
          (segments.zip (inputs.map ProvidedCall.plaintext),
            online.closed) ∧
        online.state = encryptor.state.context.specified ∧
        online.counter =
          (encryptorAfter platform encryptor
            (inputs.map (ProvidedCall.call platform))).counter.next := by
  have refl := Kdf.FaultOf.refl platform.kdfExpand
  obtain ⟨_, rfl, here⟩ := Encryptor.new_eq_ok refl created
  obtain ⟨rfl, started⟩ :=
    implements.startOnlineEncryption_eq resolved refl created
  obtain ⟨⟨state, header⟩, begun, shape⟩ := Outcome.bind_eq_ok.mp created
  have nonces : encryptor.state.nonces =
      NonceGenerator.new (rng.fill floeIvLength).2.2 := by
    cases shape
    exact (startEncryption_drawn begun).2
  have steady : encryptor.state.nonces.rng.NeverFails := by
    intro index
    rw [nonces]
    simp only [NonceGenerator.new, ProviderRng.fill]
    split <;> exact random (index + 1)
  have draws := EncryptionState.draws_self here.ready steady
  rw [started, ← nonces]
  exact runCalls_iff_encryptAll implements agree here draws

/-- A full segment written into an output, another one sealed in place, and an
empty final one. -/
def providedCalls : List (ProvidedCall shortestSegments) :=
  [⟨.nonFinal, zeros 32, .into (zeros 32) (zeros 70), rfl, by decide⟩,
    ⟨.nonFinal, zeros 32,
      .inPlace ⟨shortestSegments, zeros 64, .plaintext 32⟩,
      ⟨rfl, rfl, rfl, by decide⟩, rfl⟩,
    ⟨.final, [], .vec [], rfl⟩]

set_option maxRecDepth 100000 in
theorem encryptorRun_iff_specified_example :
    ∃ encryptor, ∃ segments : List Bytes,
      Encryptor.new openPlatform zeroKey [] shortestSegments zeroRng =
          .ok encryptor ∧
        runCalls openPlatform encryptor
            (providedCalls.map (ProvidedCall.call openPlatform)) =
          (segments.zip [zeros 32, zeros 32, []], true) ∧
        (encryptorAfter openPlatform encryptor
            (providedCalls.map
              (ProvidedCall.call openPlatform))).counter.next = 2 := by
  obtain ⟨encryptor, created⟩ :
      ∃ encryptor,
        Encryptor.new openPlatform zeroKey [] shortestSegments zeroRng =
          .ok encryptor :=
    ⟨_, rfl⟩
  obtain ⟨online, segments, encrypted, closed, counter⟩ :
      ∃ online segments,
        encryptAll transparentExternals 64
            (startOnlineEncryption transparentExternals 64
              zeroKey.bytes.val [] (zeroRng.fill floeIvLength).2.1).1
            (requestsOn
              (NonceGenerator.new (zeroRng.fill floeIvLength).2.2).tape 0
              providedCalls) =
          some (online, segments) ∧
        online.closed = true ∧ online.counter = 2 :=
    ⟨_, _, rfl, rfl, rfl⟩
  obtain ⟨_, returned, _, reached⟩ :=
    (encryptorRun_iff_specified (openPlatform_implements .rustCrypto) rfl
      transparent_sealsAgree (fun _ => rfl) created providedCalls segments
      online).mp encrypted
  rw [closed] at returned
  exact ⟨encryptor, segments, created, returned, reached.symm.trans counter⟩

end New

end FastFloe
