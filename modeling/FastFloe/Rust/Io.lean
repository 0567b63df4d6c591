import FastFloe.Rust.Bytes

namespace Rust

/-!
# Scripted byte sources and sinks

The wrapped reader or writer of an adapter is code the caller supplies.  A
source holds immutable bytes, a cursor and a script that answers its next
calls: short reads, interruptions, an early end of stream, failures.  Once the
script is used up the source answers every call in full.  A sink likewise
accepts bytes under a script.  Quantifying over the script quantifies over
every finite behaviour that respects the `Read`, `Seek` and `Write` contracts.
-/

/-- `io::ErrorKind`, as far as this development tells its values apart. -/
inductive ErrorKind where
  | interrupted
  | invalidData
  | invalidInput
  | brokenPipe
  | writeZero
  | other
  deriving Repr, DecidableEq

/-- `io::Error`: a kind and, for custom errors, the error it carries. -/
structure IoError (π : Type) where
  kind : ErrorKind
  source : Option π
  deriving Repr, DecidableEq

/-- The result of an I/O call. -/
abbrev IoOutcome (π α : Type) := Outcome (IoError π) α

/-! ## Sources -/

/-- One scripted answer of a source. -/
inductive SourceEvent (π : Type) where
  /-- A read delivers at most `limit + 1` bytes. -/
  | short (limit : Nat)
  /-- A read returns `Interrupted` and delivers nothing. -/
  | interrupted
  /-- A read reports the end of the stream and leaves the cursor anywhere. -/
  | early (cursor : Nat)
  /-- A read or a seek fails and leaves the cursor anywhere. -/
  | fail (error : IoError π) (cursor : Nat)
  deriving Repr, DecidableEq

namespace SourceEvent

/-- The answer only fragments the stream. -/
def Fragments {π : Type} : SourceEvent π → Prop
  | .short _ => True
  | .interrupted => True
  | .early _ => False
  | .fail _ _ => False

end SourceEvent

/-- An immutable byte source whose positions are `u64` offsets. -/
structure Source (π : Type) where
  data : Bytes
  addressable : data.length ≤ u64Max
  cursor : Nat
  script : List (SourceEvent π)

namespace Source

variable {π : Type}

/-- The bytes from the cursor to the end of the source. -/
def remaining (source : Source π) : Bytes :=
  source.data.drop source.cursor

/-- Hand out the next `count` bytes, fewer at the end of the source. -/
def deliver (source : Source π) (count : Nat) :
    IoOutcome π Bytes × Source π :=
  (.ok (source.remaining.take count),
    { source with
      cursor := source.cursor + (source.remaining.take count).length })

/-- `Read::read` into a buffer of `capacity` bytes; returns the bytes read. -/
def read (source : Source π) (capacity : Nat) :
    IoOutcome π Bytes × Source π :=
  match source.script with
  | [] =>
      source.deliver capacity
  | .short limit :: rest =>
      { source with script := rest }.deliver (min capacity (limit + 1))
  | .interrupted :: rest =>
      (.error (.err ⟨.interrupted, none⟩), { source with script := rest })
  | .early cursor :: rest =>
      (.ok [], { source with cursor, script := rest })
  | .fail error cursor :: rest =>
      -- An interrupted read is retried, so it must not have moved.
      if error.kind = .interrupted then
        (.error (.err error), { source with script := rest })
      else
        (.error (.err error), { source with cursor, script := rest })

/-- `Seek::seek` to the absolute position `target`. -/
def seekTo (source : Source π) (target : Nat) :
    IoOutcome π Nat × Source π :=
  match source.script with
  | [] =>
      (.ok target, { source with cursor := target })
  | .fail error cursor :: rest =>
      (.error (.err error), { source with cursor, script := rest })
  | _ :: rest =>
      (.ok target, { source with cursor := target, script := rest })

/-- `seek(SeekFrom::Start(offset))`. -/
def seekStart (source : Source π) (offset : Nat) :
    IoOutcome π Nat × Source π :=
  source.seekTo offset

/-- `seek(SeekFrom::End(0))`. -/
def seekEnd (source : Source π) : IoOutcome π Nat × Source π :=
  source.seekTo source.data.length

/-- `stream_position()`, a seek by zero from the current position. -/
def streamPosition (source : Source π) : IoOutcome π Nat × Source π :=
  source.seekTo source.cursor

/-- The source fragments its bytes but reports no other fault. -/
def Honest (source : Source π) : Prop :=
  ∀ event ∈ source.script, event.Fragments

@[simp] theorem deliver_script (source : Source π) (count : Nat) :
    (source.deliver count).2.script = source.script :=
  rfl

/-- Delivering consumes exactly the delivered bytes. -/
theorem deliver_remaining (source : Source π) (count : Nat) :
    (source.deliver count).2.remaining = source.remaining.drop count := by
  simp only [deliver, remaining, List.drop_drop, List.length_take,
    List.length_drop]
  by_cases short : count ≤ source.data.length - source.cursor
  · rw [Nat.min_eq_left short]
  · rw [List.drop_eq_nil_of_le (by omega), List.drop_eq_nil_of_le (by omega)]

@[simp] theorem seekTo_data (source : Source π) (target : Nat) :
    (source.seekTo target).2.data = source.data := by
  unfold seekTo
  split <;> rfl

/-- A seek that succeeds lands on its target. -/
theorem seekTo_ok
    {source moved : Source π}
    {target position : Nat}
    (sought : source.seekTo target = (.ok position, moved)) :
    position = target ∧ moved.cursor = target := by
  unfold seekTo at sought
  split at sought
  · simp only [Prod.mk.injEq, Except.ok.injEq] at sought
    obtain ⟨rfl, rfl⟩ := sought
    exact ⟨rfl, rfl⟩
  · simp at sought
  · simp only [Prod.mk.injEq, Except.ok.injEq] at sought
    obtain ⟨rfl, rfl⟩ := sought
    exact ⟨rfl, rfl⟩

/-- A seek comes back. -/
theorem seekTo_returns (source : Source π) (target : Nat) :
    (source.seekTo target).1.Returns := by
  unfold seekTo
  split
  · exact Outcome.returns_ok _
  · exact Outcome.returns_err _
  · exact Outcome.returns_ok _

/-- An honest source never refuses a seek. -/
theorem Honest.seekTo
    {source : Source π}
    (honest : source.Honest)
    (target : Nat) :
    ∃ moved,
      source.seekTo target = (.ok target, moved) ∧
        moved.Honest ∧ moved.cursor = target ∧
          moved.data = source.data := by
  unfold Source.seekTo
  split
  · exact ⟨_, rfl, honest, rfl, rfl⟩
  next error cursor rest scriptShape =>
    have faulty := honest (.fail error cursor) (by simp [scriptShape])
    exact faulty.elim
  next event rest notFail scriptShape =>
    refine ⟨_, rfl, ?_, rfl, rfl⟩
    intro later member
    exact honest later (by simp [scriptShape, member])

/-- An honest source that has handed out the next `count` bytes. -/
structure Advanced (before after : Source π) (count : Nat) : Prop where
  data : after.data = before.data
  cursor : after.cursor = before.cursor + count
  honest : after.Honest

theorem Advanced.remaining_eq
    {before after : Source π}
    {count : Nat}
    (advanced : before.Advanced after count) :
    after.remaining = before.remaining.drop count := by
  rw [remaining, remaining, advanced.data, advanced.cursor, List.drop_drop]

end Source

/-! ## Sinks -/

/-- One scripted answer of a sink. -/
inductive SinkEvent (π : Type) where
  /-- A write accepts at most `limit` bytes. -/
  | accept (limit : Nat)
  /-- A write or a flush fails; a failed write has accepted nothing. -/
  | fail (error : IoError π)
  deriving Repr, DecidableEq

/-- A byte sink: what it has accepted and how it answers its next calls. -/
structure Sink (π : Type) where
  accepted : Bytes
  script : List (SinkEvent π)
  deriving Repr, DecidableEq

namespace Sink

variable {π : Type}

/-- `Write::write`. -/
def write (sink : Sink π) (bytes : Bytes) : IoOutcome π Nat × Sink π :=
  match sink.script with
  | [] =>
      (.ok bytes.length, { sink with accepted := sink.accepted ++ bytes })
  | .accept limit :: rest =>
      (.ok (min bytes.length limit),
        { accepted := sink.accepted ++ bytes.take limit, script := rest })
  | .fail error :: rest =>
      (.error (.err error), { sink with script := rest })

/-- `Write::flush`. -/
def flush (sink : Sink π) : IoOutcome π Unit × Sink π :=
  match sink.script with
  | [] =>
      (.ok (), sink)
  | .accept _ :: rest =>
      (.ok (), { sink with script := rest })
  | .fail error :: rest =>
      (.error (.err error), { sink with script := rest })

/-- The loop of `Write::write_all`, which retries interrupted writes. -/
def writeAllLoop :
    Nat → Sink π → Bytes → IoOutcome π Unit × Sink π
  | 0, sink, _ =>
      (.error .diverge, sink)
  | fuel + 1, sink, bytes =>
      if bytes = [] then
        (.ok (), sink)
      else
        match sink.write bytes with
        | (.ok 0, sink) =>
            (.error (.err ⟨.writeZero, none⟩), sink)
        | (.ok (count + 1), sink) =>
            writeAllLoop fuel sink (bytes.drop (count + 1))
        | (.error (.err error), sink) =>
            if error.kind = .interrupted then
              writeAllLoop fuel sink bytes
            else
              (.error (.err error), sink)
        | (.error .panic, sink) =>
            (.error .panic, sink)
        | (.error .diverge, sink) =>
            (.error .diverge, sink)

/-- `Write::write_all`.  Every turn of the loop uses up one scripted answer or
writes everything that is left, which bounds the number of turns. -/
def writeAll (sink : Sink π) (bytes : Bytes) : IoOutcome π Unit × Sink π :=
  writeAllLoop (sink.script.length + 2) sink bytes

/-- No scripted answer refuses bytes for good. -/
def Reliable (sink : Sink π) : Prop :=
  ∀ event ∈ sink.script, ∃ limit, event = .accept (limit + 1)

/-- One write hands over a prefix of its bytes, or fails and takes none. -/
theorem write_cases (sink : Sink π) (bytes : Bytes) :
    ∃ next,
      next.script = sink.script.tail ∧
        ((∃ count,
            sink.write bytes = (.ok count, next) ∧
              next.accepted = sink.accepted ++ bytes.take count ∧
              (sink.script = [] → count = bytes.length)) ∨
          ∃ error,
            sink.write bytes = (.error (.err error), next) ∧
              next.accepted = sink.accepted ∧ sink.script ≠ []) := by
  unfold write
  split
  next scriptShape =>
    exact ⟨_, by simp [scriptShape],
      .inl ⟨bytes.length, rfl, by simp, fun _ => rfl⟩⟩
  next limit rest scriptShape =>
    refine ⟨_, by simp [scriptShape],
      .inl ⟨min bytes.length limit, rfl, ?_, by simp [scriptShape]⟩⟩
    simp only [List.append_cancel_left_eq]
    rw [Nat.min_comm, ← List.take_take, List.take_length]
  next error rest scriptShape =>
    exact ⟨_, by simp [scriptShape],
      .inr ⟨error, rfl, rfl, by simp [scriptShape]⟩⟩

/-- With enough turns, `write_all` comes back having handed over a prefix of
its bytes, and all of them when it reports success. -/
theorem writeAllLoop_spec
    {fuel : Nat}
    {sink : Sink π}
    {bytes : Bytes}
    (enough : sink.script.length + 2 ≤ fuel) :
    ∃ taken,
      (writeAllLoop fuel sink bytes).2.accepted = sink.accepted ++ taken ∧
        taken <+: bytes ∧
        (writeAllLoop fuel sink bytes).1.Returns ∧
        ((writeAllLoop fuel sink bytes).1 = .ok () → taken = bytes) := by
  induction fuel generalizing sink bytes with
  | zero =>
      omega
  | succ fuel inductionHypothesis =>
      by_cases empty : bytes = []
      · subst empty
        exact ⟨[], by simp [writeAllLoop]⟩
      obtain ⟨next, script, outcome⟩ := sink.write_cases bytes
      have shorter (busy : sink.script ≠ []) :
          next.script.length + 2 ≤ fuel := by
        rw [script, List.length_tail]
        have := List.length_pos_iff.mpr busy
        omega
      rcases outcome with
        ⟨count, written, accepted, full⟩ | ⟨error, written, accepted, busy⟩
      · cases count with
        | zero =>
            refine ⟨[], ?_⟩
            simp [writeAllLoop, empty, written, accepted]
        | succ count =>
            simp only [writeAllLoop, empty, ↓reduceIte, written]
            by_cases idle : sink.script = []
            · -- The last write took everything; one empty turn remains.
              have complete : count + 1 = bytes.length := full idle
              obtain ⟨fuel, rfl⟩ : ∃ more, fuel = more + 1 :=
                ⟨fuel - 1, by omega⟩
              exact ⟨bytes, by simp [writeAllLoop, accepted, complete]⟩
            · obtain ⟨taken, later, ⟨untaken, shape⟩, returns, all⟩ :=
                @inductionHypothesis next (bytes.drop (count + 1))
                  (shorter idle)
              refine ⟨bytes.take (count + 1) ++ taken, ?_, ⟨untaken, ?_⟩,
                returns, ?_⟩
              · rw [later, accepted, List.append_assoc]
              · rw [List.append_assoc, shape, List.take_append_drop]
              · intro ok
                rw [all ok, List.take_append_drop]
      · simp only [writeAllLoop, empty, ↓reduceIte, written]
        by_cases retry : error.kind = .interrupted
        · simp only [retry, ↓reduceIte]
          rw [← accepted]
          exact inductionHypothesis (shorter busy)
        · exact ⟨[], by simp [retry, accepted]⟩

/-- `write_all` always comes back, having handed over a prefix of its bytes,
and all of them when it reports success. -/
theorem writeAll_spec (sink : Sink π) (bytes : Bytes) :
    ∃ taken,
      (sink.writeAll bytes).2.accepted = sink.accepted ++ taken ∧
        taken <+: bytes ∧
        (sink.writeAll bytes).1.Returns ∧
        ((sink.writeAll bytes).1 = .ok () → taken = bytes) :=
  writeAllLoop_spec (Nat.le_refl _)

/-- With enough turns, a reliable sink takes everything and stays reliable. -/
theorem Reliable.writeAllLoop
    {fuel : Nat}
    {sink : Sink π}
    {bytes : Bytes}
    (reliable : sink.Reliable)
    (enough : sink.script.length + 2 ≤ fuel) :
    (Sink.writeAllLoop fuel sink bytes).1 = .ok () ∧
      (Sink.writeAllLoop fuel sink bytes).2.Reliable := by
  induction fuel generalizing sink bytes with
  | zero =>
      omega
  | succ fuel inductionHypothesis =>
      by_cases empty : bytes = []
      · simp only [Sink.writeAllLoop, empty, ↓reduceIte, true_and]
        exact reliable
      have nonempty := List.length_pos_iff.mpr empty
      cases shape : sink.script with
      | nil =>
          -- One write takes everything; one empty turn remains.
          obtain ⟨count, counted⟩ : ∃ count, bytes.length = count + 1 :=
            ⟨bytes.length - 1, by omega⟩
          obtain ⟨fuel, rfl⟩ : ∃ more, fuel = more + 1 :=
            ⟨fuel - 1, by omega⟩
          have spent : bytes.drop (count + 1) = [] :=
            List.drop_eq_nil_of_le (by omega)
          simp only [Sink.writeAllLoop, empty, Sink.write, shape, counted,
            spent, ↓reduceIte, true_and]
          intro event member
          exact reliable event (shape ▸ member)
      | cons event rest =>
          obtain ⟨limit, rfl⟩ := reliable event (by
            rw [shape]
            exact List.mem_cons_self)
          obtain ⟨count, counted⟩ :
              ∃ count, min bytes.length (limit + 1) = count + 1 :=
            ⟨min bytes.length (limit + 1) - 1, by omega⟩
          simp only [Sink.writeAllLoop, empty, Sink.write, shape, counted,
            ↓reduceIte]
          refine inductionHypothesis ?_ ?_
          · intro later member
            refine reliable later ?_
            rw [shape]
            exact List.mem_cons_of_mem _ member
          · rw [shape, List.length_cons] at enough
            simp only
            omega

/-- A reliable sink takes everything. -/
theorem Reliable.writeAll
    {sink : Sink π}
    (reliable : sink.Reliable)
    (bytes : Bytes) :
    ∃ next,
      sink.writeAll bytes = (.ok (), next) ∧ next.Reliable ∧
        next.accepted = sink.accepted ++ bytes := by
  obtain ⟨ok, steady⟩ :=
    @Reliable.writeAllLoop π _ sink bytes reliable (Nat.le_refl _)
  obtain ⟨taken, accepted, _, _, all⟩ := sink.writeAll_spec bytes
  rw [all ok] at accepted
  exact ⟨_, Prod.ext ok rfl, steady, accepted⟩

/-- A sink takes all that is written to it, or fails with a beginning of it
taken; a reliable one does not fail. -/
theorem writeAll_cases (sink : Sink π) (bytes : Bytes) :
    (∃ after,
        sink.writeAll bytes = (.ok (), after) ∧
          after.accepted = sink.accepted ++ bytes ∧
          (sink.Reliable → after.Reliable)) ∨
      ∃ error after part,
        sink.writeAll bytes = (.error (.err error), after) ∧
          part <+: bytes ∧ after.accepted = sink.accepted ++ part ∧
          ¬ sink.Reliable := by
  obtain ⟨part, accepted, lead, returns, all⟩ := sink.writeAll_spec bytes
  rcases wrote : sink.writeAll bytes with ⟨stop | _, after⟩
  · rw [wrote] at accepted returns
    obtain ⟨error, rfl⟩ := returns.stop_eq_err
    refine .inr ⟨error, after, part, rfl, lead, accepted, fun reliable => ?_⟩
    obtain ⟨_, steady, _⟩ := reliable.writeAll bytes
    rw [wrote] at steady
    cases steady
  · rw [wrote] at accepted all
    rw [all rfl] at accepted
    refine .inl ⟨after, rfl, accepted, fun reliable => ?_⟩
    obtain ⟨_, steady, still, _⟩ := reliable.writeAll bytes
    rw [wrote] at steady
    cases steady
    exact still

/-- A reliable sink flushes. -/
theorem Reliable.flush
    {sink : Sink π}
    (reliable : sink.Reliable) :
    sink.flush.1 = .ok () := by
  cases shape : sink.script with
  | nil =>
      simp only [Sink.flush, shape]
  | cons event rest =>
      obtain ⟨limit, rfl⟩ := reliable event (by
        rw [shape]
        exact List.mem_cons_self)
      simp only [Sink.flush, shape]

/-- A flush hands nothing over, and comes back. -/
theorem flush_spec (sink : Sink π) :
    ∃ next,
      next.accepted = sink.accepted ∧
        (sink.flush = (.ok (), next) ∨
          ∃ error, sink.flush = (.error (.err error), next)) := by
  unfold flush
  split
  · exact ⟨sink, rfl, .inl rfl⟩
  next limit rest _ =>
    exact ⟨{ sink with script := rest }, rfl, .inl rfl⟩
  next error rest _ =>
    exact ⟨{ sink with script := rest }, rfl, .inr ⟨error, rfl⟩⟩

end Sink

end Rust
