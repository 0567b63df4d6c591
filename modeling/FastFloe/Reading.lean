import FastFloe.Wire

namespace FastFloe

open Rust

/-!
# Reading through a source's faults

`read_fully` takes a prefix of what a source has left, however the source cuts
it up.  When it has taken all that was asked for, the source stands right behind
it; when the source only fragments, it takes as much as there is.
-/

/-- What reading up to `needed` bytes from a source may do. -/
structure Reads (reader : Source IoPayload) (needed : Nat)
    (result : IoResult Unit) (taken : Bytes) (after : Source IoPayload) :
    Prop where
  data : after.data = reader.data
  lead : taken <+: reader.remaining
  bounded : taken.length ≤ needed
  returns : result.Returns
  cursor : taken.length = needed → result = .ok () →
    after.cursor = reader.cursor + needed
  consumed : reader.Honest → after.cursor = reader.cursor + taken.length
  honest : reader.Honest →
    result = .ok () ∧ taken = reader.remaining.take needed ∧
      after.Honest ∧ after.remaining = reader.remaining.drop needed

section Loop

variable {reader : Source IoPayload} {needed : Nat}

/-- Nothing is read when nothing is needed or nothing is left. -/
theorem reads_nothing
    (exhausted : needed = 0 ∨ reader.remaining = []) :
    Reads reader needed (.ok ()) [] reader where
  data := rfl
  lead := List.nil_prefix
  bounded := Nat.zero_le _
  returns := Outcome.returns_ok _
  cursor := by
    intro zero _
    rw [← zero]
    rfl
  consumed := fun _ => rfl
  honest := by
    intro honest
    rcases exhausted with rfl | nothing
    · exact ⟨rfl, rfl, honest, rfl⟩
    · exact ⟨rfl, by simp [nothing], honest, by simp [nothing]⟩

/-- A read that stops short, for a reason an honest source never has. -/
theorem reads_stopped
    {result : IoResult Unit}
    {after : Source IoPayload}
    (data : after.data = reader.data)
    (wanted : needed ≠ 0)
    (returns : result.Returns)
    (dishonest : ¬ reader.Honest) :
    Reads reader needed result [] after where
  data := data
  lead := List.nil_prefix
  bounded := Nat.zero_le _
  returns := returns
  cursor := fun zero _ => (wanted zero.symm).elim
  consumed := fun honest => (dishonest honest).elim
  honest := fun honest => (dishonest honest).elim

/-- A read that was interrupted before it was done. -/
theorem Reads.interrupted
    {next after : Source IoPayload}
    {result : IoResult Unit}
    {taken : Bytes}
    (later : Reads next needed result taken after)
    (data : next.data = reader.data)
    (cursor : next.cursor = reader.cursor)
    (honest : reader.Honest → next.Honest) :
    Reads reader needed result taken after := by
  have remaining : next.remaining = reader.remaining := by
    rw [Source.remaining, Source.remaining, data, cursor]
  refine ⟨later.data.trans data, remaining ▸ later.lead, later.bounded,
    later.returns, ?_, ?_, ?_⟩
  · rw [← cursor]
    exact later.cursor
  · rw [← cursor]
    exact fun isHonest => later.consumed (honest isHonest)
  · rw [← remaining]
    exact fun isHonest => later.honest (honest isHonest)

/-- A read that starts with a delivery. -/
theorem Reads.delivered
    {count : Nat}
    {next after : Source IoPayload}
    {result : IoResult Unit}
    {taken : Bytes}
    (later :
      Reads next (needed - (reader.remaining.take count).length) result taken
        after)
    (within : count ≤ needed)
    (data : next.data = reader.data)
    (cursor :
      next.cursor = reader.cursor + (reader.remaining.take count).length)
    (honest : reader.Honest → next.Honest) :
    Reads reader needed result (reader.remaining.take count ++ taken)
      after := by
  have delivered : (reader.remaining.take count).length ≤ needed := by
    rw [List.length_take]
    omega
  have remaining :
      next.remaining =
        reader.remaining.drop (reader.remaining.take count).length := by
    change next.data.drop next.cursor =
      (reader.data.drop reader.cursor).drop _
    rw [data, cursor, List.drop_drop]
  have whole :
      reader.remaining.take count ++ next.remaining = reader.remaining := by
    rw [remaining, List.length_take]
    by_cases enough : count ≤ reader.remaining.length
    · rw [Nat.min_eq_left enough, List.take_append_drop]
    · rw [Nat.min_eq_right (by omega), List.drop_length, List.append_nil,
        List.take_of_length_le (by omega)]
  have bounded := later.bounded
  refine ⟨later.data.trans data, ?_, ?_, later.returns, ?_, ?_, ?_⟩
  · obtain ⟨rest, shape⟩ := later.lead
    exact ⟨rest, by rw [List.append_assoc, shape, whole]⟩
  · rw [List.length_append]
    omega
  · intro complete ok
    rw [List.length_append] at complete
    have stands := later.cursor (by omega) ok
    rw [stands, cursor]
    omega
  · intro isHonest
    rw [later.consumed (honest isHonest), cursor, List.length_append,
      Nat.add_assoc]
  · intro isHonest
    obtain ⟨ok, all, stillHonest, left⟩ := later.honest (honest isHonest)
    refine ⟨ok, ?_, stillHonest, ?_⟩
    · rw [all]
      conv_rhs => rw [← whole]
      rw [List.take_append, List.take_of_length_le delivered]
    · rw [left]
      conv_rhs => rw [← whole]
      rw [List.drop_append, List.drop_eq_nil_of_le delivered, List.nil_append]

/-- One turn that delivers, followed by turns that read. -/
theorem readFullyLoop_delivers
    {fuel count : Nat}
    {filled : Bytes}
    {source : Source IoPayload}
    (turn : reader.read needed = source.deliver count)
    (wanted : needed ≠ 0)
    (positive : 0 < count)
    (within : count ≤ needed)
    (data : source.data = reader.data)
    (cursor : source.cursor = reader.cursor)
    (honest : reader.Honest → source.Honest)
    (later : source.remaining.take count ≠ [] → ∀ filled,
      ∃ result taken after,
        readFullyLoop fuel (source.deliver count).2 filled
            (needed - (source.remaining.take count).length) =
          (result, filled ++ taken, after) ∧
        Reads (source.deliver count).2
          (needed - (source.remaining.take count).length) result taken
          after) :
    ∃ result taken after,
      readFullyLoop (fuel + 1) reader filled needed =
          (result, filled ++ taken, after) ∧
        Reads reader needed result taken after := by
  have remaining : source.remaining = reader.remaining := by
    rw [Source.remaining, Source.remaining, data, cursor]
  have moved :
      (source.deliver count).2.cursor =
        reader.cursor + (reader.remaining.take count).length := by
    rw [← remaining, ← cursor]
    rfl
  cases chunk : source.remaining.take count with
  | nil =>
      have nothing : (source.deliver count).2.remaining = [] := by
        rw [Source.deliver_remaining]
        have empty : source.remaining = [] := by
          rcases List.take_eq_nil_iff.mp chunk with zero | empty
          · omega
          · exact empty
        rw [empty, List.drop_nil]
      refine ⟨.ok (), [], (source.deliver count).2, ?_,
        (reads_nothing (.inr nothing)).interrupted data ?_ honest⟩
      · simp only [readFullyLoop, wanted, ↓reduceIte, turn, Source.deliver,
          chunk, List.append_nil]
      · rw [moved, ← remaining, chunk]
        rfl
  | cons byte rest =>
      obtain ⟨result, taken, after, computed, reads⟩ :=
        later (by simp [chunk]) (filled ++ byte :: rest)
      rw [remaining] at reads
      refine ⟨result, reader.remaining.take count ++ taken, after, ?_,
        reads.delivered within data moved honest⟩
      rw [← remaining, ← List.append_assoc, chunk, ← computed, chunk]
      simp only [readFullyLoop, wanted, ↓reduceIte, turn, Source.deliver,
        chunk]

/-- With enough turns, the loop of `read_fully` reads. -/
theorem readFullyLoop_spec
    {fuel : Nat}
    {filled : Bytes}
    (enough : reader.script.length + 2 ≤ fuel) :
    ∃ result taken after,
      readFullyLoop fuel reader filled needed =
          (result, filled ++ taken, after) ∧
        Reads reader needed result taken after := by
  induction fuel generalizing reader filled needed with
  | zero =>
      omega
  | succ fuel inductionHypothesis =>
      by_cases zero : needed = 0
      · exact ⟨.ok (), [], reader, by simp [readFullyLoop, zero],
          reads_nothing (.inl zero)⟩
      have wanted : 0 < needed := Nat.pos_of_ne_zero zero
      cases scripted : reader.script with
      | nil =>
          -- The source delivers all it can; the next turn is the last one.
          obtain ⟨fuel, rfl⟩ : ∃ more, fuel = more + 1 :=
            ⟨fuel - 1, by omega⟩
          have turn : reader.read needed = reader.deliver needed := by
            simp only [Source.read, scripted]
          refine readFullyLoop_delivers turn zero wanted (Nat.le_refl _) rfl
            rfl id fun _ filled => ?_
          by_cases done :
              needed - (reader.remaining.take needed).length = 0
          · refine ⟨.ok (), [], _, ?_, reads_nothing (.inl done)⟩
            simp only [readFullyLoop, done, ↓reduceIte, List.append_nil]
          · have nothing : (reader.deliver needed).2.remaining = [] := by
              rw [Source.deliver_remaining]
              refine List.drop_eq_nil_of_le ?_
              rw [List.length_take] at done
              omega
            have idle :
                (reader.deliver needed).2.read
                    (needed - (reader.remaining.take needed).length) =
                  (reader.deliver needed).2.deliver
                    (needed - (reader.remaining.take needed).length) := by
              simp only [Source.read, Source.deliver_script, scripted]
            refine readFullyLoop_delivers idle done (Nat.pos_of_ne_zero done)
              (Nat.le_refl _) rfl rfl id fun busy => ?_
            rw [nothing, List.take_nil] at busy
            exact (busy rfl).elim
      | cons event rest =>
          rw [scripted, List.length_cons] at enough
          have stillHonest (honest : reader.Honest) :
              { reader with script := rest }.Honest := by
            intro later member
            exact honest later (by simp [scripted, member])
          cases event with
          | short limit =>
              have turn :
                  reader.read needed =
                    { reader with script := rest }.deliver
                      (min needed (limit + 1)) := by
                simp only [Source.read, scripted]
              refine readFullyLoop_delivers turn zero (by omega)
                (Nat.min_le_left _ _) rfl rfl stillHonest fun _ filled => ?_
              refine inductionHypothesis ?_
              simp only [Source.deliver_script]
              omega
          | interrupted =>
              obtain ⟨result, taken, after, computed, reads⟩ :=
                @inductionHypothesis { reader with script := rest } needed
                  filled (by simp only; omega)
              refine ⟨result, taken, after, ?_,
                reads.interrupted rfl rfl stillHonest⟩
              simp only [readFullyLoop, zero, ↓reduceIte, Source.read,
                scripted, computed]
          | early cursor =>
              refine ⟨.ok (), [], { reader with cursor, script := rest }, ?_,
                reads_stopped rfl zero (Outcome.returns_ok _) ?_⟩
              · simp only [readFullyLoop, zero, ↓reduceIte, Source.read,
                  scripted, List.append_nil]
              · intro honest
                exact honest (.early cursor) (by simp [scripted])
          | fail error cursor =>
              have dishonest : ¬ reader.Honest := by
                intro honest
                exact honest (.fail error cursor) (by simp [scripted])
              by_cases retry : error.kind = .interrupted
              · obtain ⟨result, taken, after, computed, reads⟩ :=
                  @inductionHypothesis { reader with script := rest } needed
                    filled (by simp only; omega)
                refine ⟨result, taken, after, ?_,
                  reads.interrupted rfl rfl stillHonest⟩
                simp only [readFullyLoop, zero, ↓reduceIte, Source.read,
                  scripted, retry, computed]
              · refine ⟨.error (.err error), [],
                  { reader with cursor, script := rest }, ?_,
                  reads_stopped rfl zero (Outcome.returns_err _) dishonest⟩
                simp only [readFullyLoop, zero, ↓reduceIte, Source.read,
                  scripted, retry, List.append_nil]

end Loop

/-- The bytes that `read_fully` takes off a source for an output of this
length, also when it fails in the end. -/
def handed (reader : Source IoPayload) (needed : Nat) : Bytes :=
  (readFullyLoop (reader.script.length + 3) reader [] needed).2.1

/-- `read_fully` puts what it takes at the start of its output. -/
theorem readFully_handed
    (reader : Source IoPayload)
    (output : Bytes) :
    ∃ result after,
      readFully reader output =
          (result.map fun _ => (handed reader output.length).length,
            writeBack output 0 (handed reader output.length), after) ∧
        Reads reader output.length result (handed reader output.length)
          after := by
  obtain ⟨result, taken, after, computed, reads⟩ :=
    @readFullyLoop_spec reader output.length (reader.script.length + 3) []
      (by omega)
  rw [List.nil_append] at computed
  have exactly : handed reader output.length = taken := by
    rw [handed, computed]
  rw [exactly]
  refine ⟨result, after, ?_, reads⟩
  unfold readFully
  rw [computed]
  cases result <;> rfl

/-- `read_fully` reads into the start of its output and leaves the rest of the
output alone. -/
theorem readFully_spec
    (reader : Source IoPayload)
    (output : Bytes) :
    ∃ result taken after,
      readFully reader output =
          (result.map fun _ => taken.length, writeBack output 0 taken,
            after) ∧
        Reads reader output.length result taken after := by
  obtain ⟨result, after, computed, reads⟩ := readFully_handed reader output
  exact ⟨result, handed reader output.length, after, computed, reads⟩

/-- Where a source stands after a read depends on the length of the output
only. -/
theorem readFully_after
    (reader : Source IoPayload)
    {output other : Bytes}
    (same : output.length = other.length) :
    (readFully reader output).2.2 = (readFully reader other).2.2 := by
  unfold readFully
  rw [same]
  rcases readFullyLoop (reader.script.length + 3) reader [] other.length with
    ⟨_ | _, _, _⟩ <;> rfl

/-- What a source does with its script: it uses up a beginning of it, and
reports no error that is not there. -/
structure Scripted {α : Type} (before : Source IoPayload)
    (result : IoResult α) (after : Source IoPayload) : Prop where
  script : after.script <:+ before.script
  reported :
    ∀ error, result = .error (.err error) →
      ∃ cursor, SourceEvent.fail error cursor ∈ before.script

/-- A source that goes on answering has used up more of its script. -/
theorem Scripted.later
    {α : Type}
    {before middle after : Source IoPayload}
    {result : IoResult α}
    (answers : Scripted middle result after)
    (used : middle.script <:+ before.script) :
    Scripted before result after := by
  refine ⟨answers.script.trans used, fun error failed => ?_⟩
  obtain ⟨cursor, scripted⟩ := answers.reported error failed
  exact ⟨cursor, used.subset scripted⟩

/-- The loop of `read_fully` reports errors of its source only. -/
theorem readFullyLoop_scripted
    (fuel : Nat)
    (reader : Source IoPayload)
    (filled : Bytes)
    (needed : Nat) :
    Scripted reader (readFullyLoop fuel reader filled needed).1
      (readFullyLoop fuel reader filled needed).2.2 := by
  induction fuel generalizing reader filled needed with
  | zero =>
      exact ⟨List.suffix_rfl, fun _ impossible => by cases impossible⟩
  | succ fuel inductionHypothesis =>
      -- One turn that delivers hands the rest of the script to the next one.
      have delivered (source : Source IoPayload) (count : Nat)
          (used : source.script <:+ reader.script)
          (turn : reader.read needed = source.deliver count)
          (wanted : needed ≠ 0) :
          Scripted reader (readFullyLoop (fuel + 1) reader filled needed).1
            (readFullyLoop (fuel + 1) reader filled needed).2.2 := by
        simp only [readFullyLoop, wanted, ↓reduceIte, turn, Source.deliver]
        cases source.remaining.take count with
        | nil => exact ⟨used, fun _ impossible => by cases impossible⟩
        | cons byte rest => exact (inductionHypothesis _ _ _).later used
      by_cases zero : needed = 0
      · simp only [readFullyLoop, zero, ↓reduceIte]
        exact ⟨List.suffix_rfl, fun _ impossible => by cases impossible⟩
      cases scripted : reader.script with
      | nil =>
          exact delivered reader needed List.suffix_rfl
            (by simp only [Source.read, scripted]) zero
      | cons event rest =>
          have used : rest <:+ reader.script := by
            rw [scripted]
            exact List.suffix_cons _ _
          cases event with
          | short limit =>
              exact delivered { reader with script := rest }
                (min needed (limit + 1)) used
                (by simp only [Source.read, scripted]) zero
          | interrupted =>
              simp only [readFullyLoop, zero, ↓reduceIte, Source.read,
                scripted]
              exact (inductionHypothesis { reader with script := rest } _
                _).later used
          | early cursor =>
              simp only [readFullyLoop, zero, ↓reduceIte, Source.read,
                scripted]
              exact ⟨used, fun _ impossible => by cases impossible⟩
          | fail error cursor =>
              by_cases retry : error.kind = .interrupted
              · simp only [readFullyLoop, zero, ↓reduceIte, Source.read,
                  scripted, retry]
                exact (inductionHypothesis { reader with script := rest } _
                  _).later used
              · simp only [readFullyLoop, zero, ↓reduceIte, Source.read,
                  scripted, retry]
                refine ⟨used, fun other same => ?_⟩
                cases same
                exact ⟨cursor, by rw [scripted]; exact List.mem_cons_self⟩

/-- `read_fully` reports errors of its source only. -/
theorem readFully_scripted
    (reader : Source IoPayload)
    (output : Bytes) :
    Scripted reader (readFully reader output).1
      (readFully reader output).2.2 := by
  have answers := readFullyLoop_scripted (reader.script.length + 3) reader []
    output.length
  unfold readFully
  rcases looped : readFullyLoop (reader.script.length + 3) reader []
    output.length with ⟨stop | _, filled, after⟩
  · rw [looped] at answers
    refine ⟨answers.script, fun error same => answers.reported error ?_⟩
    cases same
    rfl
  · rw [looped] at answers
    exact ⟨answers.script, fun _ impossible => by cases impossible⟩

/-- On an honest source, `read_fully` fills its output as far as the source
goes. -/
theorem readFully_honest
    {reader : Source IoPayload}
    (honest : reader.Honest)
    (output : Bytes) :
    ∃ after,
      readFully reader output =
          (.ok (min output.length reader.remaining.length),
            reader.remaining.take output.length ++
              output.drop reader.remaining.length, after) ∧
        reader.Advanced after
          (min output.length reader.remaining.length) := by
  obtain ⟨result, taken, after, computed, reads⟩ :=
    readFully_spec reader output
  have consumed := reads.consumed honest
  obtain ⟨rfl, rfl, stillHonest, _⟩ := reads.honest honest
  refine ⟨after, ?_, reads.data, ?_, stillHonest⟩
  · have beyond :
        output.drop (min output.length reader.remaining.length) =
          output.drop reader.remaining.length := by
      by_cases enough : output.length ≤ reader.remaining.length
      · rw [Nat.min_eq_left enough, List.drop_length,
          List.drop_eq_nil_of_le enough]
      · rw [Nat.min_eq_right (Nat.le_of_not_le enough)]
    rw [computed, writeBack_zero, List.length_take, beyond]
    rfl
  · rw [consumed, List.length_take]

/-- `read_exact_segment` fills its output with the next bytes of the source,
and reports everything else. -/
theorem readExactSegment_spec
    (reader : Source IoPayload)
    (output : Bytes) :
    ∃ result written after,
      readExactSegment reader output = (result, written, after) ∧
        after.data = reader.data ∧ written.length = output.length ∧
        result.Returns ∧
        (result = .ok () →
          written = reader.remaining.take output.length ∧
            written.length = output.length ∧
            after.cursor = reader.cursor + output.length) ∧
        (reader.Honest →
          after.Honest ∧
            (output.length ≤ reader.remaining.length → result = .ok ())) := by
  obtain ⟨result, taken, after, computed, reads⟩ := readFully_spec reader output
  have bounded := reads.bounded
  have kept : (writeBack output 0 taken).length = output.length :=
    length_writeBack (by omega)
  unfold readExactSegment
  rw [computed]
  cases result with
  | ok _ =>
      simp only [Except.map]
      by_cases complete : taken.length = output.length
      · refine ⟨.ok (), writeBack output 0 taken, after, by simp [complete],
          reads.data, kept, Outcome.returns_ok _, ?_, ?_⟩
        · intro _
          obtain ⟨rest, shape⟩ := reads.lead
          refine ⟨?_, kept, reads.cursor complete rfl⟩
          rw [writeBack_zero, complete, List.drop_length, List.append_nil,
            ← shape, ← complete, List.take_left]
        · intro honest
          exact ⟨(reads.honest honest).2.2.1, fun _ => rfl⟩
      · refine ⟨.error (.err (decryptionError (.invalidCiphertextLength
            taken.length (.exactly output.length)))),
          writeBack output 0 taken, after,
          by simp only [complete, ↓reduceIte], reads.data, kept,
          Outcome.returns_err _, by simp, ?_⟩
        intro honest
        obtain ⟨_, all, stillHonest, _⟩ := reads.honest honest
        refine ⟨stillHonest, fun enough => (complete ?_).elim⟩
        rw [all, List.length_take]
        omega
  | error stop =>
      refine ⟨.error stop, writeBack output 0 taken, after, rfl, reads.data,
        kept, reads.returns, by simp, ?_⟩
      intro honest
      cases (reads.honest honest).1

/-- `read_header` reads the next bytes of the source. -/
theorem readHeader_spec (reader : Source IoPayload) :
    ∃ result after,
      readHeader reader = (result, after) ∧
        after.data = reader.data ∧ result.Returns ∧
        (∀ header, result = .ok header →
          header.val = reader.remaining.take headerLength) ∧
        (reader.Honest →
          after.Honest ∧ after.remaining = reader.remaining.drop headerLength ∧
            (headerLength ≤ reader.remaining.length →
              ∃ header, result = .ok header)) := by
  obtain ⟨result, taken, after, computed, reads⟩ :=
    readFully_spec reader (zeros headerLength)
  have bounded := reads.bounded
  have kept : (writeBack (zeros headerLength) 0 taken).length =
      (zeros headerLength).length :=
    length_writeBack (by omega)
  unfold readHeader
  rw [computed]
  cases result with
  | ok _ =>
      simp only [Except.map, kept]
      by_cases complete : taken.length = (zeros headerLength).length
      · have whole : writeBack (zeros headerLength) 0 taken = taken := by
          rw [writeBack_zero, complete, List.drop_length, List.append_nil]
        rw [length_zeros] at complete
        refine ⟨.ok ⟨taken, complete⟩, after, ?_, reads.data,
          Outcome.returns_ok _, ?_, ?_⟩
        · simp only [whole, length_zeros, complete, ↓reduceIte,
            Octets.ofSlice?_of_length complete, Outcome.expect]
        · intro header same
          cases same
          obtain ⟨rest, shape⟩ := reads.lead
          change taken = _
          rw [← shape, ← complete, List.take_left]
        · intro honest
          obtain ⟨_, _, stillHonest, left⟩ := reads.honest honest
          rw [length_zeros] at left
          exact ⟨stillHonest, left, fun _ => ⟨_, rfl⟩⟩
      · refine ⟨.error (.err (decryptionError
            (.invalidHeaderLength taken.length))),
          after, by simp only [complete, ↓reduceIte], reads.data,
          Outcome.returns_err _, by simp, ?_⟩
        intro honest
        obtain ⟨_, all, stillHonest, left⟩ := reads.honest honest
        rw [length_zeros] at left all complete
        refine ⟨stillHonest, left, fun enough => (complete ?_).elim⟩
        rw [all, List.length_take]
        omega
  | error stop =>
      refine ⟨.error stop, after, rfl, reads.data, ?_, by simp, ?_⟩
      · have returns := reads.returns
        exact returns.of_error
      · intro honest
        cases (reads.honest honest).1

/-- On an honest source, `read_header` takes a header when there is one. -/
theorem readHeader_honest
    {reader : Source IoPayload}
    (honest : reader.Honest) :
    ∃ after,
      (∃ header,
          headerLength ≤ reader.remaining.length ∧
            header.val = reader.remaining.take headerLength ∧
            readHeader reader = (.ok header, after) ∧
            reader.Advanced after headerLength) ∨
        (reader.remaining.length < headerLength ∧
          ∃ error, readHeader reader = (.error (.err error), after)) := by
  obtain ⟨after, read, advanced⟩ :=
    readFully_honest honest (zeros headerLength)
  rw [length_zeros] at read advanced
  refine ⟨after, ?_⟩
  by_cases enough : headerLength ≤ reader.remaining.length
  · have width : (reader.remaining.take headerLength).length =
        headerLength := by
      rw [List.length_take, Nat.min_eq_left enough]
    rw [Nat.min_eq_left enough] at read advanced
    rw [List.drop_eq_nil_of_le (by rw [length_zeros]; exact enough),
      List.append_nil] at read
    refine .inl ⟨⟨_, width⟩, enough, rfl, ?_, advanced⟩
    simp only [readHeader, read, width, ↓reduceIte,
      Octets.ofSlice?_of_length width, Outcome.expect]
  · have width :
        (reader.remaining.take headerLength ++
          (zeros headerLength).drop reader.remaining.length).length =
            headerLength := by
      rw [List.length_append, List.length_take, List.length_drop,
        length_zeros]
      omega
    have short :
        ¬ min headerLength reader.remaining.length = headerLength := by
      omega
    refine .inr ⟨by omega, ?_⟩
    simp only [readHeader, read, width, short, ↓reduceIte]
    exact ⟨_, rfl⟩

/-! ## Handing out buffered bytes -/

/-- Handing out what a buffer holds behind its cursor, as far as the output
goes. -/
theorem handOut_eq
    {content output : Bytes}
    {consumed available : Nat}
    (whole : available = content.length)
    (within : consumed ≤ content.length) :
    ((do
      let available ← sub available consumed
      let read := min output.length available
      let stop := consumed + read
      let chunk ← slice content consumed stop
      let output ← copyRange output 0 read chunk
      .ok (read, stop, output)) : IoResult (Nat × Nat × Bytes)) =
      .ok (((content.drop consumed).take output.length).length,
        consumed + ((content.drop consumed).take output.length).length,
        (content.drop consumed).take output.length ++
          output.drop ((content.drop consumed).take output.length).length) := by
  subst whole
  have taken :
      ((content.drop consumed).take output.length).length =
        min output.length (content.length - consumed) := by
    rw [List.length_take, List.length_drop]
  have chunk :
      (slice content consumed
          (consumed + min output.length (content.length - consumed)) :
          IoResult Bytes) =
        .ok ((content.drop consumed).take output.length) := by
    rw [slice_eq (Nat.le_add_right _ _) (by omega), Nat.add_sub_cancel_left]
    refine congrArg Except.ok (List.take_eq_take_iff.mpr ?_)
    rw [List.length_drop]
    omega
  have copied :
      (copyRange output 0
          (min output.length (content.length - consumed))
          ((content.drop consumed).take output.length) : IoResult Bytes) =
        .ok ((content.drop consumed).take output.length ++
          output.drop (min output.length (content.length - consumed))) := by
    rw [copyRange_eq (Nat.zero_le _) (by omega) (by
      rw [taken, Nat.sub_zero]), writeBack_zero, taken]
  rw [sub_eq within, Outcome.ok_bind]
  simp only [chunk, Outcome.ok_bind, copied, taken]

/-- What is behind the cursor afterwards. -/
theorem drop_handedOut
    (content : Bytes)
    (consumed room : Nat) :
    content.drop
        (consumed + ((content.drop consumed).take room).length) =
      (content.drop consumed).drop room := by
  rw [← List.drop_drop, List.length_take]
  by_cases all : room ≤ (content.drop consumed).length
  · rw [Nat.min_eq_left all]
  · rw [Nat.min_eq_right (by omega), List.drop_length,
      List.drop_eq_nil_of_le (by omega)]

end FastFloe
