import FastFloe.FilePrograms
import FastFloe.Reading

namespace FastFloe

open Rust

/-!
# Reading files

How the file programs read their input.  A file ends where its contents end, so
what a program has read of it is the beginning of the file, and all of it when
there is nothing more.
-/

/-- A source that does not end before its data ends. -/
def Steady (source : Source IoPayload) : Prop :=
  ∀ cursor, SourceEvent.early cursor ∉ source.script

/-- A steady source stays steady. -/
theorem Steady.later
    {before after : Source IoPayload}
    (steady : Steady before)
    (used : after.script <:+ before.script) :
    Steady after :=
  fun cursor member => steady cursor (used.subset member)

/-- A delivery followed by what the next turns are asked for. -/
theorem delivered_then
    {count needed : Nat}
    (remaining : Bytes)
    (within : count ≤ needed) :
    remaining.take count ++
          (remaining.drop count).take
            (needed - (remaining.take count).length) =
        remaining.take needed ∧
      (remaining.drop count).drop (needed - (remaining.take count).length) =
        remaining.drop needed := by
  by_cases enough : count ≤ remaining.length
  · have length : (remaining.take count).length = count := by
      rw [List.length_take, Nat.min_eq_left enough]
    rw [length, List.drop_drop, Nat.add_sub_cancel' within]
    refine ⟨?_, rfl⟩
    rw [← List.take_add, Nat.add_sub_cancel' within]
  · have short : remaining.length ≤ count := Nat.le_of_not_le enough
    rw [List.take_of_length_le short, List.drop_eq_nil_of_le short,
      List.take_of_length_le (short.trans within),
      List.drop_eq_nil_of_le (short.trans within)]
    simp

/-- Where `read_fully` succeeds on a steady source, it has gone as far as the
source goes. -/
theorem readFullyLoop_steady
    {fuel needed : Nat}
    {reader after : Source IoPayload}
    {filled result : Bytes}
    (steady : Steady reader)
    (read :
      readFullyLoop fuel reader filled needed = (.ok (), result, after)) :
    result = filled ++ reader.remaining.take needed ∧
      after.remaining = reader.remaining.drop needed := by
  induction fuel generalizing reader filled needed with
  | zero =>
      cases read
  | succ fuel inductionHypothesis =>
      by_cases zero : needed = 0
      · simp only [readFullyLoop, zero, ↓reduceIte] at read
        cases read
        simp [zero]
      -- One turn that delivers what there is, and the turns after it.
      have delivers (source : Source IoPayload) (count : Nat)
          (stillSteady : Steady source)
          (same : source.remaining = reader.remaining)
          (positive : 0 < count)
          (within : count ≤ needed)
          (turn : reader.read needed = source.deliver count) :
          result = filled ++ reader.remaining.take needed ∧
            after.remaining = reader.remaining.drop needed := by
        have rest := source.deliver_remaining count
        have onward : Steady (source.deliver count).2 := stillSteady
        obtain ⟨chunk, next, delivered⟩ :
            ∃ chunk next, source.deliver count = (.ok chunk, next) :=
          ⟨_, _, rfl⟩
        have content : source.remaining.take count = chunk := by
          have exactly := congrArg Prod.fst delivered
          exact Except.ok.inj exactly
        rw [delivered] at rest onward
        rw [same] at rest content
        have whole := delivered_then reader.remaining within
        rw [content] at whole
        simp only [readFullyLoop, zero, ↓reduceIte, turn, delivered] at read
        cases chunk with
        | nil =>
            have nothing : reader.remaining = [] := by
              rcases List.take_eq_nil_iff.mp content with none | nothing
              · omega
              · exact nothing
            cases read
            rw [rest, nothing]
            simp
        | cons byte more =>
            obtain ⟨later, left⟩ := inductionHypothesis onward read
            rw [later, left, rest, List.append_assoc]
            exact ⟨congrArg _ whole.1, whole.2⟩
      cases scripted : reader.script with
      | nil =>
          apply delivers reader needed steady rfl (Nat.pos_of_ne_zero zero)
            (Nat.le_refl _)
          simp only [Source.read, scripted]
      | cons event rest =>
          have onward : Steady { reader with script := rest } := by
            apply steady.later
            rw [scripted]
            exact List.suffix_cons _ _
          cases event with
          | short limit =>
              apply delivers { reader with script := rest }
                (min needed (limit + 1)) onward rfl (by omega)
                (Nat.min_le_left _ _)
              simp only [Source.read, scripted]
          | interrupted =>
              simp only [readFullyLoop, zero, ↓reduceIte, Source.read,
                scripted] at read
              have later := inductionHypothesis onward read
              exact later
          | early cursor =>
              have ended : SourceEvent.early cursor ∈ reader.script := by
                rw [scripted]
                exact List.mem_cons_self
              exact (steady cursor ended).elim
          | fail error cursor =>
              by_cases retry : error.kind = .interrupted
              · simp only [readFullyLoop, zero, ↓reduceIte, Source.read,
                  scripted, retry] at read
                have later := inductionHypothesis onward read
                exact later
              · simp only [readFullyLoop, zero, ↓reduceIte, Source.read,
                  scripted, retry] at read
                cases read

/-- What `read_fully` took off a steady source where it succeeded, and what it
left. -/
theorem Steady.readFully
    {reader after : Source IoPayload}
    {output filled : Bytes}
    {count : Nat}
    (steady : Steady reader)
    (read : readFully reader output = (.ok count, filled, after)) :
    handed reader output.length = reader.remaining.take output.length ∧
      after.remaining = reader.remaining.drop output.length ∧
      Steady after := by
  have scripted := readFully_scripted reader output
  rw [read] at scripted
  refine ⟨?_, ?_, steady.later scripted.script⟩
  all_goals
    unfold FastFloe.readFully at read
    rcases looped : readFullyLoop (reader.script.length + 3) reader []
      output.length with ⟨stop | _, taken, source⟩
    · rw [looped] at read
      cases read
    · obtain ⟨content, left⟩ := readFullyLoop_steady steady looped
      rw [looped] at read
      cases read
      first
        | exact left
        | rw [handed, looped]
          exact content

/-- `read_exact` fills its output with what comes next, or fails; a source that
only fragments lets it fail only when there is too little left. -/
theorem readExact_spec
    (reader : Source IoPayload)
    (output : Bytes) :
    ∃ result filled after,
      readExact reader output = (result, filled, after) ∧
        result.Returns ∧
        (result = .ok () →
          filled.length = output.length ∧
            filled ++ after.remaining = reader.remaining) ∧
        (reader.Honest → output.length ≤ reader.remaining.length →
          result = .ok () ∧ after.Honest) := by
  obtain ⟨result, taken, after, computed, reads⟩ :=
    readFully_spec reader output
  have returns := reads.returns
  cases result with
  | error stop =>
      refine ⟨.error stop, writeBack output 0 taken, after, ?_, returns,
        (fun impossible => by cases impossible), fun honest _ => ?_⟩
      · simp only [readExact, computed, Except.map]
      · cases (reads.honest honest).1
  | ok _ =>
      by_cases short : taken.length < output.length
      · refine ⟨.error (.err ⟨.other, none⟩), writeBack output 0 taken, after,
          ?_, Outcome.returns_err _, (fun impossible => by cases impossible),
          fun honest enough => ?_⟩
        · simp only [readExact, computed, Except.map, short, ↓reduceIte]
        · obtain ⟨_, all, _⟩ := reads.honest honest
          rw [all, List.length_take, Nat.min_eq_left enough] at short
          exact (Nat.lt_irrefl _ short).elim
      · have full : taken.length = output.length :=
          Nat.le_antisymm reads.bounded (Nat.le_of_not_lt short)
        have filled : writeBack output 0 taken = taken := by
          rw [writeBack_zero, full, List.drop_length, List.append_nil]
        refine ⟨.ok (), taken, after, ?_, Outcome.returns_ok _,
          fun _ => ⟨full, ?_⟩,
          fun honest _ => ⟨rfl, (reads.honest honest).2.2.1⟩⟩
        · simp only [readExact, computed, Except.map, short, ↓reduceIte,
            filled]
        · obtain ⟨rest, shape⟩ := reads.lead
          have left : after.remaining = rest := by
            rw [Source.remaining, reads.data, reads.cursor full rfl,
              ← List.drop_drop, ← full]
            change reader.remaining.drop taken.length = rest
            rw [← shape, List.drop_left]
          rw [left, shape]

end FastFloe
