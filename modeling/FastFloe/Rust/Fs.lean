import FastFloe.Rust.Io

namespace Rust

/-!
# Files

The part of `std::fs` and `std::io` that a program needs to turn one file into
another: opening a file, creating a new one, and copying what a reader delivers.
A path names one file; directories and links are left out.  The operating system
may fail every call and fragment every read and write.
-/

/-- A path, as the bytes of its `OsString`. -/
abbrev Path := Bytes

/-- The files of a file system. -/
structure Disk where
  file : Path → Option Bytes

namespace Disk

/-- The disk after a file got these contents. -/
def put (disk : Disk) (path : Path) (contents : Bytes) : Disk where
  file other := if other = path then some contents else disk.file other

@[simp] theorem file_put_self
    (disk : Disk)
    (path : Path)
    (contents : Bytes) :
    (disk.put path contents).file path = some contents :=
  if_pos rfl

theorem file_put_of_ne
    {disk : Disk}
    {path other : Path}
    {contents : Bytes}
    (apart : other ≠ path) :
    (disk.put path contents).file other = disk.file other :=
  if_neg apart

@[simp] theorem put_put
    (disk : Disk)
    (path : Path)
    (first second : Bytes) :
    (disk.put path first).put path second = disk.put path second := by
  simp only [put, mk.injEq]
  funext other
  split <;> rfl

end Disk

/-- How the operating system answers the calls of one run of a program. -/
structure Environment (π : Type) where
  /-- Opening the input fails. -/
  opens : Option (IoError π)
  /-- Reading the metadata of the input fails. -/
  measures : Option (IoError π)
  /-- Creating the output fails, for another reason than that it exists. -/
  creates : Option (IoError π)
  /-- The answers to the reads of the input. -/
  reads : List (SourceEvent π)
  /-- The answers to the writes to the output. -/
  writes : List (SinkEvent π)
  /-- A file ends where its contents end. -/
  whole : ∀ cursor, SourceEvent.early cursor ∉ reads
  /-- The size of the buffer that `io::copy` uses. -/
  capacity : Nat
  positive : 0 < capacity

/-- No call fails; reads and writes may still come in pieces. -/
structure Environment.Faultless {π : Type} (environment : Environment π) :
    Prop where
  opens : environment.opens = none
  measures : environment.measures = none
  creates : environment.creates = none
  reads : ∀ event ∈ environment.reads, event.Fragments
  writes : ∀ event ∈ environment.writes, ∃ limit, event = .accept (limit + 1)

section Calls

variable {π : Type} (environment : Environment π) (disk : Disk) (path : Path)

/-- `File::open`. -/
def openFile : IoOutcome π (Source π) :=
  match environment.opens, disk.file path with
  | some error, _ =>
      .error (.err error)
  | none, none =>
      .error (.err ⟨.other, none⟩)
  | none, some data =>
      if addressable : data.length ≤ u64Max then
        .ok ⟨data, addressable, 0, environment.reads⟩
      else
        .error (.err ⟨.other, none⟩)

/-- `input.metadata()?.len()`. -/
def metadataLen (input : Source π) : IoOutcome π Nat :=
  match environment.measures with
  | some error => .error (.err error)
  | none => .ok input.data.length

/-- `OpenOptions::new().write(true).create_new(true).open(path)`: a new file
that is open for writing, or a failure when there is a file already. -/
def createNew : IoOutcome π (Sink π × Disk) :=
  match environment.creates, disk.file path with
  | some error, _ =>
      .error (.err error)
  | none, some _ =>
      .error (.err ⟨.other, none⟩)
  | none, none =>
      .ok (⟨[], environment.writes⟩, disk.put path [])

variable {environment disk path}

/-- A file that was opened is read from its start; without faults every file of
a length that a `u64` holds opens. -/
theorem openFile_spec :
    (∃ contents input,
        openFile environment disk path = .ok input ∧
          disk.file path = some contents ∧
          input.data = contents ∧ input.cursor = 0 ∧
          input.script = environment.reads) ∨
      (∃ error, openFile environment disk path = .error (.err error)) ∧
        (environment.opens = none → ∀ contents,
          disk.file path = some contents → u64Max < contents.length) := by
  unfold openFile
  cases opens : environment.opens with
  | some error =>
      exact .inr ⟨⟨error, rfl⟩, (fun impossible => by cases impossible)⟩
  | none =>
      cases found : disk.file path with
      | none =>
          exact .inr ⟨⟨_, rfl⟩, fun _ _ impossible => by cases impossible⟩
      | some contents =>
          by_cases addressable : contents.length ≤ u64Max
          · simp only [addressable, ↓reduceDIte]
            exact .inl ⟨contents, _, rfl, rfl, rfl, rfl, rfl⟩
          · simp only [addressable, ↓reduceDIte]
            refine .inr ⟨⟨_, rfl⟩, fun _ _ same => ?_⟩
            cases same
            exact Nat.lt_of_not_le addressable

/-- `metadata` tells the length of the file. -/
theorem metadataLen_spec (input : Source π) :
    (metadataLen environment input = .ok input.data.length) ∨
      (∃ error, metadataLen environment input = .error (.err error)) ∧
        environment.measures ≠ none := by
  unfold metadataLen
  cases environment.measures with
  | some error => exact .inr ⟨⟨error, rfl⟩, by simp⟩
  | none => exact .inl rfl

/-- `create_new` creates an empty file, and only where there is none. -/
theorem createNew_spec :
    (createNew environment disk path =
          .ok (⟨[], environment.writes⟩, disk.put path []) ∧
        disk.file path = none) ∨
      (∃ error, createNew environment disk path = .error (.err error)) ∧
        (environment.creates = none → disk.file path ≠ none) := by
  unfold createNew
  cases environment.creates with
  | some error =>
      exact .inr ⟨⟨error, rfl⟩, (fun impossible => by cases impossible)⟩
  | none =>
      cases disk.file path with
      | some _ => exact .inr ⟨⟨_, rfl⟩, by simp⟩
      | none => exact .inl ⟨rfl, rfl⟩

end Calls

/-! ## Copying a reader into a file -/

section Copying

variable {π ρ : Type}

/-- The loop of `io::copy`, with a buffer of `capacity` bytes. -/
def copyLoop (read : ρ → Bytes → IoOutcome π Nat × ρ × Bytes)
    (capacity : Nat) : Nat → ρ → Sink π → IoOutcome π Unit × ρ × Sink π
  | 0, reader, writer =>
      (.error .diverge, reader, writer)
  | fuel + 1, reader, writer =>
      match read reader (zeros capacity) with
      | (.error (.err error), reader, _) =>
          if error.kind = .interrupted then
            copyLoop read capacity fuel reader writer
          else
            (.error (.err error), reader, writer)
      | (.error .panic, reader, _) =>
          (.error .panic, reader, writer)
      | (.error .diverge, reader, _) =>
          (.error .diverge, reader, writer)
      | (.ok count, reader, buffer) =>
          if count = 0 then
            (.ok (), reader, writer)
          else
            match writer.writeAll (buffer.take count) with
            | (.error stop, writer) =>
                (.error stop, reader, writer)
            | (.ok (), writer) =>
                copyLoop read capacity fuel reader writer

/-- A reader that goes on delivering, at most `bound` bytes in all, until it
stops; `holds` and `stopped` relate it to what it has delivered. -/
structure Delivering (read : ρ → Bytes → IoOutcome π Nat × ρ × Bytes)
    (capacity bound : Nat) (holds stopped : ρ → Bytes → Prop) : Prop where
  step : ∀ reader given, holds reader given →
    (∃ count next left,
        read reader (zeros capacity) = (.ok count, next, left) ∧
          count ≤ left.length ∧ holds next (given ++ left.take count)) ∨
      ∃ error next left,
        read reader (zeros capacity) = (.error (.err error), next, left) ∧
          stopped next given
  refuses : ∀ reader given, stopped reader given →
    ∃ error next left,
      read reader (zeros capacity) = (.error (.err error), next, left) ∧
        error.kind ≠ .interrupted
  bounded : ∀ reader given, holds reader given → given.length ≤ bound

/-- A copy that has come this far: what it has written is the beginning of what
the reader delivered, and all of it when it succeeds, which is when the reader
delivers nothing more. -/
structure Copied (read : ρ → Bytes → IoOutcome π Nat × ρ × Bytes)
    (capacity : Nat) (holds stopped : ρ → Bytes → Prop) (before : Sink π)
    (given : Bytes) (outcome : IoOutcome π Unit × ρ × Sink π) : Prop where
  written :
    ∃ fresh written last,
      outcome.2.2.accepted = before.accepted ++ written ∧
        written <+: fresh ∧
        (holds last (given ++ fresh) ∨ stopped last (given ++ fresh)) ∧
        (outcome.1 = .ok () →
          written = fresh ∧ holds outcome.2.1 (given ++ fresh) ∧
            ∃ reader left,
              holds reader (given ++ fresh) ∧
                read reader (zeros capacity) = (.ok 0, outcome.2.1, left))

section Rule

variable {read : ρ → Bytes → IoOutcome π Nat × ρ × Bytes}
  {capacity bound : Nat} {holds stopped : ρ → Bytes → Prop}

/-- A copy that fails before anything more is delivered. -/
theorem Copied.idle
    {writer : Sink π}
    {given : Bytes}
    {outcome : IoOutcome π Unit}
    {last : ρ}
    (failed : outcome ≠ .ok ())
    (either : holds last given ∨ stopped last given)
    (next : ρ) :
    Copied read capacity holds stopped writer given
      (outcome, next, writer) := by
  refine ⟨[], [], last, (List.append_nil _).symm, List.prefix_rfl, ?_,
    fun ok => (failed ok).elim⟩
  rw [List.append_nil]
  exact either

/-- What `io::copy` does with a reader that delivers.  With enough turns it
comes back. -/
theorem Delivering.copyLoop_spec
    {reader : ρ}
    {given : Bytes}
    (delivering : Delivering read capacity bound holds stopped)
    (initially : holds reader given)
    (fuel : Nat)
    (writer : Sink π) :
    Copied read capacity holds stopped writer given
        (copyLoop read capacity fuel reader writer) ∧
      (bound + 2 ≤ given.length + fuel →
        (copyLoop read capacity fuel reader writer).1.Returns) := by
  induction fuel generalizing reader given writer with
  | zero =>
      have most := delivering.bounded reader given initially
      refine ⟨.idle (by simp) (.inl initially) reader, fun enough => ?_⟩
      omega
  | succ fuel inductionHypothesis =>
      rcases delivering.step reader given initially with
        ⟨count, next, left, answer, inside, still⟩ |
          ⟨error, next, left, answer, halted⟩
      · by_cases nothing : count = 0
        · subst nothing
          rw [List.take_zero, List.append_nil] at still
          simp only [copyLoop, answer, ↓reduceIte]
          refine ⟨⟨[], [], next, (List.append_nil _).symm, List.prefix_rfl,
            .inl (by rwa [List.append_nil]), fun _ => ⟨rfl, ?_, reader, left,
              ?_, answer⟩⟩, fun _ => Outcome.returns_ok _⟩
          · rwa [List.append_nil]
          · rwa [List.append_nil]
        · obtain ⟨taken, accepted, lead, returns, all⟩ :=
            writer.writeAll_spec (left.take count)
          simp only [copyLoop, answer, nothing, ↓reduceIte]
          rcases wrote : writer.writeAll (left.take count) with
            ⟨stop | _, after⟩
          · rw [wrote] at accepted returns
            refine ⟨⟨left.take count, taken, next, accepted, lead,
              .inl still, ?_⟩, fun _ => returns⟩
            intro impossible
            cases impossible
          · rw [wrote] at accepted all
            rw [all rfl] at accepted
            obtain ⟨⟨fresh, written, last, later, within, either, ends⟩,
                returned⟩ :=
              inductionHypothesis still after
            refine ⟨⟨left.take count ++ fresh, left.take count ++ written,
              last, ?_, ?_, ?_, fun ok => ?_⟩, fun enough => returned ?_⟩
            · rw [later, accepted, List.append_assoc]
            · exact (List.prefix_append_right_inj _).mpr within
            · rw [← List.append_assoc]
              exact either
            · obtain ⟨same, holdsLast, final⟩ := ends ok
              rw [same, ← List.append_assoc]
              exact ⟨rfl, holdsLast, final⟩
            · rw [List.length_append, List.length_take,
                Nat.min_eq_left inside]
              omega
      · simp only [copyLoop, answer]
        by_cases again : error.kind = .interrupted
        · obtain ⟨refusal, after, rest, refused, final⟩ :=
            delivering.refuses next given halted
          simp only [again, ↓reduceIte]
          cases fuel with
          | zero =>
              have most := delivering.bounded reader given initially
              refine ⟨.idle (by simp) (.inr halted) next, fun enough => ?_⟩
              omega
          | succ fuel =>
              simp only [copyLoop, refused, final, ↓reduceIte]
              exact ⟨.idle (by simp) (.inr halted) after,
                fun _ => Outcome.returns_err _⟩
        · simp only [again, ↓reduceIte]
          exact ⟨.idle (by simp) (.inr halted) next,
            fun _ => Outcome.returns_err _⟩

/-- A copy from a reader that never fails to a sink that takes everything
succeeds. -/
theorem Delivering.copyLoop_reliable
    {reader : ρ}
    {given : Bytes}
    {writer : Sink π}
    {fuel : Nat}
    (delivering : Delivering read capacity bound holds stopped)
    (never : ∀ reader given, ¬ stopped reader given)
    (initially : holds reader given)
    (reliable : writer.Reliable)
    (enough : bound + 2 ≤ given.length + fuel) :
    ∃ next after,
      copyLoop read capacity fuel reader writer = (.ok (), next, after) ∧
        after.Reliable := by
  induction fuel generalizing reader given writer with
  | zero =>
      have most := delivering.bounded reader given initially
      omega
  | succ fuel inductionHypothesis =>
      rcases delivering.step reader given initially with
        ⟨count, next, left, answer, inside, still⟩ |
          ⟨_, next, _, _, halted⟩
      · by_cases nothing : count = 0
        · refine ⟨next, writer, ?_, reliable⟩
          simp only [copyLoop, answer, nothing, ↓reduceIte]
        · obtain ⟨after, wrote, steady, _⟩ :=
            reliable.writeAll (left.take count)
          simp only [copyLoop, answer, nothing, ↓reduceIte, wrote]
          apply inductionHypothesis still steady
          rw [List.length_append, List.length_take, Nat.min_eq_left inside]
          omega
      · exact (never next given halted).elim

end Rule

end Copying

end Rust
