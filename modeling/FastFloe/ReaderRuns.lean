import FastFloe.OpenedReaders
import FastFloe.Transparent

namespace FastFloe

open Rust

/-!
# Runs of calls on a reader

Any sequence of reads, seeks, segment and range reads on an opened reader, with
the caller moving the wrapped reader in between and the wrapped reader failing
at any call.  Every call of the sequence that returns `Ok` returns bytes of the
plaintext that the reader's layout describes.
-/

/-- One call on a reader.  `useInner` is what a caller does with the wrapped
reader behind `get_mut`: it moves the cursor, and uses up or changes what the
source will answer. -/
inductive ReaderCall where
  | read (output : Bytes)
  | seek (position : SeekFrom)
  | streamPosition
  | readSegment (position : Nat)
  | readSegmentInto (position : Nat) (output : Bytes)
  | readRange (startBound endBound : Bound)
  | readRangeInto (startBound endBound : Bound) (output : Bytes)
  | useInner (cursor : Nat) (script : List (SourceEvent IoPayload))

/-- The position that a seek asks for. -/
def SeekFrom.Denotes (self : SeekFrom) (current length landed : Nat) : Prop :=
  match self with
  | .start offset => landed = offset
  | .fromEnd delta => (landed : Int) = length + delta
  | .current delta => (landed : Int) = current + delta

namespace ReaderCall

/-- The reader after a call. -/
def perform (platform : Platform) (call : ReaderCall) (reader : Reader) :
    Reader :=
  match call with
  | .read output => (reader.read platform output).2.1
  | .seek position => (reader.seek position).2
  | .streamPosition => reader.streamPosition.2
  | .readSegment position => (reader.readSegment platform position).2
  | .readSegmentInto position output =>
      (reader.readSegmentInto platform position output).2.1
  | .readRange startBound endBound =>
      (reader.readRange platform startBound endBound).2
  | .readRangeInto startBound endBound output =>
      (reader.readRangeInto platform startBound endBound output).2.1
  | .useInner cursor script =>
      reader.getMut fun inner => { inner with cursor, script }

/-- What a call must return and where it must leave the logical position, for
a reader over this plaintext. -/
def Correct (platform : Platform) (plaintext : Bytes) (reader : Reader)
    (call : ReaderCall) : Prop :=
  let after := call.perform platform reader
  let size := reader.layout.parameters.plaintextSegmentLength
  match call with
  | .read output =>
      let answer := reader.read platform output
      (∀ count, answer.1 = .ok count →
        answer.2.2 =
            (plaintext.drop reader.plaintextPosition).take count ++
              output.drop count ∧
          count ≤ output.length ∧
          reader.plaintextPosition + count ≤
            max reader.plaintextPosition plaintext.length ∧
          (0 < count ∨ plaintext.length ≤ reader.plaintextPosition ∨
            output = []) ∧
          after.plaintextPosition = reader.plaintextPosition + count) ∧
        ∀ stop, answer.1 = .error stop →
          after.plaintextPosition = reader.plaintextPosition
  | .seek position =>
      let answer := reader.seek position
      (∀ landed, answer.1 = .ok landed →
        position.Denotes reader.plaintextPosition plaintext.length landed ∧
          after.plaintextPosition = landed) ∧
        ∀ stop, answer.1 = .error stop →
          after.plaintextPosition = reader.plaintextPosition
  | .streamPosition =>
      reader.streamPosition.1 = .ok reader.plaintextPosition ∧
        after.plaintextPosition = reader.plaintextPosition
  | .readSegment position =>
      let answer := reader.readSegment platform position
      (∀ bytes, answer.1 = .ok bytes →
        position < reader.segmentCount ∧
          bytes = Blocks.block size position plaintext) ∧
        after.plaintextPosition = reader.plaintextPosition
  | .readSegmentInto position output =>
      let answer := reader.readSegmentInto platform position output
      (∀ count, answer.1 = .ok count →
        position < reader.segmentCount ∧
          count = (Blocks.block size position plaintext).length ∧
          answer.2.2 =
            Blocks.block size position plaintext ++ output.drop count) ∧
        after.plaintextPosition = reader.plaintextPosition
  | .readRange startBound endBound =>
      let answer := reader.readRange platform startBound endBound
      (∀ bytes, answer.1 = .ok bytes →
        bytes = bytesWithin startBound endBound plaintext) ∧
        after.plaintextPosition = reader.plaintextPosition
  | .readRangeInto startBound endBound output =>
      let answer := reader.readRangeInto platform startBound endBound output
      (∀ count, answer.1 = .ok count →
        count = (bytesWithin startBound endBound plaintext).length ∧
          answer.2.2 =
            bytesWithin startBound endBound plaintext ++
              output.drop count) ∧
        after.plaintextPosition = reader.plaintextPosition
  | .useInner _ _ =>
      after.plaintextPosition = reader.plaintextPosition

end ReaderCall

/-- The reader after a sequence of calls. -/
def runReader (platform : Platform) (calls : List ReaderCall)
    (reader : Reader) : Reader :=
  calls.foldl (fun reader call => call.perform platform reader) reader

/-- A reader that one of the constructors returned. -/
inductive Constructed (platform : Platform) (reader : Reader) : Prop where
  | new (inner : Source IoPayload) (key : Key) (aad : Bytes)
      (opened : Reader.new platform inner key aad = .ok reader)
  | newWithParameters (inner : Source IoPayload) (key : Key) (aad : Bytes)
      (parameters : Parameters)
      (opened :
        Reader.newWithParameters platform inner key aad parameters =
          .ok reader)
  | newWithLength (inner : Source IoPayload) (key : Key) (aad : Bytes)
      (ciphertextLength : Nat) (representable : ciphertextLength ≤ u64Max)
      (opened :
        Reader.newWithLength platform inner key aad ciphertextLength =
          .ok reader)
  | newWithLengthAndParameters (inner : Source IoPayload) (key : Key)
      (aad : Bytes) (ciphertextLength : Nat) (parameters : Parameters)
      (representable : ciphertextLength ≤ u64Max)
      (opened :
        Reader.newWithLengthAndParameters platform inner key aad
          ciphertextLength parameters = .ok reader)

/-- A constructed reader is coherent over the message it serves. -/
theorem Constructed.coherent
    {platform : Platform}
    {reader : Reader}
    (agree : platform.OpensAgree)
    (constructed : Constructed platform reader) :
    ∃ message, reader.Coherent platform message := by
  have served
      {start : Header → Result DecryptionState}
      {inner : Source IoPayload}
      {ciphertextLength : Nat}
      {result : IoResult Reader}
      (opens :
        Reader.Opens platform start inner ciphertextLength result)
      (opened : result = .ok reader) :
      ∃ message, reader.Coherent platform message := by
    rcases opens with ⟨other, message, success, begun⟩ | ⟨⟨error, failed⟩, _⟩
    · rw [opened] at success
      cases success
      exact ⟨message, begun.coherent⟩
    · rw [failed] at opened
      cases opened
  cases constructed with
  | new inner key aad opened =>
      exact served (Reader.openToEnd_spec agree
        (Reader.startsReady_inferred platform key aad)) opened
  | newWithParameters inner key aad parameters opened =>
      exact served (Reader.openToEnd_spec agree
        (Reader.startsReady_parameters platform key aad parameters)) opened
  | newWithLength inner key aad length representable opened =>
      exact served (Reader.openWithLength_spec agree
        (Reader.startsReady_inferred platform key aad) representable) opened
  | newWithLengthAndParameters inner key aad length parameters representable
      opened =>
      exact served (Reader.openWithLength_spec agree
        (Reader.startsReady_parameters platform key aad parameters)
        representable) opened

section Runs

variable {platform : Platform} {message : StoredMessage} {reader : Reader}
  {plaintext : Bytes}

/-- A seek moves the logical position and nothing else. -/
theorem Reader.seek_spec
    (reader : Reader)
    (position : SeekFrom) :
    ((∃ landed,
        reader.seek position =
            (.ok landed, { reader with plaintextPosition := landed }) ∧
          position.Denotes reader.plaintextPosition reader.plaintextLength
            landed) ∨
      ∃ error, reader.seek position = (.error (.err error), reader)) := by
  have offset (base : Nat) (delta : Int) :
      (∃ landed, checkedAddSigned u64Max base delta = some landed ∧
          (landed : Int) = base + delta) ∨
        checkedAddSigned u64Max base delta = none := by
    unfold checkedAddSigned
    split
    next fits => exact .inl ⟨_, rfl, by omega⟩
    · exact .inr rfl
  unfold Reader.seek
  cases position with
  | start landed =>
      exact .inl ⟨landed, rfl, rfl⟩
  | fromEnd delta =>
      rcases offset reader.plaintextLength delta with
        ⟨landed, resolved, denotes⟩ | unresolved
      · exact .inl ⟨landed, by simp only [resolved], denotes⟩
      · exact .inr ⟨_, by simp only [unresolved]; rfl⟩
  | current delta =>
      rcases offset reader.plaintextPosition delta with
        ⟨landed, resolved, denotes⟩ | unresolved
      · exact .inl ⟨landed, by simp only [resolved], denotes⟩
      · exact .inr ⟨_, by simp only [unresolved]; rfl⟩

/-- The next bytes that a `read` returns. -/
theorem ReaderCall.read_correct
    (coherent : reader.Coherent platform message)
    (agree : platform.OpensAgree)
    (describes : message.Describes platform plaintext)
    (output : Bytes) :
    ((ReaderCall.read output).perform platform reader).Coherent platform
        message ∧
      (ReaderCall.read output).Correct platform plaintext reader := by
  obtain ⟨result, after, written, read, kept, _, _, success, failure⟩ :=
    @Reader.Coherent.read_spec platform message reader plaintext output
      coherent agree describes
  simp only [ReaderCall.perform, ReaderCall.Correct, read]
  refine ⟨kept, ?_, failure⟩
  intro count ok
  obtain ⟨next, moved⟩ := success count ok
  have inside := next.inside
  exact ⟨next.filled, next.room, by omega, next.progress, moved⟩

/-- The segment that a `read_segment` returns. -/
theorem ReaderCall.readSegment_correct
    (coherent : reader.Coherent platform message)
    (agree : platform.OpensAgree)
    (describes : message.Describes platform plaintext)
    (position : Nat) :
    ((ReaderCall.readSegment position).perform platform reader).Coherent
        platform message ∧
      (ReaderCall.readSegment position).Correct platform plaintext
        reader := by
  obtain ⟨result, after, read, keeps, _, success, _⟩ :=
    @Reader.Coherent.readSegment_spec platform message reader plaintext
      position coherent agree describes
  simp only [ReaderCall.perform, ReaderCall.Correct, read,
    Reader.segmentCount, coherent.layout]
  refine ⟨keeps.coherent, ?_, keeps.position⟩
  intro bytes ok
  obtain ⟨⟨opened, opens⟩, exact⟩ := success bytes ok
  exact ⟨opens.inside, exact⟩

/-- The segment that a `read_segment_into` writes. -/
theorem ReaderCall.readSegmentInto_correct
    (coherent : reader.Coherent platform message)
    (agree : platform.OpensAgree)
    (describes : message.Describes platform plaintext)
    (position : Nat)
    (output : Bytes) :
    ((ReaderCall.readSegmentInto position output).perform platform
        reader).Coherent platform message ∧
      (ReaderCall.readSegmentInto position output).Correct platform plaintext
        reader := by
  obtain ⟨result, after, written, read, keeps, _, success, _⟩ :=
    @Reader.Coherent.readSegmentInto_spec platform message reader plaintext
      output position coherent agree describes
  simp only [ReaderCall.perform, ReaderCall.Correct, read,
    Reader.segmentCount, coherent.layout]
  refine ⟨keeps.coherent, ?_, keeps.position⟩
  intro count ok
  obtain ⟨⟨opened, opens⟩, rfl, exact⟩ := success count ok
  refine ⟨opens.inside, ?_, exact⟩
  rw [describes.content position opened opens, opens.length_eq]

/-- The stretch that a `read_range` returns. -/
theorem ReaderCall.readRange_correct
    (coherent : reader.Coherent platform message)
    (agree : platform.OpensAgree)
    (describes : message.Describes platform plaintext)
    (startBound endBound : Bound) :
    ((ReaderCall.readRange startBound endBound).perform platform
        reader).Coherent platform message ∧
      (ReaderCall.readRange startBound endBound).Correct platform plaintext
        reader := by
  obtain ⟨result, after, read, keeps, _, success, _⟩ :=
    coherent.readRange_spec agree describes startBound endBound
  simp only [ReaderCall.perform, ReaderCall.Correct, read]
  refine ⟨keeps.coherent, ?_, keeps.position⟩
  intro bytes ok
  obtain ⟨start, stop, resolved, stretch, _⟩ := success bytes ok
  rw [← describes.length] at resolved
  rw [stretch, (bytesWithin_of_resolved resolved).1]

/-- The stretch that a `read_range_into` writes. -/
theorem ReaderCall.readRangeInto_correct
    (coherent : reader.Coherent platform message)
    (agree : platform.OpensAgree)
    (describes : message.Describes platform plaintext)
    (startBound endBound : Bound)
    (output : Bytes) :
    ((ReaderCall.readRangeInto startBound endBound output).perform platform
        reader).Coherent platform message ∧
      (ReaderCall.readRangeInto startBound endBound output).Correct platform
        plaintext reader := by
  obtain ⟨result, after, written, read, keeps, _, success⟩ :=
    @Reader.Coherent.readRangeInto_spec platform message reader plaintext
      output coherent agree describes startBound endBound
  simp only [ReaderCall.perform, ReaderCall.Correct, read]
  refine ⟨keeps.coherent, ?_, keeps.position⟩
  intro count ok
  obtain ⟨start, stop, resolved, rfl, filled⟩ := success count ok
  rw [← describes.length] at resolved
  obtain ⟨stretch, ordered, inside⟩ := bytesWithin_of_resolved resolved
  rw [stretch]
  refine ⟨?_, filled⟩
  rw [List.length_take, List.length_drop]
  omega

/-- Every call keeps the reader coherent and is correct. -/
theorem ReaderCall.perform_spec
    (coherent : reader.Coherent platform message)
    (agree : platform.OpensAgree)
    (describes : message.Describes platform plaintext)
    (call : ReaderCall) :
    (call.perform platform reader).Coherent platform message ∧
      call.Correct platform plaintext reader := by
  cases call with
  | read output =>
      exact read_correct coherent agree describes output
  | seek position =>
      have size : reader.plaintextLength = plaintext.length :=
        coherent.plaintextLength_eq.trans describes.length.symm
      rcases reader.seek_spec position with
        ⟨landed, sought, denotes⟩ | ⟨error, refused⟩
      · rw [size] at denotes
        simp only [perform, Correct, sought]
        refine ⟨{ coherent with }, ?_, nofun⟩
        intro other same
        cases same
        exact ⟨denotes, rfl⟩
      · simp only [perform, Correct, refused]
        exact ⟨coherent, nofun, fun _ _ => trivial⟩
  | streamPosition =>
      exact ⟨coherent, rfl, rfl⟩
  | readSegment position =>
      exact readSegment_correct coherent agree describes position
  | readSegmentInto position output =>
      exact readSegmentInto_correct coherent agree describes position output
  | readRange startBound endBound =>
      exact readRange_correct coherent agree describes startBound endBound
  | readRangeInto startBound endBound output =>
      exact readRangeInto_correct coherent agree describes startBound
        endBound output
  | useInner cursor script =>
      -- The wrapped reader may now stand anywhere, and nothing is tracked.
      exact ⟨{ coherent with tracked := nofun }, rfl⟩

/-- A call by which the caller does not touch the wrapped reader. -/
def ReaderCall.LeavesInner (call : ReaderCall) : Prop :=
  match call with
  | .useInner _ _ => False
  | _ => True

/-- A reader that is left alone keeps its wrapped reader honest. -/
theorem ReaderCall.perform_honest
    {call : ReaderCall}
    (coherent : reader.Coherent platform message)
    (agree : platform.OpensAgree)
    (leaves : call.LeavesInner)
    (honest : reader.inner.Honest) :
    (call.perform platform reader).inner.Honest := by
  obtain ⟨plaintext, describes⟩ := message.exists_describes platform
  cases call with
  | read output =>
      obtain ⟨_, _, _, read, _, keeps, _⟩ :=
        @Reader.Coherent.read_spec platform message reader plaintext output
          coherent agree describes
      simp only [perform, read]
      exact keeps honest
  | seek position =>
      rcases reader.seek_spec position with
        ⟨landed, sought, _⟩ | ⟨error, refused⟩
      · simp only [perform, sought]
        exact honest
      · simp only [perform, refused]
        exact honest
  | streamPosition =>
      exact honest
  | readSegment position =>
      obtain ⟨_, _, read, keeps, _⟩ :=
        @Reader.Coherent.readSegment_spec platform message reader plaintext
          position coherent agree describes
      simp only [perform, read]
      exact keeps.honest honest
  | readSegmentInto position output =>
      obtain ⟨_, _, _, read, keeps, _⟩ :=
        @Reader.Coherent.readSegmentInto_spec platform message reader
          plaintext output position coherent agree describes
      simp only [perform, read]
      exact keeps.honest honest
  | readRange startBound endBound =>
      obtain ⟨_, _, read, keeps, _⟩ :=
        coherent.readRange_spec agree describes startBound endBound
      simp only [perform, read]
      exact keeps.honest honest
  | readRangeInto startBound endBound output =>
      obtain ⟨_, _, _, read, keeps, _⟩ :=
        @Reader.Coherent.readRangeInto_spec platform message reader plaintext
          output coherent agree describes startBound endBound
      simp only [perform, read]
      exact keeps.honest honest
  | useInner cursor script =>
      exact leaves.elim

/-- A run of calls keeps the reader coherent. -/
theorem runReader_coherent
    {calls : List ReaderCall}
    (coherent : reader.Coherent platform message)
    (agree : platform.OpensAgree) :
    (runReader platform calls reader).Coherent platform message := by
  obtain ⟨plaintext, describes⟩ := message.exists_describes platform
  induction calls generalizing reader with
  | nil =>
      exact coherent
  | cons call calls inductionHypothesis =>
      exact inductionHypothesis
        (call.perform_spec coherent agree describes).1

/-- A run of calls that leave the wrapped reader alone keeps it honest. -/
theorem runReader_honest
    {calls : List ReaderCall}
    (coherent : reader.Coherent platform message)
    (agree : platform.OpensAgree)
    (leave : ∀ call ∈ calls, call.LeavesInner)
    (honest : reader.inner.Honest) :
    (runReader platform calls reader).inner.Honest := by
  obtain ⟨plaintext, describes⟩ := message.exists_describes platform
  induction calls generalizing reader with
  | nil =>
      exact honest
  | cons call calls inductionHypothesis =>
      exact inductionHypothesis
        (call.perform_spec coherent agree describes).1
        (fun later member => leave later (List.mem_cons_of_mem _ member))
        (ReaderCall.perform_honest coherent agree
          (leave call List.mem_cons_self) honest)

end Runs

/-- Over an immutable source that may fail at any call, every call of any
sequence on a reader returns bytes of the plaintext that its layout describes,
and moves the logical position as `read` and `seek` say and in no other way. -/
theorem runReader_correct
    {platform : Platform}
    {reader : Reader}
    (agree : platform.OpensAgree)
    (constructed : Constructed platform reader) :
    ∃ message : StoredMessage,
      message.IsOf reader ∧ (∃ plaintext, message.Describes platform plaintext) ∧
        ∀ plaintext, message.Describes platform plaintext →
          ∀ calls (call : ReaderCall),
            call.Correct platform plaintext
              (runReader platform calls reader) := by
  obtain ⟨message, coherent⟩ := constructed.coherent agree
  refine ⟨message, coherent.isOf, message.exists_describes platform, ?_⟩
  intro plaintext describes calls call
  exact (call.perform_spec (runReader_coherent coherent agree) agree
    describes).2

/-- A message of two segments. -/
def twoSegments : Bytes :=
  match encrypt openPlatform zeroKey [] shortestSegments zeroRng
      (zeros 33) with
  | .ok ciphertext => ciphertext
  | .error _ => []

set_option maxRecDepth 100000 in
/-- A source that stores it behind one other byte and interrupts a read. -/
def twoSegmentsSource : Source IoPayload where
  data := 9 :: twoSegments
  addressable := by decide
  cursor := 1
  script := [.short 3, .interrupted]

set_option maxRecDepth 100000 in
theorem runReader_correct_example :
    ∃ reader,
      Reader.new openPlatform twoSegmentsSource zeroKey [] = .ok reader ∧
        ∃ message : StoredMessage,
          message.IsOf reader ∧
            (∃ plaintext, message.Describes openPlatform plaintext) ∧
              ∀ plaintext, message.Describes openPlatform plaintext →
                ∀ calls (call : ReaderCall),
                  call.Correct openPlatform plaintext
                    (runReader openPlatform calls reader) :=
  ⟨_, rfl, runReader_correct transparent_opensAgree
    (.new twoSegmentsSource zeroKey [] rfl)⟩

end FastFloe
