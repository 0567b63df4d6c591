import Mathlib.Data.List.Induction

namespace Framing

/-!
# Streams of frames

A stream is a list of symbols that a parser cuts into frames, one position
after the other, until a frame says that it is the last.  A `Parser` carries the
three facts that make the cutting well defined: a frame is not empty, it lies
inside the stream, and it depends on its own symbols only.  `scan` is the run of
frames at the head of a stream, and `Message` a stream that is such a run and
nothing else.
-/

/-- A frame read off the head of a stream. -/
structure Frame (π : Type) where
  payload : π
  length : Nat
  last : Bool
  deriving Repr, DecidableEq

/-- A parser for the frame at a position. -/
structure Parser (β π : Type) where
  parse : Nat → List β → Option (Frame π)
  length_pos : ∀ position stream frame,
    parse position stream = some frame → 0 < frame.length
  length_le : ∀ position stream frame,
    parse position stream = some frame → frame.length ≤ stream.length
  parse_append : ∀ position stream frame tail,
    parse position stream = some frame →
      parse position (stream ++ tail) = some frame
  parse_take : ∀ position stream frame,
    parse position stream = some frame →
      parse position (stream.take frame.length) = some frame

namespace Parser

variable {β π : Type} (parser : Parser β π)

/-- `symbols` is exactly one frame at `position`. -/
def IsFrame (position : Nat) (last : Bool) (symbols : List β) (payload : π) :
    Prop :=
  parser.parse position symbols = some ⟨payload, symbols.length, last⟩

/-- What a stream's leading run of frames carries, and what follows its last
frame, `none` when the run stops before one. -/
def scanLoop : (fuel position : Nat) → List β → List π × Option (List β)
  | 0, _, _ =>
      ([], none)
  | fuel + 1, position, stream =>
      match parser.parse position stream with
      | none =>
          ([], none)
      | some frame =>
          if frame.last then
            ([frame.payload], some (stream.drop frame.length))
          else
            let rest :=
              scanLoop fuel (position + 1) (stream.drop frame.length)
            (frame.payload :: rest.1, rest.2)

/-- The leading run of frames.  Frames are not empty, so the stream's length
bounds their number. -/
def scan (position : Nat) (stream : List β) : List π × Option (List β) :=
  parser.scanLoop (stream.length + 1) position stream

/-- The payloads of the longest run of leading frames. -/
def leading (position : Nat) (stream : List β) : List π :=
  (parser.scan position stream).1

/-- The stream is a run of frames that ends with a last frame. -/
def Message (position : Nat) (stream : List β) (payloads : List π) : Prop :=
  parser.scan position stream = (payloads, some [])

/-- Fuel beyond the stream's length does not change a scan. -/
theorem scanLoop_fuel
    {first second position : Nat}
    {stream : List β}
    (firstEnough : stream.length < first)
    (secondEnough : stream.length < second) :
    parser.scanLoop first position stream =
      parser.scanLoop second position stream := by
  induction first generalizing second position stream with
  | zero =>
      omega
  | succ first inductionHypothesis =>
      obtain ⟨second, rfl⟩ : ∃ more, second = more + 1 :=
        ⟨second - 1, by omega⟩
      simp only [scanLoop]
      cases parsed : parser.parse position stream with
      | none =>
          rfl
      | some frame =>
          have positive := parser.length_pos _ _ _ parsed
          have inside := parser.length_le _ _ _ parsed
          have shorter : (stream.drop frame.length).length < first := by
            rw [List.length_drop]
            omega
          have shorter' : (stream.drop frame.length).length < second := by
            rw [List.length_drop]
            omega
          simp only [inductionHypothesis shorter shorter']

theorem scan_of_none
    {position : Nat}
    {stream : List β}
    (parsed : parser.parse position stream = none) :
    parser.scan position stream = ([], none) := by
  simp only [scan, scanLoop, parsed]

theorem scan_of_last
    {position : Nat}
    {stream : List β}
    {frame : Frame π}
    (parsed : parser.parse position stream = some frame)
    (last : frame.last = true) :
    parser.scan position stream =
      ([frame.payload], some (stream.drop frame.length)) := by
  simp only [scan, scanLoop, parsed, last, ↓reduceIte]

theorem scan_of_more
    {position : Nat}
    {stream : List β}
    {frame : Frame π}
    (parsed : parser.parse position stream = some frame)
    (more : frame.last = false) :
    parser.scan position stream =
      (frame.payload ::
          (parser.scan (position + 1) (stream.drop frame.length)).1,
        (parser.scan (position + 1) (stream.drop frame.length)).2) := by
  have positive := parser.length_pos _ _ _ parsed
  have inside := parser.length_le _ _ _ parsed
  have enough : (stream.drop frame.length).length < stream.length := by
    rw [List.length_drop]
    omega
  simp only [scan, scanLoop, parsed, more, Bool.false_eq_true, ↓reduceIte,
    parser.scanLoop_fuel enough (Nat.lt_succ_self _)]

theorem not_message_of_none
    {position : Nat}
    {stream : List β}
    {payloads : List π}
    (parsed : parser.parse position stream = none) :
    ¬ parser.Message position stream payloads := by
  intro message
  rw [Message, parser.scan_of_none parsed] at message
  simp at message

/-- A message that starts with a last frame is that frame. -/
theorem message_of_last
    {position : Nat}
    {stream : List β}
    {payloads : List π}
    {frame : Frame π}
    (parsed : parser.parse position stream = some frame)
    (last : frame.last = true) :
    parser.Message position stream payloads ↔
      payloads = [frame.payload] ∧ stream.drop frame.length = [] := by
  rw [Message, parser.scan_of_last parsed last, Prod.mk.injEq,
    Option.some.injEq]
  exact and_congr_left' eq_comm

/-- A message that starts with another frame goes on with a message. -/
theorem message_of_more
    {position : Nat}
    {stream : List β}
    {payloads : List π}
    {frame : Frame π}
    (parsed : parser.parse position stream = some frame)
    (more : frame.last = false) :
    parser.Message position stream payloads ↔
      ∃ rest,
        payloads = frame.payload :: rest ∧
          parser.Message (position + 1) (stream.drop frame.length) rest := by
  rw [Message, parser.scan_of_more parsed more, Prod.mk.injEq]
  constructor
  · rintro ⟨rfl, complete⟩
    exact ⟨_, rfl, Prod.ext rfl complete⟩
  · rintro ⟨rest, rfl, message⟩
    rw [Message] at message
    rw [message]
    exact ⟨rfl, rfl⟩

/-- What a parser reads off the head of a stream is a frame of its own. -/
theorem isFrame_of_parse
    {position : Nat}
    {stream : List β}
    {frame : Frame π}
    (parsed : parser.parse position stream = some frame) :
    parser.IsFrame position frame.last (stream.take frame.length)
      frame.payload := by
  have inside := parser.length_le _ _ _ parsed
  rw [IsFrame, parser.parse_take _ _ _ parsed, List.length_take,
    Nat.min_eq_left inside]

/-- A frame is read off the head of every stream it starts. -/
theorem IsFrame.parse_append
    {parser : Parser β π}
    {position : Nat}
    {last : Bool}
    {symbols : List β}
    {payload : π}
    (frame : parser.IsFrame position last symbols payload)
    (tail : List β) :
    parser.parse position (symbols ++ tail) =
      some ⟨payload, symbols.length, last⟩ :=
  parser.parse_append _ _ _ tail frame

/-! ## Runs of frames -/

/-- Consecutive frames from `position` on, none of them a last one. -/
def Frames (position : Nat) (frames : List (List β × π)) : Prop :=
  ∀ index symbols payload,
    frames[index]? = some (symbols, payload) →
      parser.IsFrame (position + index) false symbols payload

theorem frames_nil (position : Nat) : parser.Frames position [] := by
  intro index symbols payload member
  simp at member

theorem frames_cons
    {position : Nat}
    {symbols : List β}
    {payload : π}
    {frames : List (List β × π)} :
    parser.Frames position ((symbols, payload) :: frames) ↔
      parser.IsFrame position false symbols payload ∧
        parser.Frames (position + 1) frames := by
  constructor
  · intro all
    refine ⟨all 0 symbols payload rfl, ?_⟩
    intro index symbols payload member
    rw [Nat.add_assoc, Nat.add_comm 1 index]
    exact all (index + 1) symbols payload member
  · rintro ⟨first, rest⟩ index symbols' payload' member
    cases index with
    | zero =>
        simp only [List.getElem?_cons_zero, Option.some.injEq,
          Prod.mk.injEq] at member
        obtain ⟨rfl, rfl⟩ := member
        exact first
    | succ index =>
        rw [← Nat.add_assoc, Nat.add_right_comm]
        exact rest index symbols' payload' member

/-- A scan passes over a run of frames. -/
theorem scan_frames
    {position : Nat}
    {frames : List (List β × π)}
    (all : parser.Frames position frames)
    (tail : List β) :
    parser.scan position ((frames.map Prod.fst).flatten ++ tail) =
      (frames.map Prod.snd ++
          (parser.scan (position + frames.length) tail).1,
        (parser.scan (position + frames.length) tail).2) := by
  induction frames generalizing position with
  | nil =>
      simp
  | cons frame frames inductionHypothesis =>
      obtain ⟨symbols, payload⟩ := frame
      rw [frames_cons] at all
      have parsed := all.1.parse_append
        ((frames.map Prod.fst).flatten ++ tail)
      simp only [List.map_cons, List.flatten_cons, List.append_assoc]
      rw [parser.scan_of_more parsed rfl]
      simp only [List.drop_left, inductionHypothesis all.2, List.length_cons,
        List.cons_append, Nat.add_assoc, Nat.add_comm 1]

/-- A message is a run of frames followed by a last frame. -/
theorem message_iff
    {position : Nat}
    {stream : List β}
    {payloads : List π} :
    parser.Message position stream payloads ↔
      ∃ frames symbols payload,
        stream = (frames.map Prod.fst).flatten ++ symbols ∧
          payloads = frames.map Prod.snd ++ [payload] ∧
            parser.Frames position frames ∧
              parser.IsFrame (position + frames.length) true symbols
                payload := by
  constructor
  · -- Along the scan, on the length of what is left of the stream.
    induction length : stream.length using Nat.strongRecOn
      generalizing position stream payloads with
    | ind length inductionHypothesis =>
        intro message
        unfold Message at message
        cases parsed : parser.parse position stream with
        | none =>
            rw [parser.scan_of_none parsed] at message
            simp at message
        | some frame =>
            have isFrame := parser.isFrame_of_parse parsed
            cases last : frame.last with
            | true =>
                rw [parser.scan_of_last parsed last] at message
                simp only [Prod.mk.injEq, Option.some.injEq] at message
                obtain ⟨rfl, complete⟩ := message
                have whole : stream.take frame.length = stream := by
                  have split := List.take_append_drop frame.length stream
                  rwa [complete, List.append_nil] at split
                rw [last, whole] at isFrame
                exact ⟨[], stream, frame.payload, by simp, by simp,
                  parser.frames_nil position, isFrame⟩
            | false =>
                rw [parser.scan_of_more parsed last] at message
                simp only [Prod.mk.injEq] at message
                obtain ⟨rfl, complete⟩ := message
                have positive := parser.length_pos _ _ _ parsed
                have inside := parser.length_le _ _ _ parsed
                obtain ⟨frames, symbols, payload, shape, payloads, all,
                    final⟩ :=
                  inductionHypothesis
                    (stream.drop frame.length).length
                    (by rw [List.length_drop]; omega) rfl
                    (Prod.ext rfl complete)
                rw [last] at isFrame
                refine ⟨(stream.take frame.length, frame.payload) :: frames,
                  symbols, payload, ?_, ?_, ?_, ?_⟩
                · simp only [List.map_cons, List.flatten_cons,
                    List.append_assoc, ← shape, List.take_append_drop]
                · simp only [payloads, List.map_cons, List.cons_append]
                · exact parser.frames_cons.mpr ⟨isFrame, all⟩
                · rw [List.length_cons, Nat.add_comm frames.length,
                    ← Nat.add_assoc]
                  exact final
  · rintro ⟨frames, symbols, payload, rfl, rfl, all, final⟩
    have parsed := final.parse_append []
    rw [List.append_nil] at parsed
    rw [Message, parser.scan_frames all, parser.scan_of_last parsed rfl]
    simp

/-- The payloads of a message are those of its leading run. -/
theorem Message.leading_eq
    {parser : Parser β π}
    {position : Nat}
    {stream : List β}
    {payloads : List π}
    (message : parser.Message position stream payloads) :
    parser.leading position stream = payloads := by
  rw [leading, message]

/-- A message carries one list of payloads. -/
theorem Message.unique
    {parser : Parser β π}
    {position : Nat}
    {stream : List β}
    {payloads payloads' : List π}
    (message : parser.Message position stream payloads)
    (message' : parser.Message position stream payloads') :
    payloads = payloads' := by
  rw [← message.leading_eq, message'.leading_eq]

/-- A scan of a stream that starts with a message is that message. -/
theorem Message.scan_append
    {parser : Parser β π}
    {position : Nat}
    {stream : List β}
    {payloads : List π}
    (message : parser.Message position stream payloads)
    (tail : List β) :
    parser.scan position (stream ++ tail) = (payloads, some tail) := by
  obtain ⟨frames, symbols, payload, rfl, rfl, all, final⟩ :=
    parser.message_iff.mp message
  have parsed := final.parse_append tail
  rw [List.append_assoc, parser.scan_frames all,
    parser.scan_of_last parsed rfl, List.drop_left]

/-- No message continues another one. -/
theorem Message.append_eq_nil
    {parser : Parser β π}
    {position : Nat}
    {stream tail : List β}
    {payloads payloads' : List π}
    (message : parser.Message position stream payloads)
    (longer : parser.Message position (stream ++ tail) payloads') :
    tail = [] := by
  rw [Message, message.scan_append tail] at longer
  exact Option.some.inj (congrArg Prod.snd longer)

/-! ## Reading frame by frame -/

/-- The payloads of the frames that have been read off a stream, whether the
last of them was a last frame, and what is left of the stream. -/
inductive Passed (parser : Parser β π) (position : Nat) (stream : List β) :
    List π → Bool → List β → Prop where
  | start : Passed parser position stream [] false stream
  | next
      {payloads : List π} {rest : List β} {frame : Frame π}
      (passed : Passed parser position stream payloads false rest)
      (parsed :
        parser.parse (position + payloads.length) rest = some frame) :
      Passed parser position stream (payloads ++ [frame.payload]) frame.last
        (rest.drop frame.length)

section Passed

variable {parser : Parser β π} {position : Nat} {stream rest : List β}
  {payloads : List π} {ended : Bool}

/-- A scan passes over the frames that have been read. -/
theorem Passed.scan_eq
    (passed : parser.Passed position stream payloads ended rest) :
    parser.scan position stream =
      if ended then (payloads, some rest)
      else
        (payloads ++ (parser.scan (position + payloads.length) rest).1,
          (parser.scan (position + payloads.length) rest).2) := by
  induction passed with
  | start =>
      simp
  | @next payloads rest frame _ parsed inductionHypothesis =>
      rw [inductionHypothesis]
      cases last : frame.last with
      | true =>
          simp [parser.scan_of_last parsed last]
      | false =>
          simp [parser.scan_of_more parsed last, Nat.add_assoc]

/-- What has been read is the beginning of the leading run. -/
theorem Passed.isPrefix_leading
    (passed : parser.Passed position stream payloads ended rest) :
    payloads <+: parser.leading position stream := by
  rw [leading, passed.scan_eq]
  cases ended with
  | true => exact List.prefix_rfl
  | false => exact List.prefix_append _ _

/-- After a last frame with nothing behind it, what has been read is the
message that the stream is. -/
theorem Passed.message
    (passed : parser.Passed position stream payloads true []) :
    parser.Message position stream payloads := by
  rw [Message, passed.scan_eq, if_pos rfl]

/-- On a stream that starts with a message, the frames that have been read are
its first ones, and after a last frame they are all of them. -/
theorem Passed.of_message
    {message tail : List β}
    {all : List π}
    (isMessage : parser.Message position message all)
    (passed : parser.Passed position (message ++ tail) payloads ended rest) :
    payloads <+: all ∧ (ended = true → payloads = all ∧ rest = tail) := by
  have scanned := passed.scan_eq
  rw [isMessage.scan_append tail] at scanned
  cases ended with
  | true =>
      simp only [↓reduceIte, Prod.mk.injEq, Option.some.injEq] at scanned
      obtain ⟨rfl, rfl⟩ := scanned
      exact ⟨List.prefix_rfl, fun _ => ⟨rfl, rfl⟩⟩
  | false =>
      simp only [Bool.false_eq_true, ↓reduceIte, Prod.mk.injEq] at scanned
      refine ⟨⟨_, scanned.1.symm⟩, fun impossible => ?_⟩
      cases impossible

/-- What follows the stream does not matter to the frames that have been
read. -/
theorem Passed.append
    (passed : parser.Passed position stream payloads ended rest)
    (tail : List β) :
    parser.Passed position (stream ++ tail) payloads ended (rest ++ tail) := by
  induction passed with
  | start =>
      exact .start
  | @next payloads rest frame _ parsed inductionHypothesis =>
      have inside := parser.length_le _ _ _ parsed
      rw [← List.drop_append_of_le_length inside]
      exact .next inductionHypothesis (parser.parse_append _ _ _ tail parsed)

/-- A stream that was read to its end can go on with one more frame. -/
theorem Passed.frame
    {symbols : List β}
    {payload : π}
    {last : Bool}
    (passed : parser.Passed position stream payloads false [])
    (isFrame :
      parser.IsFrame (position + payloads.length) last symbols payload) :
    parser.Passed position (stream ++ symbols) (payloads ++ [payload]) last
      [] := by
  have longer := (passed.append symbols).next isFrame
  rwa [List.nil_append, List.drop_length] at longer

/-- A run of frames can be read to its end. -/
theorem Passed.of_frames
    {frames : List (List β × π)}
    (all : parser.Frames position frames) :
    parser.Passed position (frames.map Prod.fst).flatten
      (frames.map Prod.snd) false [] := by
  induction frames using List.reverseRecOn with
  | nil => exact .start
  | append_singleton earlier frame inductionHypothesis =>
      have before : parser.Frames position earlier := by
        intro index symbols payload member
        apply all index symbols payload
        rw [List.getElem?_append_left (List.getElem?_eq_some_iff.mp member).1]
        exact member
      have isFrame :
          parser.IsFrame (position + (earlier.map Prod.snd).length) false
            frame.1 frame.2 := by
        rw [List.length_map]
        apply all earlier.length
        rw [List.getElem?_append_right (Nat.le_refl _), Nat.sub_self]
        rfl
      have longer := (inductionHypothesis before).frame isFrame
      simpa using longer

/-- When everything of a stream that starts with a message has been read, it
is that message and its last frame was read. -/
theorem Passed.exhausts
    {message tail : List β}
    {all : List π}
    (isMessage : parser.Message position message all)
    (passed : parser.Passed position (message ++ tail) payloads ended []) :
    payloads = all ∧ ended = true ∧ tail = [] := by
  have scanned := passed.scan_eq
  rw [isMessage.scan_append tail] at scanned
  cases ended with
  | true =>
      simp only [↓reduceIte, Prod.mk.injEq, Option.some.injEq] at scanned
      exact ⟨scanned.1.symm, rfl, scanned.2⟩
  | false =>
      have nothing :
          parser.parse (position + payloads.length) [] = none := by
        cases parsed : parser.parse (position + payloads.length) [] with
        | none => rfl
        | some frame =>
            have positive := parser.length_pos _ _ _ parsed
            have inside := parser.length_le _ _ _ parsed
            rw [List.length_nil] at inside
            omega
      simp only [Bool.false_eq_true, ↓reduceIte, parser.scan_of_none nothing,
        Prod.mk.injEq, reduceCtorEq, and_false] at scanned

/-- Where payloads are no longer than their frames, what has been read is no
longer than what it was read from. -/
theorem Passed.length_flatten_le
    {α : Type}
    {parser : Parser β (List α)}
    {payloads : List (List α)}
    (within : ∀ position stream frame,
      parser.parse position stream = some frame →
        frame.payload.length ≤ frame.length)
    (passed : parser.Passed position stream payloads ended rest) :
    payloads.flatten.length + rest.length ≤ stream.length := by
  induction passed with
  | start =>
      simp
  | @next payloads rest frame _ parsed inductionHypothesis =>
      have inside := parser.length_le _ _ _ parsed
      have small := within _ _ _ parsed
      rw [List.flatten_append, List.flatten_singleton, List.length_append,
        List.length_drop]
      omega

end Passed

/-! ## Streams that can hold one run of frames only -/

/-- At the positions of these frames the parser takes the frame there and no
other, and takes it as a last frame exactly at the end of the run. -/
def Admits (parser : Parser β π) (frames : List (List β × π)) : Prop :=
  ∀ position last symbols payload,
    position < frames.length →
      parser.IsFrame position last symbols payload →
        frames[position]? = some (symbols, payload) ∧
          (last = true ↔ position + 1 = frames.length)

/-- Whatever the stream holds, the frames that have been read off it are the
first ones of the run, and a last frame has been read exactly when all of them
have. -/
theorem Passed.of_admits
    {parser : Parser β π}
    {stream rest : List β}
    {payloads : List π}
    {ended : Bool}
    {frames : List (List β × π)}
    (admits : parser.Admits frames)
    (something : frames ≠ [])
    (passed : parser.Passed 0 stream payloads ended rest) :
    payloads = (frames.take payloads.length).map Prod.snd ∧
      stream =
        ((frames.take payloads.length).map Prod.fst).flatten ++ rest ∧
      payloads.length ≤ frames.length ∧
      (ended = true ↔ payloads.length = frames.length) := by
  induction passed with
  | start =>
      refine ⟨rfl, rfl, Nat.zero_le _, ?_⟩
      have positive := List.length_pos_iff.mpr something
      simp only [Bool.false_eq_true, List.length_nil, false_iff]
      exact Nat.ne_of_lt positive
  | @next payloads rest frame passed parsed inductionHypothesis =>
      obtain ⟨samePayloads, sameStream, inside, ended⟩ := inductionHypothesis
      have before : payloads.length < frames.length := by
        refine Nat.lt_of_le_of_ne inside fun whole => ?_
        cases ended.mpr whole
      rw [Nat.zero_add] at parsed
      obtain ⟨member, last⟩ :=
        admits _ _ _ _ before (parser.isFrame_of_parse parsed)
      have longer :
          frames.take (payloads.length + 1) =
            frames.take payloads.length ++
              [(rest.take frame.length, frame.payload)] := by
        rw [List.take_add_one, member]
        rfl
      rw [List.length_append, List.length_singleton, longer]
      refine ⟨?_, ?_, before, last⟩
      · rw [List.map_append, ← samePayloads]
        rfl
      · simp only [List.map_append, List.map_cons, List.map_nil,
          List.flatten_append, List.flatten_singleton, List.append_assoc,
          List.take_append_drop]
        exact sameStream

end Parser

end Framing
