import FastFloe.LayoutTilings
import FastFloe.Library.Deques

namespace FastFloe

open Rust

/-!
# The segment iterator

`Segments` walks over the positions of a layout from both ends.  It is a deque
of the layout's segments: no call panics, every segment is yielded once, at the
end it was asked for, and the exhausted iterator stays exhausted.
-/

/-- Iterator over the segments in a `MessageLayout`: the layout and the range of
positions that are left. -/
structure Segments where
  layout : MessageLayout
  start : Nat
  stop : Nat
  deriving DecidableEq

/-- `MessageLayout::segments`, which is also `into_iter`. -/
def MessageLayout.intoIter (self : MessageLayout) : Segments where
  layout := self
  start := 0
  stop := self.segmentCount

namespace Segments

/-- `Segments::segment_at`. -/
def segmentAt (target : Target) (self : Segments) (position : Nat) :
    Result SegmentLayout :=
  self.layout.segmentAt target position

/-- `Iterator::next`. -/
def next (target : Target) (self : Segments) :
    Result (Option SegmentLayout) × Segments :=
  if self.start < self.stop then
    ((self.segmentAt target self.start).map some,
      { self with start := self.start + 1 })
  else
    (.ok none, self)

/-- `DoubleEndedIterator::next_back`. -/
def nextBack (target : Target) (self : Segments) :
    Result (Option SegmentLayout) × Segments :=
  if self.start < self.stop then
    ((self.segmentAt target (self.stop - 1)).map some,
      { self with stop := self.stop - 1 })
  else
    (.ok none, self)

/-- `Iterator::size_hint`: the length of the range of positions, with no upper
bound where a `usize` does not hold it. -/
def sizeHint (target : Target) (self : Segments) : Nat × Option Nat :=
  if self.start < self.stop then
    match target.tryFromU64 (self.stop - self.start) with
    | some steps => (steps, some steps)
    | none => (target.usizeMax, none)
  else
    (0, some 0)

/-- A call at one end. -/
def ask (target : Target) (self : Segments) :
    Deques.Side → Result (Option SegmentLayout) × Segments
  | .front => self.next target
  | .back => self.nextBack target

/-- The answers to calls at these ends, and the iterator after them. -/
def askAll (target : Target) :
    Segments → List Deques.Side →
      List (Result (Option SegmentLayout)) × Segments
  | self, [] =>
      ([], self)
  | self, side :: sides =>
      let answer := self.ask target side
      let later := askAll target answer.2 sides
      (answer.1 :: later.1, later.2)

/-! ## The segments that are left -/

/-- The segments that the iterator has not yielded. -/
def remaining (self : Segments) : List SegmentLayout :=
  (List.range' self.start (self.stop - self.start)).map self.layout.entry

/-- An iterator over positions of a valid layout. -/
structure Within (segments : Segments) : Prop where
  valid : segments.layout.Valid
  inside : segments.stop ≤ segments.layout.segmentCount

section Steps

variable {segments : Segments}

theorem Within.segmentAt_eq
    {position : Nat}
    (within : segments.Within)
    (target : Target)
    (inside : position < segments.stop) :
    segments.segmentAt target position =
      .ok (segments.layout.entry position) := by
  have found := within.valid.segmentForPosition_eq target
    (Nat.lt_of_lt_of_le inside within.inside)
  simp only [segmentAt, MessageLayout.segmentAt, found, Outcome.ok_bind,
    Outcome.expect]

/-- An iterator without positions is exhausted. -/
theorem remaining_eq_nil
    (done : ¬ segments.start < segments.stop) :
    segments.remaining = [] := by
  simp only [remaining, Nat.sub_eq_zero_of_le (Nat.le_of_not_lt done)]
  rfl

/-- Every call takes a segment off its end of those that are left. -/
theorem Within.ask_spec
    (within : segments.Within)
    (target : Target)
    (side : Deques.Side) :
    (segments.ask target side).1 =
        .ok (Deques.pop side segments.remaining).1 ∧
      (segments.ask target side).2.remaining =
        (Deques.pop side segments.remaining).2 ∧
      (segments.ask target side).2.Within := by
  by_cases more : segments.start < segments.stop
  · obtain ⟨count, counted⟩ :
        ∃ count, segments.stop - segments.start = count + 1 :=
      ⟨segments.stop - segments.start - 1, by omega⟩
    cases side with
    | front =>
        have rest : segments.stop - (segments.start + 1) = count := by omega
        have split : segments.remaining =
            segments.layout.entry segments.start ::
              (List.range' (segments.start + 1) count).map
                segments.layout.entry := by
          rw [remaining, counted, List.range'_succ, List.map_cons]
        simp only [ask, next, more, ↓reduceIte, split, Deques.pop,
          within.segmentAt_eq target more, List.head?_cons, List.tail_cons]
        refine ⟨rfl, ?_, within.valid, within.inside⟩
        simp only [remaining, rest]
    | back =>
        have last : segments.stop - 1 = segments.start + count := by omega
        have rest : segments.stop - 1 - segments.start = count := by omega
        have split : segments.remaining =
            (List.range' segments.start count).map segments.layout.entry ++
              [segments.layout.entry (segments.stop - 1)] := by
          rw [remaining, counted, List.range'_1_concat, List.map_append, last]
          rfl
        simp only [ask, nextBack, more, ↓reduceIte, split, Deques.pop,
          within.segmentAt_eq target
            (show segments.stop - 1 < segments.stop by omega),
          List.getLast?_concat, List.dropLast_concat]
        refine ⟨rfl, ?_, within.valid, ?_⟩
        · simp only [remaining, rest]
        · exact Nat.le_trans (Nat.sub_le _ _) within.inside
  · have nothing := remaining_eq_nil more
    cases side with
    | front =>
        simp only [ask, next, more, ↓reduceIte, nothing, Deques.pop]
        exact ⟨rfl, rfl, within⟩
    | back =>
        simp only [ask, nextBack, more, ↓reduceIte, nothing, Deques.pop]
        exact ⟨rfl, rfl, within⟩

/-- A run of calls answers as the deque of the segments does. -/
theorem Within.askAll_spec
    (within : segments.Within)
    (target : Target)
    (sides : List Deques.Side) :
    (segments.askAll target sides).1 =
        (Deques.popAll sides segments.remaining).1.map .ok ∧
      (segments.askAll target sides).2.remaining =
        (Deques.popAll sides segments.remaining).2 ∧
      (segments.askAll target sides).2.Within := by
  induction sides generalizing segments with
  | nil =>
      exact ⟨rfl, rfl, within⟩
  | cons side sides inductionHypothesis =>
      obtain ⟨answered, left, still⟩ := within.ask_spec target side
      obtain ⟨later, rest, ends⟩ := inductionHypothesis still
      rw [left] at later rest
      refine ⟨?_, rest, ends⟩
      simp only [askAll, Deques.popAll, answered, later, List.map_cons]

/-- The hint is the number of segments that are left, as far as a `usize`
holds it. -/
theorem sizeHint_eq
    (target : Target)
    (segments : Segments) :
    segments.sizeHint target =
      if segments.remaining.length ≤ target.usizeMax then
        (segments.remaining.length, some segments.remaining.length)
      else
        (target.usizeMax, none) := by
  have length : segments.remaining.length =
      segments.stop - segments.start := by
    simp [remaining]
  by_cases more : segments.start < segments.stop
  · simp only [sizeHint, more, ↓reduceIte, Target.tryFromU64, length]
    split <;> split <;> simp_all
  · have none : segments.stop - segments.start = 0 :=
      Nat.sub_eq_zero_of_le (Nat.le_of_not_lt more)
    simp [sizeHint, more, length, none]

end Steps

end Segments

/-- The layouts that the crate calculates. -/
inductive MessageLayout.Calculated (target : Target) :
    MessageLayout → Prop where
  | plaintext
      {layout : MessageLayout}
      {parameters : Parameters}
      {plaintextLength : Nat}
      (calculated :
        parameters.plaintextLayout plaintextLength = .ok layout) :
      Calculated target layout
  | ciphertext
      {layout : MessageLayout}
      {parameters : Parameters}
      {ciphertextLength : Nat}
      (representable : ciphertextLength ≤ u64Max)
      (calculated :
        parameters.ciphertextLayout target ciphertextLength = .ok layout) :
      Calculated target layout

theorem MessageLayout.Calculated.valid
    {target : Target}
    {layout : MessageLayout}
    (calculated : layout.Calculated target) :
    layout.Valid := by
  cases calculated with
  | plaintext calculated =>
      exact (Parameters.plaintextLayout_eq_ok calculated).1
  | ciphertext representable calculated =>
      exact (Parameters.ciphertextLayout_eq_ok representable calculated).1

/-- The iterator over a layout that the crate calculates is its list of
segments, taken from both ends.  In whatever order `next` and `next_back` are
called, none of them panics; the segments that came from the front, those that
are left, and those that came from the back make up the layout; a call yields
nothing exactly when as many calls as there are segments went before; and the
size hint counts what is left, also where a `usize` does not hold it. -/
theorem segments_iterateBothEnds
    {target : Target}
    {layout : MessageLayout}
    (calculated : layout.Calculated target) :
    ∃ segments,
      layout.segments target = .ok segments ∧
        segments.length = layout.segmentCount ∧
        ∀ sides : List Deques.Side,
          ∃ answers left,
            (layout.intoIter.askAll target sides).1 = answers.map .ok ∧
              answers.length = sides.length ∧
              Deques.taken .front sides answers ++
                  (left ++ (Deques.taken .back sides answers).reverse) =
                segments ∧
              (∀ index,
                answers[index]? = some none ↔
                  layout.segmentCount ≤ index ∧ index < sides.length) ∧
              left.length = layout.segmentCount - sides.length ∧
              (layout.intoIter.askAll target sides).2.sizeHint target =
                if left.length ≤ target.usizeMax then
                  (left.length, some left.length)
                else
                  (target.usizeMax, none) := by
  have valid := calculated.valid
  have within : layout.intoIter.Within := ⟨valid, Nat.le_refl _⟩
  have whole : layout.intoIter.remaining =
      (List.range layout.segmentCount).map layout.entry := by
    rw [List.range_eq_range']
    rfl
  have count : layout.intoIter.remaining.length = layout.segmentCount := by
    rw [whole, List.length_map, List.length_range]
  refine ⟨layout.intoIter.remaining, ?_, count, fun sides => ?_⟩
  · rw [whole]
    exact valid.segments_eq target
  obtain ⟨answered, left, _⟩ := within.askAll_spec target sides
  refine ⟨_, _, answered, Deques.length_popAll _ _,
    Deques.popAll_balance _ _, fun index => ?_, ?_, ?_⟩
  · rw [← count]
    exact Deques.popAll_eq_none_iff _ _ _
  · rw [← count]
    exact Deques.length_left _ _
  · rw [Segments.sizeHint_eq, left]

theorem segments_iterateBothEnds_example :
    ∃ (layout : MessageLayout) (segments : List SegmentLayout),
      (⟨64, by decide, by decide⟩ : Parameters).plaintextLayout 65 =
          .ok layout ∧
        layout.segments .bits32 = .ok segments ∧ segments.length = 3 ∧
        ∃ answers left,
          (layout.intoIter.askAll .bits32 [.back, .front]).1 =
              answers.map .ok ∧
            Deques.taken .front [.back, .front] answers ++
                (left ++
                  (Deques.taken .back [.back, .front] answers).reverse) =
              segments ∧
            left.length = 1 := by
  have calculated :
      (⟨64, by decide, by decide⟩ : Parameters).plaintextLayout 65 =
        .ok ⟨⟨64, by decide, by decide⟩, 65, 235, 3⟩ :=
    rfl
  obtain ⟨segments, listed, count, iterates⟩ :=
    @segments_iterateBothEnds .bits32 _ (.plaintext calculated)
  obtain ⟨answers, left, answered, _, balance, _, length, _⟩ :=
    iterates [.back, .front]
  exact ⟨_, segments, calculated, listed, count, answers, left, answered,
    balance, length⟩

end FastFloe
