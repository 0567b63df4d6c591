import FastFloe.Parameters
import FastFloe.Library.Blocks

namespace FastFloe

open Rust

/-!
# What a message layout says

A layout is valid when its three numbers belong together.  The two layout
calculations return valid layouts only, and a valid layout describes every one
of its segments without an overflow.
-/

/-- The kind of the segment at `position` in a message of `count` segments. -/
def kindAt (count position : Nat) : SegmentKind :=
  if position + 1 = count then .final else .nonFinal

/-- The numbers of a layout belong together: every segment but the last is
full, the last one may be empty, and the whole message is a `u64` length. -/
structure MessageLayout.Valid (layout : MessageLayout) : Prop where
  count_pos : 0 < layout.segmentCount
  count_le : layout.segmentCount ≤ aeadMaxSegments
  reached :
    (layout.segmentCount - 1) * layout.parameters.plaintextSegmentLength ≤
      layout.plaintextLength
  within :
    layout.plaintextLength ≤
      layout.segmentCount * layout.parameters.plaintextSegmentLength
  ciphertext_eq :
    layout.ciphertextLength =
      74 + layout.plaintextLength + 32 * layout.segmentCount
  representable : layout.ciphertextLength ≤ u64Max

/-- The layout of one segment, calculated without bounds. -/
def MessageLayout.entry (layout : MessageLayout) (position : Nat) :
    SegmentLayout where
  parameters := layout.parameters
  position := position
  plaintextOffset := position * layout.parameters.plaintextSegmentLength
  plaintextLength :=
    min layout.parameters.plaintextSegmentLength
      (layout.plaintextLength -
        position * layout.parameters.plaintextSegmentLength)
  ciphertextOffset :=
    74 + position * layout.parameters.ciphertextSegmentLength
  ciphertextLength :=
    min layout.parameters.plaintextSegmentLength
      (layout.plaintextLength -
        position * layout.parameters.plaintextSegmentLength) + 32
  kind := kindAt layout.segmentCount position

/-- A run of full segments is a run of full payloads and their overheads. -/
theorem Parameters.mul_segmentLength (parameters : Parameters) (count : Nat) :
    count * parameters.ciphertextSegmentLength =
      count * parameters.plaintextSegmentLength + 32 * count := by
  rw [← parameters.plaintextSegmentLength_add, Nat.mul_add,
    Nat.mul_comm count 32]

section Entries

variable {layout : MessageLayout} {position : Nat}

/-- Every segment but the last is full. -/
theorem MessageLayout.Valid.full
    (valid : layout.Valid)
    (before : position + 1 < layout.segmentCount) :
    (layout.entry position).plaintextLength =
        layout.parameters.plaintextSegmentLength ∧
      (position + 1) * layout.parameters.plaintextSegmentLength ≤
        layout.plaintextLength := by
  have reached := valid.reached
  have monotone :=
    Nat.mul_le_mul_right layout.parameters.plaintextSegmentLength
      (show position + 1 ≤ layout.segmentCount - 1 by omega)
  have next :
      (position + 1) * layout.parameters.plaintextSegmentLength =
        position * layout.parameters.plaintextSegmentLength +
          layout.parameters.plaintextSegmentLength :=
    Nat.succ_mul _ _
  refine ⟨?_, by omega⟩
  simp only [entry]
  omega

/-- The last segment holds what the full ones leave. -/
theorem MessageLayout.Valid.last
    (valid : layout.Valid)
    (isLast : position + 1 = layout.segmentCount) :
    position * layout.parameters.plaintextSegmentLength ≤
        layout.plaintextLength ∧
      (layout.entry position).plaintextLength =
        layout.plaintextLength -
          position * layout.parameters.plaintextSegmentLength := by
  have reached := valid.reached
  have within := valid.within
  rw [← isLast, Nat.succ_mul] at within
  rw [← isLast, Nat.add_sub_cancel] at reached
  refine ⟨reached, ?_⟩
  simp only [entry]
  omega

/-- A segment starts inside the plaintext and ends inside the message. -/
theorem MessageLayout.Valid.entry_bounds
    (valid : layout.Valid)
    (inside : position < layout.segmentCount) :
    position * layout.parameters.plaintextSegmentLength +
        (layout.entry position).plaintextLength ≤ layout.plaintextLength ∧
      (layout.entry position).ciphertextOffset +
        (layout.entry position).ciphertextLength ≤
          layout.ciphertextLength := by
  have whole := valid.ciphertext_eq
  have scaled := layout.parameters.mul_segmentLength position
  have start :
      position * layout.parameters.plaintextSegmentLength ≤
        layout.plaintextLength := by
    have monotone :=
      Nat.mul_le_mul_right layout.parameters.plaintextSegmentLength
        (show position ≤ layout.segmentCount - 1 by omega)
    exact Nat.le_trans monotone valid.reached
  simp only [entry]
  omega

/-- `segment_for_position` returns the entry of every segment. -/
theorem MessageLayout.Valid.segmentForPosition_eq
    (valid : layout.Valid)
    (target : Target)
    (inside : position < layout.segmentCount) :
    layout.segmentForPosition target position =
      .ok (some (layout.entry position)) := by
  obtain ⟨plaintextBound, ciphertextBound⟩ := valid.entry_bounds inside
  have whole := valid.ciphertext_eq
  have representable := valid.representable
  have maximum := layout.parameters.lt_maximum
  have size := layout.parameters.plaintextSegmentLength_add
  have wide := target.u32Max_le_usizeMax
  have following : position + 1 ≤ u64Max := by omega
  have plaintextOffset :
      position * layout.parameters.plaintextSegmentLength ≤ u64Max := by
    omega
  have ciphertextOffset :
      (layout.entry position).ciphertextOffset ≤ u64Max := by
    omega
  simp only [entry] at ciphertextOffset
  have bodyOffset :
      position * layout.parameters.ciphertextSegmentLength ≤ u64Max := by
    omega
  simp only [segmentForPosition, ge_iff_le, Nat.not_le.mpr inside,
    ↓reduceIte, mul_eq plaintextOffset, Outcome.ok_bind, add_eq following]
  by_cases isLast : position + 1 = layout.segmentCount
  · obtain ⟨start, length⟩ := valid.last isLast
    have small :
        layout.plaintextLength -
            position * layout.parameters.plaintextSegmentLength ≤
          target.usizeMax := by
      rw [← length]
      simp only [entry]
      omega
    have total :
        32 + (layout.plaintextLength -
            position * layout.parameters.plaintextSegmentLength) ≤
          target.usizeMax := by
      rw [← length]
      simp only [entry]
      omega
    simp only [entry] at length
    simp only [isLast, ↓reduceIte, sub_eq start, Outcome.ok_bind,
      Target.tryFromU64, small, segmentOverhead_eq, add_eq total,
      mul_eq bodyOffset, headerLength_eq, add_eq ciphertextOffset, entry,
      kindAt, length, Nat.add_comm 32]
  · have before : position + 1 < layout.segmentCount := by omega
    have length := (valid.full before).1
    simp only [entry] at length
    simp only [isLast, ↓reduceIte, Outcome.ok_bind, mul_eq bodyOffset,
      headerLength_eq, add_eq ciphertextOffset, entry, kindAt, length, size]

/-- `segment_for_position` returns nothing outside the message. -/
theorem MessageLayout.segmentForPosition_none
    (target : Target)
    (outside : layout.segmentCount ≤ position) :
    layout.segmentForPosition target position = .ok none := by
  unfold segmentForPosition
  exact if_pos outside

/-- `final_segment` returns the entry of the last segment. -/
theorem MessageLayout.Valid.finalSegment_eq
    (valid : layout.Valid)
    (target : Target) :
    layout.finalSegment target =
      .ok (layout.entry (layout.segmentCount - 1)) := by
  have positive := valid.count_pos
  have inside : layout.segmentCount - 1 < layout.segmentCount := by omega
  simp only [finalSegment, sub_eq positive, Outcome.ok_bind,
    valid.segmentForPosition_eq target inside, Outcome.expect]

/-- Payloads of the entries' lengths are the blocks of their
concatenation. -/
theorem MessageLayout.Valid.flatten_spec
    {payloads : List Bytes}
    (valid : layout.Valid)
    (count : payloads.length = layout.segmentCount)
    (lengths : ∀ (position : Nat) (plaintext : Bytes),
      payloads[position]? = some plaintext →
        plaintext.length = (layout.entry position).plaintextLength) :
    payloads.flatten.length = layout.plaintextLength ∧
      ∀ (position : Nat) (plaintext : Bytes),
        payloads[position]? = some plaintext →
          Blocks.block layout.parameters.plaintextSegmentLength position
            payloads.flatten = plaintext := by
  have positive := valid.count_pos
  obtain ⟨preceding, shape⟩ :
      ∃ preceding, payloads.length = preceding + 1 :=
    ⟨payloads.length - 1, by omega⟩
  have isLast : preceding + 1 = layout.segmentCount := by omega
  have uniform :
      Blocks.Uniform layout.parameters.plaintextSegmentLength
        (payloads.take preceding) := by
    intro part member
    obtain ⟨index, found⟩ := List.mem_iff_getElem?.mp member
    have before : index < preceding := by
      have bound := (List.getElem?_eq_some_iff.mp found).1
      rw [List.length_take] at bound
      omega
    rw [List.getElem?_take_of_lt before] at found
    rw [lengths index part found]
    exact (valid.full (by omega)).1
  have counted : (payloads.take preceding).length = preceding := by
    rw [List.length_take]
    omega
  obtain ⟨lastPayload, found⟩ :
      ∃ lastPayload, payloads[preceding]? = some lastPayload :=
    ⟨_, List.getElem?_eq_getElem (by omega)⟩
  have split : payloads.flatten =
      (payloads.take preceding).flatten ++ lastPayload := by
    have whole := List.take_append_drop preceding payloads
    have tail : payloads.drop preceding = [lastPayload] := by
      obtain ⟨inside, here⟩ := List.getElem?_eq_some_iff.mp found
      rw [List.drop_eq_getElem_cons inside, here,
        List.drop_eq_nil_of_le (by omega)]
    have flat := congrArg List.flatten whole
    rw [tail, List.flatten_append, List.flatten_singleton] at flat
    exact flat.symm
  obtain ⟨start, lastLength⟩ := valid.last isLast
  have exact := lengths preceding lastPayload found
  have short :
      lastPayload.length ≤ layout.parameters.plaintextSegmentLength := by
    rw [exact]
    exact Nat.min_le_left _ _
  constructor
  · rw [split, List.length_append, Blocks.length_flatten uniform, counted,
      exact, lastLength]
    omega
  · intro position plaintext member
    have bound := (List.getElem?_eq_some_iff.mp member).1
    rw [split]
    by_cases before : position < preceding
    · rw [Blocks.block_flatten uniform (by omega), List.getElem_take]
      exact (List.getElem?_eq_some_iff.mp member).2
    · have here : position = preceding := by omega
      subst here
      rw [found] at member
      cases member
      have cut := Blocks.block_flatten_last uniform short
      rwa [counted] at cut

end Entries

/-! ## The two layout calculations -/

/-- Rounding a quotient up. -/
theorem divCeil_eq
    {total size count : Nat}
    (above : count * size < total)
    (within : total ≤ (count + 1) * size) :
    divCeil total size = count + 1 := by
  rw [Nat.succ_mul] at within
  have positive : 0 < size := by omega
  rw [divCeil]
  refine Nat.div_eq_of_lt_le ?_ ?_
  · rw [Nat.succ_mul]
    omega
  · rw [Nat.succ_mul, Nat.succ_mul]
    omega

/-- The full parts of a positive total lie below it, and one more reaches
it. -/
theorem divCeil_bounds
    {total size : Nat}
    (positive : 0 < size)
    (nonzero : 0 < total) :
    0 < divCeil total size ∧
      (divCeil total size - 1) * size < total ∧
      total ≤ divCeil total size * size := by
  have below := Nat.div_mul_le_self (total + size - 1) size
  have above := @Nat.lt_div_mul_add (total + size - 1) size positive
  have counted : 0 < (total + size - 1) / size :=
    Nat.div_pos (by omega) positive
  obtain ⟨count, shape⟩ : ∃ count, (total + size - 1) / size = count + 1 :=
    ⟨(total + size - 1) / size - 1, by omega⟩
  rw [shape, Nat.succ_mul] at below above
  simp only [divCeil, shape, Nat.add_sub_cancel, Nat.succ_mul]
  omega

/-- The length of a valid layout fixes the number of its segments. -/
theorem MessageLayout.Valid.segmentCount_eq
    {layout : MessageLayout}
    (valid : layout.Valid) :
    layout.segmentCount =
      divCeil (layout.ciphertextLength - 74)
        layout.parameters.ciphertextSegmentLength := by
  have whole := valid.ciphertext_eq
  have nonzero := valid.count_pos
  have reached := valid.reached
  have within := valid.within
  have before :=
    layout.parameters.mul_segmentLength (layout.segmentCount - 1)
  have after := layout.parameters.mul_segmentLength layout.segmentCount
  obtain ⟨preceding, shape⟩ :
      ∃ preceding, layout.segmentCount = preceding + 1 :=
    ⟨layout.segmentCount - 1, by omega⟩
  rw [shape] at whole within after before reached ⊢
  rw [Nat.add_sub_cancel] at before reached
  exact (divCeil_eq (by omega) (by omega)).symm

/-- There is one valid layout of a length. -/
theorem MessageLayout.Valid.unique
    {first second : MessageLayout}
    (firstValid : first.Valid)
    (secondValid : second.Valid)
    (parameters : first.parameters = second.parameters)
    (length : first.ciphertextLength = second.ciphertextLength) :
    first = second := by
  have count : first.segmentCount = second.segmentCount := by
    rw [firstValid.segmentCount_eq, secondValid.segmentCount_eq, parameters,
      length]
  have plaintext : first.plaintextLength = second.plaintextLength := by
    have firstWhole := firstValid.ciphertext_eq
    have secondWhole := secondValid.ciphertext_eq
    omega
  cases first
  cases second
  simp_all

/-- `ciphertext_layout` of a `u64` length comes back, and it returns exactly
the valid layout of that length. -/
theorem Parameters.ciphertextLayout_spec
    (target : Target)
    (parameters : Parameters)
    {length : Nat}
    (representable : length ≤ u64Max) :
    (∃ layout,
        parameters.ciphertextLayout target length = .ok layout ∧
          layout.Valid ∧ layout.parameters = parameters ∧
          layout.ciphertextLength = length) ∨
      ((∃ error,
          parameters.ciphertextLayout target length =
            .error (.err error)) ∧
        ∀ layout : MessageLayout,
          layout.Valid → layout.parameters = parameters →
            layout.ciphertextLength ≠ length) := by
  have size := parameters.plaintextSegmentLength_add
  have full : 0 < parameters.ciphertextSegmentLength := by omega
  unfold ciphertextLayout
  by_cases room : headerLength ≤ length
  · rw [headerLength_eq] at room
    simp only [checkedSub, headerLength_eq, room, ↓reduceIte, Outcome.okOr,
      Outcome.ok_bind]
    by_cases empty : length - 74 = 0
    · refine .inr ⟨by simp [empty], ?_⟩
      rintro layout valid rfl rfl
      have whole := valid.ciphertext_eq
      have positive := valid.count_pos
      omega
    obtain ⟨positive, below, above⟩ :=
      divCeil_bounds full (Nat.pos_of_ne_zero empty)
    simp only [empty, ↓reduceIte]
    generalize counted :
      divCeil (length - 74) parameters.ciphertextSegmentLength = count
      at positive below above
    have belowPayload := parameters.mul_segmentLength (count - 1)
    have abovePayload := parameters.mul_segmentLength count
    have unique {layout : MessageLayout} (valid : layout.Valid)
        (same : layout.parameters = parameters)
        (exact : layout.ciphertextLength = length) :
        layout.segmentCount = count := by
      rw [valid.segmentCount_eq, same, exact]
      exact counted
    by_cases many : count > aeadMaxSegments
    · refine .inr ⟨by simp [many], ?_⟩
      intro layout valid same exact
      have bounded := valid.count_le
      rw [unique valid same exact] at bounded
      omega
    have multiplied :
        (count - 1) * parameters.ciphertextSegmentLength ≤ u64Max := by
      omega
    simp only [many, ↓reduceIte, sub_eq positive, Outcome.ok_bind,
      mul_eq multiplied, sub_eq (Nat.le_of_lt below)]
    by_cases short :
        length - 74 - (count - 1) * parameters.ciphertextSegmentLength <
          segmentOverhead
    · refine .inr ⟨by simp [short], ?_⟩
      intro layout valid same exact
      have reached := valid.reached
      have whole := valid.ciphertext_eq
      rw [unique valid same exact, same] at reached
      rw [unique valid same exact] at whole
      rw [segmentOverhead_eq] at short
      omega
    rw [segmentOverhead_eq] at short
    have framing : count * 32 ≤ u64Max := by omega
    have payload : count * 32 ≤ length - 74 := by omega
    simp only [segmentOverhead_eq, short, ↓reduceIte, checkedMul, framing,
      payload, Outcome.ok_bind]
    exact .inl ⟨_, rfl, ⟨positive, Nat.le_of_not_gt many, by simp only; omega,
      by simp only; omega, by simp only; omega, representable⟩, rfl, rfl⟩
  · refine .inr ⟨by simp [checkedSub, room, Outcome.okOr], ?_⟩
    rintro layout valid rfl rfl
    have whole := valid.ciphertext_eq
    rw [headerLength_eq] at room
    omega

/-- `plaintext_layout` comes back, and what it returns is a valid layout with
one segment for each block of the plaintext, and one for an empty plaintext.  It
refuses only too many segments and too long a message. -/
theorem Parameters.plaintextLayout_spec
    (parameters : Parameters)
    (plaintextLength : Nat) :
    (∃ layout,
        parameters.plaintextLayout plaintextLength = .ok layout ∧
          layout.Valid ∧ layout.parameters = parameters ∧
          layout.plaintextLength = plaintextLength ∧
          layout.segmentCount =
            max (divCeil plaintextLength parameters.plaintextSegmentLength)
              1) ∨
      ((∃ error,
          parameters.plaintextLayout plaintextLength =
            .error (.err error)) ∧
        ¬ (max (divCeil plaintextLength parameters.plaintextSegmentLength) 1 ≤
              aeadMaxSegments ∧
            74 + plaintextLength +
                32 *
                  max
                    (divCeil plaintextLength
                      parameters.plaintextSegmentLength) 1 ≤
              u64Max)) := by
  have bounds := parameters.segmentLength_bounds
  unfold plaintextLayout
  generalize counted :
    max (divCeil plaintextLength parameters.plaintextSegmentLength) 1 = count
  have positive : 0 < count := by omega
  have reached :
      (count - 1) * parameters.plaintextSegmentLength ≤ plaintextLength ∧
        plaintextLength ≤ count * parameters.plaintextSegmentLength := by
    rcases Nat.eq_zero_or_pos plaintextLength with rfl | nonzero
    · have none : divCeil 0 parameters.plaintextSegmentLength = 0 :=
        Nat.div_eq_of_lt (by omega)
      rw [none] at counted
      subst counted
      simp
    · obtain ⟨some, below, above⟩ :=
        divCeil_bounds
          (show 0 < parameters.plaintextSegmentLength by omega) nonzero
      have same :
          divCeil plaintextLength parameters.plaintextSegmentLength =
            count := by
        omega
      rw [same] at below above
      exact ⟨Nat.le_of_lt below, above⟩
  by_cases many : count > aeadMaxSegments
  · exact .inr ⟨⟨.segmentLimit, by simp [many]⟩, by omega⟩
  have framing : count * 32 ≤ u64Max := by
    have limit : aeadMaxSegments * 32 ≤ u64Max := by decide
    omega
  simp only [many, ↓reduceIte, checkedMul, segmentOverhead_eq, framing,
    Outcome.okOr, Outcome.ok_bind, checkedAdd, headerLength_eq]
  by_cases first : 74 + plaintextLength ≤ u64Max
  · by_cases second : 74 + plaintextLength + count * 32 ≤ u64Max
    · simp only [first, second, ↓reduceIte, Option.bind_some, Outcome.ok_bind]
      exact .inl ⟨_, rfl, ⟨positive, Nat.le_of_not_gt many, reached.1,
        reached.2, by simp only; omega, second⟩, rfl, rfl, rfl⟩
    · exact .inr ⟨⟨.lengthOverflow, by simp [first, second]⟩, by omega⟩
  · exact .inr ⟨⟨.lengthOverflow, by simp [first]⟩, by omega⟩

/-- What `ciphertext_layout` returns is the valid layout of its length. -/
theorem Parameters.ciphertextLayout_eq_ok
    {target : Target}
    {parameters : Parameters}
    {length : Nat}
    {layout : MessageLayout}
    (representable : length ≤ u64Max)
    (calculated : parameters.ciphertextLayout target length = .ok layout) :
    layout.Valid ∧ layout.parameters = parameters ∧
      layout.ciphertextLength = length := by
  rcases parameters.ciphertextLayout_spec target representable with
    ⟨other, calculated', properties⟩ | ⟨⟨error, refused⟩, _⟩
  · rw [calculated'] at calculated
    cases calculated
    exact properties
  · rw [refused] at calculated
    cases calculated

/-- What `plaintext_layout` returns is the valid layout of its length with the
fewest segments. -/
theorem Parameters.plaintextLayout_eq_ok
    {parameters : Parameters}
    {length : Nat}
    {layout : MessageLayout}
    (calculated : parameters.plaintextLayout length = .ok layout) :
    layout.Valid ∧ layout.parameters = parameters ∧
      layout.plaintextLength = length ∧
      layout.segmentCount =
        max (divCeil length parameters.plaintextSegmentLength) 1 := by
  rcases parameters.plaintextLayout_spec length with
    ⟨other, calculated', properties⟩ | ⟨⟨error, refused⟩, _⟩
  · rw [calculated'] at calculated
    cases calculated
    exact properties
  · rw [refused] at calculated
    cases calculated

/-- `ciphertext_layout` returns every valid layout for its length. -/
theorem MessageLayout.Valid.ciphertextLayout_eq
    {layout : MessageLayout}
    (valid : layout.Valid)
    (target : Target) :
    layout.parameters.ciphertextLayout target layout.ciphertextLength =
      .ok layout := by
  rcases layout.parameters.ciphertextLayout_spec target
      valid.representable with
    ⟨other, calculated, otherValid, parameters, length⟩ | ⟨_, absent⟩
  · rw [calculated, otherValid.unique valid parameters length]
  · exact (absent layout valid rfl rfl).elim

/-- `plaintext_layout` returns every valid layout for its length that has no
more segments than needed. -/
theorem MessageLayout.Valid.plaintextLayout_eq
    {layout : MessageLayout}
    (valid : layout.Valid)
    (count :
      layout.segmentCount =
        max
          (divCeil layout.plaintextLength
            layout.parameters.plaintextSegmentLength) 1) :
    layout.parameters.plaintextLayout layout.plaintextLength =
      .ok layout := by
  have whole := valid.ciphertext_eq
  have representable := valid.representable
  have bounded := valid.count_le
  rcases layout.parameters.plaintextLayout_spec layout.plaintextLength with
    ⟨other, calculated, otherValid, parameters, length, otherCount⟩ |
      ⟨_, refused⟩
  · have otherWhole := otherValid.ciphertext_eq
    rw [length, otherCount, ← count] at otherWhole
    rw [calculated,
      otherValid.unique valid parameters (otherWhole.trans whole.symm)]
  · rw [← count] at refused
    omega

end FastFloe
