import FastFloe.Layouts
import FastFloe.Library.Tiling

namespace FastFloe

open Rust

/-!
# Layouts tile their messages

The segments of a layout cut the plaintext and the ciphertext body into
intervals that follow each other without gaps, and no calculation on a layout
that the crate returns overflows on either target.
-/

/-- The plaintext interval of a segment. -/
def SegmentLayout.plaintextPiece (segment : SegmentLayout) : Nat × Nat :=
  (segment.plaintextOffset, segment.plaintextLength)

/-- The ciphertext interval of a segment. -/
def SegmentLayout.ciphertextPiece (segment : SegmentLayout) : Nat × Nat :=
  (segment.ciphertextOffset, segment.ciphertextLength)

/-- A segment has the kind and the lengths of its position in a layout. -/
structure SegmentLayout.FitsIn (segment : SegmentLayout)
    (layout : MessageLayout) (position : Nat) : Prop where
  parameters : segment.parameters = layout.parameters
  place : segment.position = position
  kind : segment.kind = .final ↔ position + 1 = layout.segmentCount
  full : segment.kind = .nonFinal →
    segment.plaintextLength =
        layout.parameters.ciphertextSegmentLength - 32 ∧
      segment.ciphertextLength = layout.parameters.ciphertextSegmentLength
  short :
    segment.plaintextLength ≤ layout.parameters.ciphertextSegmentLength - 32
  overhead : segment.ciphertextLength = segment.plaintextLength + 32

/-- Everything that a message layout computes comes back, and its segments tile
the message. -/
structure MessageLayout.TilesMessage (target : Target)
    (layout : MessageLayout) : Prop where
  /-- No lookup overflows, and it finds exactly the positions of the message. -/
  found : ∀ position,
    (position < layout.segmentCount ∧
        ∃ segment,
          layout.segmentForPosition target position = .ok (some segment) ∧
            layout.segmentAt target position = .ok segment ∧
            segment.FitsIn layout position) ∨
      (layout.segmentCount ≤ position ∧
        layout.segmentForPosition target position = .ok none)
  final :
    ∃ segment,
      layout.finalSegment target = .ok segment ∧ segment.kind = .final
  tiles :
    ∃ segments,
      layout.segments target = .ok segments ∧
        segments.length = layout.segmentCount ∧
        (∀ position segment,
          segments[position]? = some segment ↔
            layout.segmentForPosition target position =
              .ok (some segment)) ∧
        Tiling.Tiles 0 (segments.map SegmentLayout.plaintextPiece)
          layout.plaintextLength ∧
        Tiling.Tiles 74 (segments.map SegmentLayout.ciphertextPiece)
          layout.ciphertextLength ∧
        ∀ offset,
          ((∃ segment ∈ segments,
              Tiling.Contains segment.plaintextPiece offset) ↔
            offset < layout.plaintextLength) ∧
          ((∃ segment ∈ segments,
              Tiling.Contains segment.ciphertextPiece offset) ↔
            74 ≤ offset ∧ offset < layout.ciphertextLength)
  /-- An offset of the plaintext lies in the one segment that is computed for
  it. -/
  located : ∀ offset, offset < layout.plaintextLength →
    ∀ position segment,
      layout.segmentForPosition target position = .ok (some segment) →
        (Tiling.Contains segment.plaintextPiece offset ↔
          position = layout.positionForPlaintextOffset offset)
  inside : ∀ offset, offset < layout.plaintextLength →
    layout.positionForPlaintextOffset offset < layout.segmentCount

/-- A list of calls that all succeed. -/
theorem mapM_eq_ok
    {ε α β : Type}
    {call : α → Outcome ε β}
    {value : α → β}
    {items : List α}
    (succeed : ∀ item ∈ items, call item = .ok (value item)) :
    items.mapM call = .ok (items.map value) := by
  induction items with
  | nil =>
      rfl
  | cons item items inductionHypothesis =>
      have rest := inductionHypothesis fun later member =>
        succeed later (List.mem_cons_of_mem _ member)
      rw [List.mapM_cons, succeed item List.mem_cons_self, Outcome.ok_bind,
        rest, Outcome.ok_bind]
      rfl

section Entries

variable {layout : MessageLayout} {position : Nat}

theorem MessageLayout.Valid.entry_fitsIn
    (valid : layout.Valid)
    (inside : position < layout.segmentCount) :
    (layout.entry position).FitsIn layout position := by
  have size := layout.parameters.plaintextSegmentLength_add
  refine ⟨rfl, rfl, ?_, ?_, ?_, rfl⟩
  · simp only [entry, kindAt]
    split <;> simp_all
  · intro kind
    have before : position + 1 < layout.segmentCount := by
      simp only [entry, kindAt] at kind
      split at kind
      · cases kind
      · omega
    have full := (valid.full before).1
    simp only [entry] at full ⊢
    omega
  · simp only [entry]
    omega

/-- `segments` returns the entries in order. -/
theorem MessageLayout.Valid.segments_eq
    (valid : layout.Valid)
    (target : Target) :
    layout.segments target =
      .ok ((List.range layout.segmentCount).map layout.entry) := by
  refine mapM_eq_ok fun position member => ?_
  simp only [segmentAt, Outcome.ok_bind, Outcome.expect,
    valid.segmentForPosition_eq target (List.mem_range.mp member)]

/-- The plaintext intervals follow each other over the whole plaintext. -/
theorem MessageLayout.Valid.tiles_plaintext
    (valid : layout.Valid) :
    Tiling.Tiles 0
      (((List.range layout.segmentCount).map layout.entry).map
        SegmentLayout.plaintextPiece)
      layout.plaintextLength := by
  rw [List.map_map]
  have positive := valid.count_pos
  have isLast : layout.segmentCount - 1 + 1 = layout.segmentCount := by
    omega
  obtain ⟨start, length⟩ := valid.last isLast
  have tiles :=
    @Tiling.tiles_range 0
      (fun position => (layout.entry position).plaintextPiece)
      layout.segmentCount (Nat.zero_mul _) (fun position before => by
        have full := (valid.full before).1
        simp only [SegmentLayout.plaintextPiece, full]
        exact Nat.succ_mul _ _)
  have stop :
      (layout.entry (layout.segmentCount - 1)).plaintextPiece.1 +
          (layout.entry (layout.segmentCount - 1)).plaintextPiece.2 =
        layout.plaintextLength := by
    simp only [SegmentLayout.plaintextPiece, length]
    exact Nat.add_sub_cancel' start
  rwa [if_neg (by omega), stop] at tiles

/-- The ciphertext intervals follow each other over the whole body. -/
theorem MessageLayout.Valid.tiles_ciphertext
    (valid : layout.Valid) :
    Tiling.Tiles 74
      (((List.range layout.segmentCount).map layout.entry).map
        SegmentLayout.ciphertextPiece)
      layout.ciphertextLength := by
  rw [List.map_map]
  have positive := valid.count_pos
  have size := layout.parameters.plaintextSegmentLength_add
  have whole := valid.ciphertext_eq
  have isLast : layout.segmentCount - 1 + 1 = layout.segmentCount := by
    omega
  obtain ⟨start, length⟩ := valid.last isLast
  have scaled :=
    layout.parameters.mul_segmentLength (layout.segmentCount - 1)
  have begins :
      (layout.entry 0).ciphertextPiece.1 = 74 := by
    simp only [SegmentLayout.ciphertextPiece, entry, Nat.zero_mul,
      Nat.add_zero]
  have tiles :=
    @Tiling.tiles_range 74
      (fun position => (layout.entry position).ciphertextPiece)
      layout.segmentCount begins (fun position before => by
        have full := (valid.full before).1
        have next :
            (position + 1) * layout.parameters.ciphertextSegmentLength =
              position * layout.parameters.ciphertextSegmentLength +
                layout.parameters.ciphertextSegmentLength :=
          Nat.succ_mul _ _
        simp only [entry] at full
        simp only [SegmentLayout.ciphertextPiece, entry, full, size]
        omega)
  have stop :
      (layout.entry (layout.segmentCount - 1)).ciphertextPiece.1 +
          (layout.entry (layout.segmentCount - 1)).ciphertextPiece.2 =
        layout.ciphertextLength := by
    simp only [entry] at length
    simp only [SegmentLayout.ciphertextPiece, entry, length]
    omega
  rwa [if_neg (by omega), stop] at tiles

/-- An offset lies in the segment that division finds. -/
theorem MessageLayout.contains_entry_iff
    {offset : Nat}
    (inside : offset < layout.plaintextLength) :
    Tiling.Contains (layout.entry position).plaintextPiece offset ↔
      position = layout.positionForPlaintextOffset offset := by
  have bounds := layout.parameters.segmentLength_bounds
  have positive : 0 < layout.parameters.plaintextSegmentLength := by omega
  have below :=
    Nat.div_mul_le_self offset layout.parameters.plaintextSegmentLength
  have above := @Nat.lt_div_mul_add offset
    layout.parameters.plaintextSegmentLength positive
  simp only [Tiling.Contains, SegmentLayout.plaintextPiece, entry,
    positionForPlaintextOffset]
  constructor
  · rintro ⟨after, before⟩
    refine (Nat.div_eq_of_lt_le after ?_).symm
    rw [Nat.succ_mul]
    omega
  · rintro rfl
    omega

/-- Division finds a segment of the message. -/
theorem MessageLayout.Valid.positionForPlaintextOffset_lt
    {offset : Nat}
    (valid : layout.Valid)
    (inside : offset < layout.plaintextLength) :
    layout.positionForPlaintextOffset offset < layout.segmentCount :=
  Nat.div_lt_of_lt_mul
    (Nat.lt_of_lt_of_le inside
      (Nat.mul_comm _ _ ▸ valid.within))

/-- A valid layout tiles its message. -/
theorem MessageLayout.Valid.tilesMessage
    (valid : layout.Valid)
    (target : Target) :
    layout.TilesMessage target := by
  have positive := valid.count_pos
  have lookup (position : Nat) :
      (position < layout.segmentCount ∧
          layout.segmentForPosition target position =
            .ok (some (layout.entry position))) ∨
        (layout.segmentCount ≤ position ∧
          layout.segmentForPosition target position = .ok none) := by
    by_cases inside : position < layout.segmentCount
    · exact .inl ⟨inside, valid.segmentForPosition_eq target inside⟩
    · exact .inr ⟨Nat.le_of_not_lt inside,
        segmentForPosition_none target (Nat.le_of_not_lt inside)⟩
  have found {position : Nat} {segment : SegmentLayout} :
      layout.segmentForPosition target position = .ok (some segment) ↔
        position < layout.segmentCount ∧
          layout.entry position = segment := by
    rcases lookup position with ⟨inside, here⟩ | ⟨outside, here⟩
    · simp [here, inside]
    · simp [here, Nat.not_lt.mpr outside]
  have tilesPlaintext := valid.tiles_plaintext
  have tilesCiphertext := valid.tiles_ciphertext
  refine ⟨?_, ⟨_, valid.finalSegment_eq target, ?_⟩,
    ⟨_, valid.segments_eq target, by simp, ?_, tilesPlaintext,
      tilesCiphertext, ?_⟩, ?_,
    fun offset => valid.positionForPlaintextOffset_lt⟩
  · intro position
    rcases lookup position with ⟨inside, here⟩ | outside
    · exact .inl ⟨inside, _, here, by
        simp only [segmentAt, here, Outcome.ok_bind, Outcome.expect],
        valid.entry_fitsIn inside⟩
    · exact .inr outside
  · exact if_pos (by omega)
  · intro position segment
    rw [found, List.getElem?_map, Option.map_eq_some_iff]
    constructor
    · rintro ⟨index, listed, same⟩
      obtain ⟨inside, rfl⟩ := List.getElem?_eq_some_iff.mp listed
      rw [List.length_range] at inside
      rw [List.getElem_range] at same
      exact ⟨inside, same⟩
    · rintro ⟨inside, same⟩
      exact ⟨position, List.getElem?_range inside, same⟩
  · intro offset
    have plaintext := @Tiling.Tiles.covers _ _ offset _ tilesPlaintext
    have ciphertext := @Tiling.Tiles.covers _ _ offset _ tilesCiphertext
    simp only [List.mem_map, exists_exists_and_eq_and]
      at plaintext ciphertext ⊢
    exact ⟨plaintext.trans (and_iff_right (Nat.zero_le _)), ciphertext⟩
  · intro offset inside position segment here
    obtain ⟨_, rfl⟩ := found.mp here
    exact contains_entry_iff inside

end Entries

/-- The two layout calculations come back on every `u64` length, and every
layout that they return tiles its message, on both targets. -/
theorem layouts_tileMessages
    (target : Target)
    (parameters : Parameters)
    (plaintextLength : Nat)
    {ciphertextLength : Nat}
    (representable : ciphertextLength ≤ u64Max) :
    (parameters.plaintextLayout plaintextLength).Returns ∧
      (parameters.ciphertextLayout target ciphertextLength).Returns ∧
      (∀ layout,
        parameters.plaintextLayout plaintextLength = .ok layout →
          layout.parameters = parameters ∧
            layout.plaintextLength = plaintextLength ∧
            layout.TilesMessage target) ∧
      ∀ layout,
        parameters.ciphertextLayout target ciphertextLength = .ok layout →
          layout.parameters = parameters ∧
            layout.ciphertextLength = ciphertextLength ∧
            layout.TilesMessage target := by
  have fromPlaintext := parameters.plaintextLayout_spec plaintextLength
  have fromCiphertext := parameters.ciphertextLayout_spec target representable
  refine ⟨?_, ?_, ?_, ?_⟩
  · rcases fromPlaintext with ⟨layout, calculated, _⟩ | ⟨⟨error, refused⟩, _⟩
    · rw [calculated]
      exact Outcome.returns_ok layout
    · rw [refused]
      exact Outcome.returns_err error
  · rcases fromCiphertext with ⟨layout, calculated, _⟩ | ⟨⟨error, refused⟩, _⟩
    · rw [calculated]
      exact Outcome.returns_ok layout
    · rw [refused]
      exact Outcome.returns_err error
  · intro layout calculated
    rcases fromPlaintext with
      ⟨other, calculated', valid, same, length, _⟩ | ⟨⟨error, refused⟩, _⟩
    · rw [calculated'] at calculated
      cases calculated
      exact ⟨same, length, valid.tilesMessage target⟩
    · rw [refused] at calculated
      cases calculated
  · intro layout calculated
    rcases fromCiphertext with
      ⟨other, calculated', valid, same, length⟩ | ⟨⟨error, refused⟩, _⟩
    · rw [calculated'] at calculated
      cases calculated
      exact ⟨same, length, valid.tilesMessage target⟩
    · rw [refused] at calculated
      cases calculated

/-- An empty final segment behind a full one, at the shortest segment
length. -/
theorem layouts_tileMessages_example :
    ∃ layout : MessageLayout,
      (⟨64, by decide, by decide⟩ : Parameters).ciphertextLayout .bits32
          170 = .ok layout ∧
        layout.segmentCount = 2 ∧ layout.TilesMessage .bits32 :=
  have tiled := (@layouts_tileMessages .bits32
    ⟨64, by decide, by decide⟩ 0 170 (by decide)).2.2.2 _ rfl
  ⟨_, rfl, rfl, tiled.2.2⟩

end FastFloe
