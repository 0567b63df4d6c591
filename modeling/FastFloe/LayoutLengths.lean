import FastFloe.Layouts

namespace FastFloe

open Rust

/-!
# The two layout calculations as inverses

One calculation divides a plaintext length by the payload size, the other a
ciphertext length by the segment size.  They accept exactly the lengths of
messages, and undo each other except at an empty final segment behind full
ones.
-/

/-- The segments that a plaintext needs; an empty one needs one. -/
def Parameters.segmentsNeeded (parameters : Parameters)
    (plaintextLength : Nat) : Nat :=
  max
    ((plaintextLength + (parameters.ciphertextSegmentLength - 32) - 1) /
      (parameters.ciphertextSegmentLength - 32)) 1

/-- A ciphertext length is a header, full segments and one last segment. -/
structure Parameters.Decomposes (parameters : Parameters)
    (ciphertextLength full final : Nat) : Prop where
  total :
    ciphertextLength = 74 + full * parameters.ciphertextSegmentLength + final
  count : full + 1 ≤ 2 ^ 40
  minimum : 32 ≤ final
  maximum : final ≤ parameters.ciphertextSegmentLength

section Lengths

variable {parameters : Parameters} {ciphertextLength full final : Nat}

theorem Parameters.segmentsNeeded_eq
    (parameters : Parameters)
    (plaintextLength : Nat) :
    parameters.segmentsNeeded plaintextLength =
      max (divCeil plaintextLength parameters.plaintextSegmentLength) 1 :=
  rfl

/-- The layout of a decomposed length. -/
def Parameters.layoutOf (parameters : Parameters) (full final : Nat) :
    MessageLayout where
  parameters := parameters
  plaintextLength :=
    full * (parameters.ciphertextSegmentLength - 32) + final - 32
  ciphertextLength :=
    74 + full * parameters.ciphertextSegmentLength + final
  segmentCount := full + 1

theorem Parameters.Decomposes.valid
    (decomposes : parameters.Decomposes ciphertextLength full final)
    (representable : ciphertextLength ≤ u64Max) :
    (parameters.layoutOf full final).Valid := by
  have size := parameters.plaintextSegmentLength_add
  have scaled := parameters.mul_segmentLength full
  have total := decomposes.total
  have count := decomposes.count
  have minimum := decomposes.minimum
  have maximum := decomposes.maximum
  have payload :
      parameters.ciphertextSegmentLength - 32 =
        parameters.plaintextSegmentLength := by
    omega
  simp only [layoutOf, payload]
  refine ⟨?_, ?_, ?_, ?_, ?_, ?_⟩
  · exact Nat.succ_pos _
  · exact count
  · simp only [Nat.add_sub_cancel]
    omega
  · simp only [Nat.succ_mul]
    omega
  · simp only
    omega
  · simp only
    omega

/-- `ciphertext_layout` returns the layout of a decomposed length. -/
theorem Parameters.Decomposes.ciphertextLayout_eq
    (decomposes : parameters.Decomposes ciphertextLength full final)
    (representable : ciphertextLength ≤ u64Max)
    (target : Target) :
    parameters.ciphertextLayout target ciphertextLength =
      .ok (parameters.layoutOf full final) := by
  have calculated :=
    (decomposes.valid representable).ciphertextLayout_eq target
  rw [decomposes.total]
  exact calculated

/-- A length decomposes in one way. -/
theorem Parameters.Decomposes.unique
    {full' final' : Nat}
    (decomposes : parameters.Decomposes ciphertextLength full final)
    (decomposes' : parameters.Decomposes ciphertextLength full' final') :
    full = full' ∧ final = final' := by
  have count {first second firstFinal secondFinal : Nat}
      (one : parameters.Decomposes ciphertextLength first firstFinal)
      (other : parameters.Decomposes ciphertextLength second secondFinal) :
      first ≤ second := by
    by_contra more
    have monotone :=
      Nat.mul_le_mul_right parameters.ciphertextSegmentLength
        (show second + 1 ≤ first by omega)
    have total := one.total
    have otherTotal := other.total
    have minimum := one.minimum
    have maximum := other.maximum
    rw [Nat.succ_mul] at monotone
    omega
  have same : full = full' :=
    Nat.le_antisymm (count decomposes decomposes')
      (count decomposes' decomposes)
  have total := decomposes.total
  have total' := decomposes'.total
  rw [same] at total
  exact ⟨same, by omega⟩

/-- The length of a valid layout decomposes. -/
theorem MessageLayout.Valid.decomposes
    {layout : MessageLayout}
    (valid : layout.Valid) :
    ∃ full final,
      layout.parameters.Decomposes layout.ciphertextLength full final := by
  have size := layout.parameters.plaintextSegmentLength_add
  have whole := valid.ciphertext_eq
  have positive := valid.count_pos
  have bounded : layout.segmentCount ≤ 2 ^ 40 := valid.count_le
  have reached := valid.reached
  have within := valid.within
  obtain ⟨full, count⟩ : ∃ full, layout.segmentCount = full + 1 :=
    ⟨layout.segmentCount - 1, by omega⟩
  rw [count, Nat.succ_mul] at within
  rw [count, Nat.add_sub_cancel] at reached
  have scaled := layout.parameters.mul_segmentLength full
  exact ⟨full,
    layout.ciphertextLength - 74 -
      full * layout.parameters.ciphertextSegmentLength,
    by omega, by omega, by omega, by omega⟩

/-- `plaintext_layout` of a decomposed length's plaintext gives the layout back,
unless an empty final segment follows full ones. -/
theorem Parameters.Decomposes.plaintextLayout_eq
    (decomposes : parameters.Decomposes ciphertextLength full final)
    (representable : ciphertextLength ≤ u64Max)
    (needed : ¬ (1 ≤ full ∧ final = 32)) :
    parameters.plaintextLayout (parameters.layoutOf full final).plaintextLength =
      .ok (parameters.layoutOf full final) := by
  have size := parameters.plaintextSegmentLength_add
  have minimum := decomposes.minimum
  have maximum := decomposes.maximum
  have payload :
      parameters.ciphertextSegmentLength - 32 =
        parameters.plaintextSegmentLength := by
    omega
  refine (decomposes.valid representable).plaintextLayout_eq ?_
  simp only [layoutOf, payload]
  rcases Nat.eq_or_lt_of_le minimum with empty | some
  · have none : full = 0 := by omega
    subst none empty
    have zero : divCeil 0 parameters.plaintextSegmentLength = 0 :=
      Nat.div_eq_of_lt (by
        have bounds := parameters.segmentLength_bounds
        omega)
    simp [zero]
  · have counted :
        divCeil (full * parameters.plaintextSegmentLength + final - 32)
            parameters.plaintextSegmentLength = full + 1 :=
      divCeil_eq (by omega) (by
        rw [Nat.succ_mul]
        omega)
    rw [counted]
    omega

/-- Without its empty final segment a length decomposes, too. -/
theorem Parameters.Decomposes.shorter
    (decomposes : parameters.Decomposes ciphertextLength (full + 1) 32) :
    parameters.Decomposes (ciphertextLength - 32) full
      parameters.ciphertextSegmentLength := by
  have size := parameters.plaintextSegmentLength_add
  have total := decomposes.total
  have count := decomposes.count
  rw [Nat.succ_mul] at total
  exact ⟨by omega, by omega, by omega, Nat.le_refl _⟩

/-- The two have the same plaintext. -/
theorem Parameters.layoutOf_shorter
    (parameters : Parameters)
    (full : Nat) :
    (parameters.layoutOf (full + 1) 32).plaintextLength =
      (parameters.layoutOf full
        parameters.ciphertextSegmentLength).plaintextLength := by
  have size := parameters.plaintextSegmentLength_add
  simp only [layoutOf, Nat.succ_mul]
  omega

/-- `plaintext_layout` accepts the lengths whose segments and whose message
fit. -/
theorem Parameters.plaintextLayout_isOk_iff
    (parameters : Parameters)
    (plaintextLength : Nat) :
    (∃ layout, parameters.plaintextLayout plaintextLength = .ok layout) ↔
      parameters.segmentsNeeded plaintextLength ≤ 2 ^ 40 ∧
        74 + plaintextLength +
            32 * parameters.segmentsNeeded plaintextLength ≤ u64Max := by
  rw [parameters.segmentsNeeded_eq]
  rcases parameters.plaintextLayout_spec plaintextLength with
    ⟨layout, calculated, valid, _, length, count⟩ |
      ⟨⟨error, refused⟩, exceeds⟩
  · have whole := valid.ciphertext_eq
    have representable := valid.representable
    rw [← count, ← length]
    exact ⟨fun _ => ⟨valid.count_le, by omega⟩, fun _ =>
      ⟨layout, length ▸ calculated⟩⟩
  · constructor
    · rintro ⟨layout, calculated⟩
      rw [refused] at calculated
      cases calculated
    · exact fun fits => (exceeds fits).elim

/-- What `plaintext_layout` returns, `ciphertext_layout` returns for its
length. -/
theorem Parameters.ciphertextLayout_of_plaintextLayout
    {plaintextLength : Nat}
    {layout : MessageLayout}
    (target : Target)
    (calculated :
      parameters.plaintextLayout plaintextLength = .ok layout) :
    parameters.ciphertextLayout target layout.ciphertextLength =
      .ok layout := by
  obtain ⟨valid, same, _⟩ := Parameters.plaintextLayout_eq_ok calculated
  rw [← same]
  exact valid.ciphertextLayout_eq target

/-- `ciphertext_layout` accepts the lengths that decompose. -/
theorem Parameters.ciphertextLayout_isOk_iff
    (target : Target)
    (parameters : Parameters)
    (representable : ciphertextLength ≤ u64Max) :
    (∃ layout,
        parameters.ciphertextLayout target ciphertextLength = .ok layout) ↔
      ∃ full final, parameters.Decomposes ciphertextLength full final := by
  constructor
  · rintro ⟨layout, calculated⟩
    obtain ⟨valid, rfl, rfl⟩ :=
      Parameters.ciphertextLayout_eq_ok representable calculated
    exact valid.decomposes
  · rintro ⟨full, final, decomposes⟩
    exact ⟨_, decomposes.ciphertextLayout_eq representable target⟩

/-- The length of the message that `plaintext_layout` lays out. -/
theorem Parameters.ciphertextLength_of_plaintextLayout
    {plaintextLength : Nat}
    {layout : MessageLayout}
    (calculated :
      parameters.plaintextLayout plaintextLength = .ok layout) :
    layout.ciphertextLength =
      74 + plaintextLength +
        32 * parameters.segmentsNeeded plaintextLength := by
  obtain ⟨valid, _, same, count⟩ :=
    Parameters.plaintextLayout_eq_ok calculated
  rw [valid.ciphertext_eq, same, count, parameters.segmentsNeeded_eq]

/-- A longer plaintext has a longer ciphertext. -/
theorem Parameters.ciphertextLength_lt
    {shorter longer : Nat}
    {shorterLayout longerLayout : MessageLayout}
    (before : shorter < longer)
    (shorterCalculated :
      parameters.plaintextLayout shorter = .ok shorterLayout)
    (longerCalculated :
      parameters.plaintextLayout longer = .ok longerLayout) :
    shorterLayout.ciphertextLength < longerLayout.ciphertextLength := by
  have monotone :
      parameters.segmentsNeeded shorter ≤ parameters.segmentsNeeded longer :=
    max_le_max_right 1 (Nat.div_le_div_right (by omega))
  rw [Parameters.ciphertextLength_of_plaintextLayout shorterCalculated,
    Parameters.ciphertextLength_of_plaintextLayout longerCalculated]
  omega

end Lengths

/-- The layout calculations accept exactly the lengths of messages, and each
gives back what the other returned, except that a plaintext length never asks
for an empty final segment behind a full one. -/
theorem layouts_inverse
    (target : Target)
    (parameters : Parameters) :
    (∀ plaintextLength,
        ((∃ layout,
            parameters.plaintextLayout plaintextLength = .ok layout) ↔
          parameters.segmentsNeeded plaintextLength ≤ 2 ^ 40 ∧
            74 + plaintextLength +
                32 * parameters.segmentsNeeded plaintextLength ≤ u64Max) ∧
          ∀ layout,
            parameters.plaintextLayout plaintextLength = .ok layout →
              parameters.ciphertextLayout target layout.ciphertextLength =
                .ok layout) ∧
      (∀ ciphertextLength, ciphertextLength ≤ u64Max →
        ((∃ layout,
            parameters.ciphertextLayout target ciphertextLength =
              .ok layout) ↔
          ∃ full final,
            parameters.Decomposes ciphertextLength full final) ∧
          ∀ full final,
            parameters.Decomposes ciphertextLength full final →
              (∀ full' final',
                parameters.Decomposes ciphertextLength full' final' →
                  full = full' ∧ final = final') ∧
              ∃ layout,
                parameters.ciphertextLayout target ciphertextLength =
                    .ok layout ∧
                  layout.segmentCount = full + 1 ∧
                  layout.plaintextLength =
                    full * (parameters.ciphertextSegmentLength - 32) +
                      final - 32 ∧
                  (¬ (1 ≤ full ∧ final = 32) →
                    parameters.plaintextLayout layout.plaintextLength =
                      .ok layout) ∧
                  (1 ≤ full ∧ final = 32 →
                    ∃ shorter,
                      parameters.ciphertextLayout target
                          (ciphertextLength - 32) = .ok shorter ∧
                        parameters.plaintextLayout layout.plaintextLength =
                          .ok shorter)) ∧
      ∀ shorter longer shorterLayout longerLayout,
        shorter < longer →
          parameters.plaintextLayout shorter = .ok shorterLayout →
            parameters.plaintextLayout longer = .ok longerLayout →
              shorterLayout.ciphertextLength <
                longerLayout.ciphertextLength := by
  refine ⟨?_, ?_, ?_⟩
  · intro plaintextLength
    exact ⟨parameters.plaintextLayout_isOk_iff plaintextLength,
      fun _ => Parameters.ciphertextLayout_of_plaintextLayout target⟩
  · intro ciphertextLength representable
    refine ⟨parameters.ciphertextLayout_isOk_iff target representable, ?_⟩
    intro full final decomposes
    refine ⟨fun _ _ => decomposes.unique, parameters.layoutOf full final,
      decomposes.ciphertextLayout_eq representable target, rfl, rfl,
      decomposes.plaintextLayout_eq representable, ?_⟩
    rintro ⟨some, rfl⟩
    obtain ⟨preceding, rfl⟩ : ∃ preceding, full = preceding + 1 :=
      ⟨full - 1, by omega⟩
    have remaining := decomposes.shorter
    have fits : ciphertextLength - 32 ≤ u64Max := by omega
    have minimum := parameters.minimum_le
    refine ⟨_, remaining.ciphertextLayout_eq fits target, ?_⟩
    rw [parameters.layoutOf_shorter]
    exact remaining.plaintextLayout_eq fits (by omega)
  · intro shorter longer shorterLayout longerLayout
    exact Parameters.ciphertextLength_lt

end FastFloe
