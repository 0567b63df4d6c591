import FastFloe.Library.Codes
import Mathlib.Order.Interval.Finset.Nat
import FastFloe.EncryptionPaths
import FastFloe.Integrity

namespace FastFloe

open Rust

/-!
# The key schedule binds its inputs

Every key and tag is derived under an info that begins with two fields of fixed
widths and ends with the AAD.  What stands between them is a word of a code in
which no word is the beginning of another one, so that the AAD cannot take a
part of it.
-/

/-- What a derived key or tag is for. -/
inductive Purpose where
  | headerTag
  | messageKey
  /-- The segments at the positions with this masked position. -/
  | segmentKey (maskedPosition : Nat)
  deriving Repr, DecidableEq

namespace Purpose

/-- The parts of the info between the IV and the AAD. -/
def parts : Purpose → List Bytes
  | .headerTag => [headerTagPurpose]
  | .messageKey => [messageKeyPurpose]
  | .segmentKey maskedPosition =>
      [segmentKeyPurpose, beBytes 8 maskedPosition]

/-- A masked position is an `u64`. -/
def InRange : Purpose → Prop
  | .segmentKey maskedPosition => maskedPosition ≤ u64Max
  | _ => True

/-- No purpose's bytes are the beginning of another one's. -/
theorem instantaneous_parts :
    Codes.Instantaneous InRange fun purpose => purpose.parts.flatten := by
  refine Codes.instantaneous_of_take 1 ?_ ?_
  · rintro (_ | _ | maskedPosition) _
    · decide
    · decide
    · simp [parts, segmentKeyPurpose]
  rintro (_ | _ | masked) (_ | _ | masked') firstRange secondRange head lead
  case segmentKey.segmentKey =>
    have whole := lead.eq_of_length (by
      simp only [parts, List.flatten_cons, List.flatten_nil,
        List.length_append, length_beBytes])
    simp only [parts, List.flatten_cons, List.flatten_nil,
      List.append_nil] at whole
    have wide : u64Max < 256 ^ 8 := by decide
    rw [beBytes_injective (Nat.lt_of_le_of_lt firstRange wide)
      (Nat.lt_of_le_of_lt secondRange wide)
      (List.append_cancel_left whole)]
  all_goals first
    | rfl
    | simp [parts, headerTagPurpose, messageKeyPurpose, segmentKeyPurpose]
        at head

end Purpose

/-- One derivation of a message: what it is for, and what it binds. -/
structure Derivation where
  purpose : Purpose
  parameters : Parameters
  floeIv : Octets floeIvLength
  aad : Bytes
  deriving DecidableEq

namespace Derivation

/-- The parts of the info handed to the key derivation function. -/
def info (self : Derivation) : List Bytes :=
  [self.parameters.encode.val, self.floeIv.val] ++ self.purpose.parts ++
    [self.aad]

/-- The derivation of the segment key for a position of a message. -/
def ofSegment (context : MessageContext) (position : Nat) : Derivation :=
  ⟨.segmentKey (context.parameters.maskedPosition position),
    context.parameters, context.floeIv, context.aad⟩

/-- The bytes of an info fix everything that it was made of. -/
theorem info_injective
    {first second : Derivation}
    (firstRange : first.purpose.InRange)
    (secondRange : second.purpose.InRange)
    (same : first.info.flatten = second.info.flatten) :
    first = second := by
  obtain ⟨purpose, parameters, floeIv, aad⟩ := first
  obtain ⟨purpose', parameters', floeIv', aad'⟩ := second
  simp only [info, List.cons_append, List.nil_append, List.flatten_cons,
    List.flatten_append, List.flatten_nil, List.append_nil] at same
  obtain ⟨sameParameters, same⟩ := List.append_inj same (by
    rw [Octets.length_val, Octets.length_val])
  obtain ⟨sameIv, same⟩ := List.append_inj same (by
    rw [Octets.length_val, Octets.length_val])
  obtain ⟨samePurpose, sameAad⟩ :=
    Purpose.instantaneous_parts.append_inj firstRange secondRange same
  rw [Derivation.mk.injEq]
  exact ⟨samePurpose, Parameters.encode_injective (Subtype.ext sameParameters),
    Subtype.ext sameIv, sameAad⟩

/-- Masked positions are of the width that the info has for them. -/
theorem inRange_ofSegment (context : MessageContext) (position : Nat) :
    (ofSegment context position).purpose.InRange :=
  Nat.le_trans Nat.and_le_right (by decide)

/-- The segments of one aligned run of positions have one info. -/
theorem info_ofSegment_iff
    {first second : Nat}
    (context : MessageContext)
    (firstInside : first < aeadMaxSegments)
    (secondInside : second < aeadMaxSegments) :
    (ofSegment context first).info.flatten =
        (ofSegment context second).info.flatten ↔
      first / 2 ^ 20 = second / 2 ^ 20 := by
  have masked {position : Nat} (inside : position < aeadMaxSegments) :
      context.parameters.maskedPosition position =
        position / 2 ^ 20 * 2 ^ 20 :=
    context.parameters.maskedPosition_eq inside
  constructor
  · intro same
    have equal := info_injective (inRange_ofSegment context first)
      (inRange_ofSegment context second) same
    have purpose := congrArg Derivation.purpose equal
    simp only [ofSegment, Purpose.segmentKey.injEq] at purpose
    rw [masked firstInside, masked secondInside] at purpose
    exact Nat.eq_of_mul_eq_mul_right (by decide) purpose
  · intro same
    have equal : ofSegment context first = ofSegment context second := by
      simp only [ofSegment, masked firstInside, masked secondInside, same]
    rw [equal]

/-- These positions are an aligned run of as many as rotation allows. -/
theorem card_sharing
    {position : Nat}
    (context : MessageContext)
    (inside : position < aeadMaxSegments) :
    ((Finset.range aeadMaxSegments).filter fun other =>
        (ofSegment context other).info.flatten =
          (ofSegment context position).info.flatten).card ≤
      2 ^ 20 := by
  have run :
      ((Finset.range aeadMaxSegments).filter fun other =>
          (ofSegment context other).info.flatten =
            (ofSegment context position).info.flatten) ⊆
        Finset.Ico (position / 2 ^ 20 * 2 ^ 20)
          (position / 2 ^ 20 * 2 ^ 20 + 2 ^ 20) := by
    intro other member
    obtain ⟨below, same⟩ := Finset.mem_filter.mp member
    have block :=
      (info_ofSegment_iff context (Finset.mem_range.mp below) inside).mp same
    rw [Finset.mem_Ico]
    omega
  have size := Finset.card_le_card run
  rw [Nat.card_Ico, Nat.add_sub_cancel_left] at size
  exact size

end Derivation

/-- The key schedule binds everything it must.  The three derivations hand the
key derivation function an info whose bytes fix the purpose, the parameters, the
IV, the AAD and the masked position.  Within one message two segments have the
same info exactly when their positions agree without the low twenty bits, which
at most `2 ^ 20` positions do, and the info together with the segment's AAD fixes
the position and the kind. -/
theorem keySchedule_binds :
    (∀ platform provider key parameters floeIv aad,
      deriveHeaderTag platform provider key parameters.encode floeIv aad =
          platform.expand provider headerTagLength key.bytes.val
            (Derivation.info ⟨.headerTag, parameters, floeIv, aad⟩) ∧
        deriveMessageKey platform provider key parameters.encode floeIv aad =
          platform.expand provider 48 key.bytes.val
            (Derivation.info ⟨.messageKey, parameters, floeIv, aad⟩)) ∧
    (∀ platform provider parameters messageKey floeIv aad maskedPosition,
      deriveSegmentKey platform provider parameters messageKey floeIv aad
          maskedPosition =
        platform.expand provider 32 messageKey.val
            (Derivation.info
              ⟨.segmentKey maskedPosition, parameters, floeIv, aad⟩) >>=
          AeadKey.new platform provider) ∧
    (∀ first second : Derivation,
      first.purpose.InRange → second.purpose.InRange →
        first.info.flatten = second.info.flatten → first = second) ∧
    (∀ context position,
      position < aeadMaxSegments →
        (Derivation.ofSegment context position).purpose.InRange ∧
        (∀ other,
          other < aeadMaxSegments →
            ((Derivation.ofSegment context position).info.flatten =
                (Derivation.ofSegment context other).info.flatten ↔
              position / 2 ^ 20 = other / 2 ^ 20)) ∧
        ((Finset.range aeadMaxSegments).filter fun other =>
            (Derivation.ofSegment context other).info.flatten =
              (Derivation.ofSegment context position).info.flatten).card ≤
          2 ^ 20 ∧
        ∀ other kind kind',
          other < aeadMaxSegments →
            (Derivation.ofSegment context position).info.flatten =
                (Derivation.ofSegment context other).info.flatten →
              segmentAad position kind = segmentAad other kind' →
                position = other ∧ kind = kind') := by
  refine ⟨fun _ _ _ _ _ _ => ⟨rfl, rfl⟩, fun _ _ _ _ _ _ _ => rfl, ?_, ?_⟩
  · intro first second firstRange secondRange same
    exact Derivation.info_injective firstRange secondRange same
  · intro context position inside
    refine ⟨Derivation.inRange_ofSegment context position, ?_,
      Derivation.card_sharing context inside, ?_⟩
    · intro other otherInside
      exact Derivation.info_ofSegment_iff context inside otherInside
    · intro other kind kind' otherInside _ same
      exact segmentAad_injective inside otherInside same

/-- The first key serves position `2 ^ 20 - 1` and not the next one. -/
theorem keySchedule_binds_example :
    (Derivation.ofSegment transparentContext 0).info.flatten =
        (Derivation.ofSegment transparentContext (2 ^ 20 - 1)).info.flatten ∧
      (Derivation.ofSegment transparentContext 0).info.flatten ≠
        (Derivation.ofSegment transparentContext (2 ^ 20)).info.flatten := by
  have shares := (keySchedule_binds.2.2.2 transparentContext 0 (by decide)).2.1
  exact ⟨(shares (2 ^ 20 - 1) (by decide)).mpr (by decide),
    fun same => absurd ((shares (2 ^ 20) (by decide)).mp same) (by decide)⟩

end FastFloe
