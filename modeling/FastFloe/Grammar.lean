import FastFloe.Decryptors

namespace FastFloe

open Rust

/-!
# The grammar that `decrypt` accepts

The segment stream's messages, written out: a run of full-length segments with
the non-final mark, and one last segment that declares its own length.
-/

/-- The body is `middle`, segments of exactly the segment length that start with
`ff ff ff ff`, followed by `last`, whose prefix is its length; every segment
opens at its position, and the plaintext is what they open to.  Each pair in
`middle` is a segment and its plaintext. -/
structure Segmentation (platform : Platform) (context : MessageContext)
    (middle : List (Bytes × Bytes)) (last lastPlaintext : Bytes) : Prop where
  count : middle.length + 1 ≤ aeadMaxSegments
  full : ∀ (index : Nat) (segment plaintext : Bytes),
    middle[index]? = some (segment, plaintext) →
      segment.length = context.parameters.ciphertextSegmentLength ∧
        segment.take 4 = [255, 255, 255, 255]
  opens : ∀ (index : Nat) (segment plaintext : Bytes),
    middle[index]? = some (segment, plaintext) →
      context.openSegment platform index .nonFinal segment = some plaintext
  minimum : 32 ≤ last.length
  maximum : last.length ≤ context.parameters.ciphertextSegmentLength
  declared : last.take 4 = beBytes 4 last.length
  lastOpens :
    context.openSegment platform middle.length .final last =
      some lastPlaintext

/-- The plaintext of a complete FLOE message under a key and an AAD. -/
def Grammar (platform : Platform) (key : Key) (aad ciphertext plaintext : Bytes)
    : Prop :=
  ∃ (header : Header) (context : MessageContext)
      (middle : List (Bytes × Bytes)) (last lastPlaintext : Bytes),
    ciphertext = header.val ++ ((middle.map Prod.fst).flatten ++ last) ∧
      HeaderAuthenticates platform key aad header context ∧
      Segmentation platform context middle last lastPlaintext ∧
      plaintext = (middle.map Prod.snd).flatten ++ lastPlaintext

/-- The four bytes of the non-final mark. -/
theorem beBytes_u32Max : beBytes 4 u32Max = [255, 255, 255, 255] := by
  decide

/-- A segmentation is a run of frames and a last frame of the segment
stream. -/
theorem segmentation_iff
    {platform : Platform}
    {context : MessageContext}
    {middle : List (Bytes × Bytes)}
    {last lastPlaintext : Bytes} :
    Segmentation platform context middle last lastPlaintext ↔
      (segmentStream platform context).Frames 0 middle ∧
        (segmentStream platform context).IsFrame (0 + middle.length) true last
          lastPlaintext := by
  have lastFrame := @isFrame_iff platform context (0 + middle.length) .final
    last lastPlaintext
  simp only [SegmentKind.isFinal, Nat.zero_add] at lastFrame
  rw [Nat.zero_add, lastFrame]
  constructor
  · intro segmentation
    have count := segmentation.count
    refine ⟨?_, ?_, ?_, segmentation.lastOpens⟩
    · intro index segment plaintext member
      have inside : index < middle.length :=
        (List.getElem?_eq_some_iff.mp member).1
      obtain ⟨length, marked⟩ :=
        segmentation.full index segment plaintext member
      rw [Nat.zero_add]
      refine (@isFrame_iff _ _ _ .nonFinal _ _).mpr ⟨?_, ⟨length, ?_⟩, ?_⟩
      · change index + 1 < aeadMaxSegments
        omega
      · rw [beBytes_u32Max]
        exact marked
      · exact segmentation.opens index segment plaintext member
    · change middle.length < aeadMaxSegments
      omega
    · exact ⟨segmentation.minimum, segmentation.maximum,
        segmentation.declared⟩
  · rintro ⟨frames, allowed, framed, lastOpens⟩
    have each (index : Nat) (segment plaintext : Bytes)
        (member : middle[index]? = some (segment, plaintext)) :
        context.Opens platform index .nonFinal segment plaintext := by
      have frame := frames index segment plaintext member
      rw [Nat.zero_add] at frame
      exact ((@isFrame_iff _ _ _ .nonFinal _ _).mp frame).2
    refine ⟨allowed, ?_, ?_, framed.1, framed.2.1, framed.2.2, lastOpens⟩
    · intro index segment plaintext member
      have opens := each index segment plaintext member
      refine ⟨opens.framed.1, ?_⟩
      rw [← beBytes_u32Max]
      exact opens.framed.2
    · intro index segment plaintext member
      exact (each index segment plaintext member).opened

/-- A body is a message of the segment stream exactly when it has a
segmentation. -/
theorem message_iff_segmentation
    {platform : Platform}
    {context : MessageContext}
    {body : Bytes}
    {payloads : List Bytes} :
    (segmentStream platform context).Message 0 body payloads ↔
      ∃ middle last lastPlaintext,
        body = (middle.map Prod.fst).flatten ++ last ∧
          payloads = middle.map Prod.snd ++ [lastPlaintext] ∧
          Segmentation platform context middle last lastPlaintext := by
  rw [Framing.Parser.message_iff]
  constructor
  · rintro ⟨middle, last, lastPlaintext, shape, payloads, frames, final⟩
    exact ⟨middle, last, lastPlaintext, shape, payloads,
      segmentation_iff.mpr ⟨frames, final⟩⟩
  · rintro ⟨middle, last, lastPlaintext, shape, payloads, segmentation⟩
    obtain ⟨frames, final⟩ := segmentation_iff.mp segmentation
    exact ⟨middle, last, lastPlaintext, shape, payloads, frames, final⟩

/-- `decrypt` comes back on every byte string, and it accepts exactly the
strings of the grammar, with the plaintext they stand for. -/
theorem decrypt_iff_grammar
    (platform : Platform)
    (key : Key)
    (aad ciphertext : Bytes) :
    (decrypt platform key aad ciphertext).Returns ∧
      ∀ plaintext,
        decrypt platform key aad ciphertext = .ok plaintext ↔
          Grammar platform key aad ciphertext plaintext := by
  obtain ⟨returns, accepts⟩ := decrypt_spec platform key aad ciphertext
  refine ⟨returns, fun plaintext => ?_⟩
  rw [accepts]
  constructor
  · rintro ⟨header, body, context, payloads, rfl, authentic, message, rfl⟩
    obtain ⟨middle, last, lastPlaintext, rfl, rfl, segmentation⟩ :=
      message_iff_segmentation.mp message
    refine ⟨header, context, middle, last, lastPlaintext, rfl, authentic,
      segmentation, ?_⟩
    simp
  · rintro ⟨header, context, middle, last, lastPlaintext, rfl, authentic,
      segmentation, rfl⟩
    refine ⟨header, _, context, middle.map Prod.snd ++ [lastPlaintext], rfl,
      authentic, message_iff_segmentation.mpr
        ⟨middle, last, lastPlaintext, rfl, rfl, segmentation⟩, ?_⟩
    simp

end FastFloe
