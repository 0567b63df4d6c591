import FastFloe.Encryptors
import FastFloe.Layouts

namespace FastFloe

open Rust

/-!
# Messages of sealed segments

What every encrypting path of the crate produces: segments sealed at
consecutive positions, the last of them as the final one.  Such a message is
what `decrypt` reads back.
-/

/-- Segments that are each 32 bytes longer than the plaintext they are paired
with. -/
theorem length_flatten_segments
    {blocks : List (Bytes × Bytes)}
    (longer : ∀ pair ∈ blocks, pair.1.length = pair.2.length + 32) :
    (blocks.map Prod.fst).flatten.length =
      (blocks.map Prod.snd).flatten.length + 32 * blocks.length := by
  induction blocks with
  | nil =>
      rfl
  | cons pair rest inductionHypothesis =>
      have first := longer pair List.mem_cons_self
      have others := inductionHypothesis fun other member =>
        longer other (List.mem_cons_of_mem _ member)
      simp only [List.map_cons, List.flatten_cons, List.length_append,
        List.length_cons]
      omega

/-- Segments sealed at consecutive positions from `position` on, each paired
with its plaintext, none of them final. -/
def SealedRun (platform : Platform) (context : MessageContext)
    (position : Nat) (sealedSegments : List (Bytes × Bytes)) : Prop :=
  ∀ index segment plaintext,
    sealedSegments[index]? = some (segment, plaintext) →
      PositionAllows (position + index) .nonFinal ∧
        context.Seals platform (position + index) .nonFinal plaintext segment

/-- A complete message: a sealed run and a sealed final segment after it. -/
structure SealedMessage (platform : Platform) (context : MessageContext)
    (position : Nat) (middle : List (Bytes × Bytes))
    (last lastPlaintext : Bytes) : Prop where
  run : SealedRun platform context position middle
  last :
    context.Seals platform (position + middle.length) .final lastPlaintext
      last
  inside : position + middle.length < aeadMaxSegments

theorem sealedRun_nil
    (platform : Platform)
    (context : MessageContext)
    (position : Nat) :
    SealedRun platform context position [] := by
  intro index segment plaintext member
  cases member

/-- One more sealed segment before a run. -/
theorem SealedRun.cons
    {platform : Platform}
    {context : MessageContext}
    {position : Nat}
    {segment plaintext : Bytes}
    {rest : List (Bytes × Bytes)}
    (allowed : PositionAllows position .nonFinal)
    (seals : context.Seals platform position .nonFinal plaintext segment)
    (later : SealedRun platform context (position + 1) rest) :
    SealedRun platform context position ((segment, plaintext) :: rest) := by
  intro index segment' plaintext' member
  cases index with
  | zero =>
      simp only [List.getElem?_cons_zero, Option.some.injEq,
        Prod.mk.injEq] at member
      obtain ⟨rfl, rfl⟩ := member
      exact ⟨allowed, seals⟩
  | succ index =>
      rw [← Nat.add_assoc, Nat.add_right_comm]
      exact later index segment' plaintext' member

/-- One more sealed segment after a run. -/
theorem SealedRun.snoc
    {platform : Platform}
    {context : MessageContext}
    {position : Nat}
    {segment plaintext : Bytes}
    {earlier : List (Bytes × Bytes)}
    (run : SealedRun platform context position earlier)
    (allowed : PositionAllows (position + earlier.length) .nonFinal)
    (seals :
      context.Seals platform (position + earlier.length) .nonFinal plaintext
        segment) :
    SealedRun platform context position
      (earlier ++ [(segment, plaintext)]) := by
  intro index segment' plaintext' member
  by_cases inside : index < earlier.length
  · rw [List.getElem?_append_left inside] at member
    exact run index segment' plaintext' member
  · have bound : index < (earlier ++ [(segment, plaintext)]).length :=
      (List.getElem?_eq_some_iff.mp member).1
    rw [List.length_append, List.length_singleton] at bound
    have here : index = earlier.length := by omega
    subst here
    rw [List.getElem?_append_right (Nat.le_refl _), Nat.sub_self] at member
    simp only [List.getElem?_cons_zero, Option.some.injEq,
      Prod.mk.injEq] at member
    obtain ⟨rfl, rfl⟩ := member
    exact ⟨allowed, seals⟩

/-- A sealed segment before a complete message. -/
theorem SealedMessage.cons
    {platform : Platform}
    {context : MessageContext}
    {position : Nat}
    {segment plaintext last lastPlaintext : Bytes}
    {rest : List (Bytes × Bytes)}
    (allowed : PositionAllows position .nonFinal)
    (seals : context.Seals platform position .nonFinal plaintext segment)
    (message :
      SealedMessage platform context (position + 1) rest last
        lastPlaintext) :
    SealedMessage platform context position ((segment, plaintext) :: rest)
      last lastPlaintext := by
  have shift : position + 1 + rest.length =
      position + ((segment, plaintext) :: rest).length := by
    rw [List.length_cons]
    omega
  refine ⟨.cons allowed seals message.run, ?_, ?_⟩
  · rw [← shift]
    exact message.last
  · rw [← shift]
    exact message.inside

/-- The segments of a sealed run are frames of the segment stream. -/
theorem SealedRun.frames
    {platform : Platform}
    {context : MessageContext}
    {position : Nat}
    {middle : List (Bytes × Bytes)}
    (roundTrips : platform.RoundTrips)
    (run : SealedRun platform context position middle) :
    (segmentStream platform context).Frames position middle := by
  intro index segment plaintext member
  obtain ⟨allowed, seals⟩ := run index segment plaintext member
  exact (@isFrame_iff _ _ _ .nonFinal _ _).mpr
    ⟨allowed, seals.opens roundTrips⟩

/-- A complete sealed message is a message of the segment stream. -/
theorem SealedMessage.message
    {platform : Platform}
    {context : MessageContext}
    {middle : List (Bytes × Bytes)}
    {last lastPlaintext : Bytes}
    (roundTrips : platform.RoundTrips)
    (message :
      SealedMessage platform context 0 middle last lastPlaintext) :
    (segmentStream platform context).Message 0
      ((middle.map Prod.fst).flatten ++ last)
      (middle.map Prod.snd ++ [lastPlaintext]) := by
  rw [Framing.Parser.message_iff]
  exact ⟨middle, last, lastPlaintext, rfl, rfl,
    message.run.frames roundTrips,
    (@isFrame_iff _ _ _ .final _ _).mpr
      ⟨message.inside, message.last.opens roundTrips⟩⟩

/-- Every segment of a sealed message encrypts its plaintext at its own
position, as the kind that position has. -/
theorem SealedMessage.seals_at
    {platform : Platform}
    {context : MessageContext}
    {middle : List (Bytes × Bytes)}
    {last lastPlaintext : Bytes}
    {index : Nat}
    {segment plaintext : Bytes}
    (message :
      SealedMessage platform context 0 middle last lastPlaintext)
    (member :
      (middle ++ [(last, lastPlaintext)])[index]? =
        some (segment, plaintext)) :
    PositionAllows index (kindAt (middle.length + 1) index) ∧
      context.Seals platform index (kindAt (middle.length + 1) index)
        plaintext segment := by
  have bound : index < (middle ++ [(last, lastPlaintext)]).length :=
    (List.getElem?_eq_some_iff.mp member).1
  rw [List.length_append, List.length_singleton] at bound
  by_cases inside : index < middle.length
  · rw [List.getElem?_append_left inside] at member
    have kind : kindAt (middle.length + 1) index = .nonFinal :=
      if_neg (by omega)
    have sealedThere := message.run index segment plaintext member
    rwa [Nat.zero_add, ← kind] at sealedThere
  · have here : index = middle.length := by omega
    subst here
    rw [List.getElem?_append_right (Nat.le_refl _), Nat.sub_self] at member
    simp only [List.getElem?_cons_zero, Option.some.injEq,
      Prod.mk.injEq] at member
    obtain ⟨rfl, rfl⟩ := member
    have kind : kindAt (middle.length + 1) middle.length = .final :=
      if_pos rfl
    have inside := message.inside
    have sealedThere := message.last
    rw [Nat.zero_add] at inside sealedThere
    rw [kind]
    exact ⟨inside, sealedThere⟩

/-- `decrypt` reads a complete sealed message back. -/
theorem SealedMessage.decrypt_eq
    {platform : Platform}
    {key : Key}
    {aad : Bytes}
    {header : Header}
    {context : MessageContext}
    {middle : List (Bytes × Bytes)}
    {last lastPlaintext : Bytes}
    (roundTrips : platform.RoundTrips)
    (authentic : HeaderAuthenticates platform key aad header context)
    (message :
      SealedMessage platform context 0 middle last lastPlaintext) :
    decrypt platform key aad
        (header.val ++ ((middle.map Prod.fst).flatten ++ last)) =
      .ok ((middle.map Prod.snd).flatten ++ lastPlaintext) := by
  refine ((decrypt_spec platform key aad _).2 _).mpr
    ⟨header, _, context, _, rfl, authentic, message.message roundTrips, ?_⟩
  simp

end FastFloe
