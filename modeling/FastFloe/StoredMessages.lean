import FastFloe.Grammar
import FastFloe.Layouts

namespace FastFloe

open Rust

/-!
# Messages addressed through their layout

A `StoredMessage` is a message whose segments are found by position, at the
offsets of a layout, inside some stored bytes.  Cutting a body by the prefixes
it declares and cutting it by its total length agree on every body whose
segments all open.
-/

/-- Bytes that are taken to hold a message of this layout from `start` on. -/
structure StoredMessage where
  context : MessageContext
  layout : MessageLayout
  data : Bytes
  start : Nat
  valid : layout.Valid
  matching : layout.parameters = context.parameters

namespace StoredMessage

/-- The stored bytes at the place of a segment, fewer at the end of the
data. -/
def segment (self : StoredMessage) (position : Nat) : Bytes :=
  (self.data.drop
      (self.start + (self.layout.entry position).ciphertextOffset)).take
    (self.layout.entry position).ciphertextLength

/-- The body of the message. -/
def body (self : StoredMessage) : Bytes :=
  (self.data.drop (self.start + headerLength)).take
    (self.layout.ciphertextLength - headerLength)

/-- The segment at a position is stored completely and opens there. -/
structure OpensAt (platform : Platform) (message : StoredMessage)
    (position : Nat) (plaintext : Bytes) : Prop where
  inside : position < message.layout.segmentCount
  complete :
    (message.segment position).length =
      (message.layout.entry position).ciphertextLength
  opens :
    message.context.Opens platform position
      (kindAt message.layout.segmentCount position) (message.segment position)
      plaintext

/-- A byte string that the layout describes: as long as the layout says, and
with each segment that opens at its block.  Segments that do not open leave
their blocks unconstrained. -/
structure Describes (platform : Platform) (message : StoredMessage)
    (plaintext : Bytes) : Prop where
  length : plaintext.length = message.layout.plaintextLength
  content : ∀ position opened,
    message.OpensAt platform position opened →
      Blocks.block message.layout.parameters.plaintextSegmentLength position
        plaintext = opened

section Facts

variable {platform : Platform} {message : StoredMessage} {position : Nat}
  {plaintext : Bytes}

/-- A segment opens to one plaintext. -/
theorem OpensAt.unique
    {other : Bytes}
    (opens : message.OpensAt platform position plaintext)
    (opens' : message.OpensAt platform position other) :
    plaintext = other := by
  have opened := opens.opens.opened
  rw [opens'.opens.opened] at opened
  exact (Option.some.inj opened).symm

/-- An opened segment has the plaintext length of its entry. -/
theorem OpensAt.length_eq
    (opens : message.OpensAt platform position plaintext) :
    plaintext.length = (message.layout.entry position).plaintextLength := by
  have length := opens.opens.length_eq
  rw [opens.complete] at length
  simp only [MessageLayout.entry] at length ⊢
  omega

/-- The segments of a layout are the blocks of the body. -/
theorem segment_eq_block
    (message : StoredMessage)
    (inside : position < message.layout.segmentCount) :
    message.segment position =
      Blocks.block message.layout.parameters.ciphertextSegmentLength position
        message.body := by
  have size := message.layout.parameters.plaintextSegmentLength_add
  have whole := message.valid.ciphertext_eq
  have scaled := message.layout.parameters.mul_segmentLength position
  have length :
      (message.layout.entry position).ciphertextLength =
        min message.layout.parameters.ciphertextSegmentLength
          (message.layout.ciphertextLength - headerLength -
            position * message.layout.parameters.ciphertextSegmentLength) := by
    rw [headerLength_eq]
    by_cases isLast : position + 1 = message.layout.segmentCount
    · have last := message.valid.last isLast
      simp only [MessageLayout.entry] at last ⊢
      omega
    · have full := @MessageLayout.Valid.full message.layout position
        message.valid (by omega)
      rw [Nat.succ_mul] at full
      simp only [MessageLayout.entry] at full ⊢
      omega
  have offset :
      message.start + (message.layout.entry position).ciphertextOffset =
        message.start + headerLength +
          position * message.layout.parameters.ciphertextSegmentLength := by
    simp only [MessageLayout.entry, headerLength_eq]
    omega
  rw [segment, Blocks.block, body, offset, length, List.drop_take,
    List.drop_drop, List.take_take]

/-- The body of a message that is stored completely. -/
theorem length_body
    (whole :
      message.start + message.layout.ciphertextLength ≤
        message.data.length) :
    message.body.length =
      message.layout.plaintextLength + 32 * message.layout.segmentCount := by
  have total := message.valid.ciphertext_eq
  simp only [body, List.length_take, List.length_drop, headerLength_eq]
  omega

/-- The body is at most its segments, and more than all of them but one. -/
theorem body_bounds
    (whole :
      message.start + message.layout.ciphertextLength ≤
        message.data.length) :
    (message.layout.segmentCount - 1) *
          message.layout.parameters.ciphertextSegmentLength + 32 ≤
        message.body.length ∧
      message.body.length ≤
        message.layout.segmentCount *
          message.layout.parameters.ciphertextSegmentLength := by
  have positive := message.valid.count_pos
  have reached := message.valid.reached
  have within := message.valid.within
  have before :=
    message.layout.parameters.mul_segmentLength
      (message.layout.segmentCount - 1)
  have after :=
    message.layout.parameters.mul_segmentLength message.layout.segmentCount
  rw [length_body whole]
  omega

/-- The body is the concatenation of its segments. -/
theorem flatten_segments
    (whole :
      message.start + message.layout.ciphertextLength ≤
        message.data.length) :
    ((List.range message.layout.segmentCount).map message.segment).flatten =
      message.body := by
  have segments :
      (List.range message.layout.segmentCount).map message.segment =
        (List.range message.layout.segmentCount).map fun position =>
          Blocks.block message.layout.parameters.ciphertextSegmentLength
            position message.body := by
    refine List.map_congr_left fun position member => ?_
    exact message.segment_eq_block (List.mem_range.mp member)
  rw [segments, Blocks.flatten_blocks_of_le (body_bounds whole).2]

end Facts

/-- A body that is cut into full segments and a last one has as many segments
as its layout says. -/
theorem count_of_segments
    {message : StoredMessage}
    {parts : List Bytes}
    {last : Bytes}
    (whole :
      message.start + message.layout.ciphertextLength ≤
        message.data.length)
    (shape : message.body = parts.flatten ++ last)
    (uniform :
      Blocks.Uniform message.layout.parameters.ciphertextSegmentLength parts)
    (minimum : 32 ≤ last.length)
    (maximum :
      last.length ≤ message.layout.parameters.ciphertextSegmentLength) :
    parts.length + 1 = message.layout.segmentCount := by
  have positive := message.valid.count_pos
  have bounds := body_bounds whole
  rw [shape, List.length_append, Blocks.length_flatten uniform] at bounds
  rcases Nat.lt_trichotomy (parts.length + 1) message.layout.segmentCount with
    few | exact | many
  · have monotone :=
      Nat.mul_le_mul_right message.layout.parameters.ciphertextSegmentLength
        (show parts.length + 1 ≤ message.layout.segmentCount - 1 by omega)
    rw [Nat.succ_mul] at monotone
    omega
  · exact exact
  · have monotone :=
      Nat.mul_le_mul_right message.layout.parameters.ciphertextSegmentLength
        (show message.layout.segmentCount ≤ parts.length by omega)
    omega

/-- The segments of a message open at the positions of its layout. -/
theorem opensAt_of_message
    {platform : Platform}
    {message : StoredMessage}
    {payloads : List Bytes}
    (whole :
      message.start + message.layout.ciphertextLength ≤
        message.data.length)
    (accepted :
      (segmentStream platform message.context).Message 0 message.body
        payloads) :
    payloads.length = message.layout.segmentCount ∧
      ∀ position plaintext,
        payloads[position]? = some plaintext →
          message.OpensAt platform position plaintext := by
  obtain ⟨middle, last, lastPlaintext, shape, rfl, segmentation⟩ :=
    message_iff_segmentation.mp accepted
  obtain ⟨frames, final⟩ := segmentation_iff.mp segmentation
  have uniform :
      Blocks.Uniform message.layout.parameters.ciphertextSegmentLength
        (middle.map Prod.fst) := by
    intro part member
    obtain ⟨⟨segment, plaintext⟩, listed, rfl⟩ := List.mem_map.mp member
    obtain ⟨index, found⟩ := List.mem_iff_getElem?.mp listed
    rw [message.matching]
    exact (segmentation.full index segment plaintext found).1
  have maximum := segmentation.maximum
  rw [← message.matching] at maximum
  have count : middle.length + 1 = message.layout.segmentCount := by
    have counted :=
      count_of_segments whole shape uniform segmentation.minimum maximum
    rwa [List.length_map] at counted
  refine ⟨by simp [count], ?_⟩
  intro position plaintext member
  have inside : position < message.layout.segmentCount := by
    have bound := (List.getElem?_eq_some_iff.mp member).1
    rw [List.length_append, List.length_map, List.length_singleton,
      count] at bound
    exact bound
  have cut := message.segment_eq_block inside
  rw [shape] at cut
  by_cases isLast : position = middle.length
  · subst isLast
    rw [List.getElem?_append_right (by rw [List.length_map]),
      List.length_map, Nat.sub_self] at member
    cases member
    have here : message.segment middle.length = last := by
      have found := Blocks.block_flatten_last uniform maximum
      rw [List.length_map] at found
      exact cut.trans found
    have kind : kindAt message.layout.segmentCount middle.length = .final :=
      if_pos count
    refine ⟨inside, ?_, ?_⟩
    · have total := congrArg List.length shape
      rw [List.length_append, Blocks.length_flatten uniform, List.length_map,
        length_body whole] at total
      have scaled :=
        message.layout.parameters.mul_segmentLength middle.length
      have entry := message.valid.last count
      simp only [MessageLayout.entry] at entry ⊢
      rw [here]
      omega
    · rw [here, kind]
      rw [Nat.zero_add] at final
      exact ((@isFrame_iff _ _ _ .final _ _).mp final).2
  · have inMiddle : position < middle.length := by omega
    have inParts : position < (middle.map Prod.fst).length := by
      rwa [List.length_map]
    rw [List.getElem?_append_left (by rwa [List.length_map]),
      List.getElem?_map, List.getElem?_eq_getElem inMiddle] at member
    cases member
    have here : message.segment position = middle[position].1 := by
      have found := Blocks.block_flatten uniform inParts last
      rw [List.getElem_map] at found
      exact cut.trans found
    have kind : kindAt message.layout.segmentCount position = .nonFinal :=
      if_neg (by omega)
    have found : middle[position]? =
        some (middle[position].1, middle[position].2) :=
      List.getElem?_eq_getElem inMiddle
    refine ⟨inside, ?_, ?_⟩
    · have entry :=
        @MessageLayout.Valid.full message.layout position message.valid
          (by omega)
      have size := message.layout.parameters.plaintextSegmentLength_add
      have length := (segmentation.full _ _ _ found).1
      rw [← message.matching] at length
      simp only [MessageLayout.entry] at entry ⊢
      rw [here, length]
      omega
    · have frame := frames _ _ _ found
      rw [Nat.zero_add] at frame
      rw [here, kind]
      exact ((@isFrame_iff _ _ _ .nonFinal _ _).mp frame).2

/-- Segments that open at the positions of a layout make up a message. -/
theorem message_of_opensAt
    {platform : Platform}
    {message : StoredMessage}
    {payloads : List Bytes}
    (whole :
      message.start + message.layout.ciphertextLength ≤
        message.data.length)
    (count : payloads.length = message.layout.segmentCount)
    (opens : ∀ position plaintext,
      payloads[position]? = some plaintext →
        message.OpensAt platform position plaintext) :
    (segmentStream platform message.context).Message 0 message.body
      payloads := by
  have positive := message.valid.count_pos
  have bounded := message.valid.count_le
  obtain ⟨preceding, shape⟩ :
      ∃ preceding, message.layout.segmentCount = preceding + 1 :=
    ⟨message.layout.segmentCount - 1, by omega⟩
  have opensAt (position : Nat) (inside : position < payloads.length) :=
    opens position payloads[position] (List.getElem?_eq_getElem inside)
  have body := flatten_segments whole
  rw [shape, List.range_succ, List.map_append, List.flatten_append] at body
  rw [Framing.Parser.message_iff]
  refine ⟨(List.range preceding).map fun position =>
      (message.segment position, payloads.getD position []),
    message.segment preceding, payloads.getD preceding [], ?_, ?_, ?_, ?_⟩
  · rw [← body, List.map_map]
    simp [Function.comp_def]
  · refine List.ext_getElem ?_ ?_
    · simp [count, shape]
    · intro position inside _
      rw [List.getElem_append]
      split
      next before =>
        simp [List.getElem?_eq_getElem inside]
      next after =>
        have here : position = preceding := by
          simp only [List.length_map, List.length_range] at after
          omega
        subst here
        simp [List.getElem?_eq_getElem inside]
  · intro position segment plaintext member
    have before : position < preceding := by
      have bound := (List.getElem?_eq_some_iff.mp member).1
      simpa using bound
    have inside : position < payloads.length := by omega
    rw [List.getElem?_map, List.getElem?_range before] at member
    simp only [Option.map_some, Option.some.injEq, Prod.mk.injEq] at member
    obtain ⟨rfl, rfl⟩ := member
    have kind : kindAt message.layout.segmentCount position = .nonFinal :=
      if_neg (by omega)
    have opened := (opensAt position inside).opens
    rw [kind] at opened
    rw [Nat.zero_add, List.getD_eq_getElem?_getD,
      List.getElem?_eq_getElem inside, Option.getD_some]
    refine (@isFrame_iff _ _ _ .nonFinal _ _).mpr ⟨?_, opened⟩
    change position + 1 < aeadMaxSegments
    omega
  · have inside : preceding < payloads.length := by omega
    have kind : kindAt message.layout.segmentCount preceding = .final :=
      if_pos shape.symm
    have opened := (opensAt preceding inside).opens
    rw [kind] at opened
    rw [List.length_map, List.length_range, Nat.zero_add,
      List.getD_eq_getElem?_getD, List.getElem?_eq_getElem inside,
      Option.getD_some]
    refine (@isFrame_iff _ _ _ .final _ _).mpr ⟨?_, opened⟩
    change preceding < aeadMaxSegments
    omega

/-- The plaintexts that the segments open to make up what the layout
describes. -/
theorem describes_flatten
    {platform : Platform}
    {message : StoredMessage}
    {payloads : List Bytes}
    (count : payloads.length = message.layout.segmentCount)
    (opens : ∀ position plaintext,
      payloads[position]? = some plaintext →
        message.OpensAt platform position plaintext) :
    message.Describes platform payloads.flatten := by
  obtain ⟨length, blocks⟩ := message.valid.flatten_spec count
    fun position plaintext member => (opens position plaintext member).length_eq
  refine ⟨length, ?_⟩
  intro position opened opensThere
  have inside : position < payloads.length := by
    rw [count]
    exact opensThere.inside
  have found := List.getElem?_eq_getElem inside
  rw [blocks position _ found]
  exact (opens position _ found).unique opensThere

/-- What the segment at a position contributes to the plaintext: what it opens
to, and zeros when it does not open. -/
def contribution (platform : Platform) (message : StoredMessage)
    (position : Nat) : Bytes :=
  let length := (message.layout.entry position).plaintextLength
  match message.context.openSegment platform position
      (kindAt message.layout.segmentCount position)
      (message.segment position) with
  | some plaintext =>
      if plaintext.length = length then plaintext else zeros length
  | none => zeros length

theorem length_contribution
    (platform : Platform)
    (message : StoredMessage)
    (position : Nat) :
    (message.contribution platform position).length =
      (message.layout.entry position).plaintextLength := by
  unfold contribution
  split
  · dsimp only
    split
    next exact => exact exact
    · exact length_zeros _
  · exact length_zeros _

/-- There is a byte string that a layout describes. -/
theorem exists_describes
    (platform : Platform)
    (message : StoredMessage) :
    ∃ plaintext, message.Describes platform plaintext := by
  have member {position : Nat} {plaintext : Bytes}
      (found :
        ((List.range message.layout.segmentCount).map
            (message.contribution platform))[position]? = some plaintext) :
      plaintext = message.contribution platform position := by
    rw [List.getElem?_map, Option.map_eq_some_iff] at found
    obtain ⟨index, listed, rfl⟩ := found
    obtain ⟨_, rfl⟩ := List.getElem?_eq_some_iff.mp listed
    rw [List.getElem_range]
  have count :
      ((List.range message.layout.segmentCount).map
          (message.contribution platform)).length =
        message.layout.segmentCount := by
    rw [List.length_map, List.length_range]
  obtain ⟨length, blocks⟩ := message.valid.flatten_spec count
    fun position plaintext found => by
      rw [member found, length_contribution]
  refine ⟨_, length, ?_⟩
  intro position opened opensThere
  have found :
      ((List.range message.layout.segmentCount).map
          (message.contribution platform))[position]? =
        some (message.contribution platform position) := by
    rw [List.getElem?_map, List.getElem?_range opensThere.inside]
    rfl
  rw [blocks position _ found]
  simp [contribution, opensThere.opens.opened, opensThere.length_eq]

/-- Every segment of the layout opens. -/
def AllOpen (platform : Platform) (message : StoredMessage) : Prop :=
  ∀ position, position < message.layout.segmentCount →
    ∃ plaintext, message.OpensAt platform position plaintext

/-- Cutting a body by its prefixes and cutting it by its layout accept the same
bodies and give the same plaintext. -/
theorem message_iff_describes
    {platform : Platform}
    {message : StoredMessage}
    {plaintext : Bytes}
    (whole :
      message.start + message.layout.ciphertextLength ≤
        message.data.length) :
    (∃ payloads,
        (segmentStream platform message.context).Message 0 message.body
            payloads ∧
          plaintext = payloads.flatten) ↔
      message.AllOpen platform ∧ message.Describes platform plaintext := by
  constructor
  · rintro ⟨payloads, accepted, rfl⟩
    obtain ⟨count, opens⟩ := opensAt_of_message whole accepted
    refine ⟨?_, describes_flatten count opens⟩
    intro position inside
    rw [← count] at inside
    exact ⟨_, opens position _ (List.getElem?_eq_getElem inside)⟩
  · rintro ⟨allOpen, describes⟩
    have within := message.valid.within
    rw [← describes.length] at within
    refine ⟨(List.range message.layout.segmentCount).map fun position =>
      Blocks.block message.layout.parameters.plaintextSegmentLength position
        plaintext, message_of_opensAt whole (by simp) ?_,
      (Blocks.flatten_blocks_of_le within).symm⟩
    intro position part found
    rw [List.getElem?_map, Option.map_eq_some_iff] at found
    obtain ⟨index, listed, rfl⟩ := found
    obtain ⟨inside, rfl⟩ := List.getElem?_eq_some_iff.mp listed
    rw [List.getElem_range]
    rw [List.length_range] at inside
    obtain ⟨opened, opens⟩ := allOpen position inside
    rw [describes.content position opened opens]
    exact opens

/-- Every message that is not too long for a `u64` has a layout. -/
theorem exists_layout
    {platform : Platform}
    {context : MessageContext}
    {body : Bytes}
    {payloads : List Bytes}
    (accepted : (segmentStream platform context).Message 0 body payloads)
    (representable : 74 + body.length ≤ u64Max) :
    ∃ layout : MessageLayout,
      layout.Valid ∧ layout.parameters = context.parameters ∧
        layout.ciphertextLength = 74 + body.length := by
  obtain ⟨middle, last, lastPlaintext, rfl, _, segmentation⟩ :=
    message_iff_segmentation.mp accepted
  have uniform :
      Blocks.Uniform context.parameters.ciphertextSegmentLength
        (middle.map Prod.fst) := by
    intro part member
    obtain ⟨⟨segment, plaintext⟩, listed, rfl⟩ := List.mem_map.mp member
    obtain ⟨index, found⟩ := List.mem_iff_getElem?.mp listed
    exact (segmentation.full index segment plaintext found).1
  have total := Blocks.length_flatten uniform
  have scaled := context.parameters.mul_segmentLength middle.length
  have size := context.parameters.plaintextSegmentLength_add
  have minimum := segmentation.minimum
  have maximum := segmentation.maximum
  rw [List.length_map] at total
  rw [List.length_append] at representable ⊢
  refine ⟨{
    parameters := context.parameters
    plaintextLength :=
      (middle.map Prod.fst).flatten.length + last.length -
        32 * (middle.length + 1)
    ciphertextLength :=
      74 + ((middle.map Prod.fst).flatten.length + last.length)
    segmentCount := middle.length + 1 }, ⟨?_, ?_, ?_, ?_, ?_, ?_⟩, rfl, rfl⟩
  · exact Nat.succ_pos _
  · exact segmentation.count
  · dsimp only
    rw [Nat.add_sub_cancel]
    omega
  · dsimp only
    rw [Nat.succ_mul middle.length]
    omega
  · dsimp only
    omega
  · exact representable

end StoredMessage

end FastFloe
