import FastFloe.EncryptorRuns

namespace FastFloe

open Rust

/-!
# Integrity of completed runs

The length prefix of a segment is not authenticated by the AEAD.  That it
cannot be changed follows from the parser: the AAD fixes the position and the
kind, the ciphertext fixes the length, and the kind and the length fix the
prefix.  So a body that authenticates under a run's header is the run's own.
-/

/-- An honest, completed run of an `Encryptor` under a key. -/
structure HonestRun (platform : Platform) (key : Key) where
  aad : Bytes
  parameters : Parameters
  rng : ProviderRng
  startKdf : Kdf
  encryptor : Encryptor
  calls : List EncryptorCall
  emissions : List (Bytes × Bytes)
  startSound : startKdf.FaultOf platform.kdfExpand
  created :
    Encryptor.new (platform.withKdf startKdf) key aad parameters rng =
      .ok encryptor
  callsSound : ∀ call ∈ calls, call.kdf.FaultOf platform.kdfExpand
  completed : runCalls platform encryptor calls = (emissions, true)

namespace HonestRun

variable {platform : Platform} {key : Key}

/-- The message context of a run. -/
def context (run : HonestRun platform key) : MessageContext :=
  run.encryptor.state.context

/-- The segments of a run, in order. -/
def segments (run : HonestRun platform key) : Bytes :=
  (run.emissions.map Prod.fst).flatten

/-- The plaintext of a run. -/
def plaintext (run : HonestRun platform key) : Bytes :=
  (run.emissions.map Prod.snd).flatten

/-- What two runs under one key must not share. -/
def triple (run : HonestRun platform key) :
    Parameters × Octets floeIvLength × Bytes :=
  (run.parameters, run.encryptor.header.floeIv, run.aad)

/-- The kind of a run's segment at a position. -/
def kind (run : HonestRun platform key) (position : Nat) : SegmentKind :=
  kindAt run.emissions.length position

/-- The parts of the info string that a run's segment key at a position is
derived from. -/
def keyInfo (run : HonestRun platform key) (position : Nat) : List Bytes :=
  [run.context.parameters.encode.val, run.context.floeIv.val,
    segmentKeyPurpose, beBytes 8 (run.context.parameters.maskedPosition
      position), run.context.aad]

/-- The run sealed `plaintext` under this key, nonce and AAD, with this
ciphertext and tag. -/
def Sealed (run : HonestRun platform key) (segmentKey : AeadKey)
    (aad : Bytes) (parts : SegmentParts) (plaintext : Bytes) : Prop :=
  ∃ index segment,
    run.emissions[index]? = some (segment, plaintext) ∧
      run.context.segmentKey platform index = some segmentKey ∧
      segmentParts segment = some parts ∧
      aad = segmentAad index (run.kind index)

end HonestRun

/-! ## What is assumed of the AEAD and of the key derivation -/

section Assumptions

variable {platform : Platform} {key : Key} {ι : Type}

/-- Under the segment keys derived in the runs, exactly the tuples that were
sealed in them open, and to the plaintext sealed there. -/
def IdealAead (runs : ι → HonestRun platform key) : Prop :=
  ∀ run position segmentKey,
    position < (runs run).emissions.length →
      (runs run).context.segmentKey platform position = some segmentKey →
        ∀ aad (parts : SegmentParts) plaintext,
          segmentKey.opened platform parts.nonce aad parts.ciphertext
              parts.tag = some plaintext ↔
            ∃ other, (runs other).Sealed segmentKey aad parts plaintext

/-- No two inputs, message key and info string, from which the runs derive
their segment keys give the same key. -/
def InjectiveKdf (runs : ι → HonestRun platform key) : Prop :=
  ∀ first second position position' material,
    position < (runs first).emissions.length →
      position' < (runs second).emissions.length →
        platform.kdfExpand (runs first).context.provider 32
            (runs first).context.messageKey.val
            ((runs first).keyInfo position) = .ok material →
          platform.kdfExpand (runs second).context.provider 32
              (runs second).context.messageKey.val
              ((runs second).keyInfo position') = .ok material →
            (runs first).context.messageKey =
                (runs second).context.messageKey ∧
              ((runs first).keyInfo position).flatten =
                ((runs second).keyInfo position').flatten

end Assumptions

/-! ## Encodings that cannot be confused -/

/-- The AAD of a segment fixes its position and its kind. -/
theorem segmentAad_injective
    {first second : Nat}
    {kind kind' : SegmentKind}
    (firstInside : first < aeadMaxSegments)
    (secondInside : second < aeadMaxSegments)
    (same : segmentAad first kind = segmentAad second kind') :
    first = second ∧ kind = kind' := by
  have wide : aeadMaxSegments ≤ 256 ^ 8 := by decide
  obtain ⟨samePosition, sameIndicator⟩ :=
    List.append_inj same (by rw [length_beBytes, length_beBytes])
  refine ⟨beBytes_injective (Nat.lt_of_lt_of_le firstInside wide)
    (Nat.lt_of_lt_of_le secondInside wide) samePosition, ?_⟩
  cases kind <;> cases kind' <;> first | rfl | cases sameIndicator

/-- A well-framed segment is fixed by its kind and its parts. -/
theorem WellFramed.eq_of_parts
    {parameters : Parameters}
    {kind : SegmentKind}
    {first second : Bytes}
    {parts : SegmentParts}
    (firstFramed : WellFramed parameters kind first)
    (secondFramed : WellFramed parameters kind second)
    (firstParts : segmentParts first = some parts)
    (secondParts : segmentParts second = some parts) :
    first = second := by
  have rebuild {segment : Bytes}
      (framed : WellFramed parameters kind segment)
      (cut : segmentParts segment = some parts) :
      segment =
        lengthPrefixOf kind (parts.ciphertext.length + 32) ++
          (parts.nonce.val ++ (parts.ciphertext ++ parts.tag.val)) := by
    have enough := framed.length_bounds.1
    obtain ⟨parts', cut', length, nonce, ciphertext, tag⟩ :=
      segmentParts_of_length enough
    rw [cut] at cut'
    cases cut'
    have total : parts.ciphertext.length + 32 = segment.length := by omega
    have lead := framed.take_lead
    rw [segmentPrefixLength_eq] at lead
    have tail :
        segment.drop 16 = parts.ciphertext ++ parts.tag.val := by
      rw [ciphertext, tag]
      have split :=
        List.take_append_drop (segment.length - 32) (segment.drop 16)
      rw [List.drop_drop] at split
      rw [show segment.length - 16 = 16 + (segment.length - 32) by omega]
      exact split.symm
    have middle :
        segment.drop 4 = parts.nonce.val ++ segment.drop 16 := by
      rw [nonce]
      have split := List.take_append_drop 12 (segment.drop 4)
      rw [List.drop_drop] at split
      exact split.symm
    rw [total, ← lead, ← tail, ← middle, List.take_append_drop]
  rw [rebuild firstFramed firstParts, rebuild secondFramed secondParts]

namespace HonestRun

section Facts

variable {platform : Platform} {key : Key} (run : HonestRun platform key)

theorem authentic :
    HeaderAuthenticates platform key run.aad run.encryptor.header
      run.context :=
  (Encryptor.new_eq_ok run.startSound run.created).1

theorem triple_eq :
    run.triple =
      (run.context.parameters, run.context.floeIv, run.context.aad) := by
  have authentic := run.authentic
  have parameters := (Encryptor.new_eq_ok run.startSound run.created).2.1
  rw [authentic.floeIv, authentic.associated]
  exact Prod.ext parameters.symm rfl

/-- A completed run has a final segment. -/
theorem emissions_pos
    (agree : platform.SealsAgree) :
    0 < run.emissions.length := by
  have here := (Encryptor.new_eq_ok run.startSound run.created).2.2
  obtain ⟨middle, last, lastPlaintext, shape, _⟩ :=
    runCalls_sealedMessage agree here run.callsSound run.completed
  rw [shape, List.length_append, List.length_singleton]
  exact Nat.succ_pos _

/-- Every segment of a run encrypts its plaintext at its own position. -/
theorem seals_at
    (agree : platform.SealsAgree)
    {index : Nat}
    {segment plaintext : Bytes}
    (member : run.emissions[index]? = some (segment, plaintext)) :
    PositionAllows index (run.kind index) ∧
      run.context.Seals platform index (run.kind index) plaintext
        segment := by
  have here := (Encryptor.new_eq_ok run.startSound run.created).2.2
  obtain ⟨middle, last, lastPlaintext, shape, message⟩ :=
    runCalls_sealedMessage agree here run.callsSound run.completed
  rw [shape] at member
  have sealedThere := message.seals_at member
  have count : run.emissions.length = middle.length + 1 := by
    rw [shape, List.length_append, List.length_singleton]
  rwa [← count] at sealedThere

/-- The segments of a run add their overhead to its plaintext. -/
theorem length_segments
    (agree : platform.SealsAgree) :
    run.segments.length =
      run.plaintext.length + 32 * run.emissions.length := by
  refine length_flatten_segments ?_
  rintro ⟨segment, plaintext⟩ member
  obtain ⟨index, found⟩ := List.mem_iff_getElem?.mp member
  exact (run.seals_at agree found).2.framed.1

end Facts

/-- The info string fixes the triple of a run. -/
theorem triple_of_keyInfo
    {platform : Platform}
    {key : Key}
    {first second : HonestRun platform key}
    {position position' : Nat}
    (same :
      (first.keyInfo position).flatten =
        (second.keyInfo position').flatten) :
    first.triple = second.triple := by
  simp only [keyInfo, List.flatten_cons, List.flatten_nil,
    List.append_nil] at same
  obtain ⟨encoded, same⟩ := List.append_inj same
    (by rw [Octets.length_val, Octets.length_val])
  obtain ⟨floeIv, same⟩ := List.append_inj same
    (by rw [Octets.length_val, Octets.length_val])
  have same := (List.append_inj same rfl).2
  have associated := (List.append_inj same
    (by rw [length_beBytes, length_beBytes])).2
  rw [triple_eq, triple_eq, associated,
    Parameters.encode_injective (Subtype.ext encoded), Subtype.ext floeIv]

end HonestRun

/-! ## The frames under a run's header -/

section Integrity

variable {platform : Platform} {key : Key} {ι : Type}
  {runs : ι → HonestRun platform key}

/-- A segment key of one run is a segment key of no other run. -/
theorem run_eq_of_segmentKey
    (distinct : ∀ first second,
      (runs first).triple = (runs second).triple → first = second)
    (injective : InjectiveKdf runs)
    {first second : ι}
    {position position' : Nat}
    {segmentKey : AeadKey}
    (firstInside : position < (runs first).emissions.length)
    (secondInside : position' < (runs second).emissions.length)
    (firstKey :
      (runs first).context.segmentKey platform position = some segmentKey)
    (secondKey :
      (runs second).context.segmentKey platform position' =
        some segmentKey) :
    first = second := by
  have material {run : ι} {place : Nat}
      (scheduled :
        (runs run).context.segmentKey platform place = some segmentKey) :
      platform.kdfExpand (runs run).context.provider 32
          (runs run).context.messageKey.val ((runs run).keyInfo place) =
        .ok segmentKey.material :=
    MessageContext.material_of_segmentKey scheduled
  exact distinct first second (HonestRun.triple_of_keyInfo
    (injective first second position position' _ firstInside secondInside
      (material firstKey) (material secondKey)).2)

/-- A frame at a position of a run is the run's segment there. -/
theorem emission_of_isFrame
    (agree : platform.SealsAgree)
    (distinct : ∀ first second,
      (runs first).triple = (runs second).triple → first = second)
    (ideal : IdealAead runs)
    (injective : InjectiveKdf runs)
    {run : ι}
    {position : Nat}
    {kind : SegmentKind}
    {segment plaintext : Bytes}
    (inside : position < (runs run).emissions.length)
    (frame :
      (segmentStream platform (runs run).context).IsFrame position
        kind.isFinal segment plaintext) :
    kind = (runs run).kind position ∧
      (runs run).emissions[position]? = some (segment, plaintext) := by
  obtain ⟨_, framed, opened⟩ := isFrame_iff.mp frame
  obtain ⟨parts, cut, _⟩ := segmentParts_of_length framed.length_bounds.1
  have below := MessageContext.openSegment_limit opened
  obtain ⟨segmentKey, scheduled, opened⟩ :=
    (MessageContext.openSegment_eq_some cut).mp opened
  obtain ⟨other, index, segment', member, scheduled', cut', aad⟩ :=
    (ideal run position segmentKey inside scheduled _ parts plaintext).mp
      opened
  have inside' : index < (runs other).emissions.length :=
    (List.getElem?_eq_some_iff.mp member).1
  obtain rfl := run_eq_of_segmentKey distinct injective inside inside'
    scheduled scheduled'
  obtain ⟨rfl, rfl⟩ := segmentAad_injective below
    (MessageContext.segmentKey_limit scheduled') aad
  have framed' := ((runs run).seals_at agree member).2.framed.2
  obtain rfl := framed.eq_of_parts framed' cut cut'
  exact ⟨rfl, member⟩

/-- Every segment of a run is a frame at its position. -/
theorem isFrame_of_emission
    (agree : platform.SealsAgree)
    (ideal : IdealAead runs)
    {run : ι}
    {position : Nat}
    {segment plaintext : Bytes}
    (member :
      (runs run).emissions[position]? = some (segment, plaintext)) :
    (segmentStream platform (runs run).context).IsFrame position
      ((runs run).kind position).isFinal segment plaintext := by
  have inside : position < (runs run).emissions.length :=
    (List.getElem?_eq_some_iff.mp member).1
  obtain ⟨allowed, seals⟩ := (runs run).seals_at agree member
  have framed := seals.framed.2
  obtain ⟨parts, cut, _⟩ := segmentParts_of_length framed.length_bounds.1
  obtain ⟨_, nonce, sealedThere⟩ := seals
  simp only [MessageContext.sealSegment, Option.bind_eq_bind,
    Option.bind_eq_some_iff] at sealedThere
  obtain ⟨segmentKey, scheduled, _⟩ := sealedThere
  refine isFrame_iff.mpr ⟨allowed, framed,
    (MessageContext.openSegment_eq_some cut).mpr
      ⟨segmentKey, scheduled, ?_⟩⟩
  exact (ideal run position segmentKey inside scheduled _ parts plaintext).mpr
    ⟨run, position, segment, member, scheduled, cut, rfl⟩

/-- Frames up to a last one are all of a run's segments. -/
theorem frames_eq_emissions
    (agree : platform.SealsAgree)
    (distinct : ∀ first second,
      (runs first).triple = (runs second).triple → first = second)
    (ideal : IdealAead runs)
    (injective : InjectiveKdf runs)
    {run : ι}
    {middle : List (Bytes × Bytes)}
    {last lastPlaintext : Bytes}
    (frames :
      (segmentStream platform (runs run).context).Frames 0 middle)
    (final :
      (segmentStream platform (runs run).context).IsFrame
        (0 + middle.length) true last lastPlaintext) :
    middle ++ [(last, lastPlaintext)] = (runs run).emissions := by
  rw [Nat.zero_add] at final
  have nonFinal (index : Nat) (inMiddle : index < middle.length)
      (inside : index < (runs run).emissions.length) :
      SegmentKind.nonFinal = (runs run).kind index ∧
        (runs run).emissions[index]? = some middle[index] := by
    have frame := frames index middle[index].1 middle[index].2
      (List.getElem?_eq_getElem inMiddle)
    rw [Nat.zero_add] at frame
    exact emission_of_isFrame agree distinct ideal injective inside frame
  -- A non-final frame is never the run's last segment, so the next position
  -- is one of the run's too.
  have reached (index : Nat) :
      index ≤ middle.length → index < (runs run).emissions.length := by
    induction index with
    | zero =>
        intro _
        exact (runs run).emissions_pos agree
    | succ index inductionHypothesis =>
        intro inMiddle
        have here := inductionHypothesis (by omega)
        have kind := (nonFinal index (by omega) here).1
        have notLast : index + 1 ≠ (runs run).emissions.length := by
          intro isLast
          rw [HonestRun.kind, kindAt, if_pos isLast] at kind
          cases kind
        omega
  have inside := reached middle.length (Nat.le_refl _)
  obtain ⟨kind, member⟩ : SegmentKind.final = (runs run).kind middle.length ∧
      (runs run).emissions[middle.length]? = some (last, lastPlaintext) :=
    emission_of_isFrame agree distinct ideal injective inside final
  have complete : middle.length + 1 = (runs run).emissions.length := by
    by_contra notLast
    rw [HonestRun.kind, kindAt, if_neg notLast] at kind
    cases kind
  refine List.ext_getElem? fun index => ?_
  rcases Nat.lt_trichotomy index middle.length with before | rfl | after
  · rw [List.getElem?_append_left before,
      (nonFinal index before (reached index (Nat.le_of_lt before))).2,
      List.getElem?_eq_getElem before]
  · rw [member, List.getElem?_append_right (Nat.le_refl _), Nat.sub_self]
    rfl
  · rw [List.getElem?_eq_none (by
        rw [List.length_append, List.length_singleton]
        omega), List.getElem?_eq_none (by omega)]

/-- The segments of a run are a message of its segment stream. -/
theorem HonestRun.message
    (agree : platform.SealsAgree)
    (ideal : IdealAead runs)
    (run : ι) :
    (segmentStream platform (runs run).context).Message 0
      (runs run).segments ((runs run).emissions.map Prod.snd) := by
  have here :=
    (Encryptor.new_eq_ok (runs run).startSound (runs run).created).2.2
  obtain ⟨middle, last, lastPlaintext, shape, _⟩ :=
    runCalls_sealedMessage agree here (runs run).callsSound
      (runs run).completed
  have count : (runs run).emissions.length = middle.length + 1 := by
    rw [shape, List.length_append, List.length_singleton]
  rw [Framing.Parser.message_iff]
  refine ⟨middle, last, lastPlaintext, ?_, ?_, ?_, ?_⟩
  · simp [HonestRun.segments, shape]
  · simp [shape]
  · intro index segment plaintext member
    have inMiddle : index < middle.length :=
      (List.getElem?_eq_some_iff.mp member).1
    have emitted :
        (runs run).emissions[index]? = some (segment, plaintext) := by
      rw [shape, List.getElem?_append_left inMiddle]
      exact member
    have frame := isFrame_of_emission agree ideal emitted
    have kind : (runs run).kind index = .nonFinal :=
      if_neg (by omega)
    rwa [kind, ← Nat.zero_add index] at frame
  · have emitted :
        (runs run).emissions[middle.length]? =
          some (last, lastPlaintext) := by
      rw [shape, List.getElem?_append_right (Nat.le_refl _), Nat.sub_self]
      rfl
    have frame := isFrame_of_emission agree ideal emitted
    have kind : (runs run).kind middle.length = .final :=
      if_pos count.symm
    rwa [kind, ← Nat.zero_add middle.length] at frame

end Integrity

/-- Under the header of an honest run, whatever body an adversary puts after
it, `decrypt` accepts exactly the run's own segments, in order, and returns the
run's plaintext. -/
theorem decrypt_honestHeader_iff
    {platform : Platform}
    {key : Key}
    {ι : Type}
    {runs : ι → HonestRun platform key}
    (agree : platform.SealsAgree)
    (distinct : ∀ first second,
      (runs first).triple = (runs second).triple → first = second)
    (ideal : IdealAead runs)
    (injective : InjectiveKdf runs)
    (run : ι)
    (body plaintext : Bytes) :
    decrypt platform key (runs run).aad
        ((runs run).encryptor.header.val ++ body) = .ok plaintext ↔
      body = (runs run).segments ∧ plaintext = (runs run).plaintext := by
  have authentic := (runs run).authentic
  rw [(decrypt_spec _ _ _ _).2]
  constructor
  · rintro ⟨header, body', context, payloads, shape, authentic', message,
      rfl⟩
    obtain ⟨sameHeader, rfl⟩ := List.append_inj shape
      (by rw [Octets.length_val, Octets.length_val])
    obtain rfl := Subtype.ext sameHeader
    obtain rfl := authentic'.unique authentic
    obtain ⟨middle, last, lastPlaintext, rfl, rfl, frames, final⟩ :=
      (Framing.Parser.message_iff _).mp message
    have emitted := frames_eq_emissions agree distinct ideal injective frames
      final
    constructor
    · simp [HonestRun.segments, ← emitted]
    · simp [HonestRun.plaintext, ← emitted]
  · rintro ⟨rfl, rfl⟩
    exact ⟨_, _, _, _, rfl, authentic, HonestRun.message agree ideal run, rfl⟩

/-! ### Two runs under one key -/

/-- The nonce that a counting generator gives from a first byte on. -/
def countedNonce (start : Nat) : Octets aeadIvLength :=
  ⟨(List.range 12).map fun index => UInt8.ofNat (start + index), rfl⟩

/-- The segment key of the sample runs with an AAD. -/
def sampleMaterial (aad : Bytes) : Octets 32 :=
  ⟨(zeros 8 ++ aad ++ zeros 32).take 32, by
    simp only [List.length_take, List.length_append, length_zeros]
    omega⟩

/-- What the two sample runs seal: the key, the nonce, the AAD and the
ciphertext of every segment. -/
def sampleLedger :
    List (Octets 32 × Octets aeadIvLength × Bytes × Bytes) :=
  [(sampleMaterial [], countedNonce 0, segmentAad 0 .nonFinal,
      List.replicate 32 7),
    (sampleMaterial [], countedNonce 12, segmentAad 1 .final, [8, 9]),
    (sampleMaterial [1], countedNonce 100, segmentAad 0 .final, [5])]

/-- A platform whose AEAD opens only what the sample runs seal. -/
abbrev samplePlatform : Platform :=
  keyedPlatform fun key nonce aad ciphertext =>
    (key, nonce, aad, ciphertext) ∈ sampleLedger

/-- The calls of a sample run derive their keys without a fault. -/
theorem sampleCalls_sound
    {calls : List EncryptorCall}
    (same : ∀ call ∈ calls, call.kdf = spreadKdf) :
    ∀ call ∈ calls, call.kdf.FaultOf samplePlatform.kdfExpand := by
  intro call member
  rw [same call member]
  exact .refl _

set_option maxRecDepth 100000 in
/-- Two runs under one key: a message of two segments without an AAD, and a
message of one segment with an AAD. -/
def sampleRuns : Bool → HonestRun samplePlatform zeroKey
  | false =>
    { aad := []
      parameters := shortestSegments
      rng := countingRng 0
      startKdf := spreadKdf
      encryptor := _
      calls :=
        [⟨.nonFinal, .vec (List.replicate 32 7), spreadKdf⟩,
          ⟨.final, .vec [8, 9], spreadKdf⟩]
      emissions := _
      startSound := .refl _
      created := rfl
      callsSound := sampleCalls_sound (by simp)
      completed := rfl }
  | true =>
    { aad := [1]
      parameters := shortestSegments
      rng := countingRng 100
      startKdf := spreadKdf
      encryptor := _
      calls := [⟨.final, .vec [5], spreadKdf⟩]
      emissions := _
      startSound := .refl _
      created := rfl
      callsSound := sampleCalls_sound (by simp)
      completed := rfl }

/-- A segment of a sample run: its length prefix, the first byte of its nonce
and what it encrypts. -/
def sampleSegment (lengthPrefix start : Nat) (plaintext : Bytes) : Bytes :=
  transparentSegment lengthPrefix (countedNonce start) plaintext

set_option maxRecDepth 100000 in
theorem sampleRuns_first :
    (sampleRuns false).emissions =
      [(sampleSegment u32Max 0 (List.replicate 32 7), List.replicate 32 7),
        (sampleSegment 34 12 [8, 9], [8, 9])] :=
  rfl

set_option maxRecDepth 100000 in
theorem sampleRuns_second :
    (sampleRuns true).emissions = [(sampleSegment 33 100 [5], [5])] :=
  rfl

/-- The first sample run's header and first segment, and other bytes. -/
def sampleStored (rest : Bytes) : Bytes :=
  shortestSegments.encode.val ++ (List.range 32).map UInt8.ofNat ++ zeros 32 ++
    (sampleSegment u32Max 0 (List.replicate 32 7) ++ rest)

theorem sampleRuns_plaintext :
    (sampleRuns false).plaintext = List.replicate 32 7 ++ [8, 9] := by
  rw [HonestRun.plaintext, sampleRuns_first]
  rfl

set_option maxRecDepth 100000 in
/-- The segment keys of the sample runs. -/
theorem sampleRuns_segmentKey
    (run : Bool)
    {position : Nat}
    (inside : position < (sampleRuns run).emissions.length) :
    (sampleRuns run).context.segmentKey samplePlatform position =
      some ⟨.rustCrypto, sampleMaterial (sampleRuns run).aad⟩ := by
  cases run with
  | false =>
    match position, inside with
    | 0, _ => rfl
    | 1, _ => rfl
  | true =>
    match position, inside with
    | 0, _ => rfl

set_option maxRecDepth 100000 in
/-- What opens under a key of the provider is what the sample runs sealed. -/
theorem sampleRuns_sealed
    {key : AeadKey}
    {aad plaintext : Bytes}
    {parts : SegmentParts} :
    (∃ run, (sampleRuns run).Sealed key aad parts plaintext) ↔
      key.provider = .rustCrypto ∧
        key.opened samplePlatform parts.nonce aad parts.ciphertext parts.tag =
          some plaintext := by
  rw [keyed_opened, decide_eq_true_eq]
  constructor
  · rintro ⟨run, index, segment, member, scheduled, cut, rfl⟩
    have inside := (List.getElem?_eq_some_iff.mp member).1
    rw [sampleRuns_segmentKey run inside] at scheduled
    cases scheduled
    cases run with
    | false =>
        match index, inside with
        | 0, _ =>
            cases member
            cases cut
            exact ⟨rfl, rfl, rfl, .head _⟩
        | 1, _ =>
            cases member
            cases cut
            exact ⟨rfl, rfl, rfl, .tail _ (.head _)⟩
    | true =>
        match index, inside with
        | 0, _ =>
            cases member
            cases cut
            exact ⟨rfl, rfl, rfl, .tail _ (.tail _ (.head _))⟩
  · obtain ⟨nonce, ciphertext, tag⟩ := parts
    obtain ⟨provider, material⟩ := key
    rintro ⟨rfl, rfl, rfl, admitted⟩
    simp only [sampleLedger, List.mem_cons, Prod.mk.injEq, List.not_mem_nil,
      or_false] at admitted
    rcases admitted with ⟨rfl, rfl, rfl, rfl⟩ | ⟨rfl, rfl, rfl, rfl⟩ |
      ⟨rfl, rfl, rfl, rfl⟩
    · exact ⟨false, 0, _, rfl, rfl, rfl, rfl⟩
    · exact ⟨false, 1, _, rfl, rfl, rfl, rfl⟩
    · exact ⟨true, 0, _, rfl, rfl, rfl, rfl⟩

/-- The sample runs differ in their AAD. -/
theorem sampleRuns_distinct
    (first second : Bool)
    (same : (sampleRuns first).triple = (sampleRuns second).triple) :
    first = second := by
  have aad := congrArg (fun triple => triple.2.2) same
  cases first <;> cases second <;> first | rfl | cases aad

/-- What a key of the sample runs is derived from. -/
theorem sampleRuns_derived
    {run : Bool}
    {position : Nat}
    {material : Octets 32}
    (derived :
      samplePlatform.kdfExpand (sampleRuns run).context.provider 32
          (sampleRuns run).context.messageKey.val
          ((sampleRuns run).keyInfo position) = .ok material) :
    material.val =
      beBytes 8
          ((sampleRuns run).context.parameters.maskedPosition position) ++
        ((sampleRuns run).aad ++ zeros 32).take 24 := by
  cases run <;> cases derived <;> rfl

/-- A key of the sample runs fixes the run and the masked position. -/
theorem sampleRuns_separate
    {first second : Bool}
    {position position' : Nat}
    {material : Octets 32}
    (derived :
      samplePlatform.kdfExpand (sampleRuns first).context.provider 32
          (sampleRuns first).context.messageKey.val
          ((sampleRuns first).keyInfo position) = .ok material)
    (derived' :
      samplePlatform.kdfExpand (sampleRuns second).context.provider 32
          (sampleRuns second).context.messageKey.val
          ((sampleRuns second).keyInfo position') = .ok material) :
    first = second ∧
      (sampleRuns first).keyInfo position =
        (sampleRuns second).keyInfo position' := by
  have same := (sampleRuns_derived derived).symm.trans
    (sampleRuns_derived derived')
  obtain ⟨masked, same⟩ := List.append_inj same
    (by rw [length_beBytes, length_beBytes])
  obtain rfl : first = second := by
    cases first <;> cases second <;> first | rfl | cases same
  refine ⟨rfl, ?_⟩
  unfold HonestRun.keyInfo
  rw [masked]

theorem sampleRuns_idealAead : IdealAead sampleRuns := by
  intro run position segmentKey inside scheduled aad parts plaintext
  have provider : segmentKey.provider = .rustCrypto := by
    rw [(MessageContext.key_of_segmentKey scheduled).1]
    cases run <;> rfl
  rw [sampleRuns_sealed, and_iff_right provider]

theorem sampleRuns_injectiveKdf : InjectiveKdf sampleRuns := by
  intro first second position position' material _ _ derived derived'
  obtain ⟨rfl, same⟩ := sampleRuns_separate derived derived'
  exact ⟨rfl, congrArg List.flatten same⟩

/-- Two runs under one key, of two segments and of one: behind the header of
either only its own segments are accepted, all of them and in their order, so
no segment of the other run and not the final segment alone. -/
theorem decrypt_honestHeader_iff_example :
    (sampleRuns false).triple ≠ (sampleRuns true).triple ∧
      (sampleRuns false).emissions =
        [(sampleSegment u32Max 0 (List.replicate 32 7), List.replicate 32 7),
          (sampleSegment 34 12 [8, 9], [8, 9])] ∧
      (sampleRuns true).emissions = [(sampleSegment 33 100 [5], [5])] ∧
      ∀ run body plaintext,
        decrypt samplePlatform zeroKey (sampleRuns run).aad
            ((sampleRuns run).encryptor.header.val ++ body) = .ok plaintext ↔
          body = (sampleRuns run).segments ∧
            plaintext = (sampleRuns run).plaintext := by
  refine ⟨fun same => ?_, sampleRuns_first, sampleRuns_second, ?_⟩
  · exact Bool.false_ne_true (sampleRuns_distinct false true same)
  · exact decrypt_honestHeader_iff keyed_sealsAgree sampleRuns_distinct
      sampleRuns_idealAead sampleRuns_injectiveKdf

end FastFloe
