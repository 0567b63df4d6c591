import FastFloe.State

namespace FastFloe

open Rust

/-!
# Segments as values

What a segment means, free of the code's caches, buffers and error paths: its
framing, the key its position selects, and the plaintext it opens to.  The
stateful operations of `State` are tied to these functions in the modules that
follow.
-/

/-! ## The key schedule -/

/-- Deriving a cached key remembers the position it was derived for. -/
theorem CachedKey.derive_maskedPosition
    {platform : Platform}
    {context : MessageContext}
    {maskedPosition : Nat}
    {cached : CachedKey}
    (derived : CachedKey.derive platform context maskedPosition = .ok cached) :
    cached.maskedPosition = maskedPosition := by
  unfold CachedKey.derive at derived
  obtain ⟨key, _, shape⟩ := Outcome.bind_eq_ok.mp derived
  cases shape
  rfl

/-- Deriving a segment key always comes back. -/
theorem CachedKey.derive_returns
    (platform : Platform)
    (context : MessageContext)
    (maskedPosition : Nat) :
    (CachedKey.derive platform context maskedPosition).Returns := by
  unfold CachedKey.derive deriveSegmentKey
  refine Outcome.Returns.bind
    (Outcome.Returns.bind (returns_liftBackend _) ?_) ?_
  · intro material _
    unfold AeadKey.new
    split
    · exact Outcome.returns_ok _
    · exact Outcome.returns_err _
  · intro key _
    exact Outcome.returns_ok _

/-- A derivation that succeeds at a faulty moment gives the same key always. -/
theorem CachedKey.derive_of_fault
    {platform : Platform}
    {faulty : Kdf}
    {context : MessageContext}
    {maskedPosition : Nat}
    {cached : CachedKey}
    (sound : faulty.FaultOf platform.kdfExpand)
    (derived :
      CachedKey.derive (platform.withKdf faulty) context maskedPosition =
        .ok cached) :
    CachedKey.derive platform context maskedPosition = .ok cached := by
  unfold CachedKey.derive deriveSegmentKey at derived ⊢
  simp only [Outcome.bind_eq_ok, Platform.expand, liftBackend_eq_ok]
    at derived ⊢
  obtain ⟨key, ⟨material, expanded, accepted⟩, shape⟩ := derived
  exact ⟨key, ⟨material, sound _ _ _ _ _ expanded, accepted⟩, shape⟩

/-- The key for a segment position. -/
def MessageContext.segmentKey (platform : Platform) (self : MessageContext)
    (position : Nat) : Option AeadKey :=
  if position < aeadMaxSegments then
    match CachedKey.derive platform self
        (self.parameters.maskedPosition position) with
    | .ok cached => some cached.key
    | .error _ => none
  else
    none

/-- A segment key belongs to the context's provider, and comes from this key
derivation call. -/
theorem MessageContext.key_of_segmentKey
    {platform : Platform}
    {context : MessageContext}
    {position : Nat}
    {key : AeadKey}
    (scheduled : context.segmentKey platform position = some key) :
    key.provider = context.provider ∧
      platform.kdfExpand context.provider 32 context.messageKey.val
          [context.parameters.encode.val, context.floeIv.val,
            segmentKeyPurpose,
            beBytes 8 (context.parameters.maskedPosition position),
            context.aad] = .ok key.material := by
  unfold segmentKey at scheduled
  split at scheduled
  · split at scheduled
    next cached derived =>
      cases scheduled
      unfold CachedKey.derive deriveSegmentKey at derived
      simp only [Outcome.bind_eq_ok, Platform.expand, liftBackend_eq_ok]
        at derived
      obtain ⟨key, ⟨material, expanded, accepted⟩, shape⟩ := derived
      cases shape
      unfold AeadKey.new at accepted
      split at accepted
      · cases accepted
        exact ⟨rfl, expanded⟩
      · cases accepted
    · cases scheduled
  · cases scheduled

/-- The key derivation call that a segment key comes from. -/
theorem MessageContext.material_of_segmentKey
    {platform : Platform}
    {context : MessageContext}
    {position : Nat}
    {key : AeadKey}
    (scheduled : context.segmentKey platform position = some key) :
    platform.kdfExpand context.provider 32 context.messageKey.val
        [context.parameters.encode.val, context.floeIv.val,
          segmentKeyPurpose,
          beBytes 8 (context.parameters.maskedPosition position),
          context.aad] = .ok key.material :=
  (key_of_segmentKey scheduled).2

/-- The cached key is the one the key schedule gives for its position. -/
def KeyCache.Coherent (platform : Platform) (context : MessageContext)
    (self : KeyCache) : Prop :=
  ∀ cached, self.cachedKey = some cached →
    CachedKey.derive platform context cached.maskedPosition = .ok cached

theorem KeyCache.coherent_empty
    (platform : Platform)
    (context : MessageContext) :
    KeyCache.empty.Coherent platform context := by
  intro cached member
  cases member

/-- A fresh cache is coherent and holds the key of position zero. -/
theorem KeyCache.new_eq_ok
    {platform : Platform}
    {context : MessageContext}
    {keys : KeyCache}
    (created : KeyCache.new platform context = .ok keys) :
    keys.Coherent platform context ∧
      ∃ key, context.segmentKey platform 0 = some key := by
  unfold KeyCache.new at created
  obtain ⟨cached, derived, shape⟩ := Outcome.bind_eq_ok.mp created
  cases shape
  have masked : context.parameters.maskedPosition 0 = 0 := by
    simp [Parameters.maskedPosition]
  constructor
  · intro other member
    cases member
    rwa [CachedKey.derive_maskedPosition derived]
  · exact ⟨cached.key, by
      simp [MessageContext.segmentKey, aeadMaxSegments, masked, derived]⟩

/-- A lookup that misses the cache derives the scheduled key, or fails and
leaves the cache as it was. -/
theorem KeyCache.derive_spec
    {platform : Platform}
    {faulty : Kdf}
    {context : MessageContext}
    {keys : KeyCache}
    {position : Nat}
    (sound : faulty.FaultOf platform.kdfExpand)
    (coherent : keys.Coherent platform context)
    (inside : position < aeadMaxSegments) :
    ∃ next, next.Coherent platform context ∧
      ((∃ key,
          context.segmentKey platform position = some key ∧
            (match CachedKey.derive (platform.withKdf faulty) context
                (context.parameters.maskedPosition position) with
              | .error stop => (.error stop, keys)
              | .ok cached => (.ok cached.key, ⟨some cached⟩) :
                Result AeadKey × KeyCache) = (.ok key, next)) ∨
        ∃ error,
          context.segmentKey (platform.withKdf faulty) position = none ∧
            (match CachedKey.derive (platform.withKdf faulty) context
                (context.parameters.maskedPosition position) with
              | .error stop => (.error stop, keys)
              | .ok cached => (.ok cached.key, ⟨some cached⟩) :
                Result AeadKey × KeyCache) =
              (.error (.err error), next)) := by
  cases derived :
      CachedKey.derive (platform.withKdf faulty) context
        (context.parameters.maskedPosition position) with
  | ok cached =>
      have scheduled := CachedKey.derive_of_fault sound derived
      refine ⟨⟨some cached⟩, ?_, .inl ⟨cached.key, ?_, rfl⟩⟩
      · intro other member
        cases member
        rwa [CachedKey.derive_maskedPosition scheduled]
      · simp [MessageContext.segmentKey, inside, scheduled]
  | error stop =>
      obtain ⟨error, shape⟩ :=
        (CachedKey.derive_returns (platform.withKdf faulty) context
          (context.parameters.maskedPosition position)).exists_err
          (by simp [derived])
      rw [derived] at shape
      cases shape
      refine ⟨keys, coherent, .inr ⟨error, ?_, rfl⟩⟩
      simp [MessageContext.segmentKey, inside, derived]

/-- Looking a key up gives the scheduled key, whatever the cache held and
wherever earlier derivations failed; a failure leaves the cache coherent. -/
theorem KeyCache.keyForPosition_spec
    {platform : Platform}
    {faulty : Kdf}
    {context : MessageContext}
    {keys : KeyCache}
    (sound : faulty.FaultOf platform.kdfExpand)
    (coherent : keys.Coherent platform context)
    (position : Nat) :
    ∃ next, next.Coherent platform context ∧
      ((∃ key,
          context.segmentKey platform position = some key ∧
            keys.keyForPosition (platform.withKdf faulty) context position =
              (.ok key, next)) ∨
        ∃ error,
          context.segmentKey (platform.withKdf faulty) position = none ∧
            keys.keyForPosition (platform.withKdf faulty) context position =
              (.error (.err error), next)) := by
  unfold KeyCache.keyForPosition
  by_cases limit : position ≥ aeadMaxSegments
  · refine ⟨keys, coherent, .inr ⟨.segmentLimit, ?_, by simp [limit]⟩⟩
    simp [MessageContext.segmentKey, Nat.not_lt.mpr limit]
  have inside : position < aeadMaxSegments := Nat.lt_of_not_ge limit
  simp only [limit, ↓reduceIte]
  cases held : keys.cachedKey with
  | none =>
      simp only [↓reduceIte]
      exact KeyCache.derive_spec sound coherent inside
  | some cached =>
      by_cases same : cached.maskedPosition =
          context.parameters.maskedPosition position
      · have scheduled := coherent cached held
        rw [same] at scheduled
        refine ⟨keys, coherent, .inl ⟨cached.key, ?_, ?_⟩⟩
        · simp [MessageContext.segmentKey, inside, scheduled]
        · simp [same, Outcome.expect]
      · simp only [ne_eq, same, not_false_eq_true, decide_true, ↓reduceIte]
        exact KeyCache.derive_spec sound coherent inside

/-! ## The parts of a segment -/

/-- The framing of a segment: its length, and the prefix that declares it. -/
def WellFramed (parameters : Parameters) (kind : SegmentKind)
    (segment : Bytes) : Prop :=
  match kind with
  | .nonFinal =>
      segment.length = parameters.ciphertextSegmentLength ∧
        segment.take segmentPrefixLength = beBytes 4 u32Max
  | .final =>
      segmentOverhead ≤ segment.length ∧
        segment.length ≤ parameters.ciphertextSegmentLength ∧
          segment.take segmentPrefixLength = beBytes 4 segment.length

/-- The length prefix of a segment. -/
def lengthPrefixOf (kind : SegmentKind) (length : Nat) : Bytes :=
  match kind with
  | .nonFinal => beBytes 4 u32Max
  | .final => beBytes 4 length

@[simp] theorem length_lengthPrefixOf (kind : SegmentKind) (length : Nat) :
    (lengthPrefixOf kind length).length = 4 := by
  cases kind <;> simp [lengthPrefixOf]

theorem WellFramed.take_lead
    {parameters : Parameters}
    {kind : SegmentKind}
    {segment : Bytes}
    (framed : WellFramed parameters kind segment) :
    segment.take segmentPrefixLength = lengthPrefixOf kind segment.length := by
  cases kind with
  | nonFinal => exact framed.2
  | final => exact framed.2.2

/-- A segment holds at least its overhead and at most a full segment. -/
theorem WellFramed.length_bounds
    {parameters : Parameters}
    {kind : SegmentKind}
    {segment : Bytes}
    (framed : WellFramed parameters kind segment) :
    32 ≤ segment.length ∧
      segment.length ≤ parameters.ciphertextSegmentLength := by
  have minimum := parameters.minimum_le
  cases kind with
  | nonFinal =>
      have exact := framed.1
      omega
  | final =>
      exact ⟨framed.1, framed.2.1⟩

/-- The nonce, the ciphertext and the tag of a segment. -/
structure SegmentParts where
  nonce : Octets aeadIvLength
  ciphertext : Bytes
  tag : Octets aeadTagLength

/-- Cuts a segment into its parts. -/
def segmentParts (segment : Bytes) : Option SegmentParts := do
  let nonce ← Octets.ofSlice? aeadIvLength
    ((segment.drop segmentPrefixLength).take aeadIvLength)
  let tag ← Octets.ofSlice? aeadTagLength
    (segment.drop (segment.length - aeadTagLength))
  some
    { nonce
      ciphertext := (segment.drop segmentPayloadOffset).take
        (segment.length - segmentOverhead)
      tag }

/-- A segment that holds its overhead has parts. -/
theorem segmentParts_of_length
    {segment : Bytes}
    (enough : 32 ≤ segment.length) :
    ∃ parts,
      segmentParts segment = some parts ∧
        parts.ciphertext.length = segment.length - 32 ∧
        parts.nonce.val = (segment.drop 4).take 12 ∧
        parts.ciphertext =
          (segment.drop 16).take (segment.length - 32) ∧
        parts.tag.val = segment.drop (segment.length - 16) := by
  have nonceLength :
      ((segment.drop segmentPrefixLength).take aeadIvLength).length =
        aeadIvLength := by
    simp only [segmentPrefixLength_eq, aeadIvLength_eq, List.length_take,
      List.length_drop]
    omega
  have tagLength :
      (segment.drop (segment.length - aeadTagLength)).length =
        aeadTagLength := by
    simp only [aeadTagLength_eq, List.length_drop]
    omega
  refine ⟨⟨⟨_, nonceLength⟩, _, ⟨_, tagLength⟩⟩, ?_, ?_, rfl, rfl, rfl⟩
  · simp only [segmentParts, Octets.ofSlice?_of_length nonceLength,
      Octets.ofSlice?_of_length tagLength, Option.bind_eq_bind,
      Option.bind_some, segmentPayloadOffset_eq, segmentOverhead_eq]
  · simp only [List.length_take, List.length_drop]
    omega

/-- Cutting an assembled segment gives back what it was assembled from. -/
theorem segmentParts_append
    {lengthPrefix ciphertext : Bytes}
    {nonce : Octets aeadIvLength}
    {tag : Octets aeadTagLength}
    (prefixLength : lengthPrefix.length = 4) :
    segmentParts (lengthPrefix ++ nonce.val ++ ciphertext ++ tag.val) =
      some ⟨nonce, ciphertext, tag⟩ := by
  have total :
      (lengthPrefix ++ nonce.val ++ ciphertext ++ tag.val).length =
        ciphertext.length + 32 := by
    simp only [List.length_append, prefixLength, Octets.length_val,
      aeadIvLength_eq, aeadTagLength_eq]
    omega
  have nonceSlice :
      ((lengthPrefix ++ nonce.val ++ ciphertext ++ tag.val).drop
          segmentPrefixLength).take aeadIvLength = nonce.val := by
    rw [segmentPrefixLength_eq, List.append_assoc, List.append_assoc,
      List.drop_left' prefixLength, List.take_left' nonce.length_val]
  have tagSlice :
      (lengthPrefix ++ nonce.val ++ ciphertext ++ tag.val).drop
          ((lengthPrefix ++ nonce.val ++ ciphertext ++ tag.val).length -
            aeadTagLength) = tag.val := by
    refine List.drop_left' ?_
    simp only [List.length_append, Octets.length_val]
    omega
  have ciphertextSlice :
      ((lengthPrefix ++ nonce.val ++ ciphertext ++ tag.val).drop
          segmentPayloadOffset).take
        ((lengthPrefix ++ nonce.val ++ ciphertext ++ tag.val).length -
          segmentOverhead) = ciphertext := by
    rw [total, List.append_assoc, List.drop_left' (by
      simp [prefixLength, aeadIvLength_eq, segmentPayloadOffset_eq])]
    exact List.take_left' (by simp [segmentOverhead_eq])
  simp only [segmentParts, nonceSlice, tagSlice, ciphertextSlice,
    Octets.ofSlice?_eq_some.mpr rfl, Option.bind_eq_bind, Option.bind_some]

/-! ## Opening -/

/-- The plaintext a segment opens to at a position: the key schedule's key, the
segment's own nonce and tag, and the position and finality as AAD. -/
def MessageContext.openSegment (platform : Platform) (self : MessageContext)
    (position : Nat) (kind : SegmentKind) (segment : Bytes) : Option Bytes := do
  let key ← self.segmentKey platform position
  let parts ← segmentParts segment
  key.opened platform parts.nonce (segmentAad position kind) parts.ciphertext
    parts.tag

theorem MessageContext.openSegment_eq_some
    {platform : Platform}
    {context : MessageContext}
    {position : Nat}
    {kind : SegmentKind}
    {segment plaintext : Bytes}
    {parts : SegmentParts}
    (cut : segmentParts segment = some parts) :
    context.openSegment platform position kind segment = some plaintext ↔
      ∃ key,
        context.segmentKey platform position = some key ∧
          key.opened platform parts.nonce (segmentAad position kind)
            parts.ciphertext parts.tag = some plaintext := by
  simp only [openSegment, cut, Option.bind_eq_bind, Option.bind_some,
    Option.bind_eq_some_iff]

/-- Without a key for its position no segment opens. -/
theorem MessageContext.openSegment_of_unscheduled
    {platform : Platform}
    {context : MessageContext}
    {position : Nat}
    {kind : SegmentKind}
    {segment : Bytes}
    (unscheduled : context.segmentKey platform position = none) :
    context.openSegment platform position kind segment = none := by
  simp only [openSegment, unscheduled, Option.bind_eq_bind, Option.bind_none]

/-- A segment opens to a plaintext shorter by the overhead. -/
theorem MessageContext.length_of_openSegment
    {platform : Platform}
    {context : MessageContext}
    {position : Nat}
    {kind : SegmentKind}
    {segment plaintext : Bytes}
    (success :
      context.openSegment platform position kind segment = some plaintext)
    (enough : 32 ≤ segment.length) :
    plaintext.length + 32 = segment.length := by
  obtain ⟨parts, cut, length, _⟩ := segmentParts_of_length enough
  obtain ⟨key, _, success⟩ := (openSegment_eq_some cut).mp success
  have kept := AeadKey.length_of_opened success
  omega

/-- A position past the limit has no key. -/
theorem MessageContext.segmentKey_limit
    {platform : Platform}
    {context : MessageContext}
    {position : Nat}
    {key : AeadKey}
    (scheduled : context.segmentKey platform position = some key) :
    position < aeadMaxSegments := by
  unfold segmentKey at scheduled
  split at scheduled
  next inside => exact inside
  · cases scheduled

/-- A position past the limit opens nothing. -/
theorem MessageContext.openSegment_limit
    {platform : Platform}
    {context : MessageContext}
    {position : Nat}
    {kind : SegmentKind}
    {segment plaintext : Bytes}
    (success :
      context.openSegment platform position kind segment = some plaintext) :
    position < aeadMaxSegments := by
  simp only [openSegment, Option.bind_eq_bind,
    Option.bind_eq_some_iff] at success
  obtain ⟨key, scheduled, _⟩ := success
  exact segmentKey_limit scheduled

/-- A well-framed segment that authenticates at a position. -/
structure MessageContext.Opens (platform : Platform)
    (context : MessageContext) (position : Nat) (kind : SegmentKind)
    (segment plaintext : Bytes) : Prop where
  framed : WellFramed context.parameters kind segment
  opened :
    context.openSegment platform position kind segment = some plaintext

theorem MessageContext.Opens.length_eq
    {platform : Platform}
    {context : MessageContext}
    {position : Nat}
    {kind : SegmentKind}
    {segment plaintext : Bytes}
    (opens : context.Opens platform position kind segment plaintext) :
    plaintext.length + 32 = segment.length :=
  context.length_of_openSegment opens.opened opens.framed.length_bounds.1

/-! ## Sealing -/

/-- A payload length that the kind of segment allows. -/
def FitsKind (parameters : Parameters) (kind : SegmentKind) (length : Nat) :
    Prop :=
  match kind with
  | .nonFinal => length = parameters.plaintextSegmentLength
  | .final => length ≤ parameters.plaintextSegmentLength

theorem FitsKind.le
    {parameters : Parameters}
    {kind : SegmentKind}
    {length : Nat}
    (fits : FitsKind parameters kind length) :
    length ≤ parameters.plaintextSegmentLength := by
  cases kind with
  | nonFinal => exact Nat.le_of_eq fits
  | final => exact fits

/-- The segment a plaintext is sealed to under a nonce. -/
def MessageContext.sealSegment (platform : Platform) (self : MessageContext)
    (position : Nat) (kind : SegmentKind) (nonce : Octets aeadIvLength)
    (plaintext : Bytes) : Option Bytes := do
  let key ← self.segmentKey platform position
  let (ciphertext, tag) ←
    key.sealed platform nonce (segmentAad position kind) plaintext
  some (lengthPrefixOf kind (plaintext.length + segmentOverhead) ++
    nonce.val ++ ciphertext ++ tag.val)

/-- A segment that encrypts a plaintext at a position, under some nonce. -/
structure MessageContext.Seals (platform : Platform)
    (context : MessageContext) (position : Nat) (kind : SegmentKind)
    (plaintext segment : Bytes) : Prop where
  fits : FitsKind context.parameters kind plaintext.length
  sealed : ∃ nonce,
    context.sealSegment platform position kind nonce plaintext = some segment

/-- Sealing adds the overhead and frames the segment. -/
theorem MessageContext.Seals.framed
    {platform : Platform}
    {context : MessageContext}
    {position : Nat}
    {kind : SegmentKind}
    {plaintext segment : Bytes}
    (seals : context.Seals platform position kind plaintext segment) :
    segment.length = plaintext.length + 32 ∧
      WellFramed context.parameters kind segment := by
  obtain ⟨fits, nonce, sealed⟩ := seals
  simp only [sealSegment, Option.bind_eq_bind, Option.bind_eq_some_iff,
    Option.some.injEq, Prod.exists] at sealed
  obtain ⟨key, _, ciphertext, tag, sealed, rfl⟩ := sealed
  have kept := AeadKey.length_of_sealed sealed
  have total :
      (lengthPrefixOf kind (plaintext.length + segmentOverhead) ++
          nonce.val ++ ciphertext ++ tag.val).length =
        plaintext.length + 32 := by
    simp only [List.length_append, length_lengthPrefixOf, Octets.length_val,
      aeadIvLength_eq, aeadTagLength_eq, kept]
    omega
  have lead :
      (lengthPrefixOf kind (plaintext.length + segmentOverhead) ++
          nonce.val ++ ciphertext ++ tag.val).take segmentPrefixLength =
        lengthPrefixOf kind (plaintext.length + 32) := by
    rw [List.append_assoc, List.append_assoc]
    exact List.take_left' (by simp [segmentPrefixLength_eq])
  have bound := fits.le
  have full := context.parameters.plaintextSegmentLength_add
  refine ⟨total, ?_⟩
  cases kind with
  | nonFinal =>
      have exact : plaintext.length =
        context.parameters.plaintextSegmentLength := fits
      exact ⟨by omega, lead⟩
  | final =>
      refine ⟨?_, ?_, ?_⟩
      · rw [total, segmentOverhead_eq]
        omega
      · omega
      · rw [total]
        exact lead

/-- What was sealed at a position opens there to its plaintext. -/
theorem MessageContext.Seals.opens
    {platform : Platform}
    {context : MessageContext}
    {position : Nat}
    {kind : SegmentKind}
    {plaintext segment : Bytes}
    (roundTrips : platform.RoundTrips)
    (seals : context.Seals platform position kind plaintext segment) :
    context.Opens platform position kind segment plaintext := by
  refine ⟨seals.framed.2, ?_⟩
  obtain ⟨_, nonce, sealed⟩ := seals
  simp only [sealSegment, Option.bind_eq_bind, Option.bind_eq_some_iff,
    Option.some.injEq, Prod.exists] at sealed
  obtain ⟨key, scheduled, ciphertext, tag, sealed, rfl⟩ := sealed
  simp only [openSegment, scheduled,
    segmentParts_append (length_lengthPrefixOf _ _), Option.bind_eq_bind,
    Option.bind_some]
  exact roundTrips key nonce _ plaintext ciphertext tag sealed

end FastFloe
