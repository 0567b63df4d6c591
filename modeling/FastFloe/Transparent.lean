import FastFloe.Sealing

namespace FastFloe

open Rust

/-!
# A transparent provider

A provider that keeps every plaintext as it is and derives zeros.  It protects
nothing; it shows that the properties assumed of a provider can hold together,
and gives runs of the crate that can be computed.  `admits` is the test that an
opening makes before it returns its ciphertext.
-/

/-- The AEAD of the transparent provider. -/
def transparentModule
    (admits : Octets aeadIvLength → Bytes → Bytes → Bool) : AeadModule where
  acceptsKey _ := true
  sealInPlace _ _ _ inOut := (.ok (Octets.zero aeadTagLength), inOut)
  sealInto _ _ _ plaintext output :=
    if output.length = plaintext.length + aeadTagLength then
      (.ok (), plaintext ++ zeros aeadTagLength)
    else
      (.error .cryptoFailure, output)
  openInto _ nonce aad ciphertext tag output :=
    if output.length = ciphertext.length ∧ tag = Octets.zero aeadTagLength ∧
        admits nonce aad ciphertext then
      (.ok (), ciphertext)
    else
      (.error .authenticationFailed, output)
  openInPlace _ nonce aad tag inOut :=
    if tag = Octets.zero aeadTagLength ∧ admits nonce aad inOut then
      (.ok (), inOut)
    else
      (.error .authenticationFailed, inOut)
  length_sealInPlace _ _ _ _ := rfl
  length_sealInto := by
    intro _ _ _ plaintext output
    split
    next exact => simp [exact]
    · rfl
  length_openInto := by
    intro _ _ _ _ _ _
    split
    next matching => exact matching.1.symm
    · rfl
  length_openInPlace := by
    intro _ _ _ _ _
    split <;> rfl

/-- A 64-bit build with the transparent provider as its only one. -/
def transparentPlatform
    (admits : Octets aeadIvLength → Bytes → Bytes → Bool) : Platform where
  target := .bits64
  compiled := [.rustCrypto]
  aead _ := transparentModule admits
  kdfExpand _ length _ _ := .ok (Octets.zero length)

section Properties

variable {admits : Octets aeadIvLength → Bytes → Bytes → Bool}

/-- What the transparent provider seals a plaintext to. -/
theorem transparent_sealed
    (key : AeadKey)
    (nonce : Octets aeadIvLength)
    (aad plaintext : Bytes) :
    key.sealed (transparentPlatform admits) nonce aad plaintext =
      some (plaintext, Octets.zero aeadTagLength) :=
  rfl

/-- What the transparent provider opens into an output. -/
theorem transparent_openInto
    (key : AeadKey)
    {nonce : Octets aeadIvLength}
    {aad ciphertext plaintext output : Bytes}
    {tag : Octets aeadTagLength}
    (exact : output.length = ciphertext.length) :
    key.openInto (transparentPlatform admits) nonce aad ciphertext tag
        output = (.ok (), plaintext) ↔
      plaintext = ciphertext ∧ tag = Octets.zero aeadTagLength ∧
        admits nonce aad ciphertext = true := by
  by_cases accepted :
      tag = Octets.zero aeadTagLength ∧ admits nonce aad ciphertext = true
  · have result :
        key.openInto (transparentPlatform admits) nonce aad ciphertext tag
          output = (.ok (), ciphertext) := by
      simp [AeadKey.openInto, transparentPlatform, transparentModule,
        liftBackend, accepted, exact]
    rw [result, and_iff_left accepted, Prod.mk.injEq]
    exact ⟨fun same => same.2.symm, fun same => ⟨rfl, same.symm⟩⟩
  · simp [AeadKey.openInto, transparentPlatform, transparentModule,
      liftBackend, accepted]

/-- What the transparent provider opens. -/
theorem transparent_opened
    {key : AeadKey}
    {nonce : Octets aeadIvLength}
    {aad ciphertext plaintext : Bytes}
    {tag : Octets aeadTagLength} :
    key.opened (transparentPlatform admits) nonce aad ciphertext tag =
        some plaintext ↔
      plaintext = ciphertext ∧ tag = Octets.zero aeadTagLength ∧
        admits nonce aad ciphertext = true := by
  rw [AeadKey.opened_eq_some,
    transparent_openInto key (length_zeros ciphertext.length)]

/-- Both ways to seal agree. -/
theorem transparent_sealsAgree :
    (transparentPlatform admits).SealsAgree := by
  intro key nonce aad plaintext output result exact
  have written :
      ((transparentPlatform admits).aead key.provider).sealInto key.material
          nonce aad plaintext output =
        (.ok (), plaintext ++ zeros aeadTagLength) :=
    if_pos exact
  rw [written, transparent_sealed, Prod.mk.injEq]
  constructor
  · rintro ⟨_, rfl⟩
    exact ⟨plaintext, Octets.zero aeadTagLength, rfl, rfl⟩
  · rintro ⟨_, _, shape, rfl⟩
    cases shape
    exact ⟨rfl, rfl⟩

/-- Both ways to open agree. -/
theorem transparent_opensAgree :
    (transparentPlatform admits).OpensAgree := by
  constructor
  · intro key nonce aad ciphertext tag output plaintext exact
    rw [transparent_opened, transparent_openInto key exact]
  · intro key nonce aad ciphertext tag plaintext
    have same :
        key.openInPlace (transparentPlatform admits) nonce aad tag
            ciphertext =
          key.openInto (transparentPlatform admits) nonce aad ciphertext tag
            ciphertext := by
      simp [AeadKey.openInPlace, AeadKey.openInto, transparentPlatform,
        transparentModule]
    rw [transparent_opened, same, transparent_openInto key rfl]

/-- Opening inverts sealing when every opening is admitted. -/
theorem transparent_roundTrips :
    (transparentPlatform fun _ _ _ => true).RoundTrips := by
  intro key nonce aad plaintext ciphertext tag success
  rw [transparent_sealed] at success
  cases success
  exact transparent_opened.mpr ⟨rfl, rfl, rfl⟩

end Properties

/-- The platform whose transparent provider admits every opening. -/
abbrev openPlatform : Platform :=
  transparentPlatform fun _ _ _ => true

/-- A generator that returns zeros and never fails. -/
def zeroRng : ProviderRng :=
  fun _ => ⟨true, fun _ => 0⟩

/-- A key of the build's default provider. -/
def zeroKey : Key :=
  ⟨Octets.zero 32, none⟩

/-- The shortest segments that the crate supports. -/
def shortestSegments : Parameters :=
  ⟨64, by decide, by decide⟩

/-- The header of a message of the transparent provider. -/
def transparentHeader : Header :=
  Header.fromFields shortestSegments.encode (Octets.zero 32) (Octets.zero 32)

/-- A segment of the transparent provider. -/
def transparentSegment (lengthPrefix : Nat) (nonce : Octets aeadIvLength)
    (plaintext : Bytes) : Bytes :=
  beBytes 4 lengthPrefix ++ nonce.val ++ plaintext ++ zeros 16

/-- The context of a message of the transparent provider. -/
def transparentContext : MessageContext :=
  ⟨.rustCrypto, shortestSegments, Octets.zero 48, Octets.zero floeIvLength,
    []⟩

/-! ## A provider with keys of its own -/

/-- The AEAD of a transparent provider whose test also sees the key. -/
def keyedModule
    (admits : Octets 32 → Octets aeadIvLength → Bytes → Bytes → Bool) :
    AeadModule where
  acceptsKey _ := true
  sealInPlace key := (transparentModule (admits key)).sealInPlace key
  sealInto key := (transparentModule (admits key)).sealInto key
  openInto key := (transparentModule (admits key)).openInto key
  openInPlace key := (transparentModule (admits key)).openInPlace key
  length_sealInPlace key :=
    (transparentModule (admits key)).length_sealInPlace key
  length_sealInto key := (transparentModule (admits key)).length_sealInto key
  length_openInto key := (transparentModule (admits key)).length_openInto key
  length_openInPlace key :=
    (transparentModule (admits key)).length_openInPlace key

/-- A key derivation that writes out the last parts of its info string: of a
segment key's, the masked position and the AAD. -/
def spreadKdf : Kdf :=
  fun _ length _ info =>
    .ok ⟨(info.getD 3 [] ++ info.getD 4 [] ++ zeros length).take length, by
      rw [List.length_take, List.length_append, length_zeros]
      omega⟩

/-- A 64-bit build with such a provider and this key derivation. -/
def keyedPlatform
    (admits : Octets 32 → Octets aeadIvLength → Bytes → Bytes → Bool) :
    Platform where
  target := .bits64
  compiled := [.rustCrypto]
  aead _ := keyedModule admits
  kdfExpand := spreadKdf

section Keyed

variable {admits : Octets 32 → Octets aeadIvLength → Bytes → Bytes → Bool}

/-- Under one key the provider is a transparent one. -/
theorem keyed_opened
    {key : AeadKey}
    {nonce : Octets aeadIvLength}
    {aad ciphertext plaintext : Bytes}
    {tag : Octets aeadTagLength} :
    key.opened (keyedPlatform admits) nonce aad ciphertext tag =
        some plaintext ↔
      plaintext = ciphertext ∧ tag = Octets.zero aeadTagLength ∧
        admits key.material nonce aad ciphertext = true :=
  @transparent_opened (admits key.material) key nonce aad ciphertext plaintext
    tag

theorem keyed_sealsAgree : (keyedPlatform admits).SealsAgree :=
  fun key => @transparent_sealsAgree (admits key.material) key

theorem keyed_opensAgree : (keyedPlatform admits).OpensAgree :=
  ⟨fun key => (@transparent_opensAgree (admits key.material)).1 key,
    fun key => (@transparent_opensAgree (admits key.material)).2 key⟩

end Keyed

/-- A generator that counts from a first byte and never fails. -/
def countingRng (start : Nat) : ProviderRng :=
  fun _ => ⟨true, fun index => UInt8.ofNat (start + index)⟩

end FastFloe
