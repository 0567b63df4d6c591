import FastFloe.Parameters

namespace FastFloe

open Rust

/-!
# Cryptographic providers

The provider modules wrap third-party crates, so their functions are parameters
here: an `AeadModule` is one `aead_*` module and a `ProviderRng` is a tape of
fill results.  What the crate relies on about them is stated as named
properties, never built into the types.  The dispatch on the provider and the
checks the crate makes itself are modelled.
-/

/-- A compiled-in cryptographic backend. -/
inductive Provider where
  | awsLcRs
  | boring
  | ring
  | rustCrypto
  deriving Repr, DecidableEq

/-- One `aead_*` module.  A mutable slice argument comes back with the contents
the call left in it, whether or not the call succeeded; its length cannot
change. -/
structure AeadModule where
  /-- Whether `AeadKey::new` accepts the key material. -/
  acceptsKey : Octets 32 → Bool
  /-- Encrypts in place and returns the tag. -/
  sealInPlace : Octets 32 → Octets aeadIvLength → Bytes → (inOut : Bytes) →
    Except Error (Octets aeadTagLength) × Bytes
  /-- Encrypts a plaintext into an output of ciphertext and tag. -/
  sealInto : Octets 32 → Octets aeadIvLength → Bytes → Bytes →
    (output : Bytes) → Except Error Unit × Bytes
  /-- Decrypts a ciphertext into an output of the same length. -/
  openInto : Octets 32 → Octets aeadIvLength → Bytes → Bytes →
    Octets aeadTagLength → (output : Bytes) → Except Error Unit × Bytes
  /-- Decrypts in place. -/
  openInPlace : Octets 32 → Octets aeadIvLength → Bytes →
    Octets aeadTagLength → (inOut : Bytes) → Except Error Unit × Bytes
  length_sealInPlace : ∀ key nonce aad inOut,
    (sealInPlace key nonce aad inOut).2.length = inOut.length
  length_sealInto : ∀ key nonce aad plaintext output,
    (sealInto key nonce aad plaintext output).2.length = output.length
  length_openInto : ∀ key nonce aad ciphertext tag output,
    (openInto key nonce aad ciphertext tag output).2.length = output.length
  length_openInPlace : ∀ key nonce aad tag inOut,
    (openInPlace key nonce aad tag inOut).2.length = inOut.length

/-- The `kdf_expand` functions of all providers: provider, output length, key
and the parts of the info string. -/
abbrev Kdf :=
  Provider → (length : Nat) → Bytes → List Bytes → Except Error (Octets length)

/-- The build target and the provider code linked into it. -/
structure Platform where
  target : Target
  compiled : List Provider
  aead : Provider → AeadModule
  kdfExpand : Kdf

/-- A backend call reports an `Err` and never panics. -/
def liftBackend {α : Type} : Except Error α → Result α
  | .ok value => .ok value
  | .error error => .error (.err error)

@[simp] theorem liftBackend_eq_ok
    {α : Type}
    {outcome : Except Error α}
    {value : α} :
    liftBackend outcome = .ok value ↔ outcome = .ok value := by
  cases outcome <;> simp [liftBackend]

@[simp] theorem returns_liftBackend
    {α : Type}
    (outcome : Except Error α) :
    (liftBackend outcome).Returns := by
  cases outcome <;> simp [liftBackend]

namespace Platform

/-- `Provider::build_default`. -/
def buildDefault (platform : Platform) : Option Provider :=
  match platform.compiled with
  | [provider] => some provider
  | _ => none

/-- `Provider::kdf_expand`. -/
def expand (platform : Platform) (provider : Provider) (length : Nat)
    (key : Bytes) (info : List Bytes) : Result (Octets length) :=
  liftBackend (platform.kdfExpand provider length key info)

/-- The same platform at a moment when its key derivation behaves like `kdf`. -/
def withKdf (platform : Platform) (kdf : Kdf) : Platform :=
  { platform with kdfExpand := kdf }

end Platform

/-- Whenever `faulty` returns a key, `kdf` returns the same one.  A derivation
that may fail at any moment is a different such `faulty` at each call. -/
def Kdf.FaultOf (faulty kdf : Kdf) : Prop :=
  ∀ provider length key info output,
    faulty provider length key info = .ok output →
      kdf provider length key info = .ok output

theorem Kdf.FaultOf.refl (kdf : Kdf) : Kdf.FaultOf kdf kdf :=
  fun _ _ _ _ _ derived => derived

/-! ## Segment keys -/

/-- A segment key of one provider. -/
structure AeadKey where
  provider : Provider
  material : Octets 32
  deriving DecidableEq

namespace AeadKey

/-- `AeadKey::new`. -/
def new (platform : Platform) (provider : Provider) (material : Octets 32) :
    Result AeadKey :=
  if (platform.aead provider).acceptsKey material then
    .ok { provider, material }
  else
    .error (.err .cryptoFailure)

/-- `AeadKey::seal`. -/
def sealInPlace (platform : Platform) (self : AeadKey)
    (nonce : Octets aeadIvLength) (aad inOut : Bytes) :
    Result (Octets aeadTagLength) × Bytes :=
  let (result, inOut) :=
    (platform.aead self.provider).sealInPlace self.material nonce aad inOut
  (liftBackend result, inOut)

/-- `AeadKey::seal_into`, whose output must be exactly ciphertext and tag. -/
def sealInto (platform : Platform) (self : AeadKey)
    (nonce : Octets aeadIvLength) (aad plaintext output : Bytes) :
    Result Unit × Bytes :=
  match checkedAdd platform.target.usizeMax plaintext.length aeadTagLength with
  | none =>
      (.error (.err .lengthOverflow), output)
  | some expected =>
      if output.length ≠ expected then
        (.error (.err .cryptoFailure), output)
      else
        let (result, output) := (platform.aead self.provider).sealInto
          self.material nonce aad plaintext output
        (liftBackend result, output)

/-- `AeadKey::open`. -/
def openInto (platform : Platform) (self : AeadKey)
    (nonce : Octets aeadIvLength) (aad ciphertext : Bytes)
    (tag : Octets aeadTagLength) (output : Bytes) :
    Result Unit × Bytes :=
  let (result, output) := (platform.aead self.provider).openInto
    self.material nonce aad ciphertext tag output
  (liftBackend result, output)

/-- `AeadKey::open_in_place`. -/
def openInPlace (platform : Platform) (self : AeadKey)
    (nonce : Octets aeadIvLength) (aad : Bytes)
    (tag : Octets aeadTagLength) (inOut : Bytes) :
    Result Unit × Bytes :=
  let (result, inOut) := (platform.aead self.provider).openInPlace
    self.material nonce aad tag inOut
  (liftBackend result, inOut)

/-- What the in-place seal computes, when it succeeds. -/
def sealed (platform : Platform) (self : AeadKey)
    (nonce : Octets aeadIvLength) (aad plaintext : Bytes) :
    Option (Bytes × Octets aeadTagLength) :=
  match self.sealInPlace platform nonce aad plaintext with
  | (.ok tag, ciphertext) => some (ciphertext, tag)
  | (.error _, _) => none

/-- What opening into a cleared output computes, when it succeeds. -/
def opened (platform : Platform) (self : AeadKey)
    (nonce : Octets aeadIvLength) (aad ciphertext : Bytes)
    (tag : Octets aeadTagLength) : Option Bytes :=
  match self.openInto platform nonce aad ciphertext tag
      (zeros ciphertext.length) with
  | (.ok (), plaintext) => some plaintext
  | (.error _, _) => none

section Opened

variable {platform : Platform} {self : AeadKey}
  {nonce : Octets aeadIvLength} {aad ciphertext output plaintext : Bytes}
  {tag : Octets aeadTagLength}

theorem opened_eq_some :
    self.opened platform nonce aad ciphertext tag = some plaintext ↔
      self.openInto platform nonce aad ciphertext tag
          (zeros ciphertext.length) = (.ok (), plaintext) := by
  unfold opened
  split
  next shape =>
    rw [shape]
    simp
  next shape =>
    rw [shape]
    simp

theorem openInto_eq_ok :
    self.openInto platform nonce aad ciphertext tag output =
        (.ok (), plaintext) ↔
      (platform.aead self.provider).openInto self.material nonce aad
          ciphertext tag output = (.ok (), plaintext) := by
  simp [openInto, Prod.ext_iff]

end Opened

end AeadKey

/-! ## What the crate relies on about a provider -/

namespace Platform

/-- `seal_into` writes the ciphertext and tag that `seal` computes, whatever
its output held before: an output of exactly that length. -/
def SealsAgree (platform : Platform) : Prop :=
  ∀ (key : AeadKey) nonce aad plaintext output result,
    output.length = plaintext.length + aeadTagLength →
      (((platform.aead key.provider).sealInto key.material nonce aad plaintext
          output = (.ok (), result)) ↔
        ∃ ciphertext tag,
          key.sealed platform nonce aad plaintext = some (ciphertext, tag) ∧
            result = ciphertext ++ tag.val)

/-- `open` and `open_in_place` compute one function, whatever the output held
before. -/
structure OpensAgree (platform : Platform) : Prop where
  into : ∀ (key : AeadKey) nonce aad ciphertext tag output plaintext,
    output.length = ciphertext.length →
      ((key.openInto platform nonce aad ciphertext tag output =
          (.ok (), plaintext)) ↔
        key.opened platform nonce aad ciphertext tag = some plaintext)
  inPlace : ∀ (key : AeadKey) nonce aad ciphertext tag plaintext,
    (key.openInPlace platform nonce aad tag ciphertext = (.ok (), plaintext)) ↔
      key.opened platform nonce aad ciphertext tag = some plaintext

/-- The platform whose `open` is the `open_in_place` of this one.  Code that
only opens in place cannot tell the two apart. -/
def openingInPlace (platform : Platform) : Platform :=
  { platform with
    aead := fun provider =>
      { platform.aead provider with
        openInto := fun key nonce aad ciphertext tag output =>
          if output.length = ciphertext.length then
            (platform.aead provider).openInPlace key nonce aad tag ciphertext
          else
            (.error .cryptoFailure, output)
        length_openInto := by
          intro key nonce aad ciphertext tag output
          split
          next exact =>
            rw [(platform.aead provider).length_openInPlace, exact]
          · rfl } }

theorem openingInPlace_opensAgree (platform : Platform) :
    platform.openingInPlace.OpensAgree := by
  have shape (key : AeadKey) (nonce : Octets aeadIvLength)
      (aad ciphertext : Bytes) (tag : Octets aeadTagLength) (output : Bytes)
      (exact : output.length = ciphertext.length) :
      key.openInto platform.openingInPlace nonce aad ciphertext tag output =
        key.openInPlace platform nonce aad tag ciphertext := by
    simp only [AeadKey.openInto, AeadKey.openInPlace, openingInPlace, exact,
      ↓reduceIte]
  have opened (key : AeadKey) (nonce : Octets aeadIvLength)
      (aad ciphertext : Bytes) (tag : Octets aeadTagLength)
      (plaintext : Bytes) :
      key.openInPlace platform nonce aad tag ciphertext =
          (.ok (), plaintext) ↔
        key.opened platform.openingInPlace nonce aad ciphertext tag =
          some plaintext := by
    rw [AeadKey.opened_eq_some, shape _ _ _ _ _ _ (length_zeros _)]
  constructor
  · intro key nonce aad ciphertext tag output plaintext exact
    rw [shape _ _ _ _ _ _ exact, opened]
  · intro key nonce aad ciphertext tag plaintext
    exact opened key nonce aad ciphertext tag plaintext

/-- Opening inverts sealing. -/
def RoundTrips (platform : Platform) : Prop :=
  ∀ (key : AeadKey) nonce aad plaintext ciphertext tag,
    key.sealed platform nonce aad plaintext = some (ciphertext, tag) →
      key.opened platform nonce aad ciphertext tag = some plaintext

end Platform

namespace AeadKey

section Lengths

variable (platform : Platform) (self : AeadKey)
  (nonce : Octets aeadIvLength) (aad : Bytes)

@[simp] theorem returns_sealInPlace (inOut : Bytes) :
    (self.sealInPlace platform nonce aad inOut).1.Returns := by
  simp [sealInPlace]

@[simp] theorem length_sealInPlace (inOut : Bytes) :
    (self.sealInPlace platform nonce aad inOut).2.length = inOut.length := by
  simp [sealInPlace, AeadModule.length_sealInPlace]

@[simp] theorem returns_sealInto (plaintext output : Bytes) :
    (self.sealInto platform nonce aad plaintext output).1.Returns := by
  unfold sealInto
  split
  · simp
  · split <;> simp

@[simp] theorem length_sealInto (plaintext output : Bytes) :
    (self.sealInto platform nonce aad plaintext output).2.length =
      output.length := by
  unfold sealInto
  split
  · rfl
  · split
    · rfl
    · simp [AeadModule.length_sealInto]

@[simp] theorem returns_openInto
    (ciphertext output : Bytes) (tag : Octets aeadTagLength) :
    (self.openInto platform nonce aad ciphertext tag output).1.Returns := by
  simp [openInto]

@[simp] theorem length_openInto
    (ciphertext output : Bytes) (tag : Octets aeadTagLength) :
    (self.openInto platform nonce aad ciphertext tag output).2.length =
      output.length := by
  simp [openInto, AeadModule.length_openInto]

@[simp] theorem returns_openInPlace
    (inOut : Bytes) (tag : Octets aeadTagLength) :
    (self.openInPlace platform nonce aad tag inOut).1.Returns := by
  simp [openInPlace]

@[simp] theorem length_openInPlace
    (inOut : Bytes) (tag : Octets aeadTagLength) :
    (self.openInPlace platform nonce aad tag inOut).2.length =
      inOut.length := by
  simp [openInPlace, AeadModule.length_openInPlace]

end Lengths

section Success

variable {platform : Platform} {self : AeadKey}
  {nonce : Octets aeadIvLength} {aad : Bytes}

/-- A sealed plaintext keeps its length. -/
theorem length_of_sealed
    {plaintext ciphertext : Bytes}
    {tag : Octets aeadTagLength}
    (success :
      self.sealed platform nonce aad plaintext = some (ciphertext, tag)) :
    ciphertext.length = plaintext.length := by
  have kept := length_sealInPlace platform self nonce aad plaintext
  unfold sealed at success
  split at success
  next shape =>
    rw [shape] at kept
    simp only [Option.some.injEq, Prod.mk.injEq] at success
    rw [← success.1]
    exact kept
  · cases success

/-- An opened ciphertext keeps its length. -/
theorem length_of_opened
    {ciphertext plaintext : Bytes}
    {tag : Octets aeadTagLength}
    (success :
      self.opened platform nonce aad ciphertext tag = some plaintext) :
    plaintext.length = ciphertext.length := by
  have kept := length_openInto platform self nonce aad ciphertext
    (zeros ciphertext.length) tag
  rw [opened_eq_some.mp success] at kept
  simpa using kept

/-- On slices that fit the target, `seal_into` writes ciphertext and tag. -/
theorem sealInto_eq_ok
    (agree : platform.SealsAgree)
    {plaintext output result : Bytes}
    (exact : output.length = plaintext.length + aeadTagLength)
    (fits : plaintext.length + aeadTagLength ≤ platform.target.usizeMax) :
    self.sealInto platform nonce aad plaintext output = (.ok (), result) ↔
      ∃ ciphertext tag,
        self.sealed platform nonce aad plaintext = some (ciphertext, tag) ∧
          result = ciphertext ++ tag.val := by
  rw [← agree self nonce aad plaintext output result exact]
  simp [sealInto, checkedAdd, fits, exact, Prod.ext_iff]

end Success

end AeadKey

/-! ## Random generation -/

/-- The result of one fill: whether it succeeded, and what the buffer holds
afterwards. -/
structure FillOutcome where
  succeeds : Bool
  bytes : Nat → UInt8

/-- A random generator: the tape of its future fill results. -/
abbrev ProviderRng := Nat → FillOutcome

namespace ProviderRng

/-- `ProviderRng::fill` on a buffer of `length` bytes. -/
def fill (self : ProviderRng) (length : Nat) :
    Result Unit × Bytes × ProviderRng :=
  let outcome := self 0
  let rest : ProviderRng := fun index => self (index + 1)
  let bytes := (List.range length).map outcome.bytes
  if outcome.succeeds then
    (.ok (), bytes, rest)
  else
    (.error (.err .rngFailure), bytes, rest)

end ProviderRng

/-! ## Keys -/

/-- A 256-bit FLOE key, bound to a provider or to the build default. -/
structure Key where
  bytes : Octets 32
  provider : Option Provider
  deriving DecidableEq

/-- `Key::provider`. -/
def Key.resolveProvider (platform : Platform) (self : Key) : Result Provider :=
  match self.provider with
  | some provider => .ok provider
  | none =>
      match platform.buildDefault with
      | some provider => .ok provider
      | none => .error (.err .providerSelectionRequired)

end FastFloe
