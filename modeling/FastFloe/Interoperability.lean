import FastFloe.ProviderModules
import FastFloe.EncryptorRuns
import FastFloe.SealedStreams

namespace FastFloe

open Rust
open Primitives

/-!
# Providers are interchangeable

The four provider modules over documented crates compute the same functions, so
that no message can tell them apart: whatever decrypts under one provider
decrypts under every other one, to the same plaintext.
-/

/-! ## Builds that read the same messages -/

/-- Two builds whose functions are the same, whichever providers they take. -/
structure Platform.Alike (first second : Platform) : Prop where
  firstAccepts : ∀ provider material,
    (first.aead provider).acceptsKey material = true
  secondAccepts : ∀ provider material,
    (second.aead provider).acceptsKey material = true
  expands : ∀ provider other length key info,
    first.kdfExpand provider length key info =
      second.kdfExpand other length key info
  opens : ∀ provider other material nonce aad ciphertext tag,
    (⟨provider, material⟩ : AeadKey).opened first nonce aad ciphertext tag =
      (⟨other, material⟩ : AeadKey).opened second nonce aad ciphertext tag

/-- The same message context, read with another provider. -/
def MessageContext.withProvider (self : MessageContext) (provider : Provider) :
    MessageContext :=
  { self with provider }

@[simp] theorem MessageContext.parameters_withProvider
    (context : MessageContext)
    (provider : Provider) :
    (context.withProvider provider).parameters = context.parameters :=
  rfl

section Alike

variable {first second : Platform}

/-- The other build derives the same key material for a segment. -/
theorem MessageContext.segmentKey_withProvider
    (alike : first.Alike second)
    (context : MessageContext)
    (provider : Provider)
    (position : Nat) :
    (context.withProvider provider).segmentKey second position =
      (context.segmentKey first position).map fun key =>
        ⟨provider, key.material⟩ := by
  have same := alike.expands context.provider provider 32
    context.messageKey.val
    [context.parameters.encode.val, context.floeIv.val, segmentKeyPurpose,
      beBytes 8 (context.parameters.maskedPosition position), context.aad]
  simp only [segmentKey, withProvider, CachedKey.derive, deriveSegmentKey,
    Platform.expand, same, AeadKey.new, alike.firstAccepts,
    alike.secondAccepts, ↓reduceIte]
  by_cases inside : position < aeadMaxSegments
  · simp only [inside, ↓reduceIte]
    cases second.kdfExpand provider 32 context.messageKey.val
        [context.parameters.encode.val, context.floeIv.val,
          segmentKeyPurpose,
          beBytes 8 (context.parameters.maskedPosition position),
          context.aad] with
    | ok material => rfl
    | error stop => rfl
  · simp only [inside, ↓reduceIte, Option.map_none]

/-- The other build opens the same segments. -/
theorem MessageContext.openSegment_withProvider
    (alike : first.Alike second)
    (context : MessageContext)
    (provider : Provider)
    (position : Nat)
    (kind : SegmentKind)
    (segment : Bytes) :
    (context.withProvider provider).openSegment second position kind segment =
      context.openSegment first position kind segment := by
  simp only [openSegment, segmentKey_withProvider alike,
    Option.bind_eq_bind]
  cases context.segmentKey first position with
  | none => rfl
  | some key =>
      simp only [Option.map_some, Option.bind_some,
        ← alike.opens key.provider provider]

/-- The other build reads the same stream of segments. -/
theorem segmentStream_withProvider
    (alike : first.Alike second)
    (context : MessageContext)
    (provider : Provider) :
    segmentStream second (context.withProvider provider) =
      segmentStream first context := by
  have parses : parseSegment second (context.withProvider provider) =
      parseSegment first context := by
    funext position stream
    simp only [parseSegment, MessageContext.openSegment_withProvider alike,
      MessageContext.parameters_withProvider]
  simp only [segmentStream, parses]

/-- A header stands for the same context in the other build. -/
theorem HeaderAuthenticates.withProvider
    {key other : Key}
    {aad : Bytes}
    {header : Header}
    {context : MessageContext}
    {provider : Provider}
    (authentic : HeaderAuthenticates first key aad header context)
    (alike : first.Alike second)
    (sameBytes : other.bytes = key.bytes)
    (resolves : other.resolveProvider second = .ok provider) :
    HeaderAuthenticates second other aad header
      (context.withProvider provider) := by
  refine ⟨resolves, authentic.parameters, authentic.floeIv,
    authentic.associated, ?_, ?_⟩
  · rw [sameBytes]
    exact (alike.expands _ _ _ _ _).symm.trans authentic.tag
  · rw [sameBytes]
    exact (alike.expands _ _ _ _ _).symm.trans authentic.messageKey

/-- What decrypts in one build decrypts in the other one. -/
theorem Platform.Alike.decrypt
    {key other : Key}
    {aad ciphertext plaintext : Bytes}
    {provider : Provider}
    (alike : first.Alike second)
    (sameBytes : other.bytes = key.bytes)
    (resolves : other.resolveProvider second = .ok provider)
    (accepted : FastFloe.decrypt first key aad ciphertext = .ok plaintext) :
    FastFloe.decrypt second other aad ciphertext = .ok plaintext := by
  obtain ⟨header, body, context, payloads, shape, authentic, message, joins⟩ :=
    ((decrypt_spec first key aad ciphertext).2 plaintext).mp accepted
  refine ((decrypt_spec second other aad ciphertext).2 plaintext).mpr
    ⟨header, body, context.withProvider provider, payloads, shape,
      authentic.withProvider alike sameBytes resolves, ?_, joins⟩
  rw [segmentStream_withProvider alike]
  exact message

end Alike

section OneBuild

variable {platform : Platform}

/-- A one-shot message decrypts under its own key. -/
theorem decrypt_of_encrypt
    {key : Key}
    {aad plaintext ciphertext : Bytes}
    {parameters : Parameters}
    {rng : ProviderRng}
    (agree : platform.SealsAgree)
    (roundTrips : platform.RoundTrips)
    (encrypted :
      encrypt platform key aad parameters rng plaintext = .ok ciphertext) :
    decrypt platform key aad ciphertext = .ok plaintext := by
  obtain ⟨encryptor, stream, created, seals, rfl⟩ :=
    encrypt_sealsStream agree encrypted
  obtain ⟨authentic, _, here⟩ :=
    Encryptor.new_eq_ok (Kdf.FaultOf.refl platform.kdfExpand) created
  obtain ⟨middle, last, lastPlaintext, rfl, rfl, message⟩ :=
    seals.sealedMessage here.ready
  exact message.decrypt_eq roundTrips authentic

end OneBuild

/-! ## The crates behind the providers -/

/-- HMAC-SHA-384. -/
abbrev HmacSha384 := { mac : Mac Bytes UInt8 // mac.width = 48 }

/-- The crates of all four providers. -/
structure Crates where
  awsLcRs : AwsLcRsCrate
  boring : BoringCrate
  ring : RingCrate
  rustCrypto : RustCryptoCrate

/-- Every crate behaves as its documentation says. -/
structure Crates.Documented (crates : Crates) (gcm : Gcm) (hmac : HmacSha384) :
    Prop where
  awsLcRs : crates.awsLcRs.Documented gcm hmac.val
  boring : crates.boring.Documented gcm hmac.val
  ring : crates.ring.Documented gcm hmac.val
  rustCrypto : crates.rustCrypto.Documented gcm hmac.val

/-- A call as its caller sees it.  An `AeadModule` has no panics, which modules
over documented crates do not have on slices of the right lengths. -/
def reported {α : Type} : Result α → Except Error α
  | .ok value => .ok value
  | .error (.err error) => .error error
  | .error _ => .error .cryptoFailure

namespace ProviderModule

/-- A call with the module's key for some material.  An `AeadKey` is made of its
material and nothing else. -/
def withKey {α : Type} (self : ProviderModule) (material : Octets 32)
    (slice : Bytes) (call : self.Key → Result α × Bytes) :
    Except Error α × Bytes :=
  match self.new material with
  | .error stop => (reported (.error stop), slice)
  | .ok key => (reported (call key).1, (call key).2)

/-- `seal` with the tag buffer `[0; 16]`, which is returned. -/
def sealTag (self : ProviderModule) (key : self.Key)
    (nonce : Octets aeadIvLength) (aad inOut : Bytes) :
    Result (Octets aeadTagLength) × Bytes :=
  let (result, inOut, tag) :=
    self.sealInPlace key nonce aad inOut (Octets.zero aeadTagLength)
  (result.map fun _ => tag, inOut)

theorem Keyed.sealTag_iff
    {adapter : ProviderModule}
    {gcm : Gcm}
    {material : Octets 32}
    {key : adapter.Key}
    {nonce : Octets aeadIvLength}
    {aad plaintext ciphertext : Bytes}
    {tag : Octets aeadTagLength}
    (keyed : adapter.Keyed gcm material key) :
    adapter.sealTag key nonce aad plaintext = (.ok tag, ciphertext) ↔
      gcm.encrypt material nonce aad plaintext = some (ciphertext, tag) := by
  have yields :=
    keyed.sealInPlace nonce aad plaintext (Octets.zero aeadTagLength)
  unfold sealTag
  cases found : gcm.encrypt material nonce aad plaintext with
  | none =>
      have failed := yields.fails found
      dsimp only
      rw [failed]
      simp [Except.map]
  | some result =>
      rw [yields.succeeds result found]
      simp only [Except.map, Except.ok.injEq, Option.some.injEq,
        Prod.ext_iff]
      exact and_comm

/-- A call with the module's key computes what the call on a key does. -/
theorem withKey_eq_ok
    {self : ProviderModule}
    {material : Octets 32}
    {own : self.Key}
    {slice result : Bytes}
    {call : self.Key → Result Unit × Bytes}
    {value : Option Bytes}
    {error : Error}
    (created : self.new material = .ok own)
    (yields : Yields (call own) value error) :
    self.withKey material slice call = (.ok (), result) ↔
      value = some result := by
  simp only [withKey, created]
  cases found : value with
  | none =>
      rw [yields.fails found]
      simp [reported]
  | some left =>
      rw [yields.succeeds left found]
      simp [reported]

theorem length_withKey
    {α : Type}
    {slice : Bytes}
    (self : ProviderModule)
    (material : Octets 32)
    {call : self.Key → Result α × Bytes}
    (keeps : ∀ key, (call key).2.length = slice.length) :
    (self.withKey material slice call).2.length = slice.length := by
  unfold withKey
  split
  · rfl
  · exact keeps _

/-- The module behind the dispatch on the provider. -/
def aead (self : ProviderModule) : AeadModule where
  acceptsKey material := (reported (self.new material)).isOk
  sealInPlace material nonce aad inOut :=
    self.withKey material inOut fun key => self.sealTag key nonce aad inOut
  sealInto material nonce aad plaintext output :=
    self.withKey material output fun key =>
      self.sealInto key nonce aad plaintext output
  openInto material nonce aad ciphertext tag output :=
    self.withKey material output fun key =>
      self.openInto key nonce aad ciphertext tag output
  openInPlace material nonce aad tag inOut :=
    self.withKey material inOut fun key =>
      self.openInPlace key nonce aad tag inOut
  length_sealInPlace material _ _ _ :=
    self.length_withKey material fun _ => self.length_sealInPlace _ _ _ _ _
  length_sealInto material _ _ _ _ :=
    self.length_withKey material fun _ => self.length_sealInto _ _ _ _ _
  length_openInto material _ _ _ _ _ :=
    self.length_withKey material fun _ => self.length_openInto _ _ _ _ _ _
  length_openInPlace material _ _ _ _ :=
    self.length_withKey material fun _ => self.length_openInPlace _ _ _ _ _

end ProviderModule

namespace Crates

/-- The module of a provider. -/
def adapter (self : Crates) : Provider → ProviderModule
  | .awsLcRs => aeadAwsLcRs self.awsLcRs
  | .boring => aeadBoring self.boring
  | .ring => aeadRing self.ring
  | .rustCrypto => aeadRustCrypto self.rustCrypto

/-- A build of the crate with these libraries. -/
def platform (self : Crates) (target : Target) (compiled : List Provider) :
    Platform where
  target
  compiled
  aead provider := (self.adapter provider).aead
  kdfExpand provider length key info :=
    reported ((self.adapter provider).kdfExpand length key info)

section Documented

variable {crates : Crates} {gcm : Gcm} {hmac : HmacSha384}

/-- Every module takes every key and computes AES-256-GCM under it. -/
theorem Documented.keyed
    (documented : crates.Documented gcm hmac)
    (provider : Provider)
    (material : Octets 32) :
    ∃ key, (crates.adapter provider).new material = .ok key ∧
      (crates.adapter provider).Keyed gcm material key := by
  cases provider with
  | awsLcRs =>
      obtain ⟨unbound, created, keyed⟩ := documented.awsLcRs.keyed material
      refine ⟨_, ?_, keyed.computes⟩
      simp only [adapter, aeadAwsLcRs, AeadAwsLcRs.new, created, Outcome.okOr,
        Outcome.ok_bind]
  | boring =>
      obtain ⟨context, created, keyed⟩ := documented.boring.keyed material
      refine ⟨_, ?_, keyed.computes⟩
      simp only [adapter, aeadBoring, AeadBoring.new, created, Outcome.okOr]
  | ring =>
      obtain ⟨unbound, created, keyed⟩ := documented.ring.keyed material
      refine ⟨_, ?_, keyed.computes⟩
      simp only [adapter, aeadRing, AeadRing.new, created, Outcome.okOr,
        Outcome.ok_bind]
  | rustCrypto =>
      obtain ⟨cipher, created, keyed⟩ := documented.rustCrypto.keyed material
      refine ⟨_, ?_, keyed.computes⟩
      simp only [adapter, aeadRustCrypto, AeadRustCrypto.new, created,
        Outcome.okOr]

/-- Every module computes HKDF-Expand within one block and refuses more. -/
theorem Documented.expands
    (documented : crates.Documented gcm hmac)
    (provider : Provider) :
    (crates.adapter provider).Expands hmac.val := by
  have library {crate : HkdfCrate} (computes : crate.Documented hmac.val) :=
    HkdfCrate.expands computes hmac.property
  cases provider with
  | awsLcRs =>
      refine ⟨fun length key info short => ?_, fun length key info long => ?_⟩
      · exact (library documented.awsLcRs.hkdf length key info).trans
          (if_pos short)
      · exact (library documented.awsLcRs.hkdf length key info).trans
          (if_neg (by omega))
  | boring => exact documented.boring.expands hmac.property
  | ring =>
      refine ⟨fun length key info short => ?_, fun length key info long => ?_⟩
      · exact (library documented.ring.hkdf length key info).trans
          (if_pos short)
      · exact (library documented.ring.hkdf length key info).trans
          (if_neg (by omega))
  | rustCrypto => exact documented.rustCrypto.expands hmac.property

variable {target : Target} {compiled : List Provider} {key : AeadKey}
  {nonce : Octets aeadIvLength} {aad : Bytes}

/-- What the in-place seal of a platform over documented crates computes. -/
theorem Documented.sealed_eq
    (documented : crates.Documented gcm hmac)
    (plaintext : Bytes) :
    key.sealed (crates.platform target compiled) nonce aad plaintext =
      gcm.encrypt key.material nonce aad plaintext := by
  obtain ⟨own, created, keyed⟩ :=
    documented.keyed key.provider key.material
  refine Option.ext fun result => ?_
  obtain ⟨ciphertext, tag⟩ := result
  rw [← keyed.sealTag_iff]
  simp only [AeadKey.sealed, AeadKey.sealInPlace, platform,
    ProviderModule.aead, ProviderModule.withKey, created]
  cases (crates.adapter key.provider).sealTag own nonce aad plaintext with
  | mk result left =>
      cases result with
      | ok own =>
          simp [reported, liftBackend, and_comm]
      | error stop =>
          cases stop <;> simp [reported, liftBackend]

/-- What `seal_into` computes there. -/
theorem Documented.sealInto_iff
    (documented : crates.Documented gcm hmac)
    {plaintext output result : Bytes}
    (exact : output.length = plaintext.length + aeadTagLength) :
    ((crates.platform target compiled).aead key.provider).sealInto
          key.material nonce aad plaintext output = (.ok (), result) ↔
      (gcm.encrypt key.material nonce aad plaintext).map joined =
        some result := by
  obtain ⟨own, created, keyed⟩ :=
    documented.keyed key.provider key.material
  exact ProviderModule.withKey_eq_ok created
    (keyed.sealInto nonce aad plaintext output exact)

/-- What the two openings compute there. -/
theorem Documented.openInto_iff
    (documented : crates.Documented gcm hmac)
    {ciphertext output plaintext : Bytes}
    {tag : Octets aeadTagLength}
    (exact : output.length = ciphertext.length) :
    key.openInto (crates.platform target compiled) nonce aad ciphertext tag
        output = (.ok (), plaintext) ↔
      gcm.decrypt key.material nonce aad ciphertext tag = some plaintext := by
  obtain ⟨own, created, keyed⟩ :=
    documented.keyed key.provider key.material
  rw [AeadKey.openInto_eq_ok]
  exact ProviderModule.withKey_eq_ok created
    (keyed.openInto nonce aad ciphertext tag output exact)

theorem Documented.opened_eq
    (documented : crates.Documented gcm hmac)
    (ciphertext : Bytes)
    (tag : Octets aeadTagLength) :
    key.opened (crates.platform target compiled) nonce aad ciphertext tag =
      gcm.decrypt key.material nonce aad ciphertext tag := by
  refine Option.ext fun plaintext => ?_
  rw [AeadKey.opened_eq_some,
    documented.openInto_iff (length_zeros ciphertext.length)]

/-! ### What the rest of the crate relies on -/

theorem Documented.sealsAgree
    (documented : crates.Documented gcm hmac) :
    (crates.platform target compiled).SealsAgree := by
  intro key nonce aad plaintext output result exact
  rw [documented.sealInto_iff exact, documented.sealed_eq,
    Option.map_eq_some_iff]
  constructor
  · rintro ⟨⟨ciphertext, tag⟩, found, rfl⟩
    exact ⟨ciphertext, tag, found, rfl⟩
  · rintro ⟨ciphertext, tag, found, rfl⟩
    exact ⟨(ciphertext, tag), found, rfl⟩

theorem Documented.roundTrips
    (documented : crates.Documented gcm hmac) :
    (crates.platform target compiled).RoundTrips := by
  intro key nonce aad plaintext ciphertext tag success
  rw [documented.sealed_eq] at success
  rw [documented.opened_eq]
  exact (gcm.decrypt_iff _ _ _ _ _ _).mpr success

/-- Any two builds over these crates read the same messages. -/
theorem Documented.alike
    (documented : crates.Documented gcm hmac)
    {otherTarget : Target}
    {otherCompiled : List Provider} :
    (crates.platform target compiled).Alike
      (crates.platform otherTarget otherCompiled) := by
  have accepts (provider : Provider) (material : Octets 32) :
      (reported ((crates.adapter provider).new material)).isOk = true := by
    obtain ⟨own, created, _⟩ := documented.keyed provider material
    rw [created]
    rfl
  refine ⟨accepts, accepts, ?_, ?_⟩
  · intro provider other length key info
    simp only [platform]
    by_cases short : length ≤ 48
    · rw [(documented.expands provider).short length key info short,
        (documented.expands other).short length key info short]
    · rw [(documented.expands provider).long length key info (by omega),
        (documented.expands other).long length key info (by omega)]
  · intro provider other material nonce aad ciphertext tag
    rw [documented.opened_eq, documented.opened_eq]

end Documented

end Crates

/-! ## Interchangeable modules -/

/-- Under these two keys no caller can tell the modules apart.  Each of the five
calls of the first one is compared with one of the second. -/
structure Interchangeable {first second : ProviderModule}
    (firstKey : first.Key) (secondKey : second.Key) : Prop where
  seals : ∀ nonce aad plaintext tag otherTag sealedText,
    first.sealInPlace firstKey nonce aad plaintext tag =
        (.ok (), sealedText) ↔
      second.sealInPlace secondKey nonce aad plaintext otherTag =
        (.ok (), sealedText)
  sealsInto : ∀ nonce aad plaintext output otherTag message,
    output.length = plaintext.length + aeadTagLength →
      (first.sealInto firstKey nonce aad plaintext output =
          (.ok (), message) ↔
        ∃ ciphertext tag,
          second.sealInPlace secondKey nonce aad plaintext otherTag =
              (.ok (), ciphertext, tag) ∧
            message = ciphertext ++ tag.val)
  opens : ∀ nonce aad ciphertext tag output plaintext,
    output.length = ciphertext.length →
      (first.openInto firstKey nonce aad ciphertext tag output =
          (.ok (), plaintext) ↔
        second.openInPlace secondKey nonce aad tag ciphertext =
          (.ok (), plaintext))
  rejects : ∀ nonce aad ciphertext tag output,
    output.length = ciphertext.length →
      (first.openInto firstKey nonce aad ciphertext tag output).1 = .ok () ∨
        (first.openInto firstKey nonce aad ciphertext tag output).1 =
          .error (.err .authenticationFailed)
  rejectsInPlace : ∀ nonce aad ciphertext tag,
    (first.openInPlace firstKey nonce aad tag ciphertext).1 = .ok () ∨
      (first.openInPlace firstKey nonce aad tag ciphertext).1 =
        .error (.err .authenticationFailed)

/-- Modules that compute one function under their keys are interchangeable. -/
theorem interchangeable_of_keyed
    {first second : ProviderModule}
    {gcm : Gcm}
    {material : Octets 32}
    {firstKey : first.Key}
    {secondKey : second.Key}
    (firstKeyed : first.Keyed gcm material firstKey)
    (secondKeyed : second.Keyed gcm material secondKey) :
    Interchangeable firstKey secondKey := by
  constructor
  · intro nonce aad plaintext tag otherTag sealedText
    rw [(firstKeyed.sealInPlace nonce aad plaintext tag).iff,
      (secondKeyed.sealInPlace nonce aad plaintext otherTag).iff]
  · intro nonce aad plaintext output otherTag message exact
    rw [(firstKeyed.sealInto nonce aad plaintext output exact).iff,
      Option.map_eq_some_iff]
    constructor
    · rintro ⟨⟨ciphertext, tag⟩, found, rfl⟩
      exact ⟨ciphertext, tag,
        (secondKeyed.sealInPlace nonce aad plaintext otherTag).iff.mpr found,
        rfl⟩
    · rintro ⟨ciphertext, tag, succeeded, rfl⟩
      exact ⟨(ciphertext, tag),
        (secondKeyed.sealInPlace nonce aad plaintext otherTag).iff.mp
          succeeded, rfl⟩
  · intro nonce aad ciphertext tag output plaintext exact
    rw [(firstKeyed.openInto nonce aad ciphertext tag output exact).iff,
      (secondKeyed.openInPlace nonce aad ciphertext tag).iff]
  · intro nonce aad ciphertext tag output exact
    exact (firstKeyed.openInto nonce aad ciphertext tag output exact).outcome
  · intro nonce aad ciphertext tag
    exact (firstKeyed.openInPlace nonce aad ciphertext tag).outcome

/-- Providers are interchangeable.  With crates that compute AES-256-GCM and
HMAC-SHA-384 or its HKDF-Expand, any two modules take every key and give the
same bytes, and their key derivation is HKDF-Expand over the joined info.
Whatever decrypts under one provider therefore decrypts under any other, in any
build: one-shot messages and completed runs among it. -/
theorem providers_areInterchangeable
    {crates : Crates}
    {gcm : Gcm}
    {hmac : HmacSha384}
    (documented : crates.Documented gcm hmac)
    (target otherTarget : Target)
    (compiled otherCompiled : List Provider) :
    (∀ first second material, ∃ firstKey secondKey,
      (crates.adapter first).new material = .ok firstKey ∧
        (crates.adapter second).new material = .ok secondKey ∧
        (crates.adapter first).Keyed gcm material firstKey ∧
        Interchangeable firstKey secondKey) ∧
    (∀ provider length key info,
      (length ≤ 48 →
        (crates.adapter provider).kdfExpand length key info =
          .ok (hkdfExpand hmac.val key info.flatten length)) ∧
        (48 < length →
          (crates.adapter provider).kdfExpand length key info =
            .error (.err .cryptoFailure))) ∧
    ∀ (key other : Key) (provider : Provider) (aad : Bytes),
      other.bytes = key.bytes →
        other.resolveProvider (crates.platform otherTarget otherCompiled) =
            .ok provider →
          (∀ ciphertext plaintext,
            decrypt (crates.platform target compiled) key aad ciphertext =
                .ok plaintext →
              decrypt (crates.platform otherTarget otherCompiled) other aad
                  ciphertext = .ok plaintext) ∧
          (∀ parameters rng plaintext ciphertext,
            encrypt (crates.platform target compiled) key aad parameters rng
                plaintext = .ok ciphertext →
              decrypt (crates.platform otherTarget otherCompiled) other aad
                  ciphertext = .ok plaintext) ∧
          ∀ parameters rng encryptor calls emissions,
            Encryptor.new (crates.platform target compiled) key aad parameters
                rng = .ok encryptor →
              (∀ call ∈ calls, call.kdf.FaultOf
                (crates.platform target compiled).kdfExpand) →
              runCalls (crates.platform target compiled) encryptor calls =
                  (emissions, true) →
                decrypt (crates.platform otherTarget otherCompiled) other aad
                    (encryptor.header.val ++
                      (emissions.map Prod.fst).flatten) =
                  .ok (emissions.map Prod.snd).flatten := by
  refine ⟨?_, ?_, ?_⟩
  · intro first second material
    obtain ⟨firstKey, firstCreated, firstKeyed⟩ :=
      documented.keyed first material
    obtain ⟨secondKey, secondCreated, secondKeyed⟩ :=
      documented.keyed second material
    exact ⟨firstKey, secondKey, firstCreated, secondCreated, firstKeyed,
      interchangeable_of_keyed firstKeyed secondKeyed⟩
  · intro provider length key info
    exact ⟨(documented.expands provider).short length key info,
      (documented.expands provider).long length key info⟩
  · intro key other provider aad sameBytes resolves
    have across {ciphertext plaintext : Bytes}
        (accepted :
          decrypt (crates.platform target compiled) key aad ciphertext =
            .ok plaintext) :
        decrypt (crates.platform otherTarget otherCompiled) other aad
          ciphertext = .ok plaintext :=
      documented.alike.decrypt sameBytes resolves accepted
    refine ⟨fun _ _ => across, ?_, ?_⟩
    · intro parameters rng plaintext ciphertext encrypted
      exact across
        (decrypt_of_encrypt documented.sealsAgree documented.roundTrips
          encrypted)
    · intro parameters rng encryptor calls emissions created sound completed
      obtain ⟨authentic, _, here⟩ :=
        @Encryptor.new_eq_ok (crates.platform target compiled) _ _ _ _ _ _
          (Kdf.FaultOf.refl _) created
      obtain ⟨middle, last, lastPlaintext, rfl, message⟩ :=
        runCalls_sealedMessage documented.sealsAgree here sound completed
      refine across ?_
      have decrypted := message.decrypt_eq documented.roundTrips authentic
      simpa using decrypted

/-! ## Transparent crates -/

/-- Authenticated encryption that keeps the plaintext and tags it with zeros. -/
def transparentGcm : Gcm where
  encrypt _ _ _ plaintext := some (plaintext, Octets.zero aeadTagLength)
  decrypt _ _ _ ciphertext tag :=
    if tag = Octets.zero aeadTagLength then some ciphertext else none
  length_encrypt := by
    intro _ _ _ plaintext ciphertext tag success
    cases success
    rfl
  decrypt_iff := by
    intro _ _ _ ciphertext tag plaintext
    by_cases zero : tag = Octets.zero aeadTagLength
    · simp [zero, eq_comm]
    · simp [zero, eq_comm]

/-- A keyed function that returns the beginning of its text. -/
def transparentHmac : HmacSha384 :=
  ⟨{ width := 48
     tag := fun _ text => (text ++ zeros 48).take 48
     width_pos := by decide
     length_tag := by
      intro _ text
      rw [List.length_take, List.length_append, length_zeros]
      omega }, rfl⟩

/-- HKDF-Expand over it, up to the last block. -/
def transparentHkdf : HkdfCrate where
  Prk := Bytes
  Okm := Bytes × Bytes
  newLessSafe key := key
  expand key info length :=
    if length ≤ 255 * 48 then some (key, info.flatten) else none
  fill okm _ := (true, hkdfExpand transparentHmac.val okm.1 okm.2 _)

theorem transparentHkdf_documented :
    transparentHkdf.Documented transparentHmac.val := by
  intro key info length within
  exact ⟨(key, info.flatten), if_pos within, fun _ => rfl⟩

/-- An object that is fed a text keeps the key and the text. -/
theorem transparentHmac_computes
    {start : Bytes → Option (Bytes × Bytes)}
    {feed : Bytes × Bytes → Bytes → Option (Bytes × Bytes)}
    {finish : Bytes × Bytes → Option Bytes}
    (starts : ∀ key, start key = some (key, []))
    (feeds : ∀ state part, feed state part = some (state.1, state.2 ++ part))
    (finishes : ∀ state,
      finish state = some (transparentHmac.val.tag state.1 state.2)) :
    Computes start feed finish transparentHmac.val.tag := by
  refine ⟨fun key => ⟨_, starts key⟩, fun state _ _ part _ => ⟨_, feeds _ _⟩,
    ?_⟩
  intro state key text fed
  have kept : state = (key, text) := by
    induction fed with
    | started success =>
        rw [starts] at success
        exact (Option.some.inj success).symm
    | part _ success inductionHypothesis =>
        rw [feeds, inductionHypothesis] at success
        exact (Option.some.inj success).symm
  rw [finishes, kept]

/-- Four crates that compute these functions, each through its own calls. -/
def transparentCrates : Crates where
  rustCrypto :=
    { Aes256Gcm := Unit
      HmacSha384 := Bytes × Bytes
      newFromSlice := fun _ => some ()
      encryptInOutDetached := fun _ _ _ buffer =>
        (some (Octets.zero aeadTagLength), ⟨buffer.input, buffer.same⟩)
      decryptInOutDetached := fun _ _ _ buffer tag =>
        (decide (tag = Octets.zero aeadTagLength),
          ⟨buffer.input, buffer.same⟩)
      hmacNew := fun key => some (key, [])
      hmacUpdate := fun state part => (state.1, state.2 ++ part)
      hmacFinalize := fun state =>
        ⟨transparentHmac.val.tag state.1 state.2,
          transparentHmac.val.length_tag _ _⟩ }
  awsLcRs :=
    { UnboundKey := Unit
      LessSafeKey := Unit
      hkdf := transparentHkdf
      unboundKeyNew := fun _ => some ()
      lessSafeKeyNew := id
      sealInPlaceSeparateTag := fun _ _ _ inOut =>
        (some (zeros aeadTagLength), .alone inOut)
      sealInPlaceScatter := fun _ _ _ inOut extraIn extraOutAndTag =>
        if room : extraOutAndTag.length = extraIn.length + aeadTagLength then
          (true, .alone inOut,
            ⟨extraIn ++ zeros aeadTagLength, by
              rw [List.length_append, length_zeros, room]⟩)
        else
          (false, .alone inOut, .alone extraOutAndTag)
      openSeparateGather := fun _ _ _ ciphertext tag output =>
        if room : ciphertext.length = output.length then
          (decide (tag = zeros aeadTagLength), ⟨ciphertext, room⟩)
        else
          (false, .alone output)
      openInPlaceSeparateTag := fun _ _ _ tag inOut =>
        (if tag = zeros aeadTagLength then some inOut else none,
          .alone inOut) }
  boring :=
    { AeadCtx := Unit
      Hmac := Bytes × Bytes
      aeadCtxNew := fun _ _ => some ()
      sealInPlace := fun _ _ inOut tag _ =>
        (some (zeros tag.length), .alone inOut,
          ⟨zeros tag.length, length_zeros _⟩)
      sealScatter := fun _ _ inOut outTag extraIn _ =>
        if room : (extraIn.getD [] ++ zeros aeadTagLength).length =
            outTag.length then
          (some (extraIn.getD [] ++ zeros aeadTagLength), .alone inOut,
            ⟨_, room⟩)
        else
          (none, .alone inOut, .alone outTag)
      openInPlace := fun _ _ inOut tag _ =>
        (decide (tag = zeros aeadTagLength), .alone inOut)
      hmacInit := fun key => some (key, [])
      hmacUpdate := fun state part => some (state.1, state.2 ++ part)
      hmacFinalize := fun state =>
        some (transparentHmac.val.tag state.1 state.2) }
  ring :=
    { UnboundKey := Unit
      LessSafeKey := Unit
      hkdf := transparentHkdf
      unboundKeyNew := fun _ => some ()
      lessSafeKeyNew := id
      sealInPlaceSeparateTag := fun _ _ _ inOut =>
        (some (zeros aeadTagLength), .alone inOut)
      openInPlaceSeparateTag := fun _ _ _ tag inOut start =>
        (if tag = Octets.zero aeadTagLength then some (inOut.drop start)
          else none, .alone inOut) }

/-- What an opening finds out, and the ciphertext that it leaves. -/
theorem transparent_fills
    {succeeds : Bool}
    {material : Octets 32}
    {nonce : Octets aeadIvLength}
    {aad ciphertext left : Bytes}
    {tag : Octets aeadTagLength}
    (checks : succeeds = decide (tag = Octets.zero aeadTagLength))
    (kept : left = ciphertext) :
    Fills succeeds left
      (transparentGcm.decrypt material nonce aad ciphertext tag) := by
  subst checks kept
  by_cases zero : tag = Octets.zero aeadTagLength
  · constructor
    · simp [transparentGcm, zero]
    · intro text found
      simpa [transparentGcm, zero] using found
  · constructor
    · simp [transparentGcm, zero]
    · intro text found
      simp [transparentGcm, zero] at found

/-- The tag of zeros as bytes. -/
theorem val_eq_zeros_iff (tag : Octets aeadTagLength) :
    tag.val = zeros aeadTagLength ↔ tag = Octets.zero aeadTagLength :=
  ⟨fun same => Subtype.ext same, congrArg Subtype.val⟩

theorem transparent_documented :
    transparentCrates.Documented transparentGcm transparentHmac where
  rustCrypto :=
    { keyed := fun _ => ⟨(), rfl, by
        constructor
        · intro nonce aad buffer
          exact ⟨rfl, fun text result found => by cases found; rfl⟩
        · intro nonce aad buffer tag
          exact transparent_fills rfl rfl⟩
      hmac := transparentHmac_computes (fun _ => rfl) (fun _ _ => rfl)
        fun _ => rfl }
  awsLcRs :=
    { keyed := fun _ => ⟨(), rfl, by
        constructor
        · intro nonce aad inOut
          exact ⟨rfl, fun text result found => by cases found; rfl⟩
        · intro nonce aad inOut extraIn extraOutAndTag room
          simp only [transparentCrates, room, ↓reduceDIte]
          refine ⟨rfl, fun text found => ?_⟩
          cases found
          rw [← List.append_assoc]
          rfl
        · intro nonce aad ciphertext tag output room
          simp only [transparentCrates, room, ↓reduceDIte]
          refine transparent_fills ?_ rfl
          simp only [val_eq_zeros_iff]
        · intro nonce aad tag inOut
          refine transparent_fills ?_ rfl
          simp only [transparentCrates, val_eq_zeros_iff]
          split <;> simp [*]⟩
      hkdf := transparentHkdf_documented }
  boring :=
    { keyed := fun _ => ⟨(), rfl, by
        constructor
        · intro nonce aad inOut tag
          refine ⟨⟨?_, fun text result found => by cases found; rfl⟩, ?_⟩
          · simp only [transparentCrates, Octets.length_val]
            rfl
          · intro written returned
            exact Option.some.inj returned
        · intro nonce aad inOut extraIn outTag room
          have whole : ((some extraIn).getD [] ++ zeros aeadTagLength).length =
              outTag.length := by
            rw [List.length_append, length_zeros, room]
            rfl
          simp only [transparentCrates, whole, ↓reduceDIte]
          refine ⟨⟨rfl, fun text found => ?_⟩, fun written returned => ?_⟩
          · cases found
            rw [← List.append_assoc]
            rfl
          · exact Option.some.inj returned
        · intro nonce aad inOut tag
          refine transparent_fills ?_ rfl
          simp only [transparentCrates, val_eq_zeros_iff]⟩
      hmac := transparentHmac_computes (fun _ => rfl) (fun _ _ => rfl)
        fun _ => rfl }
  ring :=
    { keyed := fun _ => ⟨(), rfl, by
        constructor
        · intro nonce aad inOut
          exact ⟨rfl, fun text result found => by cases found; rfl⟩
        · intro nonce aad tag inOut
          refine transparent_fills ?_ rfl
          simp only [transparentCrates]
          split <;> simp [*]⟩
      hkdf := transparentHkdf_documented }

set_option maxRecDepth 100000 in
/-- A message encrypted with ring, in a build that has BoringSSL too, and
decrypted in a 32-bit build that has BoringSSL only. -/
theorem providers_areInterchangeable_example :
    ∃ ciphertext,
      encrypt (transparentCrates.platform .bits64 [.ring, .boring])
            ⟨Octets.zero 32, some .ring⟩ [] shortestSegments zeroRng
            [1, 2, 3] = .ok ciphertext ∧
        decrypt (transparentCrates.platform .bits32 [.boring]) zeroKey []
            ciphertext = .ok [1, 2, 3] := by
  obtain ⟨ciphertext, encrypted⟩ :
      ∃ ciphertext,
        encrypt (transparentCrates.platform .bits64 [.ring, .boring])
          ⟨Octets.zero 32, some .ring⟩ [] shortestSegments zeroRng
          [1, 2, 3] = .ok ciphertext :=
    ⟨_, rfl⟩
  refine ⟨ciphertext, encrypted, ?_⟩
  exact ((providers_areInterchangeable transparent_documented .bits64 .bits32
    [.ring, .boring] [.boring]).2.2 ⟨Octets.zero 32, some .ring⟩ zeroKey
      .boring [] rfl rfl).2.1 shortestSegments zeroRng [1, 2, 3] ciphertext
        encrypted

end FastFloe
