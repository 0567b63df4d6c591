import FastFloe.Library.Primitives
import FastFloe.Backends

namespace FastFloe

open Rust
open Primitives

/-!
# The third-party crates

The functions of the four cryptography libraries that the provider modules call.
They are parameters, and a slice they write to comes back with its length.  Each
`Documented` says what a library's documentation promises: one AES-256-GCM, and
HMAC-SHA-384 or the HKDF-Expand over it.
-/

/-- AES-256-GCM. -/
abbrev Gcm :=
  Aead (Octets 32) (Octets aeadIvLength) (Octets aeadTagLength) UInt8

/-- A ciphertext and the bytes of its tag. -/
def detached (sealed : Bytes × Octets aeadTagLength) : Bytes × Bytes :=
  (sealed.1, sealed.2.val)

/-- A ciphertext with its tag behind it. -/
def joined (sealed : Bytes × Octets aeadTagLength) : Bytes :=
  sealed.1 ++ sealed.2.val

/-- What a call left in a slice. -/
abbrev Left (slice : Bytes) := Octets slice.length

/-- What a call leaves in a slice that it does not write to. -/
def Left.alone (slice : Bytes) : Left slice := ⟨slice, rfl⟩

/-- A call on a slice succeeds exactly where the function has a value, whose
text it leaves in the slice. -/
structure Leaves {τ : Type} (succeeded : Option τ) (left : Bytes)
    (value : Option (Bytes × τ)) : Prop where
  succeeded : succeeded = value.map Prod.snd
  left : ∀ text result, value = some (text, result) → left = text

/-- The same of a function with no result apart from the text. -/
structure Fills (succeeds : Bool) (left : Bytes) (value : Option Bytes) :
    Prop where
  succeeds : succeeds = value.isSome
  left : ∀ text, value = some text → left = text

/-! ## Key derivation -/

/-- The counter octet of HKDF-Expand. -/
def counterOctet (index : Nat) : UInt8 :=
  UInt8.ofNat index

/-- HKDF-Expand over a keyed function. -/
def hkdfExpand (mac : Mac Bytes UInt8) (key info : Bytes) (length : Nat) :
    Octets length :=
  ⟨mac.expand counterOctet key info length, mac.length_expand _ _ _ _⟩

/-- `Prk` and `Okm`, which `aws_lc_rs::hkdf` and `ring::hkdf` both have. -/
structure HkdfCrate where
  Prk : Type
  Okm : Type
  /-- `Prk::new_less_safe(HKDF_SHA384, value)`. -/
  newLessSafe : Bytes → Prk
  /-- `Prk::expand`, with the length of its `KeyType`. -/
  expand : Prk → List Bytes → Nat → Option Okm
  /-- `Okm::fill`. -/
  fill : {length : Nat} → Okm → Octets length → Bool × Octets length

/-- The parts of the info concatenate, and an `Okm` fills a buffer of its own
length.  There are 255 blocks to fill it from. -/
def HkdfCrate.Documented (crate : HkdfCrate) (mac : Mac Bytes UInt8) : Prop :=
  ∀ key info length,
    length ≤ 255 * mac.width →
      ∃ okm, crate.expand (crate.newLessSafe key) info length = some okm ∧
        ∀ output : Octets length,
          crate.fill okm output =
            (true, hkdfExpand mac key info.flatten length)

/-! ## RustCrypto -/

/-- `InOutBuf`: an input, and an output of the same length that may be the same
memory. -/
structure InOutBuf where
  input : Bytes
  output : Bytes
  same : input.length = output.length

namespace InOutBuf

/-- `InOutBuf::new`. -/
def new (input output : Bytes) : Option InOutBuf :=
  if same : input.length = output.length then
    some ⟨input, output, same⟩
  else
    none

/-- `InOutBuf::from` on one slice. -/
def ofSlice (inOut : Bytes) : InOutBuf :=
  ⟨inOut, inOut, rfl⟩

end InOutBuf

/-- `aes_gcm` and `hmac` with `sha2`. -/
structure RustCryptoCrate where
  Aes256Gcm : Type
  HmacSha384 : Type
  /-- `Aes256Gcm::new_from_slice`. -/
  newFromSlice : Bytes → Option Aes256Gcm
  /-- `encrypt_inout_detached`. -/
  encryptInOutDetached : Aes256Gcm → Octets aeadIvLength → Bytes →
    (buffer : InOutBuf) → Option (Octets aeadTagLength) × Left buffer.output
  /-- `decrypt_inout_detached`. -/
  decryptInOutDetached : Aes256Gcm → Octets aeadIvLength → Bytes →
    (buffer : InOutBuf) → Octets aeadTagLength → Bool × Left buffer.output
  /-- `HmacSha384::new_from_slice`. -/
  hmacNew : Bytes → Option HmacSha384
  /-- `Mac::update`. -/
  hmacUpdate : HmacSha384 → Bytes → HmacSha384
  /-- `Mac::finalize`, whose output is a `[u8; 48]`. -/
  hmacFinalize : HmacSha384 → Octets 48

/-- What a cipher of RustCrypto does under its key. -/
structure RustCryptoCrate.Keyed (crate : RustCryptoCrate) (gcm : Gcm)
    (material : Octets 32) (cipher : crate.Aes256Gcm) : Prop where
  encrypts : ∀ nonce aad buffer,
    let call := crate.encryptInOutDetached cipher nonce aad buffer
    Leaves call.1 call.2.val (gcm.encrypt material nonce aad buffer.input)
  decrypts : ∀ nonce aad buffer tag,
    let call := crate.decryptInOutDetached cipher nonce aad buffer tag
    Fills call.1 call.2.val (gcm.decrypt material nonce aad buffer.input tag)

/-- Every 32-byte key is taken, and updates of an HMAC concatenate. -/
structure RustCryptoCrate.Documented (crate : RustCryptoCrate) (gcm : Gcm)
    (mac : Mac Bytes UInt8) : Prop where
  keyed : ∀ material : Octets 32,
    ∃ cipher, crate.newFromSlice material.val = some cipher ∧
      crate.Keyed gcm material cipher
  hmac :
    Computes crate.hmacNew (fun hmac part => some (crate.hmacUpdate hmac part))
      (fun hmac => some (crate.hmacFinalize hmac).val) mac.tag

/-! ## aws-lc-rs -/

/-- `aws_lc_rs::aead` and `aws_lc_rs::hkdf`. -/
structure AwsLcRsCrate where
  UnboundKey : Type
  LessSafeKey : Type
  hkdf : HkdfCrate
  /-- `UnboundKey::new(&AES_256_GCM, key)`. -/
  unboundKeyNew : Bytes → Option UnboundKey
  /-- `LessSafeKey::new`. -/
  lessSafeKeyNew : UnboundKey → LessSafeKey
  /-- `seal_in_place_separate_tag`, which returns the bytes of its `Tag`. -/
  sealInPlaceSeparateTag : LessSafeKey → Octets aeadIvLength → Bytes →
    (inOut : Bytes) → Option Bytes × Left inOut
  /-- `seal_in_place_scatter`: key, nonce, AAD, `in_out`, `extra_in` and
  `extra_out_and_tag`. -/
  sealInPlaceScatter : LessSafeKey → Octets aeadIvLength → Bytes →
    (inOut extraIn extraOutAndTag : Bytes) →
      Bool × Left inOut × Left extraOutAndTag
  /-- `open_separate_gather`: key, nonce, AAD, ciphertext, tag and output. -/
  openSeparateGather : LessSafeKey → Octets aeadIvLength → Bytes → Bytes →
    Bytes → (outPlaintext : Bytes) → Bool × Left outPlaintext
  /-- `open_in_place_separate_tag`, which returns the plaintext's slice. -/
  openInPlaceSeparateTag : LessSafeKey → Octets aeadIvLength → Bytes → Bytes →
    (inOut : Bytes) → Option Bytes × Left inOut

/-- What a key of aws-lc-rs does.  A scattered seal encrypts `in_out` and the
extra input as one plaintext, and puts the tag behind the extra ciphertext. -/
structure AwsLcRsCrate.Keyed (crate : AwsLcRsCrate) (gcm : Gcm)
    (material : Octets 32) (key : crate.LessSafeKey) : Prop where
  seals : ∀ nonce aad inOut,
    let call := crate.sealInPlaceSeparateTag key nonce aad inOut
    Leaves call.1 call.2.val
      ((gcm.encrypt material nonce aad inOut).map detached)
  scatters : ∀ nonce aad inOut extraIn extraOutAndTag,
    extraOutAndTag.length = extraIn.length + aeadTagLength →
      let call := crate.sealInPlaceScatter key nonce aad inOut extraIn
        extraOutAndTag
      Fills call.1 (call.2.1.val ++ call.2.2.val)
        ((gcm.encrypt material nonce aad (inOut ++ extraIn)).map joined)
  gathers : ∀ nonce aad ciphertext (tag : Octets aeadTagLength) output,
    output.length = ciphertext.length →
      let call := crate.openSeparateGather key nonce aad ciphertext tag.val
        output
      Fills call.1 call.2.val (gcm.decrypt material nonce aad ciphertext tag)
  opens : ∀ nonce aad (tag : Octets aeadTagLength) inOut,
    let call := crate.openInPlaceSeparateTag key nonce aad tag.val inOut
    Fills call.1.isSome call.2.val (gcm.decrypt material nonce aad inOut tag)

/-- Every 32-byte key is taken, and the key derivation is HKDF-Expand. -/
structure AwsLcRsCrate.Documented (crate : AwsLcRsCrate) (gcm : Gcm)
    (mac : Mac Bytes UInt8) : Prop where
  keyed : ∀ material : Octets 32,
    ∃ unbound, crate.unboundKeyNew material.val = some unbound ∧
      crate.Keyed gcm material (crate.lessSafeKeyNew unbound)
  hkdf : crate.hkdf.Documented mac

/-! ## BoringSSL -/

/-- `boring::aead` and `boring::hmac`. -/
structure BoringCrate where
  AeadCtx : Type
  Hmac : Type
  /-- `AeadCtx::new(&Algorithm::aes_256_gcm(), key, tag_len)`. -/
  aeadCtxNew : Bytes → Nat → Option AeadCtx
  /-- `seal_in_place`: nonce, `in_out`, the buffer for the tag, and the AAD.  It
  returns the part of that buffer that it wrote. -/
  sealInPlace : AeadCtx → Bytes → (inOut tag : Bytes) → Bytes →
    Option Bytes × Left inOut × Left tag
  /-- `seal_scatter`: nonce, `in_out`, the buffer for the extra ciphertext and
  the tag, the extra input, and the AAD. -/
  sealScatter : AeadCtx → Bytes → (inOut outTag : Bytes) → Option Bytes →
    Bytes → Option Bytes × Left inOut × Left outTag
  /-- `open_in_place`: nonce, `in_out`, tag and AAD. -/
  openInPlace : AeadCtx → Bytes → (inOut : Bytes) → Bytes → Bytes →
    Bool × Left inOut
  /-- `Hmac::init(key, &MessageDigest::sha384())`. -/
  hmacInit : Bytes → Option Hmac
  /-- `Hmac::update`. -/
  hmacUpdate : Hmac → Bytes → Option Hmac
  /-- `Hmac::finalize`. -/
  hmacFinalize : Hmac → Option Bytes

/-- What a context of BoringSSL does.  Where a buffer has room for exactly what
is written to it, all of the buffer is written. -/
structure BoringCrate.Keyed (crate : BoringCrate) (gcm : Gcm)
    (material : Octets 32) (context : crate.AeadCtx) : Prop where
  seals : ∀ (nonce : Octets aeadIvLength) aad inOut
      (tag : Octets aeadTagLength),
    let call := crate.sealInPlace context nonce.val inOut tag.val aad
    Leaves call.1 call.2.1.val
        ((gcm.encrypt material nonce aad inOut).map detached) ∧
      ∀ written, call.1 = some written → call.2.2.val = written
  scatters : ∀ (nonce : Octets aeadIvLength) aad inOut extraIn outTag,
    outTag.length = extraIn.length + aeadTagLength →
      let call := crate.sealScatter context nonce.val inOut outTag
        (some extraIn) aad
      Fills call.1.isSome (call.2.1.val ++ call.2.2.val)
          ((gcm.encrypt material nonce aad (inOut ++ extraIn)).map joined) ∧
        ∀ written, call.1 = some written → call.2.2.val = written
  opens : ∀ (nonce : Octets aeadIvLength) aad inOut
      (tag : Octets aeadTagLength),
    let call := crate.openInPlace context nonce.val inOut tag.val aad
    Fills call.1 call.2.val (gcm.decrypt material nonce aad inOut tag)

/-- Every 32-byte key is taken with the full tag, and updates of an HMAC
concatenate. -/
structure BoringCrate.Documented (crate : BoringCrate) (gcm : Gcm)
    (mac : Mac Bytes UInt8) : Prop where
  keyed : ∀ material : Octets 32,
    ∃ context, crate.aeadCtxNew material.val aeadTagLength = some context ∧
      crate.Keyed gcm material context
  hmac :
    Computes crate.hmacInit crate.hmacUpdate crate.hmacFinalize mac.tag

/-! ## ring -/

/-- `ring::aead` and `ring::hkdf`. -/
structure RingCrate where
  UnboundKey : Type
  LessSafeKey : Type
  hkdf : HkdfCrate
  /-- `UnboundKey::new(&AES_256_GCM, key)`. -/
  unboundKeyNew : Bytes → Option UnboundKey
  /-- `LessSafeKey::new`. -/
  lessSafeKeyNew : UnboundKey → LessSafeKey
  /-- `seal_in_place_separate_tag`, which returns the bytes of its `Tag`. -/
  sealInPlaceSeparateTag : LessSafeKey → Octets aeadIvLength → Bytes →
    (inOut : Bytes) → Option Bytes × Left inOut
  /-- `open_in_place_separate_tag`: the ciphertext is the part of `in_out` from
  an index on, and the plaintext's slice is returned. -/
  openInPlaceSeparateTag : LessSafeKey → Octets aeadIvLength → Bytes →
    Octets aeadTagLength → (inOut : Bytes) → Nat → Option Bytes × Left inOut

/-- What a key of ring does, with the ciphertext at the start of the slice. -/
structure RingCrate.Keyed (crate : RingCrate) (gcm : Gcm)
    (material : Octets 32) (key : crate.LessSafeKey) : Prop where
  seals : ∀ nonce aad inOut,
    let call := crate.sealInPlaceSeparateTag key nonce aad inOut
    Leaves call.1 call.2.val
      ((gcm.encrypt material nonce aad inOut).map detached)
  opens : ∀ nonce aad tag inOut,
    let call := crate.openInPlaceSeparateTag key nonce aad tag inOut 0
    Fills call.1.isSome call.2.val (gcm.decrypt material nonce aad inOut tag)

/-- Every 32-byte key is taken, and the key derivation is HKDF-Expand. -/
structure RingCrate.Documented (crate : RingCrate) (gcm : Gcm)
    (mac : Mac Bytes UInt8) : Prop where
  keyed : ∀ material : Octets 32,
    ∃ unbound, crate.unboundKeyNew material.val = some unbound ∧
      crate.Keyed gcm material (crate.lessSafeKeyNew unbound)
  hkdf : crate.hkdf.Documented mac

end FastFloe
