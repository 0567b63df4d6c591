import FastFloe.Rust.Bytes

namespace FastFloe

open Rust

/-!
# The FLOE specification

The functions of the specification document, over the external functions that
it leaves open.  Its random bytes are arguments here, and its exceptions are
`none`.  The parameter set is its only free parameter, `ENC_SEG_LEN`.
-/

/-- The external functions of the specification. -/
structure Externals where
  /-- `KDF(prk, info, len)`. -/
  kdf : (prk info : Bytes) → (length : Nat) → Bytes
  /-- `AEAD_ENC(key, data, aad)` with the IV that it draws. -/
  aeadEnc : (key iv data aad : Bytes) → Option (Bytes × Bytes)
  /-- `AEAD_DEC(key, iv, ct, aad, tag)`. -/
  aeadDec : (key iv ciphertext aad tag : Bytes) → Option Bytes

namespace Specification

def aeadId : Nat := 0
def aeadKeyLen : Nat := 32
def aeadIvLen : Nat := 12
def aeadTagLen : Nat := 16
def aeadRotationMask : Nat := 20
def aeadMaxSegments : Nat := 2 ^ 40
def kdfId : Nat := 0
def kdfKeyLen : Nat := 48
def floeIvLen : Nat := 32

/-! ## Internal functions -/

/-- `assert`. -/
def assert (condition : Prop) [Decidable condition] : Option Unit :=
  if condition then some () else none

/-- The bytes of a purpose text. -/
def ascii (text : List Char) : Bytes :=
  text.map fun character => UInt8.ofNat character.toNat

/-- `SPLIT`. -/
def split (data : Bytes) (prefixLen suffixLen : Nat) :
    Option (Bytes × Bytes × Bytes) :=
  if prefixLen + suffixLen ≤ data.length then
    some (data.take prefixLen,
      (data.drop prefixLen).take (data.length - prefixLen - suffixLen),
      data.drop (data.length - suffixLen))
  else
    none

/-- `PARAM_ENCODE`. -/
def paramEncode (encSegLen : Nat) : Bytes :=
  beBytes 1 aeadId ++ beBytes 1 kdfId ++ beBytes 4 encSegLen ++
    beBytes 4 floeIvLen

/-- `MASK`. -/
def mask (value bits : Nat) : Nat :=
  value / 2 ^ bits * 2 ^ bits

/-- `FLOE_KDF`. -/
def floeKdf (externals : Externals) (encSegLen : Nat)
    (key iv aad purpose : Bytes) (length : Nat) : Bytes :=
  externals.kdf key (paramEncode encSegLen ++ iv ++ purpose ++ aad) length

/-- `DERIVE_KEY`. -/
def deriveKey (externals : Externals) (encSegLen : Nat) (key iv aad : Bytes)
    (segmentNumber : Nat) : Bytes :=
  floeKdf externals encSegLen key iv aad
    (ascii ['D', 'E', 'K', ':'] ++
      beBytes 8 (mask segmentNumber aeadRotationMask))
    aeadKeyLen

/-- `FLOE_KDF` for the header tag. -/
def headerTag (externals : Externals) (encSegLen : Nat) (key iv aad : Bytes) :
    Bytes :=
  floeKdf externals encSegLen key iv aad
    (ascii ['H', 'E', 'A', 'D', 'E', 'R', '_', 'T', 'A', 'G', ':']) 32

/-- `FLOE_KDF` for the message key. -/
def messageKey (externals : Externals) (encSegLen : Nat)
    (key iv aad : Bytes) : Bytes :=
  floeKdf externals encSegLen key iv aad
    (ascii ['M', 'E', 'S', 'S', 'A', 'G', 'E', '_', 'K', 'E', 'Y', ':'])
    kdfKeyLen

/-! ## Random access -/

/-- The state of the random-access functions. -/
structure State where
  messageKey : Bytes
  iv : Bytes
  aad : Bytes
  deriving DecidableEq

/-- `startEncryption`, which draws `iv`. -/
def startEncryption (externals : Externals) (encSegLen : Nat)
    (key aad iv : Bytes) : State × Bytes :=
  (⟨messageKey externals encSegLen key iv aad, iv, aad⟩,
    paramEncode encSegLen ++ iv ++ headerTag externals encSegLen key iv aad)

/-- `startDecryption`. -/
def startDecryption (externals : Externals) (encSegLen : Nat)
    (key aad header : Bytes) : Option State := do
  let encodedParams := paramEncode encSegLen
  assert (header.length = floeIvLen + encodedParams.length + 32)
  let (headerParams, iv, tag) ← split header encodedParams.length 32
  assert (headerParams = encodedParams)
  assert (headerTag externals encSegLen key iv aad = tag)
  some ⟨messageKey externals encSegLen key iv aad, iv, aad⟩

/-- `encryptSegment`, which draws `aeadIv`. -/
def encryptSegment (externals : Externals) (encSegLen : Nat) (state : State)
    (plaintext : Bytes) (position : Nat) (isFinal : Bool) (aeadIv : Bytes) :
    Option Bytes := do
  if isFinal then
    assert (plaintext.length ≤ encSegLen - aeadIvLen - aeadTagLen - 4)
  else
    assert (plaintext.length = encSegLen - aeadIvLen - aeadTagLen - 4)
  let aadTail : UInt8 := if isFinal then 0x01 else 0x00
  let aeadKey := deriveKey externals encSegLen state.messageKey state.iv
    state.aad position
  let (ciphertext, tag) ← externals.aeadEnc aeadKey aeadIv plaintext
    (beBytes 8 position ++ [aadTail])
  let segmentHeader :=
    if isFinal then
      beBytes 4 (4 + aeadIvLen + ciphertext.length + aeadTagLen)
    else
      beBytes 4 0xFFFFFFFF
  some (segmentHeader ++ aeadIv ++ ciphertext ++ tag)

/-- `decryptSegment`. -/
def decryptSegment (externals : Externals) (encSegLen : Nat) (state : State)
    (encryptedSegment : Bytes) (position : Nat) (isFinal : Bool) :
    Option Bytes := do
  if isFinal then
    assert (encryptedSegment.length ≥ aeadIvLen + aeadTagLen + 4)
    assert (encryptedSegment.length ≤ encSegLen)
    assert (beValue (encryptedSegment.take 4) = encryptedSegment.length)
  else
    assert (encryptedSegment.length = encSegLen)
    assert (beValue (encryptedSegment.take 4) = 0xFFFFFFFF)
  let aadTail : UInt8 := if isFinal then 0x01 else 0x00
  let aeadKey := deriveKey externals encSegLen state.messageKey state.iv
    state.aad position
  let (aeadIv, ciphertext, tag) ←
    split (encryptedSegment.drop 4) aeadIvLen aeadTagLen
  externals.aeadDec aeadKey aeadIv ciphertext
    (beBytes 8 position ++ [aadTail]) tag

/-! ## Online processing -/

/-- The state of the online functions. -/
structure OnlineState where
  state : State
  counter : Nat
  closed : Bool
  deriving DecidableEq

/-- `startOnlineEncryption`. -/
def startOnlineEncryption (externals : Externals) (encSegLen : Nat)
    (key aad iv : Bytes) : OnlineState × Bytes :=
  let (state, header) := startEncryption externals encSegLen key aad iv
  (⟨state, 0, false⟩, header)

/-- `encryptOnlineSegment`. -/
def encryptOnlineSegment (externals : Externals) (encSegLen : Nat)
    (online : OnlineState) (plaintext aeadIv : Bytes) :
    Option (OnlineState × Bytes) := do
  assert (online.closed = false)
  assert (online.counter ≠ aeadMaxSegments - 1)
  let encryptedSegment ← encryptSegment externals encSegLen online.state
    plaintext online.counter false aeadIv
  some ({ online with counter := online.counter + 1 }, encryptedSegment)

/-- `encryptLastSegment`. -/
def encryptLastSegment (externals : Externals) (encSegLen : Nat)
    (online : OnlineState) (plaintext aeadIv : Bytes) :
    Option (OnlineState × Bytes) := do
  assert (online.closed = false)
  let encryptedSegment ← encryptSegment externals encSegLen online.state
    plaintext online.counter true aeadIv
  some ({ online with closed := true }, encryptedSegment)

/-- `startOnlineDecryption`. -/
def startOnlineDecryption (externals : Externals) (encSegLen : Nat)
    (key aad header : Bytes) : Option OnlineState := do
  let state ← startDecryption externals encSegLen key aad header
  some ⟨state, 0, false⟩

/-- `decryptOnlineSegment`. -/
def decryptOnlineSegment (externals : Externals) (encSegLen : Nat)
    (online : OnlineState) (encryptedSegment : Bytes) :
    Option (OnlineState × Bytes) := do
  assert (online.closed = false)
  assert (online.counter ≠ aeadMaxSegments - 1)
  let plaintext ← decryptSegment externals encSegLen online.state
    encryptedSegment online.counter false
  some ({ online with counter := online.counter + 1 }, plaintext)

/-- `decryptLastSegment`. -/
def decryptLastSegment (externals : Externals) (encSegLen : Nat)
    (online : OnlineState) (encryptedSegment : Bytes) :
    Option (OnlineState × Bytes) := do
  assert (online.closed = false)
  let plaintext ← decryptSegment externals encSegLen online.state
    encryptedSegment online.counter true
  some ({ online with closed := true }, plaintext)

/-- `decryptAnyOnlineSegment`. -/
def decryptAnyOnlineSegment (externals : Externals) (encSegLen : Nat)
    (online : OnlineState) (encryptedSegment : Bytes) :
    Option (OnlineState × Bytes) :=
  if beValue (encryptedSegment.take 4) = 0xFFFFFFFF then
    decryptOnlineSegment externals encSegLen online encryptedSegment
  else
    decryptLastSegment externals encSegLen online encryptedSegment

/-! ## Sequences of online calls -/

/-- A plaintext to encrypt as a segment, and the IV that is drawn for it. -/
structure Request where
  isFinal : Bool
  plaintext : Bytes
  aeadIv : Bytes

/-- The online function that a request asks for. -/
def encryptRequest (externals : Externals) (encSegLen : Nat)
    (online : OnlineState) (request : Request) :
    Option (OnlineState × Bytes) :=
  if request.isFinal then
    encryptLastSegment externals encSegLen online request.plaintext
      request.aeadIv
  else
    encryptOnlineSegment externals encSegLen online request.plaintext
      request.aeadIv

/-- Encrypts requests in order, unless one of them throws. -/
def encryptAll (externals : Externals) (encSegLen : Nat) :
    OnlineState → List Request → Option (OnlineState × List Bytes)
  | online, [] =>
      some (online, [])
  | online, request :: rest => do
      let (online, segment) ←
        encryptRequest externals encSegLen online request
      let (online, segments) ← encryptAll externals encSegLen online rest
      some (online, segment :: segments)

/-- Decrypts segments in order, unless one of them throws. -/
def decryptAll (externals : Externals) (encSegLen : Nat) :
    OnlineState → List Bytes → Option (OnlineState × List Bytes)
  | online, [] =>
      some (online, [])
  | online, segment :: rest => do
      let (online, plaintext) ←
        decryptAnyOnlineSegment externals encSegLen online segment
      let (online, plaintexts) ← decryptAll externals encSegLen online rest
      some (online, plaintext :: plaintexts)

/-- The answer to one segment: a call that throws leaves the state as it
was. -/
def answerSegment (externals : Externals) (encSegLen : Nat)
    (encryptedSegment : Bytes) (online : OnlineState) :
    Option Bytes × OnlineState :=
  match decryptAnyOnlineSegment externals encSegLen online
      encryptedSegment with
  | none => (none, online)
  | some (next, plaintext) => (some plaintext, next)

end Specification

end FastFloe
