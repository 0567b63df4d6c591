import FastFloe.ProviderCrates

namespace FastFloe

open Rust
open Primitives

/-!
# The provider modules

The four `aead_*` modules over the crates they wrap.  Every module reaches
AES-256-GCM and HKDF-Expand through calls of another shape; `Keyed` and
`Expands` say that with documented crates each of them computes these functions.
-/

def kdfMaxOutputLength : Nat := 48

/-- `validate_kdf_output_length`. -/
def validateKdfOutputLength (length : Nat) : Result Unit :=
  if length ≤ kdfMaxOutputLength then
    .ok ()
  else
    .error (.err .cryptoFailure)

/-- The functions of one `aead_*` module.  A mutable slice comes back as the
call left it. -/
structure ProviderModule where
  Key : Type
  new : Octets 32 → Result Key
  sealInPlace : Key → Octets aeadIvLength → Bytes → (inOut : Bytes) →
    Octets aeadTagLength → Result Unit × Bytes × Octets aeadTagLength
  sealInto : Key → Octets aeadIvLength → Bytes → Bytes → (output : Bytes) →
    Result Unit × Bytes
  openInto : Key → Octets aeadIvLength → Bytes → Bytes →
    Octets aeadTagLength → (output : Bytes) → Result Unit × Bytes
  openInPlace : Key → Octets aeadIvLength → Bytes → Octets aeadTagLength →
    (inOut : Bytes) → Result Unit × Bytes
  kdfExpand : (length : Nat) → Bytes → List Bytes → Result (Octets length)
  length_sealInPlace : ∀ key nonce aad inOut tag,
    (sealInPlace key nonce aad inOut tag).2.1.length = inOut.length
  length_sealInto : ∀ key nonce aad plaintext output,
    (sealInto key nonce aad plaintext output).2.length = output.length
  length_openInto : ∀ key nonce aad ciphertext tag output,
    (openInto key nonce aad ciphertext tag output).2.length = output.length
  length_openInPlace : ∀ key nonce aad tag inOut,
    (openInPlace key nonce aad tag inOut).2.length = inOut.length

/-! ## The ends of the calls -/

/-- The end of `seal`: `map_err`, and `tag.copy_from_slice` of the generated
tag. -/
def storeTag (generatedTag : Option Bytes) (inOut : Bytes)
    (tag : Octets aeadTagLength) :
    Result Unit × Bytes × Octets aeadTagLength :=
  match generatedTag with
  | none => (.error (.err .cryptoFailure), inOut, tag)
  | some generatedTag =>
      match Octets.ofSlice? aeadTagLength generatedTag with
      | none => (.error .panic, inOut, tag)
      | some tag => (.ok (), inOut, tag)

/-- The end of a `seal_into` that has the ciphertext and `tag_out` apart. -/
def appendTag (generatedTag : Option Bytes) (ciphertext tagOut : Bytes) :
    Result Unit × Bytes :=
  match generatedTag with
  | none => (.error (.err .cryptoFailure), ciphertext ++ tagOut)
  | some generatedTag =>
      match (copyRange tagOut 0 tagOut.length generatedTag : Result Bytes) with
      | .error stop => (.error stop, ciphertext ++ tagOut)
      | .ok tagOut => (.ok (), ciphertext ++ tagOut)

/-- `map_err` on a call that reports no more than whether it succeeded. -/
def failUnless (error : Error) (succeeds : Bool) : Result Unit :=
  if succeeds then .ok () else .error (.err error)

/-- `output.copy_from_slice(&block[..N])` into an array of that length. -/
def copyLead (length : Nat) (block : Bytes) : Result (Octets length) := do
  let lead ← slice block 0 length
  Outcome.expect (Octets.ofSlice? length lead)

/-! ## RustCrypto -/

namespace AeadRustCrypto

variable (crate : RustCryptoCrate)

/-- `AeadKey::new`. -/
def new (key : Octets 32) : Result crate.Aes256Gcm :=
  Outcome.okOr .cryptoFailure (crate.newFromSlice key.val)

/-- `AeadKey::seal`. -/
def sealInPlace (self : crate.Aes256Gcm) (nonce : Octets aeadIvLength)
    (aad inOut : Bytes) (tag : Octets aeadTagLength) :
    Result Unit × Bytes × Octets aeadTagLength :=
  let (generatedTag, inOut) :=
    crate.encryptInOutDetached self nonce aad (.ofSlice inOut)
  storeTag (generatedTag.map Subtype.val) inOut.val tag

/-- `AeadKey::seal_into`: the cipher reads one buffer and writes the other. -/
def sealInto (self : crate.Aes256Gcm) (nonce : Octets aeadIvLength)
    (aad plaintext output : Bytes) : Result Unit × Bytes :=
  match splitAt output plaintext.length with
  | .error stop => (.error stop, output)
  | .ok (ciphertext, tagOut) =>
      match InOutBuf.new plaintext ciphertext with
      | none => (.error (.err .cryptoFailure), output)
      | some inOut =>
          let (tag, ciphertext) :=
            crate.encryptInOutDetached self nonce aad inOut
          appendTag (tag.map Subtype.val) ciphertext.val tagOut

/-- `AeadKey::open`. -/
def openInto (self : crate.Aes256Gcm) (nonce : Octets aeadIvLength)
    (aad ciphertext : Bytes) (tag : Octets aeadTagLength) (output : Bytes) :
    Result Unit × Bytes :=
  match InOutBuf.new ciphertext output with
  | none => (.error (.err .cryptoFailure), output)
  | some inOut =>
      let (succeeds, output) :=
        crate.decryptInOutDetached self nonce aad inOut tag
      (failUnless .authenticationFailed succeeds, output.val)

/-- `AeadKey::open_in_place`. -/
def openInPlace (self : crate.Aes256Gcm) (nonce : Octets aeadIvLength)
    (aad : Bytes) (tag : Octets aeadTagLength) (inOut : Bytes) :
    Result Unit × Bytes :=
  let (succeeds, inOut) :=
    crate.decryptInOutDetached self nonce aad (.ofSlice inOut) tag
  (failUnless .authenticationFailed succeeds, inOut.val)

/-- `kdf_expand`: the first block of HKDF-Expand, written out. -/
def kdfExpand (length : Nat) (key : Bytes) (info : List Bytes) :
    Result (Octets length) := do
  validateKdfOutputLength length
  let hmac ← Outcome.okOr .cryptoFailure (crate.hmacNew key)
  let hmac := info.foldl crate.hmacUpdate hmac
  let block := crate.hmacFinalize (crate.hmacUpdate hmac [1])
  copyLead length block.val

end AeadRustCrypto

/-! ## aws-lc-rs -/

/-- The `kdf_expand` of the modules whose crate has HKDF-Expand. -/
def HkdfCrate.kdfExpand (crate : HkdfCrate) (length : Nat) (key : Bytes)
    (info : List Bytes) : Result (Octets length) := do
  validateKdfOutputLength length
  let prk := crate.newLessSafe key
  let okm ← Outcome.okOr .cryptoFailure (crate.expand prk info length)
  let (succeeds, output) := crate.fill okm (Octets.zero length)
  failUnless .cryptoFailure succeeds
  .ok output

namespace AeadAwsLcRs

variable (crate : AwsLcRsCrate)

/-- `AeadKey::new`. -/
def new (key : Octets 32) : Result crate.LessSafeKey := do
  let unbound ← Outcome.okOr .cryptoFailure (crate.unboundKeyNew key.val)
  .ok (crate.lessSafeKeyNew unbound)

/-- `AeadKey::seal`. -/
def sealInPlace (self : crate.LessSafeKey) (nonce : Octets aeadIvLength)
    (aad inOut : Bytes) (tag : Octets aeadTagLength) :
    Result Unit × Bytes × Octets aeadTagLength :=
  let (generatedTag, inOut) := crate.sealInPlaceSeparateTag self nonce aad inOut
  storeTag generatedTag inOut.val tag

/-- `AeadKey::seal_into`: all of the plaintext is extra input. -/
def sealInto (self : crate.LessSafeKey) (nonce : Octets aeadIvLength)
    (aad plaintext output : Bytes) : Result Unit × Bytes :=
  let (succeeds, _, output) :=
    crate.sealInPlaceScatter self nonce aad [] plaintext output
  (failUnless .cryptoFailure succeeds, output.val)

/-- `AeadKey::open`. -/
def openInto (self : crate.LessSafeKey) (nonce : Octets aeadIvLength)
    (aad ciphertext : Bytes) (tag : Octets aeadTagLength) (output : Bytes) :
    Result Unit × Bytes :=
  let (succeeds, output) :=
    crate.openSeparateGather self nonce aad ciphertext tag.val output
  (failUnless .authenticationFailed succeeds, output.val)

/-- `AeadKey::open_in_place`. -/
def openInPlace (self : crate.LessSafeKey) (nonce : Octets aeadIvLength)
    (aad : Bytes) (tag : Octets aeadTagLength) (inOut : Bytes) :
    Result Unit × Bytes :=
  let (plaintext, inOut) :=
    crate.openInPlaceSeparateTag self nonce aad tag.val inOut
  (failUnless .authenticationFailed plaintext.isSome, inOut.val)

/-- `kdf_expand`. -/
def kdfExpand (length : Nat) (key : Bytes) (info : List Bytes) :
    Result (Octets length) :=
  crate.hkdf.kdfExpand length key info

end AeadAwsLcRs

/-! ## BoringSSL -/

namespace AeadBoring

variable (crate : BoringCrate)

/-- `AeadKey::new`. -/
def new (key : Octets 32) : Result crate.AeadCtx :=
  Outcome.okOr .cryptoFailure (crate.aeadCtxNew key.val aeadTagLength)

/-- `AeadKey::seal`: the tag is written to its buffer, whose written part comes
back. -/
def sealInPlace (self : crate.AeadCtx) (nonce : Octets aeadIvLength)
    (aad inOut : Bytes) (tag : Octets aeadTagLength) :
    Result Unit × Bytes × Octets aeadTagLength :=
  let (written, inOut, left) :=
    crate.sealInPlace self nonce.val inOut tag.val aad
  let tag : Octets aeadTagLength := ⟨left.val, left.property.trans tag.property⟩
  match written with
  | none => (.error (.err .cryptoFailure), inOut.val, tag)
  | some written =>
      if written.length ≠ aeadTagLength then
        (.error (.err .cryptoFailure), inOut.val, tag)
      else
        (.ok (), inOut.val, tag)

/-- `AeadKey::seal_into`: all of the plaintext is extra input. -/
def sealInto (self : crate.AeadCtx) (nonce : Octets aeadIvLength)
    (aad plaintext output : Bytes) : Result Unit × Bytes :=
  let (written, _, output) :=
    crate.sealScatter self nonce.val [] output (some plaintext) aad
  match written with
  | none => (.error (.err .cryptoFailure), output.val)
  | some written =>
      if written.length ≠ plaintext.length + aeadTagLength then
        (.error (.err .cryptoFailure), output.val)
      else
        (.ok (), output.val)

/-- `AeadKey::open_in_place`. -/
def openInPlace (self : crate.AeadCtx) (nonce : Octets aeadIvLength)
    (aad : Bytes) (tag : Octets aeadTagLength) (inOut : Bytes) :
    Result Unit × Bytes :=
  let (succeeds, inOut) := crate.openInPlace self nonce.val inOut tag.val aad
  (failUnless .authenticationFailed succeeds, inOut.val)

/-- `AeadKey::open`: copies the ciphertext and opens in place. -/
def openInto (self : crate.AeadCtx) (nonce : Octets aeadIvLength)
    (aad ciphertext : Bytes) (tag : Octets aeadTagLength) (output : Bytes) :
    Result Unit × Bytes :=
  match (copyRange output 0 output.length ciphertext : Result Bytes) with
  | .error stop => (.error stop, output)
  | .ok output =>
      let (succeeds, output) :=
        crate.openInPlace self nonce.val output tag.val aad
      (failUnless .authenticationFailed succeeds, output.val)

/-- `kdf_expand`: the first block of HKDF-Expand, written out with an HMAC that
may fail. -/
def kdfExpand (length : Nat) (key : Bytes) (info : List Bytes) :
    Result (Octets length) := do
  validateKdfOutputLength length
  let hmac ← Outcome.okOr .cryptoFailure (crate.hmacInit key)
  let hmac ← Outcome.okOr .cryptoFailure (info.foldlM crate.hmacUpdate hmac)
  let hmac ← Outcome.okOr .cryptoFailure (crate.hmacUpdate hmac [1])
  let block ← Outcome.okOr .cryptoFailure (crate.hmacFinalize hmac)
  if block.length ≠ 48 then
    .error (.err .cryptoFailure)
  else
    copyLead length block

end AeadBoring

/-! ## ring -/

namespace AeadRing

variable (crate : RingCrate)

/-- `AeadKey::new`. -/
def new (key : Octets 32) : Result crate.LessSafeKey := do
  let unbound ← Outcome.okOr .cryptoFailure (crate.unboundKeyNew key.val)
  .ok (crate.lessSafeKeyNew unbound)

/-- `AeadKey::seal`. -/
def sealInPlace (self : crate.LessSafeKey) (nonce : Octets aeadIvLength)
    (aad inOut : Bytes) (tag : Octets aeadTagLength) :
    Result Unit × Bytes × Octets aeadTagLength :=
  let (generatedTag, inOut) := crate.sealInPlaceSeparateTag self nonce aad inOut
  storeTag generatedTag inOut.val tag

/-- `AeadKey::seal_into`: copies the plaintext and seals in place. -/
def sealInto (self : crate.LessSafeKey) (nonce : Octets aeadIvLength)
    (aad plaintext output : Bytes) : Result Unit × Bytes :=
  match (splitAt output plaintext.length : Result (Bytes × Bytes)) with
  | .error stop => (.error stop, output)
  | .ok (ciphertext, tagOut) =>
      match (copyRange ciphertext 0 ciphertext.length plaintext :
          Result Bytes) with
      | .error stop => (.error stop, output)
      | .ok ciphertext =>
          let (generatedTag, ciphertext) :=
            crate.sealInPlaceSeparateTag self nonce aad ciphertext
          appendTag generatedTag ciphertext.val tagOut

/-- `AeadKey::open_in_place`. -/
def openInPlace (self : crate.LessSafeKey) (nonce : Octets aeadIvLength)
    (aad : Bytes) (tag : Octets aeadTagLength) (inOut : Bytes) :
    Result Unit × Bytes :=
  let (plaintext, inOut) :=
    crate.openInPlaceSeparateTag self nonce aad tag inOut 0
  (failUnless .authenticationFailed plaintext.isSome, inOut.val)

/-- `AeadKey::open`: copies the ciphertext and opens in place. -/
def openInto (self : crate.LessSafeKey) (nonce : Octets aeadIvLength)
    (aad ciphertext : Bytes) (tag : Octets aeadTagLength) (output : Bytes) :
    Result Unit × Bytes :=
  match (copyRange output 0 output.length ciphertext : Result Bytes) with
  | .error stop => (.error stop, output)
  | .ok output =>
      let (plaintext, output) :=
        crate.openInPlaceSeparateTag self nonce aad tag output 0
      (failUnless .authenticationFailed plaintext.isSome, output.val)

/-- `kdf_expand`. -/
def kdfExpand (length : Nat) (key : Bytes) (info : List Bytes) :
    Result (Octets length) :=
  crate.hkdf.kdfExpand length key info

end AeadRing

/-! ## Slices keep their lengths -/

@[simp] theorem contents_storeTag
    (generatedTag : Option Bytes)
    (inOut : Bytes)
    (tag : Octets aeadTagLength) :
    (storeTag generatedTag inOut tag).2.1 = inOut := by
  unfold storeTag
  split
  · rfl
  · split <;> rfl

theorem length_appendTag
    (generatedTag : Option Bytes)
    (ciphertext tagOut : Bytes) :
    (appendTag generatedTag ciphertext tagOut).2.length =
      ciphertext.length + tagOut.length := by
  unfold appendTag
  split
  · exact List.length_append
  · split
    · exact List.length_append
    next copied =>
      obtain ⟨_, _, whole, rfl⟩ := copyRange_eq_ok copied
      rw [List.length_append, length_writeBack (by omega)]

theorem InOutBuf.new_eq_some
    {input output : Bytes}
    {buffer : InOutBuf}
    (created : InOutBuf.new input output = some buffer) :
    buffer.input = input ∧ buffer.output = output := by
  unfold InOutBuf.new at created
  split at created
  · cases created
    exact ⟨rfl, rfl⟩
  · cases created

/-- The two parts of a split slice make up its length. -/
theorem length_splitAt
    {items left right : Bytes}
    {middle : Nat}
    (cut : (splitAt items middle : Result (Bytes × Bytes)) =
      .ok (left, right)) :
    left.length + right.length = items.length := by
  unfold splitAt at cut
  split at cut
  · cases cut
    rw [← List.length_append, List.take_append_drop]
  · cases cut

/-- The module `aead_rustcrypto`. -/
def aeadRustCrypto (crate : RustCryptoCrate) : ProviderModule where
  Key := crate.Aes256Gcm
  new := AeadRustCrypto.new crate
  sealInPlace := AeadRustCrypto.sealInPlace crate
  sealInto := AeadRustCrypto.sealInto crate
  openInto := AeadRustCrypto.openInto crate
  openInPlace := AeadRustCrypto.openInPlace crate
  kdfExpand := AeadRustCrypto.kdfExpand crate
  length_sealInPlace := by
    intro key nonce aad inOut tag
    simp only [AeadRustCrypto.sealInPlace, contents_storeTag]
    exact Octets.length_val _
  length_sealInto := by
    intro key nonce aad plaintext output
    unfold AeadRustCrypto.sealInto
    split
    · rfl
    next cut =>
      split
      · rfl
      next created =>
        rw [length_appendTag, Octets.length_val,
          (InOutBuf.new_eq_some created).2]
        exact length_splitAt cut
  length_openInto := by
    intro key nonce aad ciphertext tag output
    unfold AeadRustCrypto.openInto
    split
    · rfl
    next created =>
      rw [Octets.length_val, (InOutBuf.new_eq_some created).2]
  length_openInPlace := by
    intro key nonce aad tag inOut
    exact Octets.length_val _

/-- The module `aead_aws_lc_rs`. -/
def aeadAwsLcRs (crate : AwsLcRsCrate) : ProviderModule where
  Key := crate.LessSafeKey
  new := AeadAwsLcRs.new crate
  sealInPlace := AeadAwsLcRs.sealInPlace crate
  sealInto := AeadAwsLcRs.sealInto crate
  openInto := AeadAwsLcRs.openInto crate
  openInPlace := AeadAwsLcRs.openInPlace crate
  kdfExpand := AeadAwsLcRs.kdfExpand crate
  length_sealInPlace := by
    intro key nonce aad inOut tag
    simp only [AeadAwsLcRs.sealInPlace, contents_storeTag]
    exact Octets.length_val _
  length_sealInto := by
    intro key nonce aad plaintext output
    exact Octets.length_val _
  length_openInto := by
    intro key nonce aad ciphertext tag output
    exact Octets.length_val _
  length_openInPlace := by
    intro key nonce aad tag inOut
    exact Octets.length_val _

/-- The module `aead_boring`. -/
def aeadBoring (crate : BoringCrate) : ProviderModule where
  Key := crate.AeadCtx
  new := AeadBoring.new crate
  sealInPlace := AeadBoring.sealInPlace crate
  sealInto := AeadBoring.sealInto crate
  openInto := AeadBoring.openInto crate
  openInPlace := AeadBoring.openInPlace crate
  kdfExpand := AeadBoring.kdfExpand crate
  length_sealInPlace := by
    intro key nonce aad inOut tag
    unfold AeadBoring.sealInPlace
    dsimp only
    split
    · exact Octets.length_val _
    · split <;> exact Octets.length_val _
  length_sealInto := by
    intro key nonce aad plaintext output
    unfold AeadBoring.sealInto
    dsimp only
    split
    · exact Octets.length_val _
    · split <;> exact Octets.length_val _
  length_openInto := by
    intro key nonce aad ciphertext tag output
    unfold AeadBoring.openInto
    split
    · rfl
    next copied =>
      obtain ⟨_, _, whole, rfl⟩ := copyRange_eq_ok copied
      rw [Octets.length_val, length_writeBack (by omega)]
  length_openInPlace := by
    intro key nonce aad tag inOut
    exact Octets.length_val _

/-- The module `aead_ring`. -/
def aeadRing (crate : RingCrate) : ProviderModule where
  Key := crate.LessSafeKey
  new := AeadRing.new crate
  sealInPlace := AeadRing.sealInPlace crate
  sealInto := AeadRing.sealInto crate
  openInto := AeadRing.openInto crate
  openInPlace := AeadRing.openInPlace crate
  kdfExpand := AeadRing.kdfExpand crate
  length_sealInPlace := by
    intro key nonce aad inOut tag
    simp only [AeadRing.sealInPlace, contents_storeTag]
    exact Octets.length_val _
  length_sealInto := by
    intro key nonce aad plaintext output
    unfold AeadRing.sealInto
    split
    · rfl
    next cut =>
      split
      · rfl
      next copied =>
        obtain ⟨_, _, whole, rfl⟩ := copyRange_eq_ok copied
        rw [length_appendTag, Octets.length_val,
          length_writeBack (by omega)]
        exact length_splitAt cut
  length_openInto := by
    intro key nonce aad ciphertext tag output
    unfold AeadRing.openInto
    split
    · rfl
    next copied =>
      obtain ⟨_, _, whole, rfl⟩ := copyRange_eq_ok copied
      rw [Octets.length_val, length_writeBack (by omega)]
  length_openInPlace := by
    intro key nonce aad tag inOut
    exact Octets.length_val _

/-! ## What a module computes -/

/-- The call succeeds exactly where the function has a value, and leaves that
value.  Elsewhere it fails with this error. -/
structure Yields {β : Type} (call : Result Unit × β) (value : Option β)
    (error : Error) : Prop where
  succeeds : ∀ result, value = some result → call = (.ok (), result)
  fails : value = none → call.1 = .error (.err error)

theorem Yields.iff
    {β : Type}
    {call : Result Unit × β}
    {value : Option β}
    {error : Error}
    {result : β}
    (yields : Yields call value error) :
    call = (.ok (), result) ↔ value = some result := by
  cases found : value with
  | none =>
      have failed := yields.fails found
      simp only [reduceCtorEq, iff_false]
      intro succeeded
      rw [succeeded] at failed
      cases failed
  | some other =>
      rw [yields.succeeds other found]
      simp

/-- A call that yields a function fails in one way only. -/
theorem Yields.outcome
    {β : Type}
    {call : Result Unit × β}
    {value : Option β}
    {error : Error}
    (yields : Yields call value error) :
    call.1 = .ok () ∨ call.1 = .error (.err error) := by
  cases found : value with
  | none => exact .inr (yields.fails found)
  | some result => exact .inl (congrArg Prod.fst (yields.succeeds result found))

/-- Under this key the module computes AES-256-GCM with that key material. -/
structure ProviderModule.Keyed (adapter : ProviderModule) (gcm : Gcm)
    (material : Octets 32) (key : adapter.Key) : Prop where
  sealInPlace : ∀ nonce aad plaintext tag,
    Yields (adapter.sealInPlace key nonce aad plaintext tag)
      (gcm.encrypt material nonce aad plaintext) .cryptoFailure
  sealInto : ∀ nonce aad plaintext output,
    output.length = plaintext.length + aeadTagLength →
      Yields (adapter.sealInto key nonce aad plaintext output)
        ((gcm.encrypt material nonce aad plaintext).map joined)
        .cryptoFailure
  openInto : ∀ nonce aad ciphertext tag output,
    output.length = ciphertext.length →
      Yields (adapter.openInto key nonce aad ciphertext tag output)
        (gcm.decrypt material nonce aad ciphertext tag)
        .authenticationFailed
  openInPlace : ∀ nonce aad ciphertext tag,
    Yields (adapter.openInPlace key nonce aad tag ciphertext)
      (gcm.decrypt material nonce aad ciphertext tag) .authenticationFailed

/-- The module computes HKDF-Expand up to one block, however the info is split,
and refuses longer outputs. -/
structure ProviderModule.Expands (adapter : ProviderModule)
    (mac : Mac Bytes UInt8) : Prop where
  short : ∀ length key info,
    length ≤ 48 →
      adapter.kdfExpand length key info =
        .ok (hkdfExpand mac key info.flatten length)
  long : ∀ length key info,
    48 < length →
      adapter.kdfExpand length key info = .error (.err .cryptoFailure)

/-! ## Spec lemmas of the shared ends -/

/-- A copy onto a slice of the same length replaces it. -/
theorem copyRange_whole
    {items chunk : Bytes}
    (same : items.length = chunk.length) :
    (copyRange items 0 items.length chunk : Result Bytes) = .ok chunk := by
  rw [copyRange_eq (Nat.zero_le _) (Nat.le_refl _) (by omega),
    writeBack_zero, ← same, List.drop_length, List.append_nil]

theorem yields_failUnless
    {succeeds : Bool}
    {left : Bytes}
    {value : Option Bytes}
    {error : Error}
    (fills : Fills succeeds left value) :
    Yields (failUnless error succeeds, left) value error := by
  constructor
  · intro text found
    rw [fills.succeeds, fills.left text found, found]
    rfl
  · intro missing
    rw [fills.succeeds, missing]
    rfl

theorem yields_storeTag
    {generatedTag : Option Bytes}
    {left : Bytes}
    {value : Option (Bytes × Octets aeadTagLength)}
    (tag : Octets aeadTagLength)
    (leaves : Leaves generatedTag left (value.map detached)) :
    Yields (storeTag generatedTag left tag) value .cryptoFailure := by
  constructor
  · rintro ⟨text, result⟩ rfl
    rw [leaves.succeeded, leaves.left text result.val rfl]
    simp only [storeTag, detached, Option.map_some,
      Octets.ofSlice?_eq_some.mpr rfl]
  · rintro rfl
    rw [leaves.succeeded]
    rfl

theorem yields_appendTag
    {generatedTag : Option Bytes}
    {left tagOut : Bytes}
    {value : Option (Bytes × Octets aeadTagLength)}
    (room : tagOut.length = aeadTagLength)
    (leaves : Leaves generatedTag left (value.map detached)) :
    Yields (appendTag generatedTag left tagOut) (value.map joined)
      .cryptoFailure := by
  constructor
  · intro message found
    obtain ⟨⟨text, result⟩, rfl, rfl⟩ := Option.map_eq_some_iff.mp found
    have copied :
        (copyRange tagOut 0 tagOut.length result.val : Result Bytes) =
          .ok result.val :=
      copyRange_whole (room.trans result.length_val.symm)
    rw [leaves.succeeded, leaves.left text result.val rfl]
    simp only [appendTag, detached, Option.map_some, copied, joined]
  · intro missing
    rw [Option.map_eq_none_iff] at missing
    subst missing
    rw [leaves.succeeded]
    rfl

/-- The typed tags of RustCrypto as bytes. -/
theorem Leaves.detached
    {generatedTag : Option (Octets aeadTagLength)}
    {left : Bytes}
    {value : Option (Bytes × Octets aeadTagLength)}
    (leaves : Leaves generatedTag left value) :
    Leaves (generatedTag.map Subtype.val) left (value.map detached) := by
  constructor
  · rw [leaves.succeeded, Option.map_map, Option.map_map]
    rfl
  · intro text result found
    obtain ⟨⟨text, tag⟩, rfl, shape⟩ := Option.map_eq_some_iff.mp found
    cases shape
    exact leaves.left text tag rfl

theorem copyLead_eq
    {length : Nat}
    {block : Bytes}
    (enough : length ≤ block.length) :
    copyLead length block =
      .ok ⟨block.take length, by rw [List.length_take]; omega⟩ := by
  have exact : (block.take length).length = length := by
    rw [List.length_take]
    omega
  simp only [copyLead, slice_zero enough, Outcome.ok_bind,
    Octets.ofSlice?_of_length exact, Outcome.expect]

/-- The library's expansion is the module's, within one block. -/
theorem HkdfCrate.expands
    {crate : HkdfCrate}
    {mac : Mac Bytes UInt8}
    (documented : crate.Documented mac)
    (width : mac.width = 48)
    (length : Nat)
    (key : Bytes)
    (info : List Bytes) :
    crate.kdfExpand length key info =
      if length ≤ 48 then
        .ok (hkdfExpand mac key info.flatten length)
      else
        .error (.err .cryptoFailure) := by
  by_cases short : length ≤ 48
  · obtain ⟨okm, expanded, fills⟩ := documented key info length (by omega)
    simp only [kdfExpand, validateKdfOutputLength, kdfMaxOutputLength, short,
      ↓reduceIte, Outcome.ok_bind, expanded, Outcome.okOr, fills, failUnless]
  · simp only [kdfExpand, validateKdfOutputLength, kdfMaxOutputLength, short,
      ↓reduceIte, Outcome.error_bind]

/-- The beginning of an HMAC over the info and the octet `1` is HKDF-Expand
within one block. -/
theorem copyLead_tag
    {mac : Mac Bytes UInt8}
    {length : Nat}
    (width : mac.width = 48)
    (short : length ≤ 48)
    (key info : Bytes) :
    copyLead length (mac.tag key (info ++ [1])) =
      .ok (hkdfExpand mac key info length) := by
  have enough : length ≤ (mac.tag key (info ++ [1])).length := by
    rw [mac.length_tag, width]
    exact short
  rw [copyLead_eq enough]
  refine congrArg Except.ok (Subtype.ext ?_)
  exact (mac.expand_of_le_width counterOctet key info
    (by rw [width]; exact short)).symm

/-! ## The four modules -/

theorem RustCryptoCrate.Keyed.computes
    {crate : RustCryptoCrate}
    {gcm : Gcm}
    {material : Octets 32}
    {cipher : crate.Aes256Gcm}
    (keyed : crate.Keyed gcm material cipher) :
    (aeadRustCrypto crate).Keyed gcm material cipher := by
  constructor
  · intro nonce aad plaintext tag
    exact yields_storeTag tag
      (keyed.encrypts nonce aad (.ofSlice plaintext)).detached
  · intro nonce aad plaintext output exact
    have inside : plaintext.length ≤ output.length := by omega
    have same :
        plaintext.length = (output.take plaintext.length).length := by
      rw [List.length_take]
      omega
    have room : (output.drop plaintext.length).length = aeadTagLength := by
      rw [List.length_drop]
      omega
    have call :
        (aeadRustCrypto crate).sealInto cipher nonce aad plaintext output =
          appendTag
            ((crate.encryptInOutDetached cipher nonce aad
              ⟨plaintext, _, same⟩).1.map Subtype.val)
            (crate.encryptInOutDetached cipher nonce aad
              ⟨plaintext, _, same⟩).2.val
            (output.drop plaintext.length) := by
      simp only [aeadRustCrypto, AeadRustCrypto.sealInto, splitAt_eq inside,
        InOutBuf.new, dif_pos same]
    rw [call]
    exact yields_appendTag room (keyed.encrypts nonce aad _).detached
  · intro nonce aad ciphertext tag output exact
    have call :
        (aeadRustCrypto crate).openInto cipher nonce aad ciphertext tag
            output =
          (failUnless .authenticationFailed
              (crate.decryptInOutDetached cipher nonce aad
                ⟨ciphertext, output, exact.symm⟩ tag).1,
            (crate.decryptInOutDetached cipher nonce aad
              ⟨ciphertext, output, exact.symm⟩ tag).2.val) := by
      simp only [aeadRustCrypto, AeadRustCrypto.openInto, InOutBuf.new,
        dif_pos exact.symm]
    rw [call]
    exact yields_failUnless (keyed.decrypts nonce aad _ tag)
  · intro nonce aad ciphertext tag
    exact yields_failUnless (keyed.decrypts nonce aad (.ofSlice ciphertext) tag)

theorem RustCryptoCrate.Documented.expands
    {crate : RustCryptoCrate}
    {gcm : Gcm}
    {mac : Mac Bytes UInt8}
    (documented : crate.Documented gcm mac)
    (width : mac.width = 48) :
    (aeadRustCrypto crate).Expands mac := by
  constructor
  · intro length key info short
    obtain ⟨hmac, created⟩ := documented.hmac.starts key
    obtain ⟨fedAll, looped, fed⟩ :=
      documented.hmac.feedAll (.started created) info
    have folded : info.foldl crate.hmacUpdate hmac = fedAll := by
      have pure := @List.foldlM_pure Option _ _ _ _ crate.hmacUpdate hmac info
      exact Option.some.inj (pure.symm.trans looped)
    have counted :
        Fed crate.hmacNew (fun hmac part => some (crate.hmacUpdate hmac part))
          (crate.hmacUpdate fedAll [1]) key ([] ++ info.flatten ++ [1]) :=
      fed.part rfl
    have finished := documented.hmac.finishes _ _ _ counted
    simp only [aeadRustCrypto, AeadRustCrypto.kdfExpand,
      validateKdfOutputLength, kdfMaxOutputLength, short, ↓reduceIte,
      Outcome.ok_bind, created, Outcome.okOr, folded]
    rw [Option.some.inj finished, List.nil_append]
    exact copyLead_tag width short key info.flatten
  · intro length key info long
    have refused : ¬ length ≤ 48 := by omega
    simp only [aeadRustCrypto, AeadRustCrypto.kdfExpand,
      validateKdfOutputLength, kdfMaxOutputLength, refused, ↓reduceIte,
      Outcome.error_bind]

theorem AwsLcRsCrate.Keyed.computes
    {crate : AwsLcRsCrate}
    {gcm : Gcm}
    {material : Octets 32}
    {key : crate.LessSafeKey}
    (keyed : crate.Keyed gcm material key) :
    (aeadAwsLcRs crate).Keyed gcm material key := by
  constructor
  · intro nonce aad plaintext tag
    exact yields_storeTag tag (keyed.seals nonce aad plaintext)
  · intro nonce aad plaintext output exact
    have fills := keyed.scatters nonce aad [] plaintext output exact
    have nothing :
        (crate.sealInPlaceScatter key nonce aad [] plaintext
          output).2.1.val = [] :=
      List.eq_nil_of_length_eq_zero (Octets.length_val _)
    simp only [nothing, List.nil_append] at fills
    exact yields_failUnless fills
  · intro nonce aad ciphertext tag output exact
    exact yields_failUnless
      (keyed.gathers nonce aad ciphertext tag output exact)
  · intro nonce aad ciphertext tag
    exact yields_failUnless (keyed.opens nonce aad tag ciphertext)

theorem BoringCrate.Keyed.computes
    {crate : BoringCrate}
    {gcm : Gcm}
    {material : Octets 32}
    {context : crate.AeadCtx}
    (keyed : crate.Keyed gcm material context) :
    (aeadBoring crate).Keyed gcm material context := by
  constructor
  · intro nonce aad plaintext tag
    obtain ⟨leaves, whole⟩ := keyed.seals nonce aad plaintext tag
    constructor
    · rintro ⟨ciphertext, result⟩ found
      have succeeded := leaves.succeeded
      have left := leaves.left ciphertext result.val (by rw [found]; rfl)
      rw [found] at succeeded
      have written := whole result.val succeeded
      simp only [aeadBoring, AeadBoring.sealInPlace, succeeded, detached,
        Option.map_some, Octets.length_val, ne_eq, not_true_eq_false,
        ↓reduceIte, left]
      refine Prod.ext rfl (Prod.ext rfl (Subtype.ext ?_))
      exact written
    · intro missing
      have failed := leaves.succeeded
      rw [missing] at failed
      simp only [aeadBoring, AeadBoring.sealInPlace, failed, Option.map_none]
  · intro nonce aad plaintext output exact
    obtain ⟨fills, whole⟩ :=
      keyed.scatters nonce aad [] plaintext output exact
    have nothing :
        (crate.sealScatter context nonce.val [] output (some plaintext)
          aad).2.1.val = [] :=
      List.eq_nil_of_length_eq_zero (Octets.length_val _)
    simp only [nothing, List.nil_append] at fills
    have length :=
      Octets.length_val (crate.sealScatter context nonce.val [] output
        (some plaintext) aad).2.2
    constructor
    · intro message found
      have succeeded := fills.succeeds
      have left := fills.left message found
      rw [found, Option.isSome_some] at succeeded
      obtain ⟨written, returned⟩ := Option.isSome_iff_exists.mp succeeded
      have all := whole written returned
      have count : written.length = plaintext.length + aeadTagLength := by
        rw [← all, length, exact]
      simp only [aeadBoring, AeadBoring.sealInto, returned, count, ne_eq,
        not_true_eq_false, ↓reduceIte, left]
    · intro missing
      have failed := fills.succeeds
      rw [missing, Option.isSome_none] at failed
      have nothingReturned := Option.not_isSome_iff_eq_none.mp
        (Bool.eq_false_iff.mp failed)
      simp only [aeadBoring, AeadBoring.sealInto, nothingReturned]
  · intro nonce aad ciphertext tag output exact
    have call :
        (aeadBoring crate).openInto context nonce aad ciphertext tag output =
          (aeadBoring crate).openInPlace context nonce aad tag
            ciphertext := by
      simp only [aeadBoring, AeadBoring.openInto, copyRange_whole exact,
        AeadBoring.openInPlace]
    rw [call]
    exact yields_failUnless (keyed.opens nonce aad ciphertext tag)
  · intro nonce aad ciphertext tag
    exact yields_failUnless (keyed.opens nonce aad ciphertext tag)

theorem BoringCrate.Documented.expands
    {crate : BoringCrate}
    {gcm : Gcm}
    {mac : Mac Bytes UInt8}
    (documented : crate.Documented gcm mac)
    (width : mac.width = 48) :
    (aeadBoring crate).Expands mac := by
  constructor
  · intro length key info short
    obtain ⟨hmac, created⟩ := documented.hmac.starts key
    obtain ⟨fedAll, looped, fed⟩ :=
      documented.hmac.feedAll (.started created) info
    obtain ⟨last, counted⟩ := documented.hmac.feeds _ _ _ [1] fed
    have finished := documented.hmac.finishes _ _ _ (fed.part counted)
    rw [List.nil_append] at finished
    have full :
        (mac.tag key (info.flatten ++ [1])).length = 48 := by
      rw [mac.length_tag, width]
    simp only [aeadBoring, AeadBoring.kdfExpand, validateKdfOutputLength,
      kdfMaxOutputLength, short, ↓reduceIte, Outcome.ok_bind, created,
      Outcome.okOr, looped, counted, finished, full, ne_eq,
      not_true_eq_false]
    exact copyLead_tag width short key info.flatten
  · intro length key info long
    have refused : ¬ length ≤ 48 := by omega
    simp only [aeadBoring, AeadBoring.kdfExpand, validateKdfOutputLength,
      kdfMaxOutputLength, refused, ↓reduceIte, Outcome.error_bind]

theorem RingCrate.Keyed.computes
    {crate : RingCrate}
    {gcm : Gcm}
    {material : Octets 32}
    {key : crate.LessSafeKey}
    (keyed : crate.Keyed gcm material key) :
    (aeadRing crate).Keyed gcm material key := by
  constructor
  · intro nonce aad plaintext tag
    exact yields_storeTag tag (keyed.seals nonce aad plaintext)
  · intro nonce aad plaintext output exact
    have inside : plaintext.length ≤ output.length := by omega
    have same :
        (output.take plaintext.length).length = plaintext.length := by
      rw [List.length_take]
      omega
    have room : (output.drop plaintext.length).length = aeadTagLength := by
      rw [List.length_drop]
      omega
    have call :
        (aeadRing crate).sealInto key nonce aad plaintext output =
          appendTag (crate.sealInPlaceSeparateTag key nonce aad plaintext).1
            (crate.sealInPlaceSeparateTag key nonce aad plaintext).2.val
            (output.drop plaintext.length) := by
      simp only [aeadRing, AeadRing.sealInto, splitAt_eq inside,
        copyRange_whole same]
    rw [call]
    exact yields_appendTag room (keyed.seals nonce aad plaintext)
  · intro nonce aad ciphertext tag output exact
    have call :
        (aeadRing crate).openInto key nonce aad ciphertext tag output =
          (aeadRing crate).openInPlace key nonce aad tag ciphertext := by
      simp only [aeadRing, AeadRing.openInto, copyRange_whole exact,
        AeadRing.openInPlace]
    rw [call]
    exact yields_failUnless (keyed.opens nonce aad tag ciphertext)
  · intro nonce aad ciphertext tag
    exact yields_failUnless (keyed.opens nonce aad tag ciphertext)

end FastFloe
