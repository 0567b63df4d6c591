import FastFloe.FilePrograms
import FastFloe.HeaderPaths
import FastFloe.SegmentStream

namespace FastFloe

open Rust

/-!
# What the file programs leave

A program that fails leaves what it has written.  An encryption leaves the
beginning of a message whose segments open in turn to a beginning of the input,
a decryption the beginning of what the segments of its input open to.
-/

/-- What an encryption under this header has written. -/
structure LeavesSealed (platform : Platform) (context : MessageContext)
    (header : Header) (plaintext : Bytes) (result : AnyResult Unit)
    (contents : Bytes) : Prop where
  returns : result.Returns
  beginning :
    ∃ body payloads ended,
      (segmentStream platform context).Passed 0 body payloads ended [] ∧
        payloads.flatten <+: plaintext ∧
        (ended = true → payloads.flatten = plaintext) ∧
        contents <+: header.val ++ body ∧
        (result = .ok () → contents = header.val ++ body ∧ ended = true)

/-- What a decryption of this ciphertext has written. -/
structure LeavesOpened (platform : Platform) (key : Key)
    (parameters : Parameters) (ciphertext : Bytes) (result : AnyResult Unit)
    (contents : Bytes) : Prop where
  returns : result.Returns
  accepted :
    result = .ok () →
      decryptWithParameters platform key fileAad parameters ciphertext =
        .ok contents
  beginning :
    contents = [] ∨
      ∃ header context body payloads ended rest,
        ciphertext = header.val ++ body ∧
          HeaderAuthenticates platform key fileAad header context ∧
          (segmentStream platform context).Passed 0 body payloads ended
            rest ∧
          contents <+: payloads.flatten

/-- What an encrypting program does to the disk: it fails without an effect, or
it creates its output and puts there what it has written. -/
def EncryptsFile (platform : Platform) (key : Key) (parameters : Parameters)
    (disk : Disk) (inputPath outputPath : Path)
    (outcome : AnyResult Unit × Disk) : Prop :=
  (outcome.1.Returns ∧ outcome.1 ≠ .ok () ∧ outcome.2 = disk) ∨
    ∃ plaintext header context contents,
      disk.file inputPath = some plaintext ∧
        disk.file outputPath = none ∧
        outcome.2 = disk.put outputPath contents ∧
        HeaderAuthenticates platform key fileAad header context ∧
        context.parameters = parameters ∧
        LeavesSealed platform context header plaintext outcome.1 contents

/-- What a decrypting program does to the disk. -/
def DecryptsFile (platform : Platform) (key : Key) (parameters : Parameters)
    (disk : Disk) (inputPath outputPath : Path)
    (outcome : AnyResult Unit × Disk) : Prop :=
  (outcome.1.Returns ∧ outcome.1 ≠ .ok () ∧ outcome.2 = disk) ∨
    ∃ ciphertext contents,
      disk.file inputPath = some ciphertext ∧
        disk.file outputPath = none ∧
        outcome.2 = disk.put outputPath contents ∧
        LeavesOpened platform key parameters ciphertext outcome.1 contents

/-- What a program with a known answer does to the disk: it fails without an
effect, or it creates its output with a beginning of the answer, all of it when
it succeeds. -/
def AnswersFile (disk : Disk) (outputPath : Path) (answer : Bytes)
    (outcome : AnyResult Unit × Disk) : Prop :=
  (outcome.1 ≠ .ok () ∧ outcome.2 = disk) ∨
    ∃ contents,
      outcome.2 = disk.put outputPath contents ∧ contents <+: answer ∧
        (outcome.1 = .ok () → contents = answer)

/-- A message begins with the parameters of its context. -/
theorem HeaderAuthenticates.declares
    {platform : Platform}
    {key : Key}
    {aad : Bytes}
    {header : Header}
    {context : MessageContext}
    (authentic : HeaderAuthenticates platform key aad header context)
    (body : Bytes) :
    (header.val ++ body).take encodedParametersLength =
      context.parameters.encode.val := by
  rw [List.take_append_of_le_length (by
    rw [header.length_val]
    decide)]
  exact congrArg Subtype.val authentic.parameters

section Encryption

variable {platform : Platform} {key : Key} {context : MessageContext}
  {header : Header} {plaintext contents : Bytes} {result : AnyResult Unit}

/-- Nothing but the input ever decrypts from what an encryption has written,
also when that encryption failed. -/
theorem LeavesSealed.decrypt_eq
    {other : Bytes}
    (leaves :
      LeavesSealed platform context header plaintext result contents)
    (authentic : HeaderAuthenticates platform key fileAad header context)
    (decrypts : decrypt platform key fileAad contents = .ok other) :
    other = plaintext := by
  obtain ⟨body, payloads, ended, passed, _, settled, ⟨unwritten, shape⟩, _⟩ :=
    leaves.beginning
  obtain ⟨declared, content, found, all, rfl, declares, message, rfl⟩ :=
    ((decrypt_spec platform key fileAad contents).2 other).mp decrypts
  rw [List.append_assoc] at shape
  obtain ⟨sameHeader, sameBody⟩ :=
    List.append_inj shape (declared.length_val.trans header.length_val.symm)
  have same : declared = header := Subtype.ext sameHeader
  subst same
  cases declares.unique authentic
  rw [← sameBody] at passed
  obtain ⟨rfl, complete, _⟩ := passed.exhausts message
  exact settled complete

/-- An encryption that succeeds has written a message that decrypts to the
input. -/
theorem LeavesSealed.decrypts
    (leaves :
      LeavesSealed platform context header plaintext (.ok ()) contents)
    (authentic : HeaderAuthenticates platform key fileAad header context) :
    decryptWithParameters platform key fileAad context.parameters contents =
      .ok plaintext := by
  obtain ⟨body, payloads, ended, passed, _, settled, _, ends⟩ :=
    leaves.beginning
  obtain ⟨written, complete⟩ := ends rfl
  apply decryptWithParameters_eq_ok_iff.mpr
  constructor
  · apply (decrypt_iff_message authentic written).mpr
    refine ⟨payloads, ?_, (settled complete).symm⟩
    rw [complete] at passed
    exact passed.message
  · rw [written]
    exact authentic.declares body

end Encryption

section Decryption

variable {platform : Platform} {key : Key} {parameters : Parameters}
  {ciphertext contents plaintext : Bytes} {result : AnyResult Unit}

/-- A decryption that failed early has written nothing. -/
theorem LeavesOpened.nothing
    (returns : result.Returns)
    (failed : result ≠ .ok ()) :
    LeavesOpened platform key parameters ciphertext result [] :=
  ⟨returns, fun ok => (failed ok).elim, .inl rfl⟩

/-- What a decryption of a message has written is a beginning of the message's
plaintext, and all of it when the decryption succeeded. -/
theorem LeavesOpened.isPrefix
    (leaves :
      LeavesOpened platform key parameters ciphertext result contents)
    (decrypts : decrypt platform key fileAad ciphertext = .ok plaintext) :
    contents <+: plaintext ∧ (result = .ok () → contents = plaintext) := by
  constructor
  · rcases leaves.beginning with
      rfl | ⟨header, context, body, payloads, ended, rest, whole, authentic,
        passed, isPrefix⟩
    · exact List.nil_prefix
    · obtain ⟨all, message, rfl⟩ :=
        (decrypt_iff_message authentic whole).mp decrypts
      have same : body ++ [] = body := List.append_nil body
      rw [← same] at passed
      obtain ⟨⟨later, split⟩, _⟩ := passed.of_message message
      rw [← split, List.flatten_append]
      exact isPrefix.trans (List.prefix_append _ _)
  · intro ok
    have accepted :=
      (decryptWithParameters_eq_ok_iff.mp (leaves.accepted ok)).1
    rw [decrypts] at accepted
    exact (Except.ok.inj accepted).symm

end Decryption

/-! ## Starting -/

section Start

variable {platform : Platform} {key : Key} {aad ciphertext body : Bytes}
  {parameters : Parameters} {header : Header}

/-- A started decryption belongs to the context of its header. -/
theorem startDecryption_authenticates
    {state : DecryptionState}
    (started :
      startDecryption platform key aad parameters header = .ok state) :
    HeaderAuthenticates platform key aad header state.context ∧
      state.context.parameters = parameters := by
  obtain ⟨inferred, own⟩ := startDecryption_eq_ok_iff.mp started
  exact ⟨.of_started inferred, own⟩

/-- Behind a header under which a decryption starts, `decrypt_with_parameters`
accepts the messages of the header's segment stream. -/
theorem decryptWithParameters_iff_message
    {state : DecryptionState}
    (started :
      startDecryption platform key aad parameters header = .ok state)
    (whole : ciphertext = header.val ++ body)
    (plaintext : Bytes) :
    decryptWithParameters platform key aad parameters ciphertext =
        .ok plaintext ↔
      ∃ payloads,
        (segmentStream platform state.context).Message 0 body payloads ∧
          plaintext = payloads.flatten := by
  obtain ⟨authentic, own⟩ := startDecryption_authenticates started
  have declared :
      ciphertext.take encodedParametersLength = parameters.encode.val := by
    rw [whole, authentic.declares body, own]
  rw [decryptWithParameters_eq_ok_iff, decrypt_iff_message authentic whole]
  exact and_iff_left declared

/-- `decrypt_with_parameters` starts a decryption under the header of what it
accepts. -/
theorem startDecryption_of_accepted
    {plaintext : Bytes}
    (accepted :
      decryptWithParameters platform key aad parameters ciphertext =
        .ok plaintext) :
    ∃ header body state,
      ciphertext = header.val ++ body ∧
        startDecryption platform key aad parameters header = .ok state := by
  rcases splitHeader_spec ciphertext with
    ⟨header, body, whole, cut⟩ | ⟨_, error, failed⟩
  · simp only [decryptWithParameters, cut, Outcome.ok_bind] at accepted
    obtain ⟨decryptor, created, _⟩ := Outcome.bind_eq_ok.mp accepted
    obtain ⟨state, started, _⟩ := Outcome.bind_eq_ok.mp created
    exact ⟨header, body, state, whole, started⟩
  · simp only [decryptWithParameters, failed, Outcome.error_bind] at accepted
    cases accepted

/-- What `encrypt` accepts has a length that a `u64` holds. -/
theorem encrypt_addressable
    {plaintext : Bytes}
    {rng : ProviderRng}
    (encrypted :
      encrypt platform key aad parameters rng plaintext = .ok ciphertext) :
    plaintext.length ≤ u64Max := by
  obtain ⟨encryptor, created, body⟩ := Outcome.bind_eq_ok.mp encrypted
  obtain ⟨layout, calculated, _⟩ := Outcome.bind_eq_ok.mp body
  obtain ⟨valid, _, length, _⟩ := Parameters.plaintextLayout_eq_ok calculated
  have representable := valid.representable
  have total := valid.ciphertext_eq
  omega

end Start

/-- What `fill` leaves in its buffer has the buffer's length. -/
theorem ProviderRng.length_fill (rng : ProviderRng) (length : Nat) :
    (rng.fill length).2.1.length = length := by
  simp only [ProviderRng.fill]
  split <;> simp

/-- `start_encryption` comes back. -/
theorem startEncryption_returns
    (platform : Platform)
    (key : Key)
    (aad : Bytes)
    (parameters : Parameters)
    (rng : ProviderRng) :
    (startEncryption platform key aad parameters rng).Returns := by
  have drawn : (rng.fill floeIvLength).1.Returns := by
    simp only [ProviderRng.fill]
    split
    · exact Outcome.returns_ok _
    · exact Outcome.returns_err _
  unfold startEncryption
  apply (resolveProvider_returns platform key).bind
  intro provider _
  apply drawn.bind
  intro _ _
  simp only [Octets.ofSlice?_of_length (rng.length_fill floeIvLength),
    Outcome.expect, Outcome.ok_bind]
  apply (returns_liftBackend _).bind
  intro tag _
  apply (returns_liftBackend _).bind
  intro messageKey _
  rcases KeyCache.new_spec platform
      ⟨provider, parameters, messageKey,
        ⟨(rng.fill floeIvLength).2.1, rng.length_fill floeIvLength⟩, aad⟩ with
    ⟨keys, created, _⟩ | ⟨⟨error, failed⟩, _⟩
  · rw [created]
    exact Outcome.returns_ok _
  · rw [failed]
    exact Outcome.returns_err _

end FastFloe
