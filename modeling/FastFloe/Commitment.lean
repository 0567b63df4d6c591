import FastFloe.ReaderIntegrity
import FastFloe.StreamIntegrity

namespace FastFloe

open Rust

/-!
# Messages are committed to their key and AAD

The header tag is derived from the key and the AAD and checked by every way
into a message.  Opening one header under two keys, or under two AADs, takes
two inputs of the key derivation with one output: whoever does it has found a
collision.
-/

/-- The parts of the info string that a header's tag is derived from under an
AAD. -/
def headerTagInfo (header : Header) (aad : Bytes) : List Bytes :=
  [header.encodedParameters.val, header.floeIv.val, headerTagPurpose, aad]

/-- The tag of a header is what the key derivation gives under a key and an
AAD. -/
def HeaderTagDerives (platform : Platform) (header : Header) (key : Key)
    (aad : Bytes) : Prop :=
  ∃ provider,
    key.resolveProvider platform = .ok provider ∧
      platform.kdfExpand provider headerTagLength key.bytes.val
        (headerTagInfo header aad) = .ok header.tag

/-- The tag of this header derives under both keys and AADs, from different key
bytes or a different info string. -/
structure HeaderTagCollision (platform : Platform) (header : Header)
    (first : Key) (aad : Bytes) (second : Key) (aad' : Bytes) : Prop where
  differ :
    (first.bytes, (headerTagInfo header aad).flatten) ≠
      (second.bytes, (headerTagInfo header aad').flatten)
  first : HeaderTagDerives platform header first aad
  second : HeaderTagDerives platform header second aad'

/-! ## Ways into a message -/

/-- Some way of the crate into the message that these bytes start with
succeeded under a key and an AAD. -/
inductive OpenedUnder (platform : Platform) (key : Key) (aad : Bytes) :
    Bytes → Prop where
  | decrypt
      {ciphertext plaintext : Bytes}
      (accepted : decrypt platform key aad ciphertext = .ok plaintext) :
      OpenedUnder platform key aad ciphertext
  | decryptWithParameters
      {parameters : Parameters}
      {ciphertext plaintext : Bytes}
      (accepted :
        decryptWithParameters platform key aad parameters ciphertext =
          .ok plaintext) :
      OpenedUnder platform key aad ciphertext
  | startDecryption
      {parameters : Parameters}
      {header : Header}
      {body : Bytes}
      {state : DecryptionState}
      (started :
        startDecryption platform key aad parameters header = .ok state) :
      OpenedUnder platform key aad (header.val ++ body)
  | startDecryptionInferred
      {header : Header}
      {body : Bytes}
      {state : DecryptionState}
      (started :
        startDecryptionInferred platform key aad header = .ok state) :
      OpenedUnder platform key aad (header.val ++ body)
  | decryptor
      {header : Header}
      {body : Bytes}
      {decryptor : Decryptor}
      (created : Decryptor.new platform key aad header = .ok decryptor) :
      OpenedUnder platform key aad (header.val ++ body)
  | decryptorWithParameters
      {parameters : Parameters}
      {header : Header}
      {body : Bytes}
      {decryptor : Decryptor}
      (created :
        Decryptor.newWithParameters platform key aad parameters header =
          .ok decryptor) :
      OpenedUnder platform key aad (header.val ++ body)
  | decryptReader
      {source : Source IoPayload}
      {reader : DecryptReader}
      (opened : DecryptReader.OpenedOn platform source key aad reader) :
      OpenedUnder platform key aad source.remaining
  | reader
      {inner : Source IoPayload}
      {reader : Reader}
      {messageLength : Nat}
      (opened :
        Reader.OpenedOn platform inner key aad reader messageLength) :
      OpenedUnder platform key aad inner.remaining

section Openings

variable {platform : Platform} {key : Key} {aad bytes : Bytes}

/-- The bytes start with a header that authenticates. -/
def StartsAuthentic (platform : Platform) (key : Key) (aad bytes : Bytes) :
    Prop :=
  ∃ header context,
    header.val = bytes.take headerLength ∧
      HeaderAuthenticates platform key aad header context

theorem startsAuthentic_of_started
    {header : Header}
    {state : DecryptionState}
    (lead : header.val = bytes.take headerLength)
    (started :
      startDecryptionInferred platform key aad header = .ok state) :
    StartsAuthentic platform key aad bytes :=
  ⟨header, state.context, lead, .of_started started⟩

theorem startsAuthentic_of_decrypt
    {plaintext : Bytes}
    (accepted : decrypt platform key aad bytes = .ok plaintext) :
    StartsAuthentic platform key aad bytes := by
  obtain ⟨header, body, context, _, rfl, authentic, _⟩ :=
    ((decrypt_spec platform key aad bytes).2 plaintext).mp accepted
  exact ⟨header, context, (List.take_left' header.length_val).symm, authentic⟩

/-- A decrypting reader was opened with the header at its source. -/
theorem DecryptReader.OpenedOn.startsAuthentic
    {source : Source IoPayload}
    {reader : DecryptReader}
    (opened : OpenedOn platform source key aad reader) :
    StartsAuthentic platform key aad source.remaining := by
  obtain ⟨result, after, fetched, _, _, content, _⟩ :=
    readHeader_spec source
  cases result with
  | error stop =>
      cases opened with
      | new created =>
          simp only [DecryptReader.new, fetched] at created
          cases created
      | newWithParameters created =>
          simp only [DecryptReader.newWithParameters, fetched] at created
          cases created
  | ok header =>
      cases opened with
      | new created =>
          simp only [DecryptReader.new, fetched] at created
          obtain ⟨decryptor, begun, _⟩ := Outcome.bind_eq_ok.mp created
          obtain ⟨state, started, _⟩ :=
            Outcome.bind_eq_ok.mp (Outcome.mapErr_eq_ok.mp begun)
          exact startsAuthentic_of_started (content header rfl) started
      | newWithParameters created =>
          simp only [DecryptReader.newWithParameters, fetched] at created
          obtain ⟨decryptor, begun, _⟩ := Outcome.bind_eq_ok.mp created
          obtain ⟨state, started, _⟩ :=
            Outcome.bind_eq_ok.mp (Outcome.mapErr_eq_ok.mp begun)
          exact startsAuthentic_of_started (content header rfl)
            (startDecryption_eq_ok_iff.mp started).1

/-- The header that the constructors of a `Reader` have started a state
with. -/
theorem Reader.openHeader_started
    {start : Header → Result DecryptionState}
    {inner after : Source IoPayload}
    {messageStart : Nat}
    {header : Header}
    {state : DecryptionState}
    (returns : ∀ header, (start header).Returns)
    (opened :
      Reader.openHeader start inner =
        .ok (messageStart, header, state, after)) :
    header.val = inner.remaining.take headerLength ∧
      start header = .ok state := by
  rcases Reader.openHeader_spec returns inner with
    ⟨header', state', after', same, content, started, _⟩ |
      ⟨⟨error, failed⟩, _⟩
  · rw [opened] at same
    cases same
    exact ⟨content, started⟩
  · rw [opened] at failed
    cases failed

/-- A random-access reader was opened with the header at its source. -/
theorem Reader.OpenedOn.startsAuthentic
    {inner : Source IoPayload}
    {reader : Reader}
    {messageLength : Nat}
    (opened : OpenedOn platform inner key aad reader messageLength) :
    StartsAuthentic platform key aad inner.remaining := by
  have inferred := startDecryptionInferred_returns platform key aad
  have toEnd {start : Header → Result DecryptionState}
      (opened : Reader.openToEnd platform start inner = .ok reader) :
      ∃ opened, Reader.openHeader start inner = .ok opened := by
    obtain ⟨parts, begun, _⟩ := Outcome.bind_eq_ok.mp opened
    exact ⟨parts, begun⟩
  have withLength {start : Header → Result DecryptionState} {length : Nat}
      (opened :
        Reader.openWithLength platform start inner length = .ok reader) :
      ∃ opened, Reader.openHeader start inner = .ok opened := by
    obtain ⟨_, _, opened⟩ := Outcome.bind_eq_ok.mp opened
    obtain ⟨parts, begun, _⟩ := Outcome.bind_eq_ok.mp opened
    exact ⟨parts, begun⟩
  cases opened with
  | new opened =>
      obtain ⟨_, begun⟩ := toEnd opened
      obtain ⟨lead, started⟩ := Reader.openHeader_started inferred begun
      exact startsAuthentic_of_started lead started
  | newWithParameters parameters opened =>
      obtain ⟨_, begun⟩ := toEnd opened
      obtain ⟨lead, started⟩ := Reader.openHeader_started
        (startDecryption_returns platform key aad parameters) begun
      exact startsAuthentic_of_started lead
        (startDecryption_eq_ok_iff.mp started).1
  | newWithLength length representable opened =>
      obtain ⟨_, begun⟩ := withLength opened
      obtain ⟨lead, started⟩ := Reader.openHeader_started inferred begun
      exact startsAuthentic_of_started lead started
  | newWithLengthAndParameters length parameters representable opened =>
      obtain ⟨_, begun⟩ := withLength opened
      obtain ⟨lead, started⟩ := Reader.openHeader_started
        (startDecryption_returns platform key aad parameters) begun
      exact startsAuthentic_of_started lead
        (startDecryption_eq_ok_iff.mp started).1

/-- Every way into a message checks its header. -/
theorem OpenedUnder.startsAuthentic
    (opened : OpenedUnder platform key aad bytes) :
    StartsAuthentic platform key aad bytes := by
  have lead (header : Header) (body : Bytes) :
      header.val = (header.val ++ body).take headerLength :=
    (List.take_left' header.length_val).symm
  cases opened with
  | decrypt accepted =>
      exact startsAuthentic_of_decrypt accepted
  | decryptWithParameters accepted =>
      exact startsAuthentic_of_decrypt
        (decryptWithParameters_eq_ok_iff.mp accepted).1
  | startDecryption started =>
      exact startsAuthentic_of_started (lead _ _)
        (startDecryption_eq_ok_iff.mp started).1
  | startDecryptionInferred started =>
      exact startsAuthentic_of_started (lead _ _) started
  | decryptor created =>
      obtain ⟨state, started, _⟩ := Outcome.bind_eq_ok.mp created
      exact startsAuthentic_of_started (lead _ _) started
  | decryptorWithParameters created =>
      obtain ⟨state, started, _⟩ := Outcome.bind_eq_ok.mp created
      exact startsAuthentic_of_started (lead _ _)
        (startDecryption_eq_ok_iff.mp started).1
  | decryptReader opened =>
      exact opened.startsAuthentic
  | reader opened =>
      exact opened.startsAuthentic

end Openings

/-- The header tag of an authentic header is derived for it. -/
theorem HeaderAuthenticates.derives
    {platform : Platform}
    {key : Key}
    {aad : Bytes}
    {header : Header}
    {context : MessageContext}
    (authentic : HeaderAuthenticates platform key aad header context) :
    HeaderTagDerives platform header key aad :=
  ⟨context.provider, authentic.provider, authentic.tag⟩

/-- The info string of a header tag fixes the AAD. -/
theorem headerTagInfo_injective
    {header : Header}
    {aad aad' : Bytes}
    (same :
      (headerTagInfo header aad).flatten =
        (headerTagInfo header aad').flatten) :
    aad = aad' := by
  simpa [headerTagInfo] using same

/-- A header opens under one key and one AAD only, in whatever ways it is
opened twice: otherwise the keys and the AADs of the two openings are inputs of
the key derivation that collide in the tag of that header. -/
theorem openings_commit
    {platform : Platform}
    {first second : Key}
    {aad aad' bytes bytes' : Bytes}
    (opened : OpenedUnder platform first aad bytes)
    (opened' : OpenedUnder platform second aad' bytes')
    (same : bytes.take headerLength = bytes'.take headerLength) :
    ∃ header : Header,
      header.val = bytes.take headerLength ∧
        (first.bytes = second.bytes ∧ aad = aad' ∨
          HeaderTagCollision platform header first aad second aad') := by
  obtain ⟨header, context, lead, authentic⟩ := opened.startsAuthentic
  obtain ⟨header', context', lead', authentic'⟩ := opened'.startsAuthentic
  obtain rfl : header = header' :=
    Subtype.ext (lead.trans (same.trans lead'.symm))
  refine ⟨header, lead, ?_⟩
  by_cases equal : first.bytes = second.bytes ∧ aad = aad'
  · exact .inl equal
  · refine .inr ⟨fun collide => equal ?_, authentic.derives,
      authentic'.derives⟩
    obtain ⟨sameKey, sameInfo⟩ := Prod.mk.inj collide
    exact ⟨sameKey, headerTagInfo_injective sameInfo⟩

set_option maxRecDepth 100000 in
/-- The transparent provider, whose tags are zeros, opens the header of
`twoSegments` under two AADs, through `decrypt` and as a stream. -/
theorem openings_commit_example :
    ∃ header : Header,
      header.val = twoSegmentsSource.remaining.take headerLength ∧
        HeaderTagCollision openPlatform header zeroKey [] zeroKey [1] := by
  have decrypted :
      OpenedUnder openPlatform zeroKey [] twoSegmentsSource.remaining :=
    .decrypt (show decrypt openPlatform zeroKey []
      twoSegmentsSource.remaining = .ok (zeros 33) from rfl)
  have streamed :
      OpenedUnder openPlatform zeroKey [1] twoSegmentsSource.remaining :=
    .decryptReader (.new rfl)
  obtain ⟨header, lead, ⟨_, impossible⟩ | collision⟩ :=
    openings_commit decrypted streamed rfl
  · cases impossible
  · exact ⟨header, lead, collision⟩

end FastFloe
