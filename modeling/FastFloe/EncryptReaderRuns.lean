import FastFloe.EncryptReaders

namespace FastFloe

open Rust

/-!
# Runs of reads on an encrypting reader

Any sequence of reads into outputs of any sizes, on a source that fragments its
plaintext in any way.  The bytes returned are always the beginning of what
`encrypt` returns for that plaintext.
-/

namespace EncryptReader

/-- Reads into these outputs in turn. -/
def readAll (platform : Platform) :
    EncryptReader → List Bytes → List ReadCall × EncryptReader
  | self, [] =>
      ([], self)
  | self, output :: outputs =>
      let answer := self.read platform output
      let later := readAll platform answer.2.1 outputs
      (⟨output, answer.1, answer.2.2⟩ :: later.1, later.2)

section Runs

variable {platform : Platform} {context : MessageContext}
  {pending : Bytes} {reader : EncryptReader}

/-- No read of a run fails, and together they hand out a beginning of what was
left; as long as something is left, every output that is not empty gets some of
it. -/
theorem Emits.readAll_spec
    (agree : platform.SealsAgree)
    (emits : reader.Emits platform context pending)
    (outputs : List Bytes) :
    ∃ left,
      pending = delivered (reader.readAll platform outputs).1 ++ left ∧
        (reader.readAll platform outputs).2.Emits platform context left ∧
        (∀ call ∈ (reader.readAll platform outputs).1,
          ∃ count,
            call.result = .ok count ∧ count ≤ call.output.length) ∧
        (∀ call ∈ (reader.readAll platform outputs).1,
          call.AtEnd → left = []) ∧
        ((∀ output ∈ outputs, output ≠ []) →
          outputs.length + left.length ≤ pending.length ∨ left = []) := by
  induction outputs generalizing reader pending with
  | nil =>
      refine ⟨pending, rfl, emits, ?_, ?_, ?_⟩
      · intro call member
        cases member
      · intro call member
        cases member
      · intro _
        left
        rw [List.length_nil, Nat.zero_add]
  | cons output outputs inductionHypothesis =>
      obtain ⟨next, chunk, rest, result, rfl, nextEmits, blank, within⟩ :=
        emits.read_step agree output
      obtain ⟨left, rfl, leftEmits, succeed, atEnds, progress⟩ :=
        inductionHypothesis nextEmits
      have call : ReadCall.delivered
          ⟨output, .ok chunk.length,
            chunk ++ output.drop chunk.length⟩ = chunk :=
        List.take_left
      refine ⟨left, ?_, ?_, ?_, ?_, ?_⟩
      · simp only [readAll, result, delivered_cons, call, List.append_assoc]
      · simpa only [readAll, result] using leftEmits
      · intro later member
        simp only [readAll, result] at member
        rcases List.mem_cons.mp member with rfl | member
        · exact ⟨chunk.length, rfl, within⟩
        · exact succeed later member
      · intro later member atEnd
        simp only [readAll, result] at member
        rcases List.mem_cons.mp member with rfl | member
        · have zero : chunk = [] := by
            have count := atEnd.2
            simp only [Except.ok.injEq] at count
            exact List.length_eq_zero_iff.mp count
          rcases blank zero with unwanted | nothing
          · exact (atEnd.1 unwanted).elim
          · exact (List.append_eq_nil_iff.mp
              (List.append_eq_nil_iff.mp nothing).2).2
        · exact atEnds later member atEnd
      · intro wanted
        rcases progress (fun later member =>
            wanted later (List.mem_cons_of_mem _ member)) with
          more | done
        · by_cases none : chunk = []
          · rcases blank none with unwanted | nothing
            · exact (wanted output (List.mem_cons_self ..) unwanted).elim
            · right
              exact (List.append_eq_nil_iff.mp
                (List.append_eq_nil_iff.mp nothing).2).2
          · have positive := List.length_pos_iff.mpr none
            left
            rw [List.length_cons, List.length_append]
            omega
        · exact .inr done

/-- A new reader has the whole message left to hand out. -/
theorem new_emits
    {key : Key}
    {aad : Bytes}
    {parameters : Parameters}
    {rng : ProviderRng}
    {source : Source IoPayload}
    {encryptor : Encryptor}
    {stream : Bytes}
    (honest : source.Honest)
    (created :
      Encryptor.new platform key aad parameters rng = .ok encryptor)
    (seals :
      encryptor.state.SealsStream platform 0 source.remaining stream) :
    ∃ reader,
      EncryptReader.new platform source key aad parameters rng =
          .ok reader ∧
        reader.Emits platform encryptor.state.context
          (encryptor.header.val ++ stream) := by
  obtain ⟨_, own, here⟩ :=
    Encryptor.new_eq_ok (Kdf.FaultOf.refl platform.kdfExpand) created
  let reader : EncryptReader :=
    { inner := source
      encryptor := some encryptor
      header := encryptor.header
      headerPosition := 0
      buffer := SegmentBuffer.new parameters
      ciphertextPosition := 0
      ciphertextLength := 0
      lookahead := none
      status := .opened }
  refine ⟨reader, ?_, honest, own.symm, SegmentBuffer.sized_new _,
    Nat.zero_le _, [], stream, .nothing rfl, .opened rfl rfl here seals, rfl⟩
  simp only [EncryptReader.new, created, Outcome.mapErr, Outcome.ok_bind,
    reader]

end Runs

end EncryptReader

/-! ## Agreement with `encrypt` -/

/-- `EncryptReader` emits byte for byte what `encrypt` returns for the same
plaintext on the same random tape, however its source fragments the plaintext
and whatever sizes the reads have.  No read fails; the reads return a beginning
of that ciphertext; a read into a non-empty output returns nothing exactly when
the whole ciphertext has been returned, which is when the reader reports to be
finished; and reading on gets there. -/
theorem encryptReader_emitsEncrypt
    {platform : Platform}
    {key : Key}
    {aad : Bytes}
    {parameters : Parameters}
    {rng : ProviderRng}
    {source : Source IoPayload}
    {ciphertext : Bytes}
    (agree : platform.SealsAgree)
    (honest : source.Honest)
    (encrypted :
      encrypt platform key aad parameters rng source.remaining =
        .ok ciphertext) :
    ∃ reader,
      EncryptReader.new platform source key aad parameters rng =
          .ok reader ∧
        ∀ outputs,
          let calls := (reader.readAll platform outputs).1
          let left := (reader.readAll platform outputs).2
          (∀ call ∈ calls, ∃ count,
            call.result = .ok count ∧ count ≤ call.output.length) ∧
          delivered calls <+: ciphertext ∧
          ((∃ call ∈ calls, call.AtEnd) → delivered calls = ciphertext) ∧
          (left.isFinished = true ↔ delivered calls = ciphertext) ∧
          (∀ output, output ≠ [] →
            ((left.read platform output).1 = .ok 0 ↔
              delivered calls = ciphertext)) ∧
          ((∀ output ∈ outputs, output ≠ []) →
            ciphertext.length ≤ outputs.length →
              delivered calls = ciphertext) := by
  obtain ⟨encryptor, stream, created, seals, rfl⟩ :=
    encrypt_sealsStream agree encrypted
  obtain ⟨reader, opened, emits⟩ :=
    EncryptReader.new_emits honest created seals
  refine ⟨reader, opened, fun outputs => ?_⟩
  obtain ⟨left, total, leftEmits, succeed, atEnds, progress⟩ :=
    emits.readAll_spec agree outputs
  have complete :
      delivered (reader.readAll platform outputs).1 =
          encryptor.header.val ++ stream ↔
        left = [] := by
    rw [total]
    constructor
    · intro whole
      exact List.self_eq_append_right.mp whole
    · rintro rfl
      exact (List.append_nil _).symm
  refine ⟨succeed, ⟨left, total.symm⟩, ?_, ?_, ?_, ?_⟩
  · rintro ⟨call, member, atEnd⟩
    exact complete.mpr (atEnds call member atEnd)
  · exact leftEmits.isFinished_iff.trans complete.symm
  · intro output wanted
    obtain ⟨next, chunk, rest, result, shape, _, blank, _⟩ :=
      leftEmits.read_step agree output
    rw [result, complete]
    constructor
    · intro zero
      simp only [Except.ok.injEq] at zero
      rcases blank (List.length_eq_zero_iff.mp zero) with unwanted | nothing
      · exact (wanted unwanted).elim
      · exact nothing
    · rintro rfl
      rw [(List.append_eq_nil_iff.mp shape.symm).1]
      rfl
  · intro wanted enough
    rcases progress wanted with more | done
    · exact complete.mpr (List.length_eq_zero_iff.mp (by omega))
    · exact complete.mpr done

/-- A plaintext of one full segment and one more byte, in three reads. -/
def fragmentedPlaintext : Source IoPayload where
  data := List.replicate 33 7
  addressable := by decide
  cursor := 0
  script := [.short 3, .interrupted]

set_option maxRecDepth 100000 in
theorem encryptReader_emitsEncrypt_example :
    ∃ ciphertext reader,
      encrypt openPlatform zeroKey [] shortestSegments zeroRng
          (List.replicate 33 7) = .ok ciphertext ∧
        EncryptReader.new openPlatform fragmentedPlaintext zeroKey []
          shortestSegments zeroRng = .ok reader ∧
        delivered
            (reader.readAll openPlatform [zeros 10, zeros 100, zeros 64]).1
          <+: ciphertext := by
  have honest : fragmentedPlaintext.Honest := by
    simp [Source.Honest, fragmentedPlaintext, SourceEvent.Fragments]
  obtain ⟨ciphertext, encrypted⟩ :
      ∃ ciphertext,
        encrypt openPlatform zeroKey [] shortestSegments zeroRng
          (List.replicate 33 7) = .ok ciphertext :=
    ⟨_, rfl⟩
  obtain ⟨reader, opened, runs⟩ :=
    @encryptReader_emitsEncrypt openPlatform zeroKey [] shortestSegments
      zeroRng fragmentedPlaintext ciphertext transparent_sealsAgree honest
      encrypted
  exact ⟨ciphertext, reader, encrypted, opened,
    (runs [zeros 10, zeros 100, zeros 64]).2.1⟩

end FastFloe
