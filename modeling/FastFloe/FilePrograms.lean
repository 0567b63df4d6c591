import FastFloe.Rust.Fs
import FastFloe.Io
import FastFloe.SegmentIterators

namespace FastFloe

open Rust

/-!
# The file programs

The example programs turn one file into another.  `manual_file` walks over the
segments of a layout with the low-level states; `serial_file` copies a stream
adapter into the output.  Both write to a file that they create, and what they
have written stays there when they fail.
-/

/-- `b"fast-floe file examples"`. -/
def fileAad : Bytes :=
  [102, 97, 115, 116, 45, 102, 108, 111, 101, 32, 102, 105, 108, 101, 32, 101,
    120, 97, 109, 112, 108, 101, 115]

/-- What the programs fail with: an error of the crate or of the operating
system. -/
inductive AnyError where
  | floe (error : Error)
  | io (error : IoError IoPayload)
  deriving Repr, DecidableEq

abbrev AnyResult (α : Type) := Outcome AnyError α

/-- `Read::read_exact`, which retries interrupted reads as `read_fully` does. -/
def readExact (reader : Source IoPayload) (output : Bytes) :
    IoResult Unit × Bytes × Source IoPayload :=
  match readFully reader output with
  | (.error stop, filled, reader) =>
      (.error stop, filled, reader)
  | (.ok actual, filled, reader) =>
      if actual < output.length then
        (.error (.err ⟨.other, none⟩), filled, reader)
      else
        (.ok (), filled, reader)

/-! ## Segment by segment -/

namespace ManualFile

/-- The loop of `encrypt_file`. -/
def encryptLoop (platform : Platform) :
    Nat → Segments → EncryptionState → SegmentBuffer → Source IoPayload →
      Sink IoPayload → AnyResult Unit × Sink IoPayload
  | 0, _, _, _, _, output =>
      (.error .diverge, output)
  | fuel + 1, segments, encryption, buffer, input, output =>
      match segments.next platform.target with
      | (.error stop, _) =>
          (Outcome.mapErr .floe (.error stop), output)
      | (.ok none, _) =>
          (.ok (), output)
      | (.ok (some segment), segments) =>
          match buffer.preparePlaintext segment.plaintextLength with
          | (.error stop, _) =>
              (Outcome.mapErr .floe (.error stop), output)
          | (.ok dest, buffer) =>
              match readExact input dest with
              | (.error stop, _, _) =>
                  (Outcome.mapErr .io (.error stop), output)
              | (.ok (), dest, input) =>
                  let buffer := buffer.withRaw
                    (writeBack buffer.bytes segmentPayloadOffset dest)
                  match encryption.encryptSegmentInPlace platform buffer
                      segment with
                  | (.error stop, _, _) =>
                      (Outcome.mapErr .floe (.error stop), output)
                  | (.ok encrypted, encryption, buffer) =>
                      match output.writeAll encrypted with
                      | (.error stop, output) =>
                          (Outcome.mapErr .io (.error stop), output)
                      | (.ok (), output) =>
                          encryptLoop platform fuel segments encryption buffer
                            input output

/-- What `encrypt_file` does once the output is open. -/
def encryptInto (platform : Platform) (encryption : EncryptionState)
    (header : Header) (parameters : Parameters) (inSize : Nat)
    (input : Source IoPayload) (output : Sink IoPayload) :
    AnyResult Unit × Sink IoPayload :=
  match output.writeAll header.val with
  | (.error stop, output) =>
      (Outcome.mapErr .io (.error stop), output)
  | (.ok (), output) =>
      match parameters.plaintextLayout inSize with
      | .error stop =>
          (Outcome.mapErr .floe (.error stop), output)
      | .ok layout =>
          encryptLoop platform (layout.segmentCount + 1) layout.intoIter
            encryption (SegmentBuffer.new parameters) input output

/-- `encrypt_file`. -/
def encryptFile (platform : Platform) (environment : Environment IoPayload)
    (rng : ProviderRng) (disk : Disk) (inputPath outputPath : Path)
    (key : Key) (parameters : Parameters) : AnyResult Unit × Disk :=
  match (do
      let (encryption, header) ← Outcome.mapErr .floe
        (startEncryption platform key fileAad parameters rng)
      let input ← Outcome.mapErr .io (openFile environment disk inputPath)
      let inSize ← Outcome.mapErr .io (metadataLen environment input)
      let (output, created) ← Outcome.mapErr .io
        (createNew environment disk outputPath)
      .ok (encryption, header, input, inSize, output, created) :
        AnyResult (EncryptionState × Header × Source IoPayload × Nat ×
          Sink IoPayload × Disk)) with
  | .error stop =>
      (.error stop, disk)
  | .ok (encryption, header, input, inSize, output, created) =>
      match encryptInto platform encryption header parameters inSize input
          output with
      | (result, output) =>
          (result, created.put outputPath output.accepted)

/-- The loop of `decrypt_file`. -/
def decryptLoop (platform : Platform) :
    Nat → Segments → DecryptionState → SegmentBuffer → Source IoPayload →
      Sink IoPayload → AnyResult Unit × Sink IoPayload
  | 0, _, _, _, _, output =>
      (.error .diverge, output)
  | fuel + 1, segments, decryption, buffer, input, output =>
      match segments.next platform.target with
      | (.error stop, _) =>
          (Outcome.mapErr .floe (.error stop), output)
      | (.ok none, _) =>
          (.ok (), output)
      | (.ok (some segment), segments) =>
          match buffer.prepareCiphertext segment.ciphertextLength with
          | (.error stop, _) =>
              (Outcome.mapErr .floe (.error stop), output)
          | (.ok dest, buffer) =>
              match readExact input dest with
              | (.error stop, _, _) =>
                  (Outcome.mapErr .io (.error stop), output)
              | (.ok (), dest, input) =>
                  let buffer := buffer.withRaw (writeBack buffer.bytes 0 dest)
                  match decryption.decryptSegmentInPlace platform buffer
                      segment with
                  | (.error stop, _, _) =>
                      (Outcome.mapErr .floe (.error stop), output)
                  | (.ok plaintext, buffer, decryption) =>
                      match output.writeAll plaintext with
                      | (.error stop, output) =>
                          (Outcome.mapErr .io (.error stop), output)
                      | (.ok (), output) =>
                          decryptLoop platform fuel segments decryption buffer
                            input output

/-- What `decrypt_file` does once the output is open. -/
def decryptInto (platform : Platform) (key : Key) (parameters : Parameters)
    (inSize : Nat) (input : Source IoPayload) (output : Sink IoPayload) :
    AnyResult Unit × Sink IoPayload :=
  match readExact input (zeros headerLength) with
  | (.error stop, _, _) =>
      (Outcome.mapErr .io (.error stop), output)
  | (.ok (), headerBytes, input) =>
      match (do
          -- The array has its type's length.
          let header ← Outcome.expect
            (Octets.ofSlice? headerLength headerBytes)
          let decryption ←
            startDecryption platform key fileAad parameters header
          let layout ← parameters.ciphertextLayout platform.target inSize
          .ok (decryption, layout) :
            Result (DecryptionState × MessageLayout)) with
      | .error stop =>
          (Outcome.mapErr .floe (.error stop), output)
      | .ok (decryption, layout) =>
          decryptLoop platform (layout.segmentCount + 1) layout.intoIter
            decryption (SegmentBuffer.new parameters) input output

/-- `decrypt_file`. -/
def decryptFile (platform : Platform) (environment : Environment IoPayload)
    (disk : Disk) (inputPath outputPath : Path) (key : Key)
    (parameters : Parameters) : AnyResult Unit × Disk :=
  match (do
      let input ← Outcome.mapErr .io (openFile environment disk inputPath)
      let inSize ← Outcome.mapErr .io (metadataLen environment input)
      let (output, created) ← Outcome.mapErr .io
        (createNew environment disk outputPath)
      .ok (input, inSize, output, created) :
        AnyResult (Source IoPayload × Nat × Sink IoPayload × Disk)) with
  | .error stop =>
      (.error stop, disk)
  | .ok (input, inSize, output, created) =>
      match decryptInto platform key parameters inSize input output with
      | (result, output) =>
          (result, created.put outputPath output.accepted)

end ManualFile

/-! ## Through the stream adapters -/

namespace SerialFile

/-- More reads than a stream adapter on this file answers with bytes: a segment
has a payload or is the last one. -/
def copyBudget (input : Source IoPayload) : Nat :=
  headerLength + (segmentOverhead + 1) * (input.data.length + 1) + 2

/-- What `encrypt_file` does once the output is open. -/
def encryptInto (platform : Platform) (environment : Environment IoPayload)
    (reader : EncryptReader) (output : Sink IoPayload) :
    AnyResult Unit × Sink IoPayload :=
  match copyLoop (EncryptReader.read platform) environment.capacity
      (copyBudget reader.inner) reader output with
  | (.error stop, _, output) =>
      (Outcome.mapErr .io (.error stop), output)
  | (.ok (), _, output) =>
      match output.flush with
      | (result, output) => (Outcome.mapErr .io result, output)

/-- `encrypt_file`. -/
def encryptFile (platform : Platform) (environment : Environment IoPayload)
    (rng : ProviderRng) (disk : Disk) (inputPath outputPath : Path)
    (key : Key) (parameters : Parameters) : AnyResult Unit × Disk :=
  match (do
      let input ← openFile environment disk inputPath
      let reader ←
        EncryptReader.new platform input key fileAad parameters rng
      let (output, created) ← createNew environment disk outputPath
      .ok (reader, output, created) :
        IoResult (EncryptReader × Sink IoPayload × Disk)) with
  | .error stop =>
      (Outcome.mapErr .io (.error stop), disk)
  | .ok (reader, output, created) =>
      match encryptInto platform environment reader output with
      | (result, output) =>
          (result, created.put outputPath output.accepted)

/-- What `decrypt_file` does once the output is open. -/
def decryptInto (platform : Platform) (environment : Environment IoPayload)
    (reader : DecryptReader) (output : Sink IoPayload) :
    AnyResult Unit × Sink IoPayload :=
  match copyLoop (DecryptReader.read platform) environment.capacity
      (copyBudget reader.inner) reader output with
  | (.error stop, _, output) =>
      (Outcome.mapErr .io (.error stop), output)
  | (.ok (), reader, output) =>
      match reader.finish platform with
      | (.error stop, _) =>
          (Outcome.mapErr .io (.error stop), output)
      | (.ok (), _) =>
          match output.flush with
          | (result, output) => (Outcome.mapErr .io result, output)

/-- `decrypt_file`. -/
def decryptFile (platform : Platform) (environment : Environment IoPayload)
    (disk : Disk) (inputPath outputPath : Path) (key : Key)
    (parameters : Parameters) : AnyResult Unit × Disk :=
  match (do
      let input ← openFile environment disk inputPath
      let reader ← DecryptReader.newWithParameters platform input key fileAad
        parameters
      let (output, created) ← createNew environment disk outputPath
      .ok (reader, output, created) :
        IoResult (DecryptReader × Sink IoPayload × Disk)) with
  | .error stop =>
      (Outcome.mapErr .io (.error stop), disk)
  | .ok (reader, output, created) =>
      match decryptInto platform environment reader output with
      | (result, output) =>
          (result, created.put outputPath output.accepted)

end SerialFile

/-! ## Runs of the programs -/

inductive Program where
  | manual
  | serial
  deriving Repr, DecidableEq

inductive Operation where
  | encrypt
  | decrypt
  deriving Repr, DecidableEq

/-- The parsed command line. -/
structure Arguments where
  operation : Operation
  input : Path
  output : Path
  key : Key
  parameters : Parameters

/-- A program with its command line, and what the system answers it. -/
structure Invocation where
  program : Program
  arguments : Arguments
  environment : Environment IoPayload
  rng : ProviderRng

/-- `run`, which `main` calls. -/
def Invocation.run (platform : Platform) (self : Invocation) (disk : Disk) :
    AnyResult Unit × Disk :=
  let arguments := self.arguments
  match self.program, arguments.operation with
  | .manual, .encrypt =>
      ManualFile.encryptFile platform self.environment self.rng disk
        arguments.input arguments.output arguments.key arguments.parameters
  | .manual, .decrypt =>
      ManualFile.decryptFile platform self.environment disk arguments.input
        arguments.output arguments.key arguments.parameters
  | .serial, .encrypt =>
      SerialFile.encryptFile platform self.environment self.rng disk
        arguments.input arguments.output arguments.key arguments.parameters
  | .serial, .decrypt =>
      SerialFile.decryptFile platform self.environment disk arguments.input
        arguments.output arguments.key arguments.parameters

/-- Runs programs one after the other on a disk. -/
def runAll (platform : Platform) :
    List Invocation → Disk → List (AnyResult Unit) × Disk
  | [], disk =>
      ([], disk)
  | invocation :: later, disk =>
      let outcome := invocation.run platform disk
      let rest := runAll platform later outcome.2
      (outcome.1 :: rest.1, rest.2)

end FastFloe
