import FastFloe.State

namespace FastFloe

open Rust

/-!
# Reading headers and segments from a byte source
-/

/-- `split_header`. -/
def splitHeader (ciphertext : Bytes) : Result (Header × Bytes) := do
  let (header, body) ← Outcome.okOr (.invalidHeaderLength ciphertext.length)
    (if headerLength ≤ ciphertext.length then
      some (ciphertext.take headerLength, ciphertext.drop headerLength)
    else
      none)
  let header ← Outcome.okOr (.invalidHeaderLength header.length)
    (Octets.ofSlice? headerLength header)
  .ok (header, body)

/-- `encryption_error`. -/
def encryptionError (error : Error) : IoError IoPayload :=
  ⟨.other, some (.floe error)⟩

/-- `decryption_error`. -/
def decryptionError (error : Error) : IoError IoPayload :=
  ⟨.invalidData, some (.floe error)⟩

/-- `length_overflow`. -/
def lengthOverflow : IoError IoPayload :=
  ⟨.invalidInput, some (.floe .lengthOverflow)⟩

/-- `output_too_small`. -/
def outputTooSmall (actual required : Nat) : IoError IoPayload :=
  ⟨.invalidInput, some (.floe (.outputTooSmall actual required))⟩

/-- The loop of `read_fully`; `filled` is what has been read so far. -/
def readFullyLoop : Nat → Source IoPayload → (filled : Bytes) →
    (needed : Nat) → IoResult Unit × Bytes × Source IoPayload
  | 0, reader, filled, _ =>
      (.error .diverge, filled, reader)
  | fuel + 1, reader, filled, needed =>
      if needed = 0 then
        (.ok (), filled, reader)
      else
        match reader.read needed with
        | (.ok [], reader) =>
            (.ok (), filled, reader)
        | (.ok (byte :: rest), reader) =>
            readFullyLoop fuel reader (filled ++ byte :: rest)
              (needed - (byte :: rest).length)
        | (.error (.err error), reader) =>
            if error.kind = .interrupted then
              readFullyLoop fuel reader filled needed
            else
              (.error (.err error), filled, reader)
        | (.error .panic, reader) =>
            (.error .panic, filled, reader)
        | (.error .diverge, reader) =>
            (.error .diverge, filled, reader)

/-- `read_fully`: fills `output` as far as the reader goes and returns how far
that was.  Every turn uses up one scripted answer or reads everything that is
left, which bounds the number of turns. -/
def readFully (reader : Source IoPayload) (output : Bytes) :
    IoResult Nat × Bytes × Source IoPayload :=
  match readFullyLoop (reader.script.length + 3) reader [] output.length with
  | (.error stop, filled, reader) =>
      (.error stop, writeBack output 0 filled, reader)
  | (.ok (), filled, reader) =>
      (.ok filled.length, writeBack output 0 filled, reader)

/-- `read_header`. -/
def readHeader (reader : Source IoPayload) :
    IoResult Header × Source IoPayload :=
  match readFully reader (zeros headerLength) with
  | (.error stop, _, reader) =>
      (.error stop, reader)
  | (.ok actual, header, reader) =>
      if actual = header.length then
        -- The array has its type's length.
        (Outcome.expect (Octets.ofSlice? headerLength header), reader)
      else
        (.error (.err (decryptionError (.invalidHeaderLength actual))), reader)

/-- `read_exact_segment`. -/
def readExactSegment (reader : Source IoPayload) (output : Bytes) :
    IoResult Unit × Bytes × Source IoPayload :=
  let expected := output.length
  match readFully reader output with
  | (.error stop, output, reader) =>
      (.error stop, output, reader)
  | (.ok actual, output, reader) =>
      if actual = expected then
        (.ok (), output, reader)
      else
        (.error (.err (decryptionError (.invalidCiphertextLength actual
          (.exactly expected)))), output, reader)

end FastFloe
