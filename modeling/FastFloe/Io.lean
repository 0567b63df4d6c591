import FastFloe.Online

namespace FastFloe

open Rust

/-!
# Bounded-memory stream adapters

`EncryptWriter`, `EncryptReader` and `DecryptReader`.  Every method returns the
adapter it leaves behind, whether or not it succeeded.
-/

/-- `StreamStatus`. -/
inductive StreamStatus where
  | opened
  | finished
  | failed
  deriving Repr, DecidableEq

/-- `DecryptStatus`. -/
inductive DecryptStatus where
  | opened
  | frameComplete
  | streamComplete
  | failed
  deriving Repr, DecidableEq

/-- `poisoned_error`. -/
def poisonedError : IoError IoPayload :=
  ⟨.other, some (.text "FLOE stream is poisoned after an earlier error")⟩

/-- The error of a write after the final segment. -/
def alreadyFinishedError : IoError IoPayload :=
  ⟨.brokenPipe, some (.text "FLOE encrypting writer is already finished")⟩

/-- The error of a whole-stream finalization before the end of the stream. -/
def trailingDataError : IoError IoPayload :=
  ⟨.invalidData,
    some (.text "FLOE ciphertext has data after its final segment")⟩

/-! ## The encrypting writer -/

/-- A bounded-memory FLOE encrypting writer. -/
structure EncryptWriter where
  inner : Sink IoPayload
  encryptor : Option Encryptor
  header : Header
  buffer : SegmentBuffer
  status : StreamStatus

namespace EncryptWriter

/-- `EncryptWriter::new`; also returns the sink when writing the header
failed. -/
def new (platform : Platform) (inner : Sink IoPayload) (key : Key)
    (aad : Bytes) (parameters : Parameters) (rng : ProviderRng) :
    IoResult EncryptWriter × Sink IoPayload :=
  match Outcome.mapErr encryptionError
      (Encryptor.new platform key aad parameters rng) with
  | .error stop =>
      (.error stop, inner)
  | .ok encryptor =>
      let header := encryptor.header
      match inner.writeAll header.val with
      | (.error stop, inner) =>
          (.error stop, inner)
      | (.ok (), inner) =>
          (.ok
            { inner
              encryptor := some encryptor
              header
              buffer := SegmentBuffer.new parameters
              status := .opened }, inner)

def parameters (self : EncryptWriter) : Parameters := self.buffer.parameters

/-- `EncryptWriter::is_finished`. -/
def isFinished (self : EncryptWriter) : Bool := self.status = .finished

/-- `EncryptWriter::poison_on_error`. -/
def poisonOnError {α : Type} (self : EncryptWriter)
    (op : EncryptWriter → IoResult α × EncryptWriter) :
    IoResult α × EncryptWriter :=
  match op self with
  | (.ok value, self) =>
      (.ok value, self)
  | (.error (.err error), self) =>
      (.error (.err error), { self with status := .failed })
  | (.error .panic, self) =>
      (.error .panic, self)
  | (.error .diverge, self) =>
      (.error .diverge, self)

/-- Hands the encrypted segment in the buffer to the wrapped writer. -/
def emitBuffer (self : EncryptWriter) : IoResult Unit × EncryptWriter :=
  match Outcome.mapErr encryptionError self.buffer.ciphertext with
  | .error stop =>
      (.error stop, self)
  | .ok ciphertext =>
      match self.inner.writeAll ciphertext with
      | (result, inner) => (result, { self with inner })

/-- The step of `finish_message` that opens an empty final payload when nothing
arrived since the last emitted segment. -/
def prepareFinal (self : EncryptWriter) : IoResult Unit × EncryptWriter :=
  match self.buffer.plaintextLength with
  | .ok _ =>
      (.ok (), self)
  | .error _ =>
      match self.buffer.preparePlaintext 0 with
      | (result, buffer) =>
          (Outcome.mapErr encryptionError (result.map fun _ => ()),
            { self with buffer })

/-- `EncryptWriter::finish_message`. -/
def finishMessage (platform : Platform) (self : EncryptWriter) :
    IoResult Unit × EncryptWriter :=
  match self.encryptor with
  | none =>
      (.error (.err poisonedError), self)
  | some encryptor =>
      match { self with encryptor := none }.prepareFinal with
      | (.error stop, self) =>
          (.error stop, self)
      | (.ok (), self) =>
          match encryptor.encryptFinalSegmentInPlace platform self.buffer with
          | (.error stop, buffer) =>
              (Outcome.mapErr
                (fun error : FinalEncryptError =>
                  encryptionError error.intoError) (.error stop),
                { self with buffer })
          | (.ok _, buffer) =>
              match { self with buffer }.emitBuffer with
              | (.error stop, self) =>
                  (.error stop, self)
              | (.ok (), self) =>
                  match self.inner.flush with
                  | (.error stop, inner) =>
                      (.error stop, { self with inner })
                  | (.ok (), inner) =>
                      (.ok (), { self with inner, status := .finished })

/-- `EncryptWriter::try_finish`. -/
def tryFinish (platform : Platform) (self : EncryptWriter) :
    IoResult Unit × EncryptWriter :=
  match self.status with
  | .finished => (.ok (), self)
  | .failed => (.error (.err poisonedError), self)
  | .opened => self.poisonOnError (finishMessage platform)

/-- `EncryptWriter::finish`; returns the wrapped writer in either case. -/
def finish (platform : Platform) (self : EncryptWriter) :
    IoResult Unit × Sink IoPayload :=
  match self.tryFinish platform with
  | (result, self) => (result, self.inner)

/-- `EncryptWriter::emit_non_final`. -/
def emitNonFinal (platform : Platform) (self : EncryptWriter) :
    IoResult Unit × EncryptWriter :=
  self.poisonOnError fun writer =>
    match writer.encryptor with
    | none =>
        (.error (.err poisonedError), writer)
    | some encryptor =>
        match encryptor.encryptNonFinalSegmentInPlace platform
            writer.buffer with
        | (.error stop, encryptor, buffer) =>
            (Outcome.mapErr encryptionError (.error stop),
              { writer with encryptor := some encryptor, buffer })
        | (.ok _, encryptor, buffer) =>
            { writer with encryptor := some encryptor, buffer }.emitBuffer

/-- `EncryptWriter::write_segment_direct`: encrypts one full non-final segment
straight from the caller's input into the buffer's storage. -/
def writeSegmentDirect (platform : Platform) (self : EncryptWriter)
    (chunk : Bytes) : IoResult Nat × EncryptWriter :=
  match self.poisonOnError fun writer =>
      match writer.encryptor with
      | none =>
          (.error (.err poisonedError), writer)
      | some encryptor =>
          match encryptor.encryptNonFinalSegmentInto platform chunk
              writer.buffer.bytes with
          | (.error stop, encryptor, bytes) =>
              (Outcome.mapErr encryptionError (.error stop),
                { writer with
                  encryptor := some encryptor
                  buffer := writer.buffer.withRaw bytes })
          | (.ok written, encryptor, bytes) =>
              { writer with
                encryptor := some encryptor
                buffer := (writer.buffer.withRaw bytes).markCiphertext
                  written }.emitBuffer with
  | (.error stop, self) => (.error stop, self)
  | (.ok (), self) => (.ok chunk.length, self)

/-- `SegmentBuffer::extend_plaintext` on this writer's buffer. -/
def extend (self : EncryptWriter) (input : Bytes) :
    IoResult Nat × EncryptWriter :=
  match self.buffer.extendPlaintext input with
  -- The copy reports no `Err`, so nothing is converted here.
  | (result, buffer) =>
      (Outcome.mapErr encryptionError result, { self with buffer })

/-- The first full segment of the input, `input[..capacity]`, written
directly. -/
def writeFirstSegment (platform : Platform) (self : EncryptWriter)
    (input : Bytes) (capacity : Nat) : IoResult Nat × EncryptWriter :=
  match (slice input 0 capacity : IoResult Bytes) with
  | .error stop => (.error stop, self)
  | .ok chunk => self.writeSegmentDirect platform chunk

/-- Whether the buffer holds pending plaintext. -/
def hasPending (self : EncryptWriter) : Bool :=
  match self.buffer.plaintextLength with
  | .ok _ => true
  | .error _ => false

/-- `EncryptWriter::write` on an open writer and a non-empty input. -/
def writeOpen (platform : Platform) (self : EncryptWriter) (input : Bytes) :
    IoResult Nat × EncryptWriter :=
  let capacity := self.parameters.plaintextSegmentLength
  if input.length ≥ capacity ∧ ¬ self.hasPending then
    self.writeFirstSegment platform input capacity
  else
    match self.extend input with
    | (.error stop, self) =>
        (.error stop, self)
    | (.ok (copied + 1), self) =>
        (.ok (copied + 1), self)
    | (.ok 0, self) =>
        -- The buffer holds one full segment: emit it and start the next.
        match self.emitNonFinal platform with
        | (.error stop, self) =>
            (.error stop, self)
        | (.ok (), self) =>
            if input.length ≥ capacity then
              self.writeFirstSegment platform input capacity
            else
              self.extend input

/-- `Write::write`. -/
def write (platform : Platform) (self : EncryptWriter) (input : Bytes) :
    IoResult Nat × EncryptWriter :=
  if input = [] then
    (.ok 0, self)
  else
    match self.status with
    | .opened => self.writeOpen platform input
    | .finished => (.error (.err alreadyFinishedError), self)
    | .failed => (.error (.err poisonedError), self)

/-- `Write::flush`. -/
def flush (self : EncryptWriter) : IoResult Unit × EncryptWriter :=
  if self.status = .failed then
    (.error (.err poisonedError), self)
  else
    match self.inner.flush with
    | (result, inner) => (result, { self with inner })

end EncryptWriter

/-! ## The encrypting reader -/

/-- A bounded-memory FLOE encrypting reader. -/
structure EncryptReader where
  inner : Source IoPayload
  encryptor : Option Encryptor
  header : Header
  headerPosition : Nat
  buffer : SegmentBuffer
  ciphertextPosition : Nat
  ciphertextLength : Nat
  lookahead : Option UInt8
  status : StreamStatus

namespace EncryptReader

/-- `EncryptReader::new`. -/
def new (platform : Platform) (inner : Source IoPayload) (key : Key)
    (aad : Bytes) (parameters : Parameters) (rng : ProviderRng) :
    IoResult EncryptReader := do
  let encryptor ← Outcome.mapErr encryptionError
    (Encryptor.new platform key aad parameters rng)
  .ok
    { inner
      encryptor := some encryptor
      header := encryptor.header
      headerPosition := 0
      buffer := SegmentBuffer.new parameters
      ciphertextPosition := 0
      ciphertextLength := 0
      lookahead := none
      status := .opened }

def parameters (self : EncryptReader) : Parameters := self.buffer.parameters

/-- `EncryptReader::is_finished`. -/
def isFinished (self : EncryptReader) : Bool :=
  self.status = .finished ∧ self.ciphertextPosition = self.ciphertextLength

/-- `EncryptReader::get_mut`, through which the caller uses the wrapped
reader. -/
def getMut (self : EncryptReader)
    (use : Source IoPayload → Source IoPayload) : EncryptReader :=
  { self with inner := use self.inner }

/-- Whether another byte follows in the source; it becomes the lookahead. -/
def lookAhead (self : EncryptReader) : IoResult Bool × EncryptReader :=
  match readFully self.inner (zeros 1) with
  | (.error stop, _, inner) =>
      (.error stop, { self with inner })
  | (.ok 0, _, inner) =>
      (.ok false, { self with inner })
  | (.ok (_ + 1), trailing, inner) =>
      (.ok true, { self with inner, lookahead := trailing.head? })

/-- `EncryptReader::fill_plaintext`: reads the next segment's plaintext into
the buffer and returns whether the source is exhausted. -/
def fillPlaintext (self : EncryptReader) : IoResult Bool × EncryptReader :=
  let capacity := self.parameters.plaintextSegmentLength
  match self.buffer.preparePlaintext capacity with
  | (.error stop, buffer) =>
      (Outcome.mapErr encryptionError (.error stop), { self with buffer })
  | (.ok plaintext, buffer) =>
      let carried : Bytes := self.lookahead.toList
      match (do
          let plaintext ← copyRange plaintext 0 carried.length carried
          let rest ← slice plaintext carried.length capacity
          .ok (plaintext, rest) : IoResult (Bytes × Bytes)) with
      | .error stop =>
          (.error stop, { self with buffer, lookahead := none })
      | .ok (plaintext, rest) =>
          match readFully self.inner rest with
          | (.error stop, rest, inner) =>
              (.error stop,
                { self with
                  inner
                  buffer := buffer.withRaw (writeBack buffer.bytes
                    segmentPayloadOffset
                    (writeBack plaintext carried.length rest))
                  lookahead := none })
          | (.ok actual, rest, inner) =>
              let plaintextLength := carried.length + actual
              let self : EncryptReader :=
                { self with
                  inner
                  buffer := buffer.withRaw (writeBack buffer.bytes
                    segmentPayloadOffset
                    (writeBack plaintext carried.length rest))
                  lookahead := none }
              match (if plaintextLength < capacity then
                    (.ok false, self)
                  else
                    self.lookAhead) with
              | (.error stop, self) =>
                  (.error stop, self)
              | (.ok following, self) =>
                  match self.buffer.truncatePlaintext plaintextLength with
                  | (.error stop, buffer) =>
                      (Outcome.mapErr encryptionError (.error stop),
                        { self with buffer })
                  | (.ok (), buffer) =>
                      (.ok (¬ following), { self with buffer })

/-- The status change that `load_segment` and `emit_segment_direct` make when
their inner step fails. -/
def poisonOnError {α ω : Type} :
    IoResult α × EncryptReader × ω → IoResult α × EncryptReader × ω
  | (.ok value, self, borrowed) =>
      (.ok value, self, borrowed)
  | (.error (.err error), self, borrowed) =>
      (.error (.err error), { self with status := .failed }, borrowed)
  | (.error .panic, self, borrowed) =>
      (.error .panic, self, borrowed)
  | (.error .diverge, self, borrowed) =>
      (.error .diverge, self, borrowed)

/-- `EncryptReader::try_load_segment`. -/
def tryLoadSegment (platform : Platform) (self : EncryptReader) :
    IoResult Unit × EncryptReader :=
  match self.fillPlaintext with
  | (.error stop, self) =>
      (.error stop, self)
  | (.ok isFinal, self) =>
      let self := { self with ciphertextPosition := 0 }
      match self.encryptor with
      | none =>
          (.error (.err poisonedError), self)
      | some encryptor =>
          if isFinal then
            match encryptor.encryptFinalSegmentInPlace platform
                self.buffer with
            | (.error stop, buffer) =>
                (Outcome.mapErr
                  (fun error : FinalEncryptError =>
                    encryptionError error.intoError) (.error stop),
                  { self with encryptor := none, buffer })
            | (.ok encrypted, buffer) =>
                (.ok (),
                  { self with
                    encryptor := none
                    buffer
                    ciphertextLength := encrypted.length
                    status := .finished })
          else
            match encryptor.encryptNonFinalSegmentInPlace platform
                self.buffer with
            | (.error stop, encryptor, buffer) =>
                (Outcome.mapErr encryptionError (.error stop),
                  { self with encryptor := some encryptor, buffer })
            | (.ok encrypted, encryptor, buffer) =>
                (.ok (),
                  { self with
                    encryptor := some encryptor
                    buffer
                    ciphertextLength := encrypted.length })

/-- `EncryptReader::load_segment`. -/
def loadSegment (platform : Platform) (self : EncryptReader) :
    IoResult Unit × EncryptReader :=
  match self.tryLoadSegment platform with
  | (result, self) =>
      match poisonOnError (result, self, ()) with
      | (result, self, ()) => (result, self)

/-- `EncryptReader::try_emit_segment_direct`: encrypts the next segment
straight into the caller's buffer. -/
def tryEmitSegmentDirect (platform : Platform) (self : EncryptReader)
    (output : Bytes) : IoResult Nat × EncryptReader × Bytes :=
  match self.fillPlaintext with
  | (.error stop, self) =>
      (.error stop, self, output)
  | (.ok isFinal, self) =>
      match self.encryptor,
          Outcome.mapErr encryptionError self.buffer.plaintext with
      | none, _ =>
          (.error (.err poisonedError), self, output)
      | some encryptor, .error stop =>
          (.error stop,
            { self with
              encryptor := if isFinal then none else some encryptor }, output)
      | some encryptor, .ok plaintext =>
          if isFinal then
            match encryptor.encryptFinalSegmentInto platform plaintext
                output with
            | (.error stop, output) =>
                (Outcome.mapErr
                  (fun error : FinalEncryptError =>
                    encryptionError error.intoError) (.error stop),
                  { self with encryptor := none }, output)
            | (.ok written, output) =>
                (.ok written,
                  { self with encryptor := none, status := .finished },
                  output)
          else
            match encryptor.encryptNonFinalSegmentInto platform plaintext
                output with
            | (result, encryptor, output) =>
                (Outcome.mapErr encryptionError result,
                  { self with encryptor := some encryptor }, output)

/-- `EncryptReader::emit_segment_direct`. -/
def emitSegmentDirect (platform : Platform) (self : EncryptReader)
    (output : Bytes) : IoResult Nat × EncryptReader × Bytes :=
  poisonOnError (self.tryEmitSegmentDirect platform output)

/-- The part of `EncryptReader::read` that hands out header bytes. -/
def readHeaderBytes (self : EncryptReader) (output : Bytes) :
    IoResult Nat × EncryptReader × Bytes :=
  let read := min output.length (headerLength - self.headerPosition)
  let stop := self.headerPosition + read
  match (do
      let chunk ← slice self.header.val self.headerPosition stop
      copyRange output 0 read chunk : IoResult Bytes) with
  | .error failure =>
      (.error failure, self, output)
  | .ok output =>
      (.ok read, { self with headerPosition := stop }, output)

/-- The part of `EncryptReader::read` that hands out buffered ciphertext. -/
def readBuffered (self : EncryptReader) (output : Bytes) :
    IoResult Nat × EncryptReader × Bytes :=
  match (do
      let ciphertext ← Outcome.mapErr encryptionError self.buffer.ciphertext
      let available ← sub self.ciphertextLength self.ciphertextPosition
      let read := min output.length available
      let stop := self.ciphertextPosition + read
      let chunk ← slice ciphertext self.ciphertextPosition stop
      let output ← copyRange output 0 read chunk
      .ok (read, stop, output) : IoResult (Nat × Nat × Bytes)) with
  | .error failure =>
      (.error failure, self, output)
  | .ok (read, stop, output) =>
      (.ok read, { self with ciphertextPosition := stop }, output)

/-- `Read::read`. -/
def read (platform : Platform) (self : EncryptReader) (output : Bytes) :
    IoResult Nat × EncryptReader × Bytes :=
  if output = [] then
    (.ok 0, self, output)
  else if self.status = .failed then
    (.error (.err poisonedError), self, output)
  else if self.headerPosition < headerLength then
    self.readHeaderBytes output
  else if self.ciphertextPosition = self.ciphertextLength then
    if self.status = .finished then
      (.ok 0, self, output)
    else if output.length ≥ self.parameters.ciphertextSegmentLength then
      self.emitSegmentDirect platform output
    else
      match self.loadSegment platform with
      | (.error stop, self) => (.error stop, self, output)
      | (.ok (), self) => self.readBuffered output
  else
    self.readBuffered output

end EncryptReader

/-! ## The decrypting reader -/

/-- A bounded-memory FLOE decrypting reader. -/
structure DecryptReader where
  inner : Source IoPayload
  decryptor : Option Decryptor
  header : Header
  buffer : SegmentBuffer
  plaintextConsumed : Nat
  plaintextAvailable : Nat
  status : DecryptStatus

namespace DecryptReader

/-- `DecryptReader::from_decryptor`. -/
def fromDecryptor (inner : Source IoPayload) (decryptor : Decryptor)
    (header : Header) : DecryptReader where
  inner := inner
  decryptor := some decryptor
  header := header
  buffer := SegmentBuffer.new decryptor.parameters
  plaintextConsumed := 0
  plaintextAvailable := 0
  status := .opened

/-- `DecryptReader::new`. -/
def new (platform : Platform) (inner : Source IoPayload) (key : Key)
    (aad : Bytes) : IoResult DecryptReader :=
  match readHeader inner with
  | (.error stop, _) =>
      .error stop
  | (.ok header, inner) => do
      let decryptor ← Outcome.mapErr decryptionError
        (Decryptor.new platform key aad header)
      .ok (fromDecryptor inner decryptor header)

/-- `DecryptReader::new_with_parameters`. -/
def newWithParameters (platform : Platform) (inner : Source IoPayload)
    (key : Key) (aad : Bytes) (parameters : Parameters) :
    IoResult DecryptReader :=
  match readHeader inner with
  | (.error stop, _) =>
      .error stop
  | (.ok header, inner) => do
      let decryptor ← Outcome.mapErr decryptionError
        (Decryptor.newWithParameters platform key aad parameters header)
      .ok (fromDecryptor inner decryptor header)

def parameters (self : DecryptReader) : Parameters := self.buffer.parameters

/-- The final segment was authenticated. -/
def isComplete (self : DecryptReader) : Bool :=
  self.status = .frameComplete ∨ self.status = .streamComplete

/-- `DecryptReader::is_finished`. -/
def isFinished (self : DecryptReader) : Bool :=
  self.isComplete ∧ self.plaintextConsumed = self.plaintextAvailable

/-- `DecryptReader::get_mut`, through which the caller uses the wrapped
reader. -/
def getMut (self : DecryptReader)
    (use : Source IoPayload → Source IoPayload) : DecryptReader :=
  let status :=
    if self.status = .streamComplete then .frameComplete else self.status
  { self with inner := use self.inner, status }

/-- The body of `DecryptReader::fetch_segment` after the prefix was decoded:
reads the rest of the segment into the buffer. -/
def fetchRemainder (self : DecryptReader)
    (segmentPrefix : Octets segmentPrefixLength) (framing : SegmentFraming) :
    IoResult SegmentFraming × DecryptReader :=
  let ciphertextLength := framing.ciphertextLength
  match self.buffer.prepareCiphertext ciphertextLength with
  | (.error stop, buffer) =>
      (Outcome.mapErr decryptionError (.error stop), { self with buffer })
  | (.ok ciphertext, buffer) =>
      match (do
          let ciphertext ←
            copyRange ciphertext 0 segmentPrefixLength segmentPrefix.val
          let rest ←
            slice ciphertext segmentPrefixLength ciphertext.length
          .ok (ciphertext, rest) : IoResult (Bytes × Bytes)) with
      | .error stop =>
          (.error stop, { self with buffer })
      | .ok (ciphertext, rest) =>
          match readFully self.inner rest with
          | (.error stop, rest, inner) =>
              (.error stop,
                { self with
                  inner
                  buffer := buffer.withRaw (writeBack buffer.bytes 0
                    (writeBack ciphertext segmentPrefixLength rest)) })
          | (.ok actual, rest, inner) =>
              let self : DecryptReader :=
                { self with
                  inner
                  buffer := buffer.withRaw (writeBack buffer.bytes 0
                    (writeBack ciphertext segmentPrefixLength rest)) }
              (do
                let expectedRemainder ←
                  sub ciphertextLength segmentPrefixLength
                if actual ≠ expectedRemainder then
                  .error (.err (decryptionError (.invalidCiphertextLength
                    (segmentPrefixLength + actual)
                    (.exactly ciphertextLength))))
                else
                  .ok framing, self)

/-- `DecryptReader::fetch_segment`. -/
def fetchSegment (self : DecryptReader) :
    IoResult SegmentFraming × DecryptReader :=
  match readFully self.inner (zeros segmentPrefixLength) with
  | (.error stop, _, inner) =>
      (.error stop, { self with inner })
  | (.ok actual, lengthPrefix, inner) =>
      let self : DecryptReader := { self with inner }
      if actual ≠ lengthPrefix.length then
        (.error (.err (decryptionError .truncated)), self)
      else
        match (do
            -- The array has its type's length.
            let lengthPrefix ← Outcome.expect
              (Octets.ofSlice? segmentPrefixLength lengthPrefix)
            let framing ← Outcome.mapErr decryptionError
              (SegmentFraming.decode self.parameters lengthPrefix)
            .ok (lengthPrefix, framing) :
              IoResult (Octets segmentPrefixLength × SegmentFraming)) with
        | .error stop =>
            (.error stop, self)
        | .ok (lengthPrefix, framing) =>
            self.fetchRemainder lengthPrefix framing

/-- `DecryptReader::finish_if_final`. -/
def finishIfFinal (self : DecryptReader) (framing : SegmentFraming) :
    IoResult Unit × DecryptReader :=
  if framing.kind.isFinal then
    match self.decryptor with
    | none =>
        (.error (.err poisonedError), self)
    | some decryptor =>
        let self := { self with decryptor := none }
        match Outcome.mapErr decryptionError decryptor.finish with
        | .error stop => (.error stop, self)
        | .ok () => (.ok (), { self with status := .frameComplete })
  else
    (.ok (), self)

/-- `DecryptReader::try_load_segment`. -/
def tryLoadSegment (platform : Platform) (self : DecryptReader) :
    IoResult Unit × DecryptReader :=
  match self.fetchSegment with
  | (.error stop, self) =>
      (.error stop, self)
  | (.ok framing, self) =>
      match self.decryptor with
      | none =>
          (.error (.err poisonedError), self)
      | some decryptor =>
          match decryptor.decryptSegmentInPlace platform self.buffer with
          | (.error stop, buffer, decryptor) =>
              (Outcome.mapErr decryptionError (.error stop),
                { self with buffer, decryptor := some decryptor })
          | (.ok plaintext, buffer, decryptor) =>
              match { self with
                  buffer, decryptor := some decryptor }.finishIfFinal
                  framing with
              | (.error stop, self) =>
                  (.error stop, self)
              | (.ok (), self) =>
                  (.ok (),
                    { self with
                      plaintextConsumed := 0
                      plaintextAvailable := plaintext.length })

/-- The status change that `load_segment` and `read_segment_direct` make when
their inner step fails. -/
def poisonOnError {α ω : Type} :
    IoResult α × DecryptReader × ω → IoResult α × DecryptReader × ω
  | (.ok value, self, borrowed) =>
      (.ok value, self, borrowed)
  | (.error (.err error), self, borrowed) =>
      (.error (.err error), { self with status := .failed }, borrowed)
  | (.error .panic, self, borrowed) =>
      (.error .panic, self, borrowed)
  | (.error .diverge, self, borrowed) =>
      (.error .diverge, self, borrowed)

/-- `DecryptReader::load_segment`. -/
def loadSegment (platform : Platform) (self : DecryptReader) :
    IoResult Unit × DecryptReader :=
  match self.tryLoadSegment platform with
  | (result, self) =>
      match poisonOnError (result, self, ()) with
      | (result, self, ()) => (result, self)

/-- `DecryptReader::try_read_segment_direct`: decrypts the next segment
straight into the caller's buffer. -/
def tryReadSegmentDirect (platform : Platform) (self : DecryptReader)
    (output : Bytes) : IoResult Nat × DecryptReader × Bytes :=
  match self.fetchSegment with
  | (.error stop, self) =>
      (.error stop, self, output)
  | (.ok framing, self) =>
      match self.decryptor,
          Outcome.mapErr decryptionError self.buffer.ciphertext with
      | none, _ =>
          (.error (.err poisonedError), self, output)
      | some _, .error stop =>
          (.error stop, self, output)
      | some decryptor, .ok ciphertext =>
          match decryptor.decryptSegmentIntoFramed platform ciphertext
              framing output with
          | (.error stop, decryptor, output) =>
              (Outcome.mapErr decryptionError (.error stop),
                { self with decryptor := some decryptor }, output)
          | (.ok written, decryptor, output) =>
              match { self with
                  decryptor := some decryptor }.finishIfFinal framing with
              | (.error stop, self) =>
                  (.error stop, self, output)
              | (.ok (), self) =>
                  (.ok written,
                    { self with
                      plaintextConsumed := 0, plaintextAvailable := 0 },
                    output)

/-- `DecryptReader::read_segment_direct`. -/
def readSegmentDirect (platform : Platform) (self : DecryptReader)
    (output : Bytes) : IoResult Nat × DecryptReader × Bytes :=
  poisonOnError (self.tryReadSegmentDirect platform output)

/-- The loop of `drain_message`. -/
def drainLoop (platform : Platform) :
    Nat → DecryptReader → IoResult Unit × DecryptReader
  | 0, self =>
      (.error .diverge, self)
  | fuel + 1, self =>
      if self.status = .opened then
        match self.loadSegment platform with
        | (.error stop, self) =>
            (.error stop, self)
        | (.ok (), self) =>
            drainLoop platform fuel
              { self with plaintextConsumed := self.plaintextAvailable }
      else
        (.ok (), self)

/-- `DecryptReader::drain_message`.  Every turn of the loop takes a segment
from the source, whose length bounds the number of turns. -/
def drainMessage (platform : Platform) (self : DecryptReader) :
    IoResult Unit × DecryptReader :=
  let self := { self with plaintextConsumed := self.plaintextAvailable }
  match drainLoop platform (self.inner.remaining.length + 2) self with
  | (.error stop, self) =>
      (.error stop, self)
  | (.ok (), self) =>
      if self.status = .failed then
        (.error (.err poisonedError), self)
      else
        (.ok (), self)

/-- `DecryptReader::try_finish`. -/
def tryFinish (platform : Platform) (self : DecryptReader) :
    IoResult Unit × DecryptReader :=
  if self.status = .streamComplete then
    (.ok (), self)
  else
    match self.drainMessage platform with
    | (.error stop, self) =>
        (.error stop, self)
    | (.ok (), self) =>
        match readFully self.inner (zeros 1) with
        | (.ok 0, _, inner) =>
            (.ok (), { self with inner, status := .streamComplete })
        | (.ok (_ + 1), _, inner) =>
            (.error (.err trailingDataError),
              { self with inner, status := .failed })
        | (.error (.err error), _, inner) =>
            (.error (.err error), { self with inner, status := .failed })
        | (.error .panic, _, inner) =>
            (.error .panic, { self with inner })
        | (.error .diverge, _, inner) =>
            (.error .diverge, { self with inner })

/-- `DecryptReader::try_finish_frame`. -/
def tryFinishFrame (platform : Platform) (self : DecryptReader) :
    IoResult Unit × DecryptReader :=
  self.drainMessage platform

/-- `DecryptReader::finish`; returns the wrapped reader in either case. -/
def finish (platform : Platform) (self : DecryptReader) :
    IoResult Unit × Source IoPayload :=
  match self.tryFinish platform with
  | (result, self) => (result, self.inner)

/-- `DecryptReader::finish_frame`; returns the wrapped reader in either
case. -/
def finishFrame (platform : Platform) (self : DecryptReader) :
    IoResult Unit × Source IoPayload :=
  match self.tryFinishFrame platform with
  | (result, self) => (result, self.inner)

/-- The part of `DecryptReader::read` that hands out buffered plaintext. -/
def readBuffered (self : DecryptReader) (output : Bytes) :
    IoResult Nat × DecryptReader × Bytes :=
  match (do
      let plaintext ← Outcome.mapErr decryptionError self.buffer.plaintext
      let available ← sub self.plaintextAvailable self.plaintextConsumed
      let read := min output.length available
      let stop := self.plaintextConsumed + read
      let chunk ← slice plaintext self.plaintextConsumed stop
      let output ← copyRange output 0 read chunk
      .ok (read, stop, output) : IoResult (Nat × Nat × Bytes)) with
  | .error failure =>
      (.error failure, self, output)
  | .ok (read, stop, output) =>
      (.ok read, { self with plaintextConsumed := stop }, output)

/-- `Read::read`. -/
def read (platform : Platform) (self : DecryptReader) (output : Bytes) :
    IoResult Nat × DecryptReader × Bytes :=
  if output = [] then
    (.ok 0, self, output)
  else if self.status = .failed then
    (.error (.err poisonedError), self, output)
  else if self.plaintextConsumed = self.plaintextAvailable then
    if self.isComplete then
      (.ok 0, self, output)
    else if output.length ≥ self.parameters.plaintextSegmentLength then
      self.readSegmentDirect platform output
    else
      match self.loadSegment platform with
      | (.error stop, self) =>
          (.error stop, self, output)
      | (.ok (), self) =>
          if self.plaintextConsumed = self.plaintextAvailable then
            ((do
              Outcome.debugAssert self.isComplete
              .ok 0), self, output)
          else
            self.readBuffered output
  else
    self.readBuffered output

end DecryptReader

end FastFloe
