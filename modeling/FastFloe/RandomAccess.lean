import FastFloe.Wire

namespace FastFloe

open Rust

/-!
# Authenticated random access

The seekable `Reader`.  It keeps two caches: the segment whose plaintext its
scratch buffer holds, and the position of the wrapped reader.  Every method
returns the reader it leaves behind, whether or not it succeeded.
-/

/-- `core::ops::Bound`. -/
inductive Bound where
  | included (offset : Nat)
  | excluded (offset : Nat)
  | unbounded
  deriving Repr, DecidableEq

/-- `std::io::SeekFrom`. -/
inductive SeekFrom where
  | start (offset : Nat)
  | fromEnd (delta : Int)
  | current (delta : Int)
  deriving Repr, DecidableEq

/-- `validate_range`. -/
def validateRange (start stop plaintextLength : Nat) : IoResult Unit :=
  if start > stop ∨ stop > plaintextLength then
    .error (.err ⟨.invalidInput, some (.text
      ("plaintext range " ++ toString start ++ ".." ++ toString stop ++
        " is outside 0.." ++ toString plaintextLength))⟩)
  else
    .ok ()

/-- `resolve_bounds`; returns the start and the end of the range. -/
def resolveBounds (startBound endBound : Bound) (plaintextLength : Nat) :
    IoResult (Nat × Nat) := do
  let start ← match startBound with
    | .included start => .ok start
    | .excluded start => Outcome.okOr lengthOverflow (checkedAdd u64Max start 1)
    | .unbounded => .ok 0
  let stop ← match endBound with
    | .included stop => Outcome.okOr lengthOverflow (checkedAdd u64Max stop 1)
    | .excluded stop => .ok stop
    | .unbounded => .ok plaintextLength
  validateRange start stop plaintextLength
  .ok (start, stop)

/-- `remaining_length`. -/
def remainingLength (reader : Source IoPayload) (messageStart : Nat) :
    IoResult Nat × Source IoPayload :=
  match reader.seekEnd with
  | (.error stop, reader) =>
      (.error stop, reader)
  | (.ok stop, reader) =>
      (Outcome.okOr ⟨.invalidData, some (.text
        "FLOE ciphertext ends before its starting position")⟩
        (checkedSub stop messageStart), reader)

/-- `validate_header_bound`. -/
def validateHeaderBound (target : Target) (ciphertextLength : Nat) :
    IoResult Unit :=
  if ciphertextLength < headerLength then
    .error (.err (decryptionError (.invalidHeaderLength
      (lengthU64ToUsizeSaturating target ciphertextLength))))
  else
    .ok ()

/-- Authenticated random-access reader for a complete seekable ciphertext. -/
structure Reader where
  inner : Source IoPayload
  state : DecryptionState
  header : Header
  layout : MessageLayout
  messageStart : Nat
  scratch : SegmentBuffer
  plaintextPosition : Nat
  cachedPosition : Option Nat
  /-- The wrapped reader's byte position, `none` whenever it is uncertain. -/
  innerPosition : Option Nat

namespace Reader

def plaintextLength (self : Reader) : Nat := self.layout.plaintextLength

def segmentCount (self : Reader) : Nat := self.layout.segmentCount

/-- `Reader::get_mut`, through which the caller uses the wrapped reader. -/
def getMut (self : Reader) (use : Source IoPayload → Source IoPayload) :
    Reader :=
  { self with inner := use self.inner, innerPosition := none }

/-- `Reader::segment`. -/
def segment (platform : Platform) (self : Reader) (position : Nat) :
    IoResult SegmentLayout := do
  -- The layout reports no `Err`, so nothing is converted here.
  let segment ← Outcome.mapErr decryptionError
    (self.layout.segmentForPosition platform.target position)
  Outcome.okOr ⟨.invalidInput, some (.text
    ("FLOE segment position " ++ toString position ++ " is outside 0.." ++
      toString self.segmentCount))⟩ segment

/-! ## Segment access -/

/-- `Reader::seek_inner_to`: skips the seek when the tracked position already
matches. -/
def seekInnerTo (self : Reader) (offset : Nat) : IoResult Unit × Reader :=
  if self.innerPosition = some offset then
    (.ok (), self)
  else
    match self.inner.seekStart offset with
    | (.error stop, inner) =>
        (.error stop, { self with inner, innerPosition := none })
    | (.ok _, inner) =>
        (.ok (), { self with inner, innerPosition := some offset })

/-- `Reader::seek_to_segment`. -/
def seekToSegment (self : Reader) (segment : SegmentLayout) :
    IoResult Unit × Reader :=
  match checkedAdd u64Max self.messageStart segment.ciphertextOffset with
  | none => (.error (.err lengthOverflow), self)
  | some offset => self.seekInnerTo offset

/-- `Reader::seek_to_body_start`. -/
def seekToBodyStart (self : Reader) : IoResult Unit × Reader :=
  match checkedAdd u64Max self.messageStart headerLength with
  | none => (.error (.err lengthOverflow), self)
  | some offset => self.seekInnerTo offset

/-- `Reader::fetch_segment_ciphertext`: invalidates the plaintext cache, then
reads the complete segment into the scratch buffer. -/
def fetchSegmentCiphertext (self : Reader) (segment : SegmentLayout) :
    IoResult Unit × Reader :=
  match { self with cachedPosition := none }.seekToSegment segment with
  | (.error stop, self) =>
      (.error stop, self)
  | (.ok (), self) =>
      let positionAfterRead := self.innerPosition.bind fun position =>
        checkedAdd u64Max position segment.ciphertextLength
      -- The position is uncertain while the read is outstanding.
      let self := { self with innerPosition := none }
      match self.scratch.prepareCiphertext segment.ciphertextLength with
      | (.error stop, scratch) =>
          (Outcome.mapErr decryptionError (.error stop),
            { self with scratch })
      | (.ok ciphertext, scratch) =>
          match readExactSegment self.inner ciphertext with
          | (.error stop, ciphertext, inner) =>
              (.error stop,
                { self with
                  inner
                  scratch :=
                    scratch.withRaw (writeBack scratch.bytes 0 ciphertext) })
          | (.ok (), ciphertext, inner) =>
              (.ok (),
                { self with
                  inner
                  scratch :=
                    scratch.withRaw (writeBack scratch.bytes 0 ciphertext)
                  innerPosition := positionAfterRead })

/-- `Reader::load_segment`. -/
def loadSegment (platform : Platform) (self : Reader)
    (segment : SegmentLayout) : IoResult Unit × Reader :=
  match self.fetchSegmentCiphertext segment with
  | (.error stop, self) =>
      (.error stop, self)
  | (.ok (), self) =>
      match self.state.decryptSegmentInPlace platform self.scratch segment with
      | (.error stop, scratch, state) =>
          (Outcome.mapErr decryptionError (.error stop),
            { self with scratch, state })
      | (.ok _, scratch, state) =>
          (.ok (),
            { self with
              scratch, state, cachedPosition := some segment.position })

/-- `Reader::load_cached_segment`. -/
def loadCachedSegment (platform : Platform) (self : Reader)
    (segment : SegmentLayout) : IoResult Unit × Reader :=
  if self.cachedPosition = some segment.position then
    (.ok (), self)
  else
    self.loadSegment platform segment

/-- `Reader::decrypt_segment_direct`. -/
def decryptSegmentDirect (platform : Platform) (self : Reader)
    (segment : SegmentLayout) (output : Bytes) :
    IoResult Unit × Reader × Bytes :=
  match self.fetchSegmentCiphertext segment with
  | (.error stop, self) =>
      (.error stop, self, output)
  | (.ok (), self) =>
      match self.scratch.ciphertext with
      | .error stop =>
          (Outcome.mapErr decryptionError (.error stop), self, output)
      | .ok ciphertext =>
          match self.state.decryptSegmentInto platform ciphertext segment
              output with
          | (.error stop, state, output) =>
              (Outcome.mapErr decryptionError (.error stop),
                { self with state }, output)
          | (.ok _, state, output) =>
              (.ok (), { self with state }, output)

/-! ## Construction -/

/-- `Reader::from_parts`: authenticates the final segment. -/
def fromParts (platform : Platform) (inner : Source IoPayload)
    (state : DecryptionState) (header : Header)
    (messageStart ciphertextLength : Nat) : IoResult Reader := do
  let parameters := state.parameters
  let layout ← Outcome.mapErr decryptionError
    (parameters.ciphertextLayout platform.target ciphertextLength)
  let reader : Reader :=
    { inner, state, header, layout, messageStart
      scratch := SegmentBuffer.new parameters
      plaintextPosition := 0
      cachedPosition := none
      innerPosition := none }
  let final ← Outcome.mapErr decryptionError
    (layout.finalSegment platform.target)
  match reader.loadSegment platform final with
  | (.error stop, _) =>
      .error stop
  | (.ok (), reader) =>
      let reader :=
        { reader with
          scratch := reader.scratch.clear, cachedPosition := none }
      match reader.seekToBodyStart with
      | (.error stop, _) => .error stop
      | (.ok (), reader) => .ok reader

/-- The constructors' common part: the start position, the header and the
decryption state that `start` makes of it. -/
def openHeader (start : Header → Result DecryptionState)
    (inner : Source IoPayload) :
    IoResult (Nat × Header × DecryptionState × Source IoPayload) :=
  match inner.streamPosition with
  | (.error stop, _) =>
      .error stop
  | (.ok messageStart, inner) =>
      match readHeader inner with
      | (.error stop, _) =>
          .error stop
      | (.ok header, inner) => do
          let state ← Outcome.mapErr decryptionError (start header)
          .ok (messageStart, header, state, inner)

/-- A constructor that takes the message to extend to the source's end. -/
def openToEnd (platform : Platform) (start : Header → Result DecryptionState)
    (inner : Source IoPayload) : IoResult Reader := do
  let (messageStart, header, state, inner) ← openHeader start inner
  match remainingLength inner messageStart with
  | (.error stop, _) =>
      .error stop
  | (.ok ciphertextLength, inner) =>
      fromParts platform inner state header messageStart ciphertextLength

/-- A constructor that is given the message's length. -/
def openWithLength (platform : Platform)
    (start : Header → Result DecryptionState) (inner : Source IoPayload)
    (ciphertextLength : Nat) : IoResult Reader := do
  validateHeaderBound platform.target ciphertextLength
  let (messageStart, header, state, inner) ← openHeader start inner
  fromParts platform inner state header messageStart ciphertextLength

/-- `Reader::new`. -/
def new (platform : Platform) (inner : Source IoPayload) (key : Key)
    (aad : Bytes) : IoResult Reader :=
  openToEnd platform (startDecryptionInferred platform key aad) inner

/-- `Reader::new_with_parameters`. -/
def newWithParameters (platform : Platform) (inner : Source IoPayload)
    (key : Key) (aad : Bytes) (parameters : Parameters) : IoResult Reader :=
  openToEnd platform (startDecryption platform key aad parameters) inner

/-- `Reader::new_with_length`. -/
def newWithLength (platform : Platform) (inner : Source IoPayload) (key : Key)
    (aad : Bytes) (ciphertextLength : Nat) : IoResult Reader :=
  openWithLength platform (startDecryptionInferred platform key aad) inner
    ciphertextLength

/-- `Reader::new_with_length_and_parameters`. -/
def newWithLengthAndParameters (platform : Platform)
    (inner : Source IoPayload) (key : Key) (aad : Bytes)
    (ciphertextLength : Nat) (parameters : Parameters) : IoResult Reader :=
  openWithLength platform (startDecryption platform key aad parameters) inner
    ciphertextLength

/-! ## Segment and range reads -/

/-- `Reader::read_segment_into`. -/
def readSegmentInto (platform : Platform) (self : Reader) (position : Nat)
    (output : Bytes) : IoResult Nat × Reader × Bytes :=
  match self.segment platform position with
  | .error stop =>
      (.error stop, self, output)
  | .ok segment =>
      let required := segment.plaintextLength
      if output.length < required then
        (.error (.err (outputTooSmall output.length required)), self, output)
      else
        match (slice output 0 required : IoResult Bytes) with
        | .error stop =>
            (.error stop, self, output)
        | .ok region =>
            match self.decryptSegmentDirect platform segment region with
            | (.error stop, self, region) =>
                (.error stop, self, writeBack output 0 region)
            | (.ok (), self, region) =>
                (.ok required, self, writeBack output 0 region)

/-- `Reader::read_segment`. -/
def readSegment (platform : Platform) (self : Reader) (position : Nat) :
    IoResult Bytes × Reader :=
  match self.segment platform position with
  | .error stop =>
      (.error stop, self)
  | .ok segment =>
      match self.readSegmentInto platform position
          (zeros segment.plaintextLength) with
      | (.error stop, self, _) => (.error stop, self)
      | (.ok _, self, plaintext) => (.ok plaintext, self)

/-- Whether the range covers the whole segment. -/
def coversFully (start stop segmentStart segmentLength : Nat) :
    IoResult Bool := do
  if start ≤ segmentStart then
    let segmentEnd ← add u64Max segmentStart segmentLength
    .ok (segmentEnd ≤ stop)
  else
    .ok false

/-- The part of a cached segment's plaintext that lies in the range. -/
def rangeChunk (target : Target) (start stop segmentStart : Nat)
    (plaintext : Bytes) : IoResult Bytes := do
  let localStart ← Outcome.okOr lengthOverflow
    (target.tryFromU64 (start - segmentStart))
  let localStart := min localStart plaintext.length
  let plaintextEnd ← add u64Max segmentStart plaintext.length
  let localEnd ← sub (min stop plaintextEnd) segmentStart
  let localEnd ← Outcome.okOr lengthOverflow (target.tryFromU64 localEnd)
  slice plaintext localStart localEnd

/-- One turn of the loop of `read_resolved_range_into`; returns how far the
output has been written. -/
def readRangeSegment (platform : Platform) (self : Reader)
    (start stop position : Nat) (output : Bytes) (written : Nat) :
    IoResult Nat × Reader × Bytes :=
  match (do
      let segment ← self.segment platform position
      let covered ← coversFully start stop segment.plaintextOffset
        segment.plaintextLength
      .ok (segment, covered) : IoResult (SegmentLayout × Bool)) with
  | .error failure =>
      (.error failure, self, output)
  | .ok (segment, true) =>
      match (do
          let writtenEnd ← add platform.target.usizeMax written
            segment.plaintextLength
          let region ← slice output written writtenEnd
          .ok (writtenEnd, region) : IoResult (Nat × Bytes)) with
      | .error failure =>
          (.error failure, self, output)
      | .ok (writtenEnd, region) =>
          match self.decryptSegmentDirect platform segment region with
          | (.error failure, self, region) =>
              (.error failure, self, writeBack output written region)
          | (.ok (), self, region) =>
              (.ok writtenEnd, self, writeBack output written region)
  | .ok (segment, false) =>
      match self.loadCachedSegment platform segment with
      | (.error failure, self) =>
          (.error failure, self, output)
      | (.ok (), self) =>
          match (do
              let plaintext ←
                Outcome.mapErr decryptionError self.scratch.plaintext
              let chunk ← rangeChunk platform.target start stop
                segment.plaintextOffset plaintext
              let writtenEnd ← add platform.target.usizeMax written
                chunk.length
              let output ← copyRange output written writtenEnd chunk
              .ok (writtenEnd, output) : IoResult (Nat × Bytes)) with
          | .error failure =>
              (.error failure, self, output)
          | .ok (writtenEnd, output) =>
              (.ok writtenEnd, self, output)

/-- The loop of `read_resolved_range_into` over `remaining` positions. -/
def readRangeLoop (platform : Platform) (start stop : Nat) :
    (remaining : Nat) → Reader → (position : Nat) → (output : Bytes) →
      (written : Nat) → IoResult Nat × Reader × Bytes
  | 0, self, _, output, written =>
      (.ok written, self, output)
  | remaining + 1, self, position, output, written =>
      match self.readRangeSegment platform start stop position output
          written with
      | (.error failure, self, output) =>
          (.error failure, self, output)
      | (.ok written, self, output) =>
          readRangeLoop platform start stop remaining self (position + 1)
            output written

/-- `Reader::read_resolved_range_into` on `start..stop`. -/
def readResolvedRangeInto (platform : Platform) (self : Reader)
    (start stop : Nat) (output : Bytes) : IoResult Nat × Reader × Bytes :=
  if stop ≤ start then
    (.ok 0, self, output)
  else
    match (sub stop 1 : IoResult Nat) with
    | .error failure =>
        (.error failure, self, output)
    | .ok lastOffset =>
        let first := self.layout.positionForPlaintextOffset start
        let last := self.layout.positionForPlaintextOffset lastOffset
        match readRangeLoop platform start stop (last + 1 - first) self first
            output 0 with
        | (.error failure, self, output) =>
            (.error failure, self, output)
        | (.ok written, self, output) =>
            ((do
              Outcome.debugAssert (written = stop - start)
              .ok written), self, output)

/-- `Reader::read_range`. -/
def readRange (platform : Platform) (self : Reader)
    (startBound endBound : Bound) : IoResult Bytes × Reader :=
  match (do
      let (start, stop) ← resolveBounds startBound endBound
        self.plaintextLength
      let length ← sub stop start
      let capacity ← Outcome.okOr lengthOverflow
        (platform.target.tryFromU64 length)
      .ok (start, stop, capacity) : IoResult (Nat × Nat × Nat)) with
  | .error failure =>
      (.error failure, self)
  | .ok (start, stop, capacity) =>
      match self.readResolvedRangeInto platform start stop
          (zeros capacity) with
      | (.error failure, self, _) => (.error failure, self)
      | (.ok _, self, output) => (.ok output, self)

/-- `Reader::read_range_into`. -/
def readRangeInto (platform : Platform) (self : Reader)
    (startBound endBound : Bound) (output : Bytes) :
    IoResult Nat × Reader × Bytes :=
  match (do
      let (start, stop) ← resolveBounds startBound endBound
        self.plaintextLength
      let length ← sub stop start
      let required ← Outcome.okOr lengthOverflow
        (platform.target.tryFromU64 length)
      .ok (start, stop, required) : IoResult (Nat × Nat × Nat)) with
  | .error failure =>
      (.error failure, self, output)
  | .ok (start, stop, required) =>
      if output.length < required then
        (.error (.err (outputTooSmall output.length required)), self, output)
      else
        self.readResolvedRangeInto platform start stop output

/-! ## Sequential reads and seeks over the plaintext -/

/-- The bytes of the loaded segment that `Reader::read` copies out. -/
def readChunk (platform : Platform) (self : Reader) (segment : SegmentLayout)
    (capacity : Nat) : IoResult Bytes := do
  let plaintext ← Outcome.mapErr decryptionError self.scratch.plaintext
  let offset ← sub self.plaintextPosition segment.plaintextOffset
  let offset ← Outcome.okOr lengthOverflow
    (platform.target.tryFromU64 offset)
  let available ← sub plaintext.length offset
  slice plaintext offset (offset + min capacity available)

/-- `Read::read`. -/
def read (platform : Platform) (self : Reader) (output : Bytes) :
    IoResult Nat × Reader × Bytes :=
  if output = [] then
    (.ok 0, self, output)
  else if self.plaintextPosition ≥ self.plaintextLength then
    (.ok 0, self, output)
  else
    let position :=
      self.layout.positionForPlaintextOffset self.plaintextPosition
    match self.segment platform position with
    | .error failure =>
        (.error failure, self, output)
    | .ok segment =>
        match self.loadCachedSegment platform segment with
        | (.error failure, self) =>
            (.error failure, self, output)
        | (.ok (), self) =>
            match (do
                let chunk ← self.readChunk platform segment output.length
                let output ← copyRange output 0 chunk.length chunk
                let position ←
                  add u64Max self.plaintextPosition chunk.length
                .ok (chunk.length, output, position) :
                  IoResult (Nat × Bytes × Nat)) with
            | .error failure =>
                (.error failure, self, output)
            | .ok (read, output, position) =>
                (.ok read, { self with plaintextPosition := position },
                  output)

/-- `Seek::seek`. -/
def seek (self : Reader) (position : SeekFrom) : IoResult Nat × Reader :=
  let resolved :=
    match position with
    | .start offset => some offset
    | .fromEnd delta => checkedAddSigned u64Max self.plaintextLength delta
    | .current delta => checkedAddSigned u64Max self.plaintextPosition delta
  match resolved with
  | some position =>
      (.ok position, { self with plaintextPosition := position })
  | none =>
      (.error (.err ⟨.invalidInput, some (.text
        "seek outside the representable plaintext position range")⟩), self)

/-- `Seek::stream_position`. -/
def streamPosition (self : Reader) : IoResult Nat × Reader :=
  (.ok self.plaintextPosition, self)

end Reader

end FastFloe
