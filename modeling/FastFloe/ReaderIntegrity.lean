import FastFloe.EncryptWriterRuns
import FastFloe.HeaderPaths
import FastFloe.Integrity
import FastFloe.ReaderRuns

namespace FastFloe

open Rust

/-!
# Integrity of random access

A `Reader` learns the number of segments from a length that it is told, or finds
stored, and that nobody authenticates.  What pins it down is the final segment,
which every constructor opens: its position and its kind are in the AAD.  So
behind the header of an honest run a `Reader` that could be opened at all has
the layout of that run, whatever bytes are stored, and serves the plaintext of
that run.
-/

/-! ## What is assumed of the AEAD and of the key derivation -/

section Assumptions

variable {platform : Platform} {key : Key} {ι : Type}

/-- What opens under a segment key of a run, also at a position that the run
does not reach, was sealed under that key in one of the runs. -/
def Unforgeable (runs : ι → HonestRun platform key) : Prop :=
  ∀ run position segmentKey,
    (runs run).context.segmentKey platform position = some segmentKey →
      ∀ aad (parts : SegmentParts) plaintext,
        segmentKey.opened platform parts.nonce aad parts.ciphertext
            parts.tag = some plaintext →
          ∃ other, (runs other).Sealed segmentKey aad parts plaintext

/-- No key that a run derives for a position equals one that a run has used for
other inputs. -/
def SeparatesKeys (runs : ι → HonestRun platform key) : Prop :=
  ∀ first second position position' material,
    position' < (runs second).emissions.length →
      platform.kdfExpand (runs first).context.provider 32
          (runs first).context.messageKey.val
          ((runs first).keyInfo position) = .ok material →
        platform.kdfExpand (runs second).context.provider 32
            (runs second).context.messageKey.val
            ((runs second).keyInfo position') = .ok material →
          ((runs first).keyInfo position).flatten =
            ((runs second).keyInfo position').flatten

end Assumptions

/-! ## The segments that open -/

section Segments

variable {platform : Platform} {key : Key} {ι : Type}
  {runs : ι → HonestRun platform key} {run : ι}

/-- Whatever segment opens at a position, also far behind the run, is the run's
segment there. -/
theorem emission_of_opens
    (agree : platform.SealsAgree)
    (distinct : ∀ first second,
      (runs first).triple = (runs second).triple → first = second)
    (unforgeable : Unforgeable runs)
    (separates : SeparatesKeys runs)
    {position : Nat}
    {kind : SegmentKind}
    {segment plaintext : Bytes}
    (opens :
      (runs run).context.Opens platform position kind segment plaintext) :
    kind = (runs run).kind position ∧
      (runs run).emissions[position]? = some (segment, plaintext) := by
  obtain ⟨parts, cut, _⟩ :=
    segmentParts_of_length opens.framed.length_bounds.1
  have below := MessageContext.openSegment_limit opens.opened
  obtain ⟨segmentKey, scheduled, opened⟩ :=
    (MessageContext.openSegment_eq_some cut).mp opens.opened
  obtain ⟨other, index, segment', member, scheduled', cut', aad⟩ :=
    unforgeable run position segmentKey scheduled _ parts plaintext opened
  have inside : index < (runs other).emissions.length :=
    (List.getElem?_eq_some_iff.mp member).1
  obtain rfl : run = other := by
    apply distinct
    apply HonestRun.triple_of_keyInfo
    exact separates run other position index _ inside
      (MessageContext.material_of_segmentKey scheduled)
      (MessageContext.material_of_segmentKey scheduled')
  obtain ⟨rfl, rfl⟩ := segmentAad_injective below
    (MessageContext.segmentKey_limit scheduled') aad
  have framed := ((runs run).seals_at agree member).2.framed.2
  obtain rfl := opens.framed.eq_of_parts framed cut cut'
  exact ⟨rfl, member⟩

/-- The segments of a run encrypt the blocks of its plaintext. -/
theorem HonestRun.block_eq
    (agree : platform.SealsAgree)
    (run : HonestRun platform key)
    {position : Nat}
    {segment plaintext : Bytes}
    (member : run.emissions[position]? = some (segment, plaintext)) :
    Blocks.block run.context.parameters.plaintextSegmentLength position
        run.plaintext = plaintext ∧
      run.plaintext.length ≤
        run.emissions.length *
          run.context.parameters.plaintextSegmentLength ∧
      (run.emissions.length - 1) *
          run.context.parameters.plaintextSegmentLength ≤
        run.plaintext.length := by
  have here := (Encryptor.new_eq_ok run.startSound run.created).2.2
  obtain ⟨middle, last, lastPlaintext, shape, message⟩ :=
    runCalls_sealedMessage agree here run.callsSound run.completed
  have uniform := message.run.uniform
  have short : lastPlaintext.length ≤
      run.context.parameters.plaintextSegmentLength :=
    message.last.fits
  have whole : run.plaintext =
      (middle.map Prod.snd).flatten ++ lastPlaintext := by
    simp only [HonestRun.plaintext, shape, List.map_append, List.map_cons,
      List.map_nil, List.flatten_append, List.flatten_singleton]
  have count : run.emissions.length = middle.length + 1 := by
    rw [shape, List.length_append, List.length_singleton]
  have length : run.plaintext.length =
      middle.length * run.context.parameters.plaintextSegmentLength +
        lastPlaintext.length := by
    rw [whole, List.length_append, Blocks.length_flatten uniform,
      List.length_map]
    rfl
  refine ⟨?_, ?_, ?_⟩
  · rw [shape] at member
    by_cases inMiddle : position < middle.length
    · rw [List.getElem?_append_left inMiddle] at member
      have inParts : position < (middle.map Prod.snd).length := by
        rwa [List.length_map]
      have cut := Blocks.block_flatten uniform inParts lastPlaintext
      rw [← whole, List.getElem_map] at cut
      rw [List.getElem?_eq_getElem inMiddle, Option.some.injEq] at member
      exact cut.trans (congrArg Prod.snd member)
    · have bound := (List.getElem?_eq_some_iff.mp member).1
      rw [← shape, count] at bound
      obtain rfl : position = middle.length :=
        Nat.le_antisymm (Nat.le_of_lt_succ bound) (Nat.le_of_not_lt inMiddle)
      rw [List.getElem?_append_right (Nat.le_refl _), Nat.sub_self] at member
      cases member
      have cut := Blocks.block_flatten_last uniform short
      rwa [← whole, List.length_map] at cut
  · rw [length, count, Nat.succ_mul]
    exact Nat.add_le_add_left short _
  · rw [length, count]
    exact Nat.le_add_right _ _

/-- A layout whose last segment opens under the context of a run is the layout
of that run. -/
theorem layout_of_lastSegment
    (agree : platform.SealsAgree)
    (distinct : ∀ first second,
      (runs first).triple = (runs second).triple → first = second)
    (unforgeable : Unforgeable runs)
    (separates : SeparatesKeys runs)
    {layout : MessageLayout}
    {segment plaintext : Bytes}
    (valid : layout.Valid)
    (matching : layout.parameters = (runs run).context.parameters)
    (complete :
      segment.length =
        (layout.entry (layout.segmentCount - 1)).ciphertextLength)
    (opens :
      (runs run).context.Opens platform (layout.segmentCount - 1)
        (kindAt layout.segmentCount (layout.segmentCount - 1)) segment
        plaintext) :
    layout.segmentCount = (runs run).emissions.length ∧
      (runs run).plaintext.length = layout.plaintextLength := by
  have isLast : layout.segmentCount - 1 + 1 = layout.segmentCount :=
    Nat.sub_add_cancel valid.count_pos
  obtain ⟨kind, member⟩ :=
    emission_of_opens agree distinct unforgeable separates opens
  have count : layout.segmentCount = (runs run).emissions.length := by
    rw [kindAt, if_pos isLast, HonestRun.kind, kindAt] at kind
    split at kind
    next complete => exact isLast.symm.trans complete
    · cases kind
  obtain ⟨cut, within, reached⟩ := (runs run).block_eq agree member
  refine ⟨count, ?_⟩
  -- Both lengths are the full segments and what the last one opens to.
  have payload : plaintext.length =
      (layout.entry (layout.segmentCount - 1)).plaintextLength := by
    have framed := opens.length_eq
    simp only [complete, MessageLayout.entry] at framed ⊢
    omega
  have last := (valid.last isLast).2
  rw [← payload, matching] at last
  have least := valid.reached
  rw [matching] at least
  have size := congrArg List.length cut
  rw [Blocks.length_block] at size
  rw [← count] at within reached
  rw [← isLast, Nat.succ_mul] at within
  rw [Nat.min_eq_right (Nat.sub_le_iff_le_add'.mpr within), last] at size
  omega

/-- A stored message under the context of a run whose final segment opens has
the layout of that run, and describes its plaintext. -/
theorem describes_run
    (agree : platform.SealsAgree)
    (distinct : ∀ first second,
      (runs first).triple = (runs second).triple → first = second)
    (unforgeable : Unforgeable runs)
    (separates : SeparatesKeys runs)
    {message : StoredMessage}
    (context : message.context = (runs run).context)
    (final : ∃ plaintext,
      message.OpensAt platform (message.layout.segmentCount - 1) plaintext) :
    message.layout.segmentCount = (runs run).emissions.length ∧
      message.Describes platform (runs run).plaintext := by
  obtain ⟨lastPlaintext, opens⟩ := final
  have there {position : Nat} {opened : Bytes}
      (opens : message.OpensAt platform position opened) :
      (runs run).context.Opens platform position
        (kindAt message.layout.segmentCount position)
        (message.segment position) opened := by
    rw [← context]
    exact opens.opens
  have same : message.layout.parameters = (runs run).context.parameters :=
    message.matching.trans (congrArg MessageContext.parameters context)
  obtain ⟨count, lengths⟩ :=
    layout_of_lastSegment agree distinct unforgeable separates message.valid
      same opens.complete (there opens)
  refine ⟨count, lengths, fun position opened opensThere => ?_⟩
  have member := (emission_of_opens agree distinct unforgeable separates
    (there opensThere)).2
  rw [same]
  exact ((runs run).block_eq agree member).1

end Segments

/-! ## Opened readers -/

/-- The readers that are opened on a source under a key and an AAD, for a
message of this length. -/
inductive Reader.OpenedOn (platform : Platform) (inner : Source IoPayload)
    (key : Key) (aad : Bytes) (reader : Reader) : Nat → Prop where
  | new
      (opened : Reader.new platform inner key aad = .ok reader) :
      OpenedOn platform inner key aad reader
        (inner.data.length - inner.cursor)
  | newWithParameters (parameters : Parameters)
      (opened :
        Reader.newWithParameters platform inner key aad parameters =
          .ok reader) :
      OpenedOn platform inner key aad reader
        (inner.data.length - inner.cursor)
  | newWithLength (ciphertextLength : Nat)
      (representable : ciphertextLength ≤ u64Max)
      (opened :
        Reader.newWithLength platform inner key aad ciphertextLength =
          .ok reader) :
      OpenedOn platform inner key aad reader ciphertextLength
  | newWithLengthAndParameters (ciphertextLength : Nat)
      (parameters : Parameters)
      (representable : ciphertextLength ≤ u64Max)
      (opened :
        Reader.newWithLengthAndParameters platform inner key aad
          ciphertextLength parameters = .ok reader) :
      OpenedOn platform inner key aad reader ciphertextLength

/-- An opened reader serves a message whose final segment opens, under the
context that its header stands for. -/
theorem Reader.OpenedOn.begun
    {platform : Platform}
    {inner : Source IoPayload}
    {key : Key}
    {aad : Bytes}
    {reader : Reader}
    {messageLength : Nat}
    (agree : platform.OpensAgree)
    (opened : OpenedOn platform inner key aad reader messageLength) :
    ∃ (message : StoredMessage) (header : Header),
      reader.Coherent platform message ∧
        message.layout.ciphertextLength = messageLength ∧
        header.val = inner.remaining.take headerLength ∧
        HeaderAuthenticates platform key aad header message.context ∧
        ∃ plaintext,
          message.OpensAt platform (message.layout.segmentCount - 1)
            plaintext := by
  have served
      {start : Header → Result DecryptionState}
      {ciphertextLength : Nat}
      {result : IoResult Reader}
      (opens : Reader.Opens platform start inner ciphertextLength result)
      (same : result = .ok reader)
      (starts : ∀ header state,
        start header = .ok state →
          startDecryptionInferred platform key aad header = .ok state) :
      ∃ (message : StoredMessage) (header : Header),
        reader.Coherent platform message ∧
          message.layout.ciphertextLength = ciphertextLength ∧
          header.val = inner.remaining.take headerLength ∧
          HeaderAuthenticates platform key aad header message.context ∧
          ∃ plaintext,
            message.OpensAt platform (message.layout.segmentCount - 1)
              plaintext := by
    rcases opens with ⟨other, message, success, begun⟩ | ⟨⟨error, failed⟩, _⟩
    · rw [same] at success
      cases success
      obtain ⟨header, state, content, started, context⟩ :=
        begun.openable.header
      refine ⟨message, header, begun.coherent, begun.openable.length, content,
        ?_, begun.openable.final⟩
      rw [context]
      exact .of_started (starts header state started)
    · rw [same] at failed
      cases failed
  cases opened with
  | new opened =>
      exact served (Reader.openToEnd_spec agree
        (Reader.startsReady_inferred platform key aad)) opened
        fun _ _ started => started
  | newWithParameters parameters opened =>
      exact served (Reader.openToEnd_spec agree
        (Reader.startsReady_parameters platform key aad parameters)) opened
        fun _ _ started => (startDecryption_eq_ok_iff.mp started).1
  | newWithLength ciphertextLength representable opened =>
      exact served (Reader.openWithLength_spec agree
        (Reader.startsReady_inferred platform key aad) representable) opened
        fun _ _ started => started
  | newWithLengthAndParameters ciphertextLength parameters representable
      opened =>
      exact served (Reader.openWithLength_spec agree
        (Reader.startsReady_parameters platform key aad parameters)
        representable) opened
        fun _ _ started => (startDecryption_eq_ok_iff.mp started).1

/-! ### Whatever is stored -/

/-- Behind the header of an honest run a `Reader` serves that run and nothing
else, whatever bytes are stored there, whatever length it is given and however
the wrapped reader fails: if it can be opened at all, the length is that of the
run's message, it has the run's number of segments and plaintext length, and
every call of any sequence of reads, seeks, segment and range reads is correct
for the run's plaintext. -/
theorem reader_servesRun
    {platform : Platform}
    {key : Key}
    {ι : Type}
    {runs : ι → HonestRun platform key}
    {inner : Source IoPayload}
    {reader : Reader}
    {messageLength : Nat}
    (agree : platform.SealsAgree)
    (opensAgree : platform.OpensAgree)
    (distinct : ∀ first second,
      (runs first).triple = (runs second).triple → first = second)
    (unforgeable : Unforgeable runs)
    (separates : SeparatesKeys runs)
    (run : ι)
    (opened :
      Reader.OpenedOn platform inner key (runs run).aad reader messageLength)
    (same :
      inner.remaining.take headerLength =
        (runs run).encryptor.header.val) :
    messageLength = headerLength + (runs run).segments.length ∧
      reader.segmentCount = (runs run).emissions.length ∧
      reader.plaintextLength = (runs run).plaintext.length ∧
      ∀ calls (call : ReaderCall),
        call.Correct platform (runs run).plaintext
          (runReader platform calls reader) := by
  obtain ⟨message, header, coherent, length, content, authentic, final⟩ :=
    opened.begun opensAgree
  obtain rfl := Subtype.ext (content.trans same)
  have context := authentic.unique (runs run).authentic
  obtain ⟨count, describes⟩ :=
    describes_run agree distinct unforgeable separates context final
  refine ⟨?_, ?_, ?_, fun calls call => ?_⟩
  · have whole := message.valid.ciphertext_eq
    rw [length, count, ← describes.length] at whole
    rw [(runs run).length_segments agree, whole, headerLength_eq]
    omega
  · rw [Reader.segmentCount, coherent.layout]
    exact count
  · rw [coherent.plaintextLength_eq]
    exact describes.length.symm
  · exact (call.perform_spec (runReader_coherent coherent opensAgree)
      opensAgree describes).2

/-! ### Readers of the sample runs -/

/-- What opens under a key of the sample runs was sealed in one of them. -/
theorem sampleRuns_unforgeable : Unforgeable sampleRuns := by
  intro run position segmentKey scheduled aad parts plaintext opened
  refine sampleRuns_sealed.mpr ⟨?_, opened⟩
  rw [(MessageContext.key_of_segmentKey scheduled).1]
  cases run <;> rfl

theorem sampleRuns_separatesKeys : SeparatesKeys sampleRuns := by
  intro first second position position' material _ derived derived'
  exact congrArg List.flatten (sampleRuns_separate derived derived').2

/-- A source of the first sample run's message with another byte stored behind
it, which interrupts its reader. -/
def sampleSource : Source IoPayload where
  data := sampleStored (sampleSegment 34 12 [8, 9] ++ [3])
  addressable := by decide +kernel
  cursor := 0
  script := [.interrupted, .short 73]

set_option maxRecDepth 100000 in
/-- A reader of this message, which reads a range across both segments. -/
theorem exists_sampleReader :
    ∃ reader : Reader,
      Reader.newWithLength samplePlatform sampleSource zeroKey [] 172 =
          .ok reader ∧
        sampleSource.remaining.take headerLength =
          (sampleRuns false).encryptor.header.val ∧
        (reader.readRange samplePlatform (.included 30) .unbounded).1 =
          .ok [7, 7, 8, 9] :=
  ⟨_, rfl, rfl, by decide +kernel⟩

/-- The reader serves both segments of its run. -/
theorem reader_servesRun_example :
    ∃ reader : Reader,
      Reader.newWithLength samplePlatform sampleSource zeroKey [] 172 =
          .ok reader ∧
        reader.segmentCount = 2 ∧ reader.plaintextLength = 34 ∧
        (reader.readRange samplePlatform (.included 30) .unbounded).1 =
          .ok [7, 7, 8, 9] ∧
        headerLength + (sampleRuns false).segments.length = 172 ∧
        ∀ calls (call : ReaderCall),
          call.Correct samplePlatform (List.replicate 32 7 ++ [8, 9])
            (runReader samplePlatform calls reader) := by
  obtain ⟨reader, opened, same, range⟩ := exists_sampleReader
  obtain ⟨length, count, size, correct⟩ :=
    @reader_servesRun samplePlatform zeroKey Bool sampleRuns sampleSource
      reader 172 keyed_sealsAgree keyed_opensAgree sampleRuns_distinct
      sampleRuns_unforgeable sampleRuns_separatesKeys false
      (.newWithLength 172 (by decide) opened) same
  rw [sampleRuns_first] at count
  rw [sampleRuns_plaintext] at size correct
  exact ⟨reader, opened, count, size.trans (by simp), range, length.symm,
    correct⟩

end FastFloe
