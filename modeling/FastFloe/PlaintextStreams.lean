import FastFloe.EncryptReaderStates

namespace FastFloe

open Rust

/-!
# What an encrypting reader has sealed

An `EncryptReader` on a source of which nothing is known: it may fragment, fail,
end early, jump about, and be exchanged through `get_mut` between two reads.
What the reader has sealed, followed by the byte that it carries ahead, is the
plaintext that it took off its sources, in the order in which it took it.
-/

namespace EncryptReader

/-! ## What a call takes and what it hands out -/

/-- The plaintext that a read into this output takes off the source. -/
def takes (self : EncryptReader) (output : Bytes) : Bytes :=
  if output ≠ [] ∧ self.status = .opened ∧
      ¬ self.headerPosition < headerLength ∧
      self.ciphertextPosition = self.ciphertextLength then
    self.fetched
  else
    []

/-- The plaintext that a call takes off the source. -/
def Call.taken (reader : EncryptReader) : Call → Bytes
  | .read output => reader.takes output
  | .getMut _ => []

/-- The plaintext that a run of calls takes off the sources. -/
def takenAll (platform : Platform) : EncryptReader → List Call → Bytes
  | _, [] =>
      []
  | reader, call :: calls =>
      call.taken reader ++
        takenAll platform (call.perform platform reader).2 calls

/-- The reader and its history after a run of calls. -/
def afterCalls (platform : Platform) (reader : EncryptReader)
    (calls : List Call) : EncryptReader × History :=
  reader.performAll History.start (calls.map (Prod.mk platform))

/-! ## Sealing the next segment -/

/-- A reader that has sealed this payload as its next segment. -/
structure SealsNext (platform : Platform) (context : MessageContext)
    (position : Nat) (before after : EncryptReader) (kind : SegmentKind)
    (segment payload : Bytes) : Prop where
  allowed : PositionAllows position kind
  seals : context.Seals platform position kind payload segment
  kept :
    before.lookahead.toList ++ before.fetched =
      payload ++ after.lookahead.toList
  last : kind = .final → after.lookahead = none
  encryptor :
    kind = .nonFinal →
      ∃ encryptor,
        after.encryptor = some encryptor ∧
          encryptor.At platform context (position + 1)

section Sealing

variable {platform : Platform} {context : MessageContext} {position : Nat}
  {reader next : EncryptReader} {encryptor : Encryptor}

/-- A step that seals has sealed its payload. -/
theorem seals_of_sealNext
    {state following : EncryptionState}
    {kind : SegmentKind}
    {payload segment : Bytes}
    (ready : state.Ready platform context)
    (step :
      state.sealNext platform payload position kind =
        (some segment, following)) :
    context.Seals platform position kind payload segment := by
  apply (EncryptionState.sealNext_spec payload position kind
    (Kdf.FaultOf.refl platform.kdfExpand) ready).2
  have step' :
      state.sealNext (platform.withKdf platform.kdfExpand) payload position
          kind =
        (some segment, following) :=
    step
  rw [step']

/-- `load_segment`, where it succeeds, has sealed the plaintext that
`fill_plaintext` put in the buffer. -/
theorem loadSegment_sealsNext
    (sized : reader.buffer.Sized)
    (opened : reader.status = .opened)
    (present : reader.encryptor = some encryptor)
    (here : encryptor.At platform context position)
    (loaded : reader.loadSegment platform = (.ok (), next)) :
    ∃ kind segment payload,
      SealsNext platform context position reader next kind segment payload ∧
        next.buffer.HoldsCiphertext segment ∧
        next.status = if kind.isFinal then .finished else .opened := by
  have sound := Kdf.FaultOf.refl platform.kdfExpand
  obtain ⟨inner, buffer, lookahead, _, _, _,
      ⟨isFinal, payload, filled, holds, ⟨kept, last⟩, _⟩ |
        ⟨error, filled, _⟩⟩ :=
    reader.fillPlaintext_takes sized
  · have content := holds.plaintext_eq
    cases isFinal with
    | true =>
        have nothing : lookahead = none := by
          cases lookahead with
          | none => rfl
          | some _ => cases last
        rcases here.encryptFinalSegmentInPlace_spec buffer sound with
          ⟨held, segment, state, left, read, step, result, _, settled⟩ |
            ⟨error, state, left, _, _, result, _⟩
        · rw [content] at read
          cases read
          cases loaded.symm.trans (loadSegment_final filled present result)
          exact ⟨.final, segment, payload,
            ⟨here.inside, seals_of_sealNext here.ready step, kept,
              fun _ => nothing, (fun impossible => by cases impossible)⟩,
            settled holds.sized, rfl⟩
        · cases loaded.symm.trans
            (loadSegment_final_error filled present result)
    | false =>
        rcases here.encryptNonFinalSegmentInPlace_spec buffer sound with
          ⟨held, segment, state, left, allowed, read, step, ready, result, _,
            settled⟩ | ⟨error, state, left, _, _, result, _⟩
        · rw [content] at read
          cases read
          cases loaded.symm.trans (loadSegment_nonFinal filled present result)
          exact ⟨.nonFinal, segment, payload,
            ⟨allowed, seals_of_sealNext here.ready step, kept,
              (fun impossible => by cases impossible),
              fun _ => ⟨_, rfl, here.stepped allowed ready⟩⟩,
            settled holds.sized, opened⟩
        · cases loaded.symm.trans
            (loadSegment_nonFinal_error filled present result)
  · cases loaded.symm.trans (loadSegment_unfilled filled)

/-- `emit_segment_direct`, where it succeeds, has put the segment of the
plaintext that `fill_plaintext` took at the start of the output. -/
theorem emitSegmentDirect_sealsNext
    {output left : Bytes}
    {count : Nat}
    (agree : platform.SealsAgree)
    (sized : reader.buffer.Sized)
    (opened : reader.status = .opened)
    (present : reader.encryptor = some encryptor)
    (here : encryptor.At platform context position)
    (emitted :
      reader.emitSegmentDirect platform output = (.ok count, next, left)) :
    ∃ kind payload,
      SealsNext platform context position reader next kind (left.take count)
          payload ∧
        next.status = if kind.isFinal then .finished else .opened := by
  have sound := Kdf.FaultOf.refl platform.kdfExpand
  obtain ⟨inner, buffer, lookahead, _, _, _,
      ⟨isFinal, payload, filled, holds, ⟨kept, last⟩, _⟩ |
        ⟨error, filled, _⟩⟩ :=
    reader.fillPlaintext_takes sized
  · have content := holds.plaintext_eq
    cases isFinal with
    | true =>
        have nothing : lookahead = none := by
          cases lookahead with
          | none => rfl
          | some _ => cases last
        rcases here.encryptFinalSegmentInto_spec payload output sound agree
          with ⟨segment, state, step, _, _, result⟩ |
            ⟨error, state, failed, _, _, result, _⟩
        · cases emitted.symm.trans
            (emitSegmentDirect_final filled present content result)
          rw [List.take_left]
          exact ⟨.final, payload,
            ⟨here.inside, seals_of_sealNext here.ready step, kept,
              fun _ => nothing, (fun impossible => by cases impossible)⟩, rfl⟩
        · cases emitted.symm.trans
            (emitSegmentDirect_final_error filled present content result)
    | false =>
        rcases here.encryptNonFinalSegmentInto_spec payload output sound agree
          with ⟨segment, state, allowed, step, _, _, ready, result⟩ |
            ⟨error, state, failed, _, _, result, _⟩
        · cases emitted.symm.trans
            (emitSegmentDirect_nonFinal filled present content result)
          rw [List.take_left]
          exact ⟨.nonFinal, payload,
            ⟨allowed, seals_of_sealNext here.ready step, kept,
              (fun impossible => by cases impossible),
              fun _ => ⟨_, rfl, here.stepped allowed ready⟩⟩, opened⟩
        · cases emitted.symm.trans
            (emitSegmentDirect_nonFinal_error filled present content result)
  · cases emitted.symm.trans (emitSegmentDirect_unfilled filled)

end Sealing

/-! ## Readers with what they have sealed -/

/-- How far a reader is that took this plaintext and sealed these segments, each
paired with its payload. -/
inductive Progress (platform : Platform) (context : MessageContext)
    (taken : Bytes) (blocks : List (Bytes × Bytes)) (reader : EncryptReader) :
    Prop where
  | opened
      {encryptor : Encryptor}
      (status : reader.status = .opened)
      (present : reader.encryptor = some encryptor)
      (here : encryptor.At platform context blocks.length)
      (run : SealedRun platform context 0 blocks)
      (kept :
        taken = (blocks.map Prod.snd).flatten ++ reader.lookahead.toList) :
      Progress platform context taken blocks reader
  | finished
      {middle : List (Bytes × Bytes)}
      {last lastPayload : Bytes}
      (status : reader.status = .finished)
      (whole : blocks = middle ++ [(last, lastPayload)])
      (message : SealedMessage platform context 0 middle last lastPayload)
      (kept : taken = (blocks.map Prod.snd).flatten) :
      Progress platform context taken blocks reader

/-- A reader that has not failed, with what it took and what it sealed. -/
structure Tracks (platform : Platform) (context : MessageContext)
    (taken : Bytes) (blocks : List (Bytes × Bytes)) (reader : EncryptReader) :
    Prop where
  consistent : reader.Consistent
  progress : reader.Progress platform context taken blocks

section Steps

variable {platform : Platform} {context : MessageContext} {taken : Bytes}
  {blocks : List (Bytes × Bytes)} {reader after : EncryptReader}

/-- A call that takes and seals nothing. -/
theorem Progress.idle
    (progress : reader.Progress platform context taken blocks)
    (status : after.status = reader.status)
    (encryptor : after.encryptor = reader.encryptor)
    (lookahead : after.lookahead = reader.lookahead) :
    after.Progress platform context taken blocks := by
  cases progress with
  | opened opened present here run kept =>
      apply Progress.opened (status.trans opened) (encryptor.trans present)
        here run
      rw [lookahead]
      exact kept
  | finished finished whole message kept =>
      exact .finished (status.trans finished) whole message kept

/-- The next segment was sealed. -/
theorem Progress.step
    {kind : SegmentKind}
    {segment payload : Bytes}
    (run : SealedRun platform context 0 blocks)
    (kept : taken = (blocks.map Prod.snd).flatten ++ reader.lookahead.toList)
    (fresh :
      SealsNext platform context blocks.length reader after kind segment
        payload)
    (status : after.status = if kind.isFinal then .finished else .opened) :
    after.Progress platform context (taken ++ reader.fetched)
      (blocks ++ [(segment, payload)]) := by
  have balance : taken ++ reader.fetched =
      ((blocks ++ [(segment, payload)]).map Prod.snd).flatten ++
        after.lookahead.toList := by
    rw [kept, List.append_assoc, fresh.kept, List.map_append,
      List.flatten_append, List.append_assoc]
    simp
  have allowed := fresh.allowed
  have seals := fresh.seals
  rw [← Nat.zero_add blocks.length] at allowed seals
  cases kind with
  | nonFinal =>
      obtain ⟨_, present, here⟩ := fresh.encryptor rfl
      apply Progress.opened status present _ (run.snoc allowed seals) balance
      rw [List.length_append]
      exact here
  | final =>
      apply Progress.finished status rfl ⟨run, seals, allowed⟩
      rw [balance, fresh.last rfl]
      exact List.append_nil _

/-- A reader that is open can seal its next segment. -/
theorem Tracks.opened
    (tracks : reader.Tracks platform context taken blocks)
    (opened : reader.status = .opened) :
    ∃ encryptor,
      reader.encryptor = some encryptor ∧
        encryptor.At platform context blocks.length ∧
        SealedRun platform context 0 blocks ∧
        taken = (blocks.map Prod.snd).flatten ++ reader.lookahead.toList := by
  cases tracks.progress with
  | opened _ present here run kept =>
      exact ⟨_, present, here, run, kept⟩
  | finished finished _ _ _ =>
      rw [opened] at finished
      cases finished

/-- Handing out header bytes changes nothing else. -/
theorem readHeaderBytes_keeps
    (output : Bytes) :
    ∃ headerPosition,
      (reader.readHeaderBytes output).2.1 =
        { reader with headerPosition } := by
  unfold readHeaderBytes
  dsimp only
  split
  · exact ⟨reader.headerPosition, rfl⟩
  · exact ⟨_, rfl⟩

/-- Handing out buffered bytes changes nothing else. -/
theorem readBuffered_keeps
    (output : Bytes) :
    ∃ ciphertextPosition,
      (reader.readBuffered output).2.1 =
        { reader with ciphertextPosition } := by
  unfold readBuffered
  split
  · exact ⟨reader.ciphertextPosition, rfl⟩
  · exact ⟨_, rfl⟩

/-- A read that reaches no segment serves what was sealed before. -/
theorem Tracks.read_served
    (tracks : reader.Tracks platform context taken blocks)
    {output : Bytes}
    (idle :
      ¬ (output ≠ [] ∧ reader.status = .opened ∧
        ¬ reader.headerPosition < headerLength ∧
        reader.ciphertextPosition = reader.ciphertextLength)) :
    ∃ next left count,
      reader.read platform output = (.ok count, next, left) ∧
        next.Tracks platform context taken blocks ∧
        reader.Serves next (left.take count) [] := by
  have consistent := tracks.consistent
  have unfailed := consistent.unfailed
  by_cases empty : output = []
  · refine ⟨reader, output, 0, ?_, tracks, ?_⟩
    · simp only [read, empty, ↓reduceIte]
    · exact consistent.serves rfl rfl rfl rfl
  by_cases before : reader.headerPosition < headerLength
  · obtain ⟨next, left, count, result, _, serves⟩ :=
      consistent.readHeaderBytes_serves before output
    obtain ⟨headerPosition, kept⟩ := @readHeaderBytes_keeps reader output
    rw [result] at kept
    refine ⟨next, left, count, ?_, ⟨serves.consistent, ?_⟩, serves⟩
    · simp only [read, empty, unfailed, before, ↓reduceIte, result]
    · rw [show next = { reader with headerPosition } from kept]
      exact tracks.progress.idle rfl rfl rfl
  by_cases drained : reader.ciphertextPosition = reader.ciphertextLength
  · have complete : reader.status = .finished := by
      by_contra unfinished
      exact idle ⟨empty, consistent.opened unfinished, before, drained⟩
    refine ⟨reader, output, 0, ?_, tracks, ?_⟩
    · simp only [read, empty, before, drained, complete, reduceCtorEq,
        ↓reduceIte]
    · exact consistent.serves rfl rfl rfl rfl
  · obtain ⟨next, left, count, result, _, serves⟩ :=
      consistent.readBuffered_serves
        (Nat.lt_of_le_of_ne consistent.within drained) output
    obtain ⟨ciphertextPosition, kept⟩ := @readBuffered_keeps reader output
    rw [result] at kept
    refine ⟨next, left, count, ?_, ⟨serves.consistent, ?_⟩, serves⟩
    · simp only [read, empty, unfailed, before, drained, ↓reduceIte, result]
    · rw [show next = { reader with ciphertextPosition } from kept]
      exact tracks.progress.idle rfl rfl rfl

/-- `load_segment` takes the next plaintext off the source and seals it in the
buffer. -/
theorem Tracks.loadSegment_spec
    (tracks : reader.Tracks platform context taken blocks)
    (opened : reader.status = .opened)
    (passed : reader.headerPosition = headerLength) :
    ∃ next,
      (∃ segment payload,
          reader.loadSegment platform = (.ok (), next) ∧
            next.Tracks platform context (taken ++ reader.fetched)
              (blocks ++ [(segment, payload)]) ∧
            next.header = reader.header ∧
            next.headerPosition = reader.headerPosition ∧
            next.ciphertextPosition < next.ciphertextLength ∧
            next.unserved = segment) ∨
        ∃ error,
          reader.loadSegment platform = (.error (.err error), next) ∧
            reader.Fails next error := by
  have canLoad := tracks.consistent.canLoad opened
  obtain ⟨encryptor, present, here, run, kept⟩ := tracks.opened opened
  obtain ⟨next, ⟨kind, segment, result, sealed, holds, position, length⟩ |
      ⟨error, result, fails⟩⟩ :=
    canLoad.loadSegment_cases platform tracks.consistent.within
  · obtain ⟨kind', segment', payload, fresh, holds', status⟩ :=
      loadSegment_sealsNext canLoad.sized opened present here result
    have same : segment' = segment := by
      have read := holds'.ciphertext_eq
      rw [holds.ciphertext_eq] at read
      cases read
      rfl
    subst same
    obtain ⟨plaintextLength, framed⟩ := sealed.framed
    have total : plaintextLength + 32 = segment'.length :=
      (framingOf_eq_some framed).1.payload
    have behind : ¬ next.headerPosition < headerLength := by
      rw [sealed.headerPosition, passed]
      exact Nat.lt_irrefl _
    refine ⟨next, .inl ⟨segment', payload, result,
      ⟨?_, Progress.step run kept fresh status⟩, sealed.header,
      sealed.headerPosition, by omega, ?_⟩⟩
    · exact sealed.consistent passed (by omega)
        fun _ => ⟨segment', holds, length⟩
    · rw [unserved_of_holds behind holds length, position]
      rfl
  · exact ⟨next, .inr ⟨error, result, fails⟩⟩

/-- `emit_segment_direct` takes the next plaintext off the source and seals it
in the caller's output. -/
theorem Tracks.emitSegmentDirect_spec
    (agree : platform.SealsAgree)
    (tracks : reader.Tracks platform context taken blocks)
    (opened : reader.status = .opened)
    (passed : reader.headerPosition = headerLength)
    (drained : reader.ciphertextPosition = reader.ciphertextLength)
    (output : Bytes) :
    ∃ next left,
      (∃ count payload,
          reader.emitSegmentDirect platform output =
              (.ok count, next, left) ∧
            next.Tracks platform context (taken ++ reader.fetched)
              (blocks ++ [(left.take count, payload)]) ∧
            next.header = reader.header ∧ next.unserved = []) ∨
        ∃ error,
          reader.emitSegmentDirect platform output =
              (.error (.err error), next, left) ∧
            reader.Fails next error := by
  have canLoad := tracks.consistent.canLoad opened
  obtain ⟨encryptor, present, here, run, kept⟩ := tracks.opened opened
  obtain ⟨next, left, ⟨kind, count, result, _, sealed, position, length⟩ |
      ⟨error, result, fails⟩⟩ :=
    canLoad.emitSegmentDirect_cases platform tracks.consistent.within output
  · obtain ⟨kind', payload, fresh, status⟩ :=
      emitSegmentDirect_sealsNext agree canLoad.sized opened present here
        result
    have spent : next.ciphertextPosition = next.ciphertextLength := by
      rw [position, length, drained]
    refine ⟨next, left, .inl ⟨count, payload, result,
      ⟨?_, Progress.step run kept fresh status⟩, sealed.header, ?_⟩⟩
    · exact sealed.consistent passed (Nat.le_of_eq spent)
        fun ahead => (Nat.ne_of_lt ahead spent).elim
    · rw [unserved_of_drained spent, sealed.headerPosition, passed]
      exact List.drop_eq_nil_of_le (Nat.le_of_eq next.header.length_val)
  · exact ⟨next, left, .inr ⟨error, result, fails⟩⟩

/-- `read` takes the next plaintext off the source and seals it, or serves what
was sealed before, or it fails and poisons the reader. -/
theorem Tracks.read_spec
    (agree : platform.SealsAgree)
    (tracks : reader.Tracks platform context taken blocks)
    (output : Bytes) :
    ∃ next left,
      (∃ count more,
          reader.read platform output = (.ok count, next, left) ∧
            next.Tracks platform context (taken ++ reader.takes output)
              (blocks ++ more) ∧
            next.header = reader.header ∧
            left.take count ++ next.unserved =
              reader.unserved ++ (more.map Prod.fst).flatten) ∨
        ∃ error,
          reader.read platform output = (.error (.err error), next, left) ∧
            next.status = .failed ∧ reader.status = .opened ∧
            reader.unserved = [] := by
  by_cases loads : output ≠ [] ∧ reader.status = .opened ∧
      ¬ reader.headerPosition < headerLength ∧
      reader.ciphertextPosition = reader.ciphertextLength
  · have takes : reader.takes output = reader.fetched := if_pos loads
    obtain ⟨some, opened, before, drained⟩ := loads
    have inside := tracks.consistent.inside
    have passed : reader.headerPosition = headerLength := by omega
    have nothing : reader.unserved = [] :=
      tracks.consistent.unserved_eq_nil_iff.mpr ⟨passed, drained⟩
    rw [takes, nothing]
    by_cases direct :
        output.length ≥ reader.parameters.ciphertextSegmentLength
    · have shape : reader.read platform output =
          reader.emitSegmentDirect platform output := by
        simp only [read, some, opened, reduceCtorEq, before, drained, direct,
          ↓reduceIte]
      rw [shape]
      obtain ⟨next, left, ⟨count, payload, result, sealed, header, rest⟩ |
          ⟨error, result, fails⟩⟩ :=
        tracks.emitSegmentDirect_spec agree opened passed drained output
      · refine ⟨next, left, .inl ⟨count, _, result, sealed, header, ?_⟩⟩
        rw [rest]
        simp
      · exact ⟨next, left, .inr ⟨error, result, fails.status, opened,
          rfl⟩⟩
    · obtain ⟨loaded, ⟨segment, payload, result, sealed, header, still, ahead,
          rest⟩ | ⟨error, result, fails⟩⟩ :=
        tracks.loadSegment_spec opened passed
      · have idle :
            ¬ (output ≠ [] ∧ loaded.status = .opened ∧
              ¬ loaded.headerPosition < headerLength ∧
              loaded.ciphertextPosition = loaded.ciphertextLength) :=
          fun loads => (Nat.ne_of_lt ahead loads.2.2.2).elim
        obtain ⟨next, left, count, served, again, serves⟩ :=
          @Tracks.read_served platform context _ _ loaded sealed output idle
        have buffered : loaded.read platform output =
            loaded.readBuffered output := by
          have behind : ¬ loaded.headerPosition < headerLength := by
            rw [still]
            exact before
          simp only [read, some, sealed.consistent.unfailed, behind,
            Nat.ne_of_lt ahead, ↓reduceIte]
        rw [buffered] at served
        refine ⟨next, left, .inl ⟨count, _, ?_, again,
          serves.header.trans header, ?_⟩⟩
        · simp only [read, some, opened, reduceCtorEq, before, drained,
            direct, ↓reduceIte, result, served]
        · rw [serves.kept, rest]
          simp
      · refine ⟨loaded, output, .inr ⟨error, ?_, fails.status, opened,
          rfl⟩⟩
        simp only [read, some, opened, reduceCtorEq, before, drained, direct,
          ↓reduceIte, result]
  · have takes : reader.takes output = [] := if_neg loads
    obtain ⟨next, left, count, result, again, serves⟩ :=
      tracks.read_served loads
    refine ⟨next, left, .inl ⟨count, [], result, ?_, serves.header, ?_⟩⟩
    · rw [takes, List.append_nil, List.append_nil]
      exact again
    · rw [serves.kept]
      rfl

end Steps

end EncryptReader

end FastFloe
