import FastFloe.DecryptReaderStates
import FastFloe.EncryptReaderStates
import FastFloe.ReaderRuns

namespace FastFloe

open Rust

/-!
# The pull adapters

Both reading adapters stay sound under any sequence of calls, on sources that
fail, end early and go on as they like, and with providers that fail at any
call.
-/

/-- Any reads, finalizers and uses of the source leave a reader in a sound
state. -/
theorem pullAdapters_areSound :
    (∀ reader, DecryptReader.Created reader →
      ∀ calls,
        (reader.performAll DecryptReader.History.start calls).1.Sound
          (reader.performAll DecryptReader.History.start calls).2) ∧
      ∀ reader, EncryptReader.Created reader →
        ∀ calls,
          (reader.performAll EncryptReader.History.start calls).1.Sound
            (reader.performAll EncryptReader.History.start calls).2 :=
  ⟨fun _ created calls => created.sound calls,
    fun _ created calls => created.sound calls⟩

/-! ## Runs that fail and runs that discard -/

/-- The transparent provider, but for the final segment of a message of two,
which it refuses to seal. -/
def nonFinalPlatform : Platform :=
  { openPlatform with
    aead := fun _ =>
      { transparentModule fun _ _ _ => true with
        sealInPlace := fun _ _ aad inOut =>
          if aad = segmentAad 1 .final then
            (.error .cryptoFailure, inOut)
          else
            (.ok (Octets.zero aeadTagLength), inOut)
        length_sealInPlace := by
          intro _ _ aad _
          split <;> rfl } }

/-- A plaintext of one full segment and one more byte. -/
def plainSource : Source IoPayload where
  data := zeros 33
  addressable := by decide
  cursor := 0
  script := []

/-- Reads of the header and of the first segment in two parts, and a read that
fails to seal the second segment. -/
def failingReads : List (Platform × EncryptReader.Call) :=
  [(nonFinalPlatform, .read (zeros headerLength)),
    (nonFinalPlatform, .read (zeros 63)),
    (nonFinalPlatform, .read (zeros 63)),
    (nonFinalPlatform, .read (zeros 63))]

set_option maxRecDepth 100000 in
/-- A message of two segments with one byte behind it. -/
def trailingSource : Source IoPayload where
  data := twoSegments ++ [7]
  addressable := by decide
  cursor := 0
  script := []

/-- Reads of both segments, and a finalizer that finds the byte behind them. -/
def trailingCalls : List (Platform × DecryptReader.Call) :=
  [(openPlatform, .read (zeros 32)),
    (openPlatform, .read (zeros 32)),
    (openPlatform, .tryFinish)]

set_option maxRecDepth 100000 in
/-- An encrypting reader that has failed to seal a segment resets one of its
cursors only; a decrypting reader is finished without serving anything when a
finalizer discards the plaintext, and it is not finished any more when one
fails. -/
theorem pullAdapters_keepCursors :
    (∃ reader,
      EncryptReader.new nonFinalPlatform plainSource zeroKey []
          shortestSegments zeroRng = .ok reader ∧
        (reader.performAll .start failingReads).1.ciphertextPosition <
          (reader.performAll .start failingReads).1.ciphertextLength ∧
        (reader.performAll .start failingReads).1.buffer.state = .empty) ∧
      (∃ reader,
        DecryptReader.new openPlatform twoSegmentsSource zeroKey [] =
            .ok reader ∧
          (framingStream shortestSegments).Message 0
            (reader.performAll .start
              [(openPlatform, .tryFinishFrame)]).2.taken [32, 1] ∧
          (reader.performAll .start
            [(openPlatform, .tryFinishFrame)]).2.served = 0 ∧
          (reader.performAll .start
            [(openPlatform, .tryFinishFrame)]).1.isFinished = true) ∧
        ∃ reader,
          DecryptReader.new openPlatform trailingSource zeroKey [] =
              .ok reader ∧
            (framingStream shortestSegments).Message 0
              (reader.performAll .start trailingCalls).2.taken [32, 1] ∧
            (reader.performAll .start trailingCalls).2.served = 33 ∧
            (reader.performAll .start trailingCalls).1.isFinished = false :=
  ⟨⟨_, rfl, by decide, rfl⟩, ⟨_, rfl, rfl, rfl, rfl⟩,
    ⟨_, rfl, rfl, rfl, rfl⟩⟩

set_option maxRecDepth 100000 in
theorem pullAdapters_areSound_example :
    ∃ decrypting encrypting,
      DecryptReader.new openPlatform trailingSource zeroKey [] =
          .ok decrypting ∧
        EncryptReader.new nonFinalPlatform plainSource zeroKey []
            shortestSegments zeroRng = .ok encrypting ∧
        (decrypting.performAll .start trailingCalls).1.Sound
          (decrypting.performAll .start trailingCalls).2 ∧
        (encrypting.performAll .start failingReads).1.Sound
          (encrypting.performAll .start failingReads).2 := by
  obtain ⟨decrypting, first⟩ :
      ∃ decrypting,
        DecryptReader.new openPlatform trailingSource zeroKey [] =
          .ok decrypting :=
    ⟨_, rfl⟩
  obtain ⟨encrypting, second⟩ :
      ∃ encrypting,
        EncryptReader.new nonFinalPlatform plainSource zeroKey []
          shortestSegments zeroRng = .ok encrypting :=
    ⟨_, rfl⟩
  exact ⟨decrypting, encrypting, first, second,
    pullAdapters_areSound.1 decrypting (.new first) trailingCalls,
    pullAdapters_areSound.2 encrypting ⟨_, _, _, _, _, _, second⟩
      failingReads⟩

end FastFloe
