import FastFloe.Rust.Io

namespace FastFloe

open Rust

/-!
# Errors

The crate's error values with the data they carry, and the `io::Error` values
the stream adapters wrap them in.
-/

/-- A length bound that a plaintext or ciphertext input failed to meet. -/
inductive LengthRequirement where
  | exactly (length : Nat)
  | atLeast (length : Nat)
  | atMost (length : Nat)
  | between (minimum maximum : Nat)
  deriving Repr, DecidableEq

/-- Errors returned by FLOE operations. -/
inductive Error where
  | invalidKeyLength (actual : Nat)
  | invalidParameters
  | invalidSegmentLength (actual : Nat)
  | invalidPlaintextLength (actual : Nat) (required : LengthRequirement)
  | invalidHeaderLength (actual : Nat)
  | invalidHeaderParameters
  | invalidHeaderTag
  | invalidCiphertextLength (actual : Nat) (required : LengthRequirement)
  | invalidSegmentPrefix
  | authenticationFailed
  | closed
  | truncated
  | segmentLimit
  | outputTooSmall (actual required : Nat)
  | invalidBufferState
  | providerSelectionRequired
  | lengthOverflow
  | rngFailure
  | cryptoFailure
  deriving Repr, DecidableEq

/-- The crate's `Result`. -/
abbrev Result (α : Type) := Outcome Error α

/-- What a custom `io::Error` of the adapters carries. -/
inductive IoPayload where
  | floe (error : Error)
  | text (message : String)
  deriving Repr, DecidableEq

/-- The result of an adapter call. -/
abbrev IoResult (α : Type) := IoOutcome IoPayload α

/-- `Error::io_source`. -/
def Error.ioSource (error : IoError IoPayload) : Option Error :=
  match error.source with
  | some (.floe error) => some error
  | _ => none

end FastFloe
