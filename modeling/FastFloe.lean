import FastFloe.Rust.Outcome
import FastFloe.Rust.Bytes
import FastFloe.Rust.Io
import FastFloe.Rust.Vec
import FastFloe.Rust.Fs
import FastFloe.Library.Framing
import FastFloe.Library.Blocks
import FastFloe.Library.Tiling
import FastFloe.Library.Staging
import FastFloe.Library.Runs
import FastFloe.Library.Codes
import FastFloe.Library.Deques
import FastFloe.Error
import FastFloe.Parameters
import FastFloe.Layouts
import FastFloe.LayoutTilings
import FastFloe.LayoutLengths
import FastFloe.Backends
import FastFloe.Buffer
import FastFloe.State
import FastFloe.Segment
import FastFloe.Sealing
import FastFloe.Opening
import FastFloe.NonceTape
import FastFloe.SegmentStream
import FastFloe.DecryptionStates
import FastFloe.Headers
import FastFloe.Wire
import FastFloe.Reading
import FastFloe.Online
import FastFloe.Decryptors
import FastFloe.Grammar
import FastFloe.StoredMessages
import FastFloe.Encryptors
import FastFloe.Transparent
import FastFloe.DecryptionPaths
import FastFloe.KeyLookups
import FastFloe.EncryptionPaths
import FastFloe.NonceBatches
import FastFloe.SealedMessages
import FastFloe.EncryptorRuns
import FastFloe.PositionDiscipline
import FastFloe.FailedOpenings
import FastFloe.SegmentEffects
import FastFloe.BufferInvariant
import FastFloe.ReachableBuffers
import FastFloe.OneShotEncryption
import FastFloe.Integrity
import FastFloe.KeySchedule
import FastFloe.HeaderPaths
import FastFloe.PlaintextMemory
import FastFloe.RandomAccess
import FastFloe.SegmentAccess
import FastFloe.RangeReads
import FastFloe.PlaintextReads
import FastFloe.OpenedReaders
import FastFloe.ReaderRuns
import FastFloe.ReaderAgreement
import FastFloe.PrefixFreedom
import FastFloe.Io
import FastFloe.DecryptReaders
import FastFloe.FramedReading
import FastFloe.DecryptReaderRuns
import FastFloe.FrameBoundaries
import FastFloe.WorkerPools
import FastFloe.SealedStreams
import FastFloe.EncryptReaders
import FastFloe.EncryptReaderRuns
import FastFloe.EncryptWriters
import FastFloe.EncryptWriterRuns
import FastFloe.WriterFraming
import FastFloe.DecryptReaderCalls
import FastFloe.DecryptReaderStates
import FastFloe.EncryptReaderCalls
import FastFloe.EncryptReaderStates
import FastFloe.PullAdapters
import FastFloe.Library.Primitives
import FastFloe.ProviderCrates
import FastFloe.ProviderModules
import FastFloe.Interoperability
import FastFloe.Specification
import FastFloe.SpecificationSegments
import FastFloe.SpecificationRuns
import FastFloe.SpecificationAnswers
import FastFloe.AuthenticStreams
import FastFloe.StreamIntegrity
import FastFloe.ReaderIntegrity
import FastFloe.Commitment
import FastFloe.PlaintextStreams
import FastFloe.TakenPlaintexts
import FastFloe.SegmentIterators
import FastFloe.FilePrograms
import FastFloe.FileReads
import FastFloe.FileOutcomes
import FastFloe.ManualEncryption
import FastFloe.ManualDecryption
import FastFloe.SerialEncryption
import FastFloe.SerialDecryption
import FastFloe.FileHistories
