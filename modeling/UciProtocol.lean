import UciProtocol.Engine.Scripted
import UciProtocol.Main
import UciProtocol.Request.Record
import UciProtocol.Proofs.Groups
import UciProtocol.Proofs.Invocations
import UciProtocol.Proofs.Words
import UciProtocol.Proofs.Numerals
import UciProtocol.Proofs.Requests
import UciProtocol.Proofs.Assignments
import UciProtocol.Proofs.Handling
import UciProtocol.Proofs.Failures
import UciProtocol.Proofs.SourceLines
import UciProtocol.Proofs.Runs
import UciProtocol.Proofs.Searches
import UciProtocol.Proofs.WrittenRequests
import UciProtocol.Proofs.WrittenAssignments
import UciProtocol.Proofs.Histories
import UciProtocol.Proofs.SettingValues
import UciProtocol.Proofs.Declarations
import UciProtocol.Proofs.EngineInputs
import UciProtocol.Proofs.IdleInputs
import UciProtocol.Proofs.HeldSearches
import UciProtocol.Proofs.HandledLines
import UciProtocol.Proofs.Erasure
import UciProtocol.Proofs.Positions
import UciProtocol.Proofs.LineBreaks
import UciProtocol.Proofs.ReportFigures
import UciProtocol.Proofs.ReportLines
import UciProtocol.Proofs.ReportReading
import UciProtocol.Proofs.EngineCalls
import UciProtocol.Proofs.DecodedLines
import UciProtocol.Proofs.ErrorMessages
import UciProtocol.Proofs.Replies
import UciProtocol.Proofs.RestatedAssignments
import UciProtocol.Proofs.SinkFailures
import UciProtocol.Proofs.Transcripts
import UciProtocol.Proofs.ByteOffsets
import UciProtocol.Proofs.CheckedReading
import UciProtocol.Proofs.SpelledNumbers
import UciProtocol.Proofs.CheckedRuns
import UciProtocol.Proofs.Records
import UciProtocol.Proofs.KeywordOffsets
import UciProtocol.Proofs.NumeralFaults
import UciProtocol.Proofs.SearchFaults
import UciProtocol.Proofs.BrokenBytes
import UciProtocol.Proofs.WrittenMoves
import UciProtocol.Proofs.CanonicalValues
import UciProtocol.Proofs.DisplaySwitches
