import PeakcodeDaemon.Lib.Splice
import PeakcodeDaemon.Lib.Scanner
import PeakcodeDaemon.Lib.Catch
import PeakcodeDaemon.Lib.Utf8
import PeakcodeDaemon.Lib.Json
import PeakcodeDaemon.Lib.JsonStrings
import PeakcodeDaemon.Lib.Machine
import PeakcodeDaemon.Ipc
import PeakcodeDaemon.Redaction
import PeakcodeDaemon.RedactionPasses
import PeakcodeDaemon.RedactionSecrets
import PeakcodeDaemon.RedactionTargets
import PeakcodeDaemon.RedactionTurns
import PeakcodeDaemon.RedactionLeads
import PeakcodeDaemon.RedactionJoins
import PeakcodeDaemon.RedactionPatterns
import PeakcodeDaemon.RedactionJson
import PeakcodeDaemon.CallIdMapper
import PeakcodeDaemon.RemoteApprover
import PeakcodeDaemon.Authorization
import PeakcodeDaemon.Worker
import PeakcodeDaemon.WorkerSteps
import PeakcodeDaemon.SessionAuthorization
import PeakcodeDaemon.WorkerRuns
import PeakcodeDaemon.WorkerHistory
import PeakcodeDaemon.ApprovalCalls
import PeakcodeDaemon.WorkerOrder
import PeakcodeDaemon.WorkerFailures
import PeakcodeDaemon.WorkerInputs
import PeakcodeDaemon.TerminalEvents
import PeakcodeDaemon.TurnAuthority
import PeakcodeDaemon.ApprovalPlaces
import PeakcodeDaemon.Framing
import PeakcodeDaemon.FrameDecoder
import PeakcodeDaemon.FrameRoundTrip
import PeakcodeDaemon.SessionGrants
import PeakcodeDaemon.Decisions
import PeakcodeDaemon.Isolation
import PeakcodeDaemon.Renaming
import PeakcodeDaemon.StreamedText
import PeakcodeDaemon.Invocations
import PeakcodeDaemon.InvocationHandles
import PeakcodeDaemon.RedactionSettings
import PeakcodeDaemon.RedactionRewriting
import PeakcodeDaemon.Registrations
import PeakcodeDaemon.Lib.Occurrences
import PeakcodeDaemon.RedactionClean
import PeakcodeDaemon.Lib.Logged
import PeakcodeDaemon.RedactionAccesses
import PeakcodeDaemon.RedactionBounds
import PeakcodeDaemon.RedactionOrigins
import PeakcodeDaemon.Lib.Ranking
import PeakcodeDaemon.Progress
import PeakcodeDaemon.Connection
import PeakcodeDaemon.Inbound
import PeakcodeDaemon.Outbound
import PeakcodeDaemon.Shutdown
import PeakcodeDaemon.ConnectionProgress
import PeakcodeDaemon.RedactionFixpoints
import PeakcodeDaemon.EndToEnd
import PeakcodeDaemon.Lib.JsonInjective
import PeakcodeDaemon.WireFormat
import PeakcodeDaemon.Backpressure
import PeakcodeDaemon.ConnectionSecrecy
import PeakcodeDaemon.Session
import PeakcodeDaemon.SessionRefinement
import PeakcodeDaemon.ConnectionSession
