import PFPSim.Lr.Soundness
import PFPSim.Lr.Completeness
import PFPSim.Lr.Termination
import PFPSim.Lex.Munch
import PFPSim.Cp.Tokens
import PFPSim.Cp.Grammar
import PFPSim.Cp.Automaton
import PFPSim.Cp.Sentences
import PFPSim.Cp.Parser
import PFPSim.Cp.Unambiguity
import PFPSim.Cp.Boundaries
import PFPSim.Cp.TrailingBlanks
import PFPSim.Cp.Consumed
import PFPSim.Cp.Render
import PFPSim.Cp.RoundTrip
import PFPSim.Cp.Literals
import PFPSim.Cp.Quads
import PFPSim.Cp.Resizing
import PFPSim.Cp.KeyLists
import PFPSim.Debugger.StopDecision
import PFPSim.Debugger.Replies
import PFPSim.Debugger.TemporaryBreakpoints
import PFPSim.Debugger.Malformed
import PFPSim.Debugger.Delivery
import PFPSim.Debugger.Deadlock
import PFPSim.Debugger.Turns
import PFPSim.Debugger.Identifiers
import PFPSim.Debugger.Deduplication
import PFPSim.Debugger.InternalBreakpoints
import PFPSim.Debugger.FollowedPacket
import PFPSim.Debugger.LatencyTraces
import PFPSim.Debugger.ThroughputTraces
import PFPSim.Debugger.Divisors
import PFPSim.Debugger.Backtraces
import PFPSim.Debugger.IgnoredModules
import PFPSim.Debugger.WatchCursor
import PFPSim.Debugger.ConfirmedDeletions
import PFPSim.Debugger.Settling
import PFPSim.Debugger.TableOrder
import PFPSim.Debugger.TracedCounters
import PFPSim.Debugger.PacketList
import PFPSim.Debugger.Queries
import PFPSim.Debugger.Frames
import PFPSim.Debugger.Reported
import PFPSim.Debugger.WhoAmI
import PFPSim.Debugger.Attribution
import PFPSim.Debugger.Records
import PFPSim.Debugger.Told
import PFPSim.Debugger.TimedRuns
import PFPSim.Json.Document
import PFPSim.Json.Lexer
import PFPSim.Json.Parser
import PFPSim.Json.Syntax
import PFPSim.Json.Progress
import PFPSim.Json.Accepted
import PFPSim.Json.Exceptions
import PFPSim.Json.Writer
import PFPSim.Json.Numerals
import PFPSim.Json.RoundTrip
import PFPSim.Json.Parsed
import PFPSim.Json.Unambiguity
import PFPSim.Json.Escapes
import PFPSim.Config.IntegerLeaves
import PFPSim.Config.CompanionIterator
import PFPSim.Config.Loading
import PFPSim.Modules.QualifiedNames
import PFPSim.Modules.LiveCounters
import PFPSim.Modules.NodeSearch
import PFPSim.Modules.Decrements
import PFPSim.Modules.IndexSearch
import PFPSim.Queues.LMTQueue
import PFPSim.Queues.StrandedWaiters
import PFPSim.Queues.Notifications
import PFPSim.Strings.BinaryString
import PFPSim.Arguments.CommandLine
import PFPSim.Arguments.StartUp
import PFPSim.Debugger.Atomicity
