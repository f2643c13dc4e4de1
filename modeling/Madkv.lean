import Madkv.Library.Intervals
import Madkv.Library.Execution
import Madkv.Library.Linearization
import Madkv.Runner.KvCall
import Madkv.Runner.KvMap
import Madkv.Fuzzer.Abort
import Madkv.Fuzzer.History
import Madkv.Fuzzer.Random
import Madkv.Fuzzer.FuzzTest
import Madkv.Fuzzer.Checks
import Madkv.Fuzzer.Trace
import Madkv.Fuzzer.LoopInvariant
import Madkv.Fuzzer.HistoryInvariant
import Madkv.Fuzzer.Verdicts
import Madkv.Fuzzer.LostWrites
import Madkv.Fuzzer.FalseAlarms
import Madkv.Fuzzer.SingleClient
import Madkv.Fuzzer.ReferenceClient
import Madkv.Fuzzer.Termination
import Madkv.Library.Loop
import Madkv.Library.Words
import Madkv.Runner.Ioapi
import Madkv.Refcli.WriteResponse
import Madkv.Runner.ReadTermination
import Madkv.Library.DepthFirst
import Madkv.Library.Shortcuts
import Madkv.Pmodel.OrderingGraph
import Madkv.Pmodel.Traversal
import Madkv.Pmodel.TraversalTermination
import Madkv.Pmodel.ObjPool
import Madkv.Pmodel.Convergence
import Madkv.Pmodel.Relationship
import Madkv.Pmodel.Constraints
import Madkv.Pmodel.RefObjPool
import Madkv.Pmodel.Service
import Madkv.Library.Delivery
import Madkv.Pmodel.ServiceOrder
import Madkv.Pmodel.SequentialService
import Madkv.Fuzzer.CrossedAnswers
import Madkv.Bencher.Stats
import Madkv.Fuzzer.ScanGets
import Madkv.Runner.LineForms
import Madkv.Runner.Lines
import Madkv.Runner.ResponseLines
import Madkv.Refcli.AcceptedLines
import Madkv.Runner.Spacing
import Madkv.Refcli.ParseInputCall
import Madkv.Refcli.Serving
import Madkv.Bencher.Ycsb
import Madkv.Bencher.ScanRanges
import Madkv.Bencher.TranslatedCalls
import Madkv.Bencher.Panics
import Madkv.Bencher.MergedStats
import Madkv.Library.Python
import Madkv.Justmod.Xtract
import Madkv.Justmod.Addressing
import Madkv.Runner.Output
import Madkv.Runner.Proc
import Madkv.Runner.ProcOrder
import Madkv.Library.Replies
import Madkv.Refcli.Main
import Madkv.Refcli.Session
import Madkv.Refcli.Progress
import Madkv.Refcli.Stopping
import Madkv.Library.Interleaving
import Madkv.Fuzzer.LiveClients
import Madkv.Fuzzer.Main
import Madkv.Fuzzer.LiveVerdicts
import Madkv.Fuzzer.LiveProgress
import Madkv.Fuzzer.Statistics
import Madkv.Pmodel.Requests
import Madkv.Pmodel.TestRefObjPool
import Madkv.Bencher.Feeder
import Madkv.Bencher.FeederProgress
import Madkv.Bencher.Bench
import Madkv.Pmodel.AcceptedHistories
import Madkv.Library.Decimals
import Madkv.Runner.ColorPrint
import Madkv.Bencher.Print
import Madkv.Bencher.ReportedOps
import Madkv.Library.Latest
import Madkv.Fuzzer.Outcome
import Madkv.Sumgen.BenchReport
import Madkv.Sumgen.FuzzReport
