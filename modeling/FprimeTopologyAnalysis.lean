import FprimeTopologyAnalysis.ChainWalk
import FprimeTopologyAnalysis.OriginFailure
import FprimeTopologyAnalysis.CheckExit
import FprimeTopologyAnalysis.AnalyzerRun
import FprimeTopologyAnalysis.SuppressionFile
import FprimeTopologyAnalysis.ModelOrder
import FprimeTopologyAnalysis.ThreadAttribution
import FprimeTopologyAnalysis.DeadlockMachine
import FprimeTopologyAnalysis.DrainThread
import FprimeTopologyAnalysis.OriginsExact
import FprimeTopologyAnalysis.CallPath
import FprimeTopologyAnalysis.EdgeChains
import FprimeTopologyAnalysis.CallClosure
import FprimeTopologyAnalysis.FlowCache
import FprimeTopologyAnalysis.UnitCache
import FprimeTopologyAnalysis.LostWrites
import FprimeTopologyAnalysis.SyncCycle
import FprimeTopologyAnalysis.QueueOverflow
import FprimeTopologyAnalysis.RequeueDrops
import FprimeTopologyAnalysis.QueueProducers
import FprimeTopologyAnalysis.DropFilter
import FprimeTopologyAnalysis.AsyncRates
import FprimeTopologyAnalysis.GuardedEmitters
import FprimeTopologyAnalysis.ContextDisplay
import FprimeTopologyAnalysis.ExitStatus
import FprimeTopologyAnalysis.MessageCounts
import FprimeTopologyAnalysis.StackDepth
import FprimeTopologyAnalysis.DrainCache
import FprimeTopologyAnalysis.RateGroupBudget
import FprimeTopologyAnalysis.BufferOwnership
import FprimeTopologyAnalysis.ComponentBases
import FprimeTopologyAnalysis.ScanBody
import FprimeTopologyAnalysis.CppLiterals
import FprimeTopologyAnalysis.CppRateConfig
import FprimeTopologyAnalysis.LockComponents
import FprimeTopologyAnalysis.EventSeverities
import FprimeTopologyAnalysis.RaceRuns
import FprimeTopologyAnalysis.ModelLoad
import FprimeTopologyAnalysis.FlowPipeline
import FprimeTopologyAnalysis.RateInference
import FprimeTopologyAnalysis.WiringChecks
import FprimeTopologyAnalysis.Registry
import FprimeTopologyAnalysis.QueueRuns
import FprimeTopologyAnalysis.QueueTableRuns
import FprimeTopologyAnalysis.ReportText
import FprimeTopologyAnalysis.Preparation
