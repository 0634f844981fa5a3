import MinimaxCode.PyText
import MinimaxCode.Runs
import MinimaxCode.FileTree
import MinimaxCode.SandboxLayout
import MinimaxCode.SandboxCollect
import MinimaxCode.SandboxVisibility
import MinimaxCode.SandboxMachine
import MinimaxCode.SandboxClobber
import MinimaxCode.SandboxLoss
import MinimaxCode.RunIdContainment
import MinimaxCode.PyJson
import MinimaxCode.RpcServer
import MinimaxCode.JsonText
import MinimaxCode.MessageStore
import MinimaxCode.ToolCallStream
import MinimaxCode.AgentHistory
import MinimaxCode.SequencedLog
import MinimaxCode.WsBroadcast
import MinimaxCode.WsFollow
import MinimaxCode.WsResume
import MinimaxCode.WsRestart
import MinimaxCode.OrderedDict
import MinimaxCode.SharedMemory
import MinimaxCode.SharedMemoryIsolation
import MinimaxCode.Fnmatch
import MinimaxCode.Permissions
import MinimaxCode.KeysetPages
import MinimaxCode.MessagePages
import MinimaxCode.FsNotify
import MinimaxCode.EditFile
import MinimaxCode.AgentEvents
import MinimaxCode.AgentChat
import MinimaxCode.SplitLines
import MinimaxCode.OverlaySearch
import MinimaxCode.UnifiedDiff
import MinimaxCode.GitDiff
import MinimaxCode.DiffPreview
import MinimaxCode.DiffRoundTrip
import MinimaxCode.PlanMode
import MinimaxCode.Pool
import MinimaxCode.RunSteps
import MinimaxCode.TeamConflicts
import MinimaxCode.JobScheduler
import MinimaxCode.ToolBreaker
import MinimaxCode.CallBreaker
import MinimaxCode.ConsentRegistry
import MinimaxCode.SubagentDeps
import MinimaxCode.EditScript
import MinimaxCode.Hunks
import MinimaxCode.StreamedText
import MinimaxCode.Forests
import MinimaxCode.GraphLib
import MinimaxCode.GraphForest
import MinimaxCode.GraphTables
import MinimaxCode.DepthFirst
import MinimaxCode.DagreAcyclic
import MinimaxCode.DagreReversal
import MinimaxCode.HubDemux
import MinimaxCode.HubWriter
import MinimaxCode.HubPool
import MinimaxCode.CodebaseIndex
import MinimaxCode.Postings
import MinimaxCode.SymbolIndex
import MinimaxCode.LiveIndex
import MinimaxCode.ScopeIndex
import MinimaxCode.BinaryFormat
import MinimaxCode.Sgix
import MinimaxCode.Segments
import MinimaxCode.ChatMessages
import MinimaxCode.Compaction
import MinimaxCode.AnthropicMessages
import MinimaxCode.LexicalPaths
import MinimaxCode.McpClient
import MinimaxCode.McpDemux
import MinimaxCode.McpRegistry
import MinimaxCode.IndexActor
import MinimaxCode.LockFile
import MinimaxCode.WorkspaceLock
import MinimaxCode.LockExclusion
import MinimaxCode.RecordFields
import MinimaxCode.WireIds
import MinimaxCode.JsonRpcEnvelope
import MinimaxCode.ToolErrorWire
import MinimaxCode.ToolOutputWire
import MinimaxCode.ToolRegistration
import MinimaxCode.SessionEvents
import MinimaxCode.WireRoundTrip
import MinimaxCode.ToolCallAssembly
import MinimaxCode.AuditRedaction
import MinimaxCode.AskUserWaits
import MinimaxCode.WriteRegistry
import MinimaxCode.WorkflowEngine
import MinimaxCode.BreakerWindow
import MinimaxCode.Backups
import MinimaxCode.SessionExport
import MinimaxCode.OverlayFind
import MinimaxCode.SandboxTools
import MinimaxCode.AcyclicPaths
import MinimaxCode.DagreRank
import MinimaxCode.SumTrees
import MinimaxCode.DagreCrossings
import MinimaxCode.GraphInduced
import MinimaxCode.AdmissionPermits
import MinimaxCode.CodebaseSearch
import MinimaxCode.GitNames
import MinimaxCode.CheckpointFiles
import MinimaxCode.MemoryChunks
import MinimaxCode.GraphContents
import MinimaxCode.DagreNormalize
import MinimaxCode.DagreDenormalize
import MinimaxCode.ProgressLedger
import MinimaxCode.Webhooks
import MinimaxCode.RemoteDecode
import MinimaxCode.RemoteStream
import MinimaxCode.DonatePump
import MinimaxCode.TextWrap
import MinimaxCode.WebClient
import MinimaxCode.ScopeQueries
import MinimaxCode.Nesting
import MinimaxCode.ScopeGraphs
import MinimaxCode.ScopeResolution
import MinimaxCode.ScopeReferences
import MinimaxCode.DagreLayerGraph
import MinimaxCode.DagreBarycenter
import MinimaxCode.TopologicalSweep
import MinimaxCode.DagreConflicts
import MinimaxCode.ReadFile
import MinimaxCode.Words
import MinimaxCode.RenamePython
import MinimaxCode.ExtractFunction
import MinimaxCode.SkillRuntime
import MinimaxCode.PreviewServer
import MinimaxCode.AsyncQueue
import MinimaxCode.HubChannel
import MinimaxCode.ProviderKeys
import MinimaxCode.Semver
import MinimaxCode.Versions
import MinimaxCode.HubReader
import MinimaxCode.SandboxEscape
import MinimaxCode.DenyList
import MinimaxCode.Getopt
import MinimaxCode.FrontMatter
import MinimaxCode.FrontMatterLayout
import MinimaxCode.FrontMatterRoundTrip
