import VideoStream.Graph.NodeGraph
import VideoStream.Nodes.Awaits
import VideoStream.Nodes.Permits
import VideoStream.Nodes.Shutdown
import VideoStream.Nodes.SrcShutdown
import VideoStream.Nodes.Stranded
import VideoStream.Nodes.Sequential
import VideoStream.Nodes.Conservation
import VideoStream.Graph.Wiring
import VideoStream.Library.Paths
import VideoStream.Library.Stages
import VideoStream.Network.FramePaths
import VideoStream.Nodes.SourceOrder
import VideoStream.Nodes.Ports
import VideoStream.Nodes.Hooks
import VideoStream.Nodes.Gate
import VideoStream.Library.Linearization
import VideoStream.Nodes.Publisher
import VideoStream.Nodes.PublisherOrder
import VideoStream.Queue.JobQueue
import VideoStream.Library.Fifo
import VideoStream.Queue.JobHistory
import VideoStream.Objects.MetaObject
import VideoStream.Nodes.MetaTags
import VideoStream.Nodes.ScriptedSource
import VideoStream.Nodes.ScriptResults
import VideoStream.Graph.DetachRecursively
import VideoStream.Library.CondVar
import VideoStream.Queue.Sleepers
import VideoStream.Queue.StepHistory
import VideoStream.Queue.Stop
import VideoStream.Queue.WakeUps
import VideoStream.Queue.Warning
import VideoStream.Nodes.Interpreter
import VideoStream.Library.Strided
import VideoStream.Utils.PybindVpMeta
import VideoStream.Utils.Conversions
import VideoStream.Utils.VpUtils
import VideoStream.Library.Decimal
import VideoStream.Objects.ControlUid
import VideoStream.Library.Substitution
import VideoStream.Utils.Date
import VideoStream.Utils.TimeFormat
import VideoStream.Library.Monitor
import VideoStream.Utils.VpGate
import VideoStream.Utils.VpSemaphore
import VideoStream.Library.SharedObject
import VideoStream.Queue.ThreadSafeQueue
import VideoStream.Utils.SemaphoreObject
import VideoStream.Nodes.InQueue
import VideoStream.Nodes.AtomicInQueue
import VideoStream.Network.NodeRuns
import VideoStream.Network.FrameOrder
import VideoStream.Network.Rest
import VideoStream.Network.Callers
import VideoStream.Network.Pipeline
import VideoStream.Network.Delivery
import VideoStream.Network.PipelineRest
