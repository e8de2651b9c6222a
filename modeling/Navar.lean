import Navar.LineSplitting
import Navar.PollStreams
import Navar.FramedLines
import Navar.TransitionSystems
import Navar.ByteBuffers
import Navar.AsyncWriters
import Navar.DuplexStreams
import Navar.LossyText
import Navar.HttpMessages
import Navar.LineScanning
import Navar.LineStreams
import Navar.SseStreams
import Navar.SseRefinement
import Navar.SseRoundTrip
import Navar.SseLines
import Navar.SseDispatch
import Navar.SseEventIds
import Navar.NdjsonStreams
import Navar.RingBufferScans
import Navar.RequestBuilding
import Navar.RequestHeaders
import Navar.SessionPool
import Navar.PoolHistory
import Navar.TokioDialing
import Navar.PoolExecutor
import Navar.H3Sessions
import Navar.H3Trailers
import Navar.H3Adapter
import Navar.H3SendRuns
import Navar.H3Readiness
import Navar.H3Connections
import Navar.H3Splitting
import Navar.H3Receiving
import Navar.H3Uploads
import Navar.IrohStreams
import Navar.TokioBuilds
import Navar.TokioTargets
import Navar.HyperRequests
import Navar.Http1Sessions
import Navar.AlpnSelection
import Navar.PoolProgress
import Navar.ClientSessions
import Navar.ClientTranscripts
import Navar.ClientProgress
import Navar.Utf8Validation
import Navar.ResponseReaders
import Navar.WakerTasks
import Navar.StreamDelivery
import Navar.TypedExchanges
import Navar.SseCommands
import Navar.H3HandleDrops
import Navar.IrohDialing
import Navar.Services
import Navar.SseResumption
import Navar.H3Duplex
import Navar.PoolConnections
import Navar.AtomicPool
import Navar.ClientExecutor
