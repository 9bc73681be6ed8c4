import DominoLogForwarder.Lib.CrashProg
import DominoLogForwarder.Lib.Framing
import DominoLogForwarder.Lib.History
import DominoLogForwarder.Lib.CursorLog
import DominoLogForwarder.Lib.FramedLog
import DominoLogForwarder.Wal.Kernel
import DominoLogForwarder.Wal.SimpleWal
import DominoLogForwarder.Wal.CallSpec
import DominoLogForwarder.Wal.Spec
import DominoLogForwarder.Wal.System
import DominoLogForwarder.Wal.Invariant
import DominoLogForwarder.Wal.StepInv
import DominoLogForwarder.Wal.Delivery
import DominoLogForwarder.Wal.Recovery
import DominoLogForwarder.Wal.Faults
import DominoLogForwarder.Wal.Sequential
import DominoLogForwarder.Wal.Guest
import DominoLogForwarder.Wal.Boundary
import DominoLogForwarder.Lib.Lines
import DominoLogForwarder.Lib.Slice
import DominoLogForwarder.Domfwd.Socket
import DominoLogForwarder.Domfwd.SocketInv
import DominoLogForwarder.Domfwd.Durable
import DominoLogForwarder.Domfwd.Shutdown
import DominoLogForwarder.Wal.Oldest
import DominoLogForwarder.Domfwd.Drain
import DominoLogForwarder.FileReader.Kernel
import DominoLogForwarder.FileReader.StateFile
import DominoLogForwarder.FileReader.Reader
import DominoLogForwarder.FileReader.Split
import DominoLogForwarder.FileReader.BufferSpec
import DominoLogForwarder.FileReader.Environ
import DominoLogForwarder.FileReader.CallSpec
import DominoLogForwarder.FileReader.OpenSpec
import DominoLogForwarder.FileReader.ReadSpec
import DominoLogForwarder.FileReader.System
import DominoLogForwarder.FileReader.Growing
import DominoLogForwarder.FileReader.Rotation
import DominoLogForwarder.Lib.Threads
import DominoLogForwarder.Push.Failover
import DominoLogForwarder.Push.Concurrent
import DominoLogForwarder.Push.Probes
import DominoLogForwarder.Otelfwd.Ingest
import DominoLogForwarder.Lib.CrashView
import DominoLogForwarder.Wal.FullWarning
import DominoLogForwarder.Lib.HighMark
import DominoLogForwarder.FileReader.Order
import DominoLogForwarder.FileReader.EnvSpec
import DominoLogForwarder.FileReader.Frozen
import DominoLogForwarder.FileReader.Rounds
import DominoLogForwarder.FileReader.SavedState
import DominoLogForwarder.FileReader.Following
import DominoLogForwarder.FileReader.Appearing
import DominoLogForwarder.FileReader.Anew
import DominoLogForwarder.Lib.Double
import DominoLogForwarder.Lib.Json
import DominoLogForwarder.Lib.Grouping
import DominoLogForwarder.Lib.Protobuf
import DominoLogForwarder.Otelfwd.Fifo
import DominoLogForwarder.Otelfwd.FifoThreads
import DominoLogForwarder.Lib.Window
import DominoLogForwarder.Lib.Utf8
import DominoLogForwarder.Health.Monitor
import DominoLogForwarder.Otelfwd.Record
import DominoLogForwarder.Otelfwd.FileInput
import DominoLogForwarder.Otelfwd.FileDelivery
import DominoLogForwarder.Otelfwd.Payload
import DominoLogForwarder.Otlp.Message
import DominoLogForwarder.Otlp.FromJson
import DominoLogForwarder.Otlp.Convert
import DominoLogForwarder.Otlp.Sound
import DominoLogForwarder.Otlp.Lossless
import DominoLogForwarder.Otelfwd.Inputs
import DominoLogForwarder.Otelfwd.ValidUtf8
import DominoLogForwarder.Otelfwd.Stdin
import DominoLogForwarder.Otelfwd.Convertible
import DominoLogForwarder.Lib.Word
import DominoLogForwarder.Otelfwd.Times
import DominoLogForwarder.Otelfwd.FlatRecord
import DominoLogForwarder.Otelfwd.Syslog
import DominoLogForwarder.Lib.Search
import DominoLogForwarder.Otelfwd.Url
import DominoLogForwarder.Prom.Label
import DominoLogForwarder.Prom.Remove
import DominoLogForwarder.Lib.Decimal
import DominoLogForwarder.Lib.JsonText
import DominoLogForwarder.Lib.Keyed
import DominoLogForwarder.Lib.JsonWrite
import DominoLogForwarder.Lib.JsonCompact
import DominoLogForwarder.Otelfwd.CompactJson
import DominoLogForwarder.MailLog.Builder
import DominoLogForwarder.MailLog.Calls
import DominoLogForwarder.MailLog.Latest
import DominoLogForwarder.MailLog.Tree
import DominoLogForwarder.MailLog.RoundTrip
import DominoLogForwarder.Lib.JsonCut
import DominoLogForwarder.Otelfwd.IngestThread
import DominoLogForwarder.Otelfwd.Arrival
import DominoLogForwarder.Otelfwd.PidMap
import DominoLogForwarder.Otelfwd.Pipeline
import DominoLogForwarder.Otelfwd.PipelineWal
import DominoLogForwarder.Domfwd.Event
import DominoLogForwarder.Otelfwd.EventRecord
import DominoLogForwarder.Otelfwd.EventArrival
