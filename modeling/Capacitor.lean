import Capacitor.StepSystem
import Capacitor.LastWriter
import Capacitor.BlockMemory
import Capacitor.Clock
import Capacitor.ClockCausality
import Capacitor.Keys
import Capacitor.Store
import Capacitor.StoreSpec
import Capacitor.Registers
import Capacitor.Log
import Capacitor.Wire
import Capacitor.LogIntegrity
import Capacitor.Node
import Capacitor.Redelivery
import Capacitor.Counters
import Capacitor.CounterCluster
import Capacitor.RegisterCluster
import Capacitor.Transport
import Capacitor.Replication
import Capacitor.Connections
import Capacitor.CursorSeed
import Capacitor.SenderRestart
import Capacitor.Delivery
import Capacitor.ConnectionLoss
import Capacitor.Calls
import Capacitor.LocalWrites
import Capacitor.Watermarks
import Capacitor.Mirror
import Capacitor.Rewind
import Capacitor.Ledger
import Capacitor.Persistence
import Capacitor.Loading
import Capacitor.Reload
import Capacitor.CountRouting
import Capacitor.Restart
import Capacitor.WatermarkLoss
import Capacitor.Aggregates
import Capacitor.Resurrection
import Capacitor.Entries
import Capacitor.ClosingFlush
import Capacitor.GracePeriod
import Capacitor.CounterCrash
import Capacitor.WindowCluster
import Capacitor.WindowRecords
import Capacitor.WindowReload
import Capacitor.KeySpace
import Capacitor.UserKeys
import Capacitor.Parking
import Capacitor.WindowOrder
import Capacitor.Retention
import Capacitor.LogRange
import Capacitor.Paging
import Capacitor.PeerFeed
import Capacitor.Interference
import Capacitor.SetErrors
import Capacitor.FailedFlush
import Capacitor.ClockRange
import Capacitor.Admission
import Capacitor.MsgpReaders
import Capacitor.Decoding
import Capacitor.BatchStream
import Capacitor.ClientGreeting
import Capacitor.EndToEnd
import Capacitor.Latency
import Capacitor.Membership
import Capacitor.Readers
import Capacitor.ParallelCalls
