import Vssim.Library.LinkedHeap
import Vssim.Config
import Vssim.Ftl.BlockList
import Vssim.Ftl.Mapping
import Vssim.Ftl.Request
import Vssim.Ftl.ListInv
import Vssim.Library.FlashStore
import Vssim.Ftl.Refine
import Vssim.Ftl.Collect
import Vssim.Ftl.Cursor
import Vssim.Ftl.Write
import Vssim.Ftl.Init
import Vssim.Ftl.Run
import Vssim.Ftl.Agreement
import Vssim.Ftl.Discipline
import Vssim.Ftl.ReadYourWrites
import Vssim.Ftl.Total
import Vssim.Ftl.Space
import Vssim.Ftl.Failure
import Vssim.Io.Perf
import Vssim.Io.Register
import Vssim.Library.Tracker
import Vssim.Io.Requests
import Vssim.Io.RegInv
import Vssim.Io.Drain
import Vssim.Io.Record
import Vssim.Ftl.Bounds
import Vssim.Io.Lifecycle
import Vssim.Firm.Buffer
import Vssim.Firm.Queue
import Vssim.Firm.QueueRep
import Vssim.Firm.WriteRep
import Vssim.Firm.Core
import Vssim.Firm.Dequeue
import Vssim.Firm.EnqueueWrite
import Vssim.Firm.EnqueueRead
import Vssim.Firm.Serve
import Vssim.Firm.Ordering
import Vssim.Firm.Accounting
import Vssim.Firm.Overcommit
import Vssim.Firm.Hits
import Vssim.Ftl.Allocation
import Vssim.Ftl.BoundsCheck
import Vssim.Ftl.Files
import Vssim.Ftl.PowerCycle
import Vssim.Ftl.Stock
import Vssim.Ftl.Occupancy
import Vssim.Io.Utilisation
import Vssim.Io.Updates
import Vssim.Io.Attribution
import Vssim.Io.Limits
import Vssim.Io.Channels
import Vssim.Io.Moves
import Vssim.Io.Idle
import Vssim.Io.Transfers
import Vssim.Io.PartialWrite
import Vssim.Ftl.Splitting
import Vssim.Ftl.Victim
import Vssim.Ftl.Reclaim
import Vssim.Ftl.Inverse
import Vssim.Ftl.InChip
import Vssim.Ftl.Striping
import Vssim.Ftl.MapCache
import Vssim.Ftl.CacheIndex
import Vssim.Ftl.CacheWriteBack
import Vssim.Io.Arbitration
import Vssim.Io.Qemu
import Vssim.Io.Ledger
import Vssim.Io.Corrections
import Vssim.Library.SecondChance
import Vssim.Io.Waits
import Vssim.Firm.Handshake
import Vssim.Firm.Worker
import Vssim.Library.Ensures
import Vssim.Firm.Feed
import Vssim.Firm.EndToEnd
import Vssim.Library.Scan
import Vssim.Library.Framing
import Vssim.Config.File
import Vssim.Monitor.Protocol
import Vssim.Monitor.Report
import Vssim.Ftl.KeepUp
import Vssim.Local.Tests
import Vssim.Ftl.WriteOnce
import Vssim.Io.Builds
