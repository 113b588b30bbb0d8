import Netpull.Server.Path
import Netpull.Server.FastCrawler
import Netpull.Server.CrawlExact
import Netpull.Server.Job
import Netpull.Lib.Transition
import Netpull.Server.JobLog
import Netpull.Messages
import Netpull.Network.Ip
import Netpull.Parallel.GuardedMap
import Netpull.Server.ClientSendCrawler
import Netpull.Client.HandleTransfer
import Netpull.SymlinkReRoot
import Netpull.Lib.Framing
import Netpull.Network.Framing
import Netpull.Server.FileStream
import Netpull.Client.FileStream
import Netpull.FileSize
import Netpull.Server.AcceptLoop
import Netpull.Crypto
import Netpull.Parallel.WorkerPool
import Netpull.Server.FileIntegrity
import Netpull.Server.Session
import Netpull.Server.StreamLaw
import Netpull.Server.SessionEnds
import Netpull.Client.PullLoop
import Netpull.Client.PullInvariant
import Netpull.EndToEnd
import Netpull.Lib.Decimal
import Netpull.Network.IpParse
import Netpull.Server.Admission
import Netpull.Lib.Lexical
import Netpull.Server.JobIds
import Netpull.Server.RequestedPath
import Netpull.StreamedContent
import Netpull.Server.Tickets
import Netpull.Parallel.TaskPool
import Netpull.Client.Bookkeeping
import Netpull.Client.Success
import Netpull.Client.Races
import Netpull.Client.Confinement
import Netpull.Lib.Inodes
import Netpull.Client.Destination
import Netpull.Client.Completion
import Netpull.Client.Utf8
import Netpull.Client.ProgressBuilder
import Netpull.Server.RelativePath
import Netpull.Network.IpFlags
import Netpull.IntegrityLoops
import Netpull.Network.Liveness
import Netpull.Lib.SlotMap
import Netpull.Server.JobTable
import Netpull.Server.FaultIsolation
import Netpull.Client.Metadata
import Netpull.Client.MetadataLaw
import Netpull.Client.LineLayout
import Netpull.Console
import Netpull.Client.Resume
import Netpull.Client.ItemCounts
import Netpull.Client.ProgressCalls
import Netpull.ScopedResource
import Netpull.Lib.Simulation
import Netpull.Client.Ends
import Netpull.Server.Serves
import Netpull.PullEnds
import Netpull.Server.Wire
import Netpull.PullOnWire
import Netpull.Lib.Oracle
import Netpull.Server.Sessions
import Netpull.Rounds
import Netpull.Lib.Planted
import Netpull.Server.Origins
import Netpull.Client.Layout
import Netpull.TreeLayout
import Netpull.DiskPull
import Netpull.Resumed
import Netpull.Server.ParentsFirst
import Netpull.Client.Faultless
import Netpull.Client.ReportEnds
import Netpull.Mirror
import Netpull.Streams
