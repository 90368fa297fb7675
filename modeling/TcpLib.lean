import TcpLib.Lib.Transition
import TcpLib.Lib.CircularBuffer
import TcpLib.ReceiveFull
import TcpLib.ReceiveWedge
import TcpLib.ClientReassembly
import TcpLib.Deletion
import TcpLib.Callbacks
import TcpLib.OrderlyClose
import TcpLib.AcceptedSends
import TcpLib.SendIsolation
import TcpLib.SendStream
import TcpLib.HandOver
import TcpLib.SendProgress
import TcpLib.ReceiveTermination
import TcpLib.ClientReconnect
import TcpLib.QueueDelivery
import TcpLib.WriteWakeup
import TcpLib.Teardown
import TcpLib.MicroBuffer
import TcpLib.CallbackErrors
import TcpLib.ParserSafety
import TcpLib.DrbLog
import TcpLib.PackageCellClear
import TcpLib.ThreadStop
import TcpLib.EndToEnd
import TcpLib.Connections
import TcpLib.DrbGrowth
import TcpLib.QueueRelease
import TcpLib.RingBuffer
import TcpLib.TestServer
import TcpLib.TaskQueue
import TcpLib.QueueLookups
