import H264Cast.AnnexB.First
import H264Cast.Queue.Data
import H264Cast.Queue.Pointer
import H264Cast.Queue.Lifecycle
import H264Cast.Queue.Order
import H264Cast.Queue.List
import H264Cast.Queue.Destroy
import H264Cast.Queue.Size
import H264Cast.Rtp.Sequence
import H264Cast.Rtp.Train
import H264Cast.Client.EndToEnd
import H264Cast.Client.Multicast
import H264Cast.Client.Timing
import H264Cast.Client.Window
import H264Cast.Server.Leftover
import H264Cast.Server.Grouping
import H264Cast.Server.Limit
import H264Cast.Session.Reply
import H264Cast.Session.Table
import H264Cast.Socket.Buffer
import H264Cast.Socket.UdpPacket
import H264Cast.Socket.TcpWrite
import H264Cast.Socket.Listen
import H264Cast.FileParse.Chunks
import H264Cast.FileParse.Single
import H264Cast.FileParse.Printed
import H264Cast.Sample.FreeList
import H264Cast.Sample.ZeroRuns
import H264Cast.Sample.Datagram
import H264Cast.Sample.SendFailure
import H264Cast.Sample.AcceptLoop
import H264Cast.Rtp.Loss
import H264Cast.Rtp.Reorder
import H264Cast.Network.Multicast
import H264Cast.Network.Fanout
import H264Cast.Session.Manager
import H264Cast.Queue.Accounting
import H264Cast.Queue.Progress
import H264Cast.Network.Udp
import H264Cast.Queue.Linear
import H264Cast.Queue.Interchange
import H264Cast.Socket.UdpRead
import H264Cast.Network.Program
import H264Cast.Socket.Descriptors
import H264Cast.Session.Echo
import H264Cast.Network.Tcp
