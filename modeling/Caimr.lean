import Caimr.Lib.Handoff
import Caimr.Net.BufferQueue
import Caimr.Net.TcpConn
import Caimr.Net.OutgoingStream
import Caimr.Net.Eloop
import Caimr.Net.FunctorOrder
import Caimr.Net.Wakeup
import Caimr.Net.EloopThread
import Caimr.Net.Quit
import Caimr.Net.CrossThread
import Caimr.Net.MessageOrder
import Caimr.Net.GracefulShutdown
import Caimr.Net.TcpServer
import Caimr.Lib.Bag
import Caimr.Net.ConnLife
import Caimr.Net.ServerWork
import Caimr.Net.ServerAgenda
import Caimr.Net.ServerLoops
import Caimr.Net.CloseOnce
import Caimr.Net.ChannelLife
import Caimr.Net.EpollPoller
import Caimr.Net.Backlog
import Caimr.Net.Echo
import Caimr.Net.SharedState
import Caimr.Net.Teardown
import Caimr.Net.SendStorage
import Caimr.Net.ConnTable
import Caimr.Lib.Batch
import Caimr.Net.Ownership
import Caimr.Thread.Tpool
import Caimr.Net.Threads
import Caimr.Net.Confinement
import Caimr.Thread.Pool
import Caimr.Thread.Drain
import Caimr.Net.ServerEnd
import Caimr.Net.Reserve
import Caimr.Net.ScatterRead
import Caimr.Net.BufferHistory
import Caimr.Net.BufferSpace
import Caimr.Net.Notifications
import Caimr.Lib.Decimal
import Caimr.Log.FixedBuffer
import Caimr.Log.LogStream
import Caimr.Log.FormatInteger
import Caimr.Log.StreamContents
import Caimr.Log.Logger
import Caimr.Log.Record
import Caimr.Log.Threshold
import Caimr.Lib.Seen
import Caimr.Net.Served
import Caimr.Net.ServerConns
import Caimr.Net.LifeOrder
import Caimr.Net.EloopTpool
import Caimr.Net.EpollPoll
import Caimr.Net.ServerPollers
import Caimr.Net.Draining
import Caimr.Net.Incoming
import Caimr.Net.Address
import Caimr.Lib.Settle
import Caimr.Net.ServerCalls
import Caimr.Net.ServerSettles
import Caimr.Net.ConnRelease
import Caimr.Net.PollReports
import Caimr.Thread.Joining
import Caimr.Net.EloopJoin
