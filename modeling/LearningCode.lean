import LearningCode.TimeWheel.Agreement
import LearningCode.TimeWheel.Locking
import LearningCode.MinHeap.Runs
import LearningCode.SkipList.Expire
import LearningCode.SkipList.Runs
import LearningCode.Deadlock.Ownership
import LearningCode.Deadlock.Edges
import LearningCode.Deadlock.Cycle
import LearningCode.Deadlock.Indices
import LearningCode.RbTree.Map
import LearningCode.RbTree.Successor
import LearningCode.Btree.Runs
import LearningCode.ImPdu.Receive
import LearningCode.ImPdu.Accepted
import LearningCode.ImPdu.Growing
import LearningCode.ImPdu.Writes
import LearningCode.ImPdu.Fifo
import LearningCode.ImPdu.ShortId
import LearningCode.ImServer.Accept
import LearningCode.SingleTw.Allocators
import LearningCode.WrapTimer.Nginx
import LearningCode.WrapTimer.Reentrant
import LearningCode.ArrayQueue.Refusals
import LearningCode.Ypipe.Condition
import LearningCode.SimpleQueue.Delivery
import LearningCode.MemPool.Agreement
import LearningCode.Dns.Records
import LearningCode.Dns.Decompress
import LearningCode.Dns.InBounds
import LearningCode.Dns.Encoding
import LearningCode.WebSocket.Echo
import LearningCode.WebSocket.Access
import LearningCode.WebSocket.Accept
import LearningCode.WebSocket.States
import LearningCode.WebSocket.Receive
import LearningCode.HttpServer.Isolation
import LearningCode.EchoReactor.Echo
import LearningCode.SelectServer.Streams
import LearningCode.UdpIcmpArp.Replies
import LearningCode.NtyCo.Sleep
import LearningCode.NtyCo.Timeout
import LearningCode.NtyCo.Entries
import LearningCode.TryCatch.Finally
import LearningCode.DbPool.Accounting
import LearningCode.ZeroThreadpool.Wait
import LearningCode.ThreadPoll.Tasks
import LearningCode.ThreadPoll.Shutdown
import LearningCode.ThreadPoll.Idle
import LearningCode.HttpServer.Bounds
import LearningCode.C1000K.Table
import LearningCode.ImUtil.Memfind
import LearningCode.ImUtil.Explode
import LearningCode.ImUtil.ReplaceMark
import LearningCode.ImUtil.Url
import LearningCode.Yqueue.Release
import LearningCode.Nginx.Timer
import LearningCode.Protobuf.Accepted
import LearningCode.ImChat.Conversation
import LearningCode.Coroutine.Runs
import LearningCode.SyncQueue.Wakeups
