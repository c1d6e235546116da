import HttpWebserver.Lib.Machine
import HttpWebserver.Lib.PartialRules
import HttpWebserver.Lib.Storage
import HttpWebserver.Lib.CString
import HttpWebserver.Lib.MachineInt
import HttpWebserver.Lib.ByteMemory
import HttpWebserver.Lib.LinkedHeap
import HttpWebserver.Lib.Pipeline
import HttpWebserver.Lib.ReferenceLfu
import HttpWebserver.Buffer.Buffer
import HttpWebserver.Buffer.Fifo
import HttpWebserver.Reactor.Channel
import HttpWebserver.Reactor.Registration
import HttpWebserver.Reactor.EventLoop
import HttpWebserver.Reactor.Wakeup
import HttpWebserver.Reactor.PendingFunctors
import HttpWebserver.ThreadPool.EventLoopThread
import HttpWebserver.LFUCache.LFUCache
import HttpWebserver.LFUCache.Layout
import HttpWebserver.LFUCache.Chain
import HttpWebserver.LFUCache.Refinement
import HttpWebserver.LFUCache.WellLinked
import HttpWebserver.LFUCache.Clients
import HttpWebserver.HttpConnection.Connection
import HttpWebserver.HttpConnection.Write
import HttpWebserver.HttpConnection.ParseLine
import HttpWebserver.HttpConnection.LineDelivery
import HttpWebserver.HttpConnection.ProcessRead
import HttpWebserver.HttpConnection.LineStart
import HttpWebserver.HttpConnection.ParseRequest
import HttpWebserver.HttpConnection.BodyDelivery
import HttpWebserver.HttpConnection.DoRequest
import HttpWebserver.HttpConnection.ServedFile
import HttpWebserver.HttpConnection.Alike
import HttpWebserver.HttpConnection.KeepAlive
import HttpWebserver.HttpConnection.StaleInput
import HttpWebserver.HttpConnection.Isolation
import HttpWebserver.HttpConnection.Pipelining
import HttpWebserver.LogSystem.LogStream
import HttpWebserver.LogSystem.AsyncLogging
import HttpWebserver.LogSystem.DoubleBuffer
import HttpWebserver.LogSystem.Stop
import HttpWebserver.MemoryPool.MemoryPool
import HttpWebserver.MemoryPool.Slots
import HttpWebserver.MemoryPool.SharedPool
import HttpWebserver.SqlConnectionPool.SqlConnectionPool
import HttpWebserver.HttpConnection.Users
import HttpWebserver.HttpConnection.RequestLine
import HttpWebserver.Lib.PathNormal
import HttpWebserver.HttpConnection.DocRoot
import HttpWebserver.HttpConnection.Response
import HttpWebserver.Reactor.Dispatch
import HttpWebserver.MemoryPool.Elements
import HttpWebserver.MemoryPool.Routes
import HttpWebserver.Reactor.Acceptor
import HttpWebserver.Lib.BinaryHeap
import HttpWebserver.Timer.Timer
import HttpWebserver.Timer.Expiry
import HttpWebserver.HttpConnection.LineScanner
import HttpWebserver.HttpConnection.MalformedLine
import HttpWebserver.HttpConnection.BodyText
import HttpWebserver.HttpConnection.FormDecoding
import HttpWebserver.HttpConnection.Login
import HttpWebserver.HttpConnection.SqlInsert
import HttpWebserver.HttpConnection.Process
import HttpWebserver.Reactor.Interest
import HttpWebserver.Buffer.WriteFd
import HttpWebserver.HttpConnection.FileSize
import HttpWebserver.Lib.Decimal
import HttpWebserver.LogSystem.FormatInteger
import HttpWebserver.LogSystem.Logger
import HttpWebserver.MemoryPool.Alignment
import HttpWebserver.LogSystem.SpareBuffers
import HttpWebserver.LFUCache.SetFrame
import HttpWebserver.LFUCache.Labels
import HttpWebserver.HttpConnection.Termination
import HttpWebserver.Lib.RefCount
import HttpWebserver.SqlConnectionPool.Handles
import HttpWebserver.Lib.CondVar
import HttpWebserver.LogSystem.CountDownLatch
import HttpWebserver.ThreadPool.Thread
import HttpWebserver.ThreadPool.StartLoop
import HttpWebserver.ThreadPool.EventLoopThreadPool
import HttpWebserver.LogSystem.Start
import HttpWebserver.LogSystem.LogFile
import HttpWebserver.LogSystem.OnDisk
import HttpWebserver.MemoryPool.Destructor
import HttpWebserver.Timer.Closing
import HttpWebserver.Lib.LastSplit
import HttpWebserver.LogSystem.ReadBack
import HttpWebserver.HttpConnection.Accounts
import HttpWebserver.LFUCache.LastSet
import HttpWebserver.Reactor.OneShot
import HttpWebserver.Reactor.EventList
import HttpWebserver.SqlConnectionPool.HeldOnce
import HttpWebserver.MemoryPool.Footprint
import HttpWebserver.Buffer.Growth
