import AlgorithmLib.Library.Bytes
import AlgorithmLib.Library.Frames
import AlgorithmLib.Library.Run
import AlgorithmLib.Library.Pipeline
import AlgorithmLib.Library.Block
import AlgorithmLib.Library.CInt
import AlgorithmLib.FlexBuffer.Model
import AlgorithmLib.FlexBuffer.Fifo
import AlgorithmLib.AsyncLog.Buffers
import AlgorithmLib.AsyncLog.Bounds
import AlgorithmLib.AsyncLog.LogFile
import AlgorithmLib.Library.Text
import AlgorithmLib.Ini.Model
import AlgorithmLib.Ini.Entry
import AlgorithmLib.Ini.Bounds
import AlgorithmLib.Ini.Keys
import AlgorithmLib.Ini.Append
import AlgorithmLib.AsyncTask.FlexBuffer
import AlgorithmLib.AsyncTask.AlignFlexBuffer
import AlgorithmLib.AsyncTask.AsyncProc
import AlgorithmLib.AsyncTask.Conservation
import AlgorithmLib.AsyncTask.Ownership
import AlgorithmLib.AsyncTask.Shutdown
import AlgorithmLib.AsyncTask.TaskFraming
import AlgorithmLib.LinkageLog.Decode
import AlgorithmLib.Library.Keyed
import AlgorithmLib.Library.Peel
import AlgorithmLib.DeadLock.Tables
import AlgorithmLib.DeadLock.Graph
import AlgorithmLib.DeadLock.Verdict
import AlgorithmLib.DeadLock.Protocol
import AlgorithmLib.DeadLock.Detection
import AlgorithmLib.DeadLock.HoldRecords
import AlgorithmLib.DeadLock.Phantom
import AlgorithmLib.Library.Links
import AlgorithmLib.TimeWheel.Core
import AlgorithmLib.TimeWheel.Placement
import AlgorithmLib.TimeWheel.Timed
import AlgorithmLib.TimeWheel.Exact
import AlgorithmLib.Library.Pool
import AlgorithmLib.TimeWheel.Manager
import AlgorithmLib.TimeWheel.Live
import AlgorithmLib.TimeWheel.CatchUp
import AlgorithmLib.TimeWheel.Events
import AlgorithmLib.TimeWheel.Clock
import AlgorithmLib.TimeWheel.Periodic
import AlgorithmLib.TimeWheel.Drift
import AlgorithmLib.TimerThread.Slots
import AlgorithmLib.TimerThread.Model
import AlgorithmLib.TimerThread.Records
import AlgorithmLib.TimerThread.Silence
import AlgorithmLib.TimerThread.Delivery
import AlgorithmLib.TimerThread.Handles
import AlgorithmLib.TimerThread.CoreLock
import AlgorithmLib.TimerThread.Balance
import AlgorithmLib.TimerThread.GetTask
import AlgorithmLib.TimerPool.Model
import AlgorithmLib.TimerPool.Silence
import AlgorithmLib.Library.Heap
import AlgorithmLib.MinHeap.TimeHeap
import AlgorithmLib.MinHeap.Representation
import AlgorithmLib.MinHeap.Tick
import AlgorithmLib.MinHeap.Reentrant
import AlgorithmLib.Epoll.MinHeap
import AlgorithmLib.Epoll.Scheduler
import AlgorithmLib.Epoll.Invariant
import AlgorithmLib.Epoll.Operations
import AlgorithmLib.Epoll.Representation
import AlgorithmLib.Epoll.Interest
import AlgorithmLib.Epoll.Delivery
import AlgorithmLib.Epoll.Cancel
import AlgorithmLib.Epoll.Stop
import AlgorithmLib.Epoll.TimerWait
import AlgorithmLib.Library.Stutter
import AlgorithmLib.Udp.Ucph
import AlgorithmLib.Udp.WireFormat
import AlgorithmLib.Udp.ClientSession
import AlgorithmLib.Udp.Exchange
import AlgorithmLib.Udp.Requests
import AlgorithmLib.Udp.Manager
import AlgorithmLib.Udp.Registered
import AlgorithmLib.Udp.Validation
import AlgorithmLib.Library.RedBlack
import AlgorithmLib.RbTree.Node
import AlgorithmLib.RbTree.Model
import AlgorithmLib.RbTree.Shape
import AlgorithmLib.RbTree.Rotate
import AlgorithmLib.RbTree.Insert
import AlgorithmLib.RbTree.EraseColor
import AlgorithmLib.RbTree.Walk
import AlgorithmLib.RbTree.Erase
import AlgorithmLib.RbTree.FiniteMap
import AlgorithmLib.CoRoutine.Model
import AlgorithmLib.CoRoutine.Reclaim
import AlgorithmLib.Library.SortedMap
import AlgorithmLib.Library.Store
import AlgorithmLib.Delegate.Model
import AlgorithmLib.Delegate.Snapshot
import AlgorithmLib.DelegateOnce.Model
import AlgorithmLib.DelegateOnce.Ownership
import AlgorithmLib.DelegateOnce.Delivery
import AlgorithmLib.MemLeaks.Model
import AlgorithmLib.MemLeaks.Mirror
import AlgorithmLib.Library.Loop
import AlgorithmLib.DsTools.FindFirst
import AlgorithmLib.Library.Answered
import AlgorithmLib.Db.Mysqldbc
import AlgorithmLib.Db.Committed
import AlgorithmLib.Library.Segment
import AlgorithmLib.Library.Memory
import AlgorithmLib.CoRoutine.ItemLinks
import AlgorithmLib.StlcList.Ring
import AlgorithmLib.CoRoutine.Timeout
import AlgorithmLib.CoRoutine.EventLoop
import AlgorithmLib.CoRoutine.Waits
import AlgorithmLib.CoRoutine.Wakeups
import AlgorithmLib.CoRoutine.SharedStack
import AlgorithmLib.CoRoutine.PrivateStacks
import AlgorithmLib.Library.Shares
import AlgorithmLib.ChanRpc.Model
import AlgorithmLib.ChanRpc.Calls
import AlgorithmLib.ChanRpc.Answers
import AlgorithmLib.ChanRpc.Executions
import AlgorithmLib.LeafGo.Close
import AlgorithmLib.LeafUtil.Rand
