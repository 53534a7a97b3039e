import SmartRoutine.Address
import SmartRoutine.BoundedFifo
import SmartRoutine.BoundedQueue
import SmartRoutine.BufferBounds
import SmartRoutine.BufferFifo
import SmartRoutine.BufferLimit
import SmartRoutine.BufferRefusal
import SmartRoutine.CallErrno
import SmartRoutine.Completion
import SmartRoutine.Connection
import SmartRoutine.ContextSwitch
import SmartRoutine.CoroContexts
import SmartRoutine.DelayCallback
import SmartRoutine.DynamicBuffer
import SmartRoutine.EPoll
import SmartRoutine.Endpoint
import SmartRoutine.EndpointCache
import SmartRoutine.EndpointFootprint
import SmartRoutine.EventLoop
import SmartRoutine.FiringOrder
import SmartRoutine.Framing
import SmartRoutine.Handlers
import SmartRoutine.IoCall
import SmartRoutine.IoRuns
import SmartRoutine.IoRuntime
import SmartRoutine.Lib.Bytes
import SmartRoutine.Lib.Contexts
import SmartRoutine.Lib.Deferred
import SmartRoutine.Lib.Delimited
import SmartRoutine.Lib.Footprint
import SmartRoutine.Lib.InOrder
import SmartRoutine.Lib.Memory
import SmartRoutine.Lib.Monitor
import SmartRoutine.Lib.Ownership
import SmartRoutine.Lib.Pattern
import SmartRoutine.Lib.PriorityQueue
import SmartRoutine.Lib.Refinement
import SmartRoutine.Lib.Transition
import SmartRoutine.Lib.X86
import SmartRoutine.Libcontext
import SmartRoutine.Lifetime
import SmartRoutine.PartialSearch
import SmartRoutine.Placement
import SmartRoutine.ReadUntil
import SmartRoutine.Registration
import SmartRoutine.RunOrder
import SmartRoutine.RunQueue
import SmartRoutine.Scheduler
import SmartRoutine.SchedulerInv
import SmartRoutine.Scheduling
import SmartRoutine.SearchTermination
import SmartRoutine.SmartCoro
import SmartRoutine.SmartTimer
import SmartRoutine.SocketErrors
import SmartRoutine.SocketFlags
import SmartRoutine.SocketModes
import SmartRoutine.SocketWorld
import SmartRoutine.Sockets
import SmartRoutine.StreamTransfer
import SmartRoutine.TextAddress
import SmartRoutine.TimerClock
import SmartRoutine.TimestampOrder
import SmartRoutine.TransferBranches
import SmartRoutine.WorkerStart
