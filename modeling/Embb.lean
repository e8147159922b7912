import Embb.Lib.Threads
import Embb.Lib.ForkJoin
import Embb.Mtapi.Scheduler.ActionCounter
import Embb.Mtapi.Scheduler.QueueCounter
import Embb.Mtapi.Scheduler.OrderedRuns
import Embb.Mtapi.Scheduler.GroupCounter
import Embb.Containers.WaitFreeSPSCQueue
import Embb.Algorithms.MergeSort
import Embb.Algorithms.ScanTree
import Embb.Algorithms.Reduce
import Embb.Algorithms.QuickSortTasks
import Embb.Containers.TreePoolMemory
import Embb.Containers.LockFreeTreeValuePoolProgress
import Embb.Containers.WaitFreeArrayValuePoolProgress
import Embb.Containers.LockFreeMPMCQueueProgress
import Embb.Containers.HazardPointerRetired
import Embb.Containers.LockFreeStackProgress
import Embb.MtapiNetwork.Send
import Embb.MtapiNetwork.Sockets
import Embb.Mtapi.Handles
import Embb.Mtapi.QueueLookup
import Embb.Mtapi.JobActions
import Embb.Mtapi.Scheduler.OwnCounters
import Embb.Mtapi.Scheduler.Detached
import Embb.Mtapi.Scheduler.Callback
import Embb.Mtapi.Scheduler.Selection
import Embb.Mtapi.Scheduler.Traversal
import Embb.Mtapi.Scheduler.GroupErrors
import Embb.Mtapi.Scheduler.Reasons
import Embb.Mtapi.Scheduler.Instances
import Embb.Mtapi.Scheduler.RetainedQueue
import Embb.Mtapi.Scheduler.DisabledActions
import Embb.Mtapi.Scheduler.DispatchPaths
import Embb.Mtapi.Scheduler.StartAtomic
import Embb.Tasks.Group
import Embb.Tasks.Continuation
import Embb.Dataflow.Sequential
import Embb.Dataflow.Drain
import Embb.Mtapi.TaskQueueThreads
import Embb.Mtapi.IdPoolThreads
import Embb.Mtapi.Lifecycle
import Embb.Mtapi.Scheduler.AffinityMasks
import Embb.Mtapi.Timeout
import Embb.Base.DurationBounds
import Embb.Base.DebugHeap
import Embb.MtapiNetwork.Buffer
import Embb.MtapiNetwork.Framing
import Embb.MtapiNetwork.RemoteTask
import Embb.MtapiNetwork.Replies
import Embb.Base.Function
import Embb.Base.ThreadSpecificStorage
import Embb.Algorithms.ForEach
