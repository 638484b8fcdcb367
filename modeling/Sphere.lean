import Sphere.Lib.BinarySearch
import Sphere.Lib.Numeral
import Sphere.Lib.Search
import Sphere.Lib.Transition
import Sphere.Lib.SlotPool
import Sphere.Lib.NodeList
import Sphere.Lib.Binary32
import Sphere.Lib.Segment
import Sphere.Lib.Layout
import Sphere.Lib.LockOrder
import Sphere.Lib.Settle
import Sphere.Lib.Exact
import Sphere.Lib.Custody
import Sphere.Lib.Conversation
import Sphere.Lib.IStream
import Sphere.Lib.Program
import Sphere.Lib.LittleEndian
import Sphere.Lib.FileTable
import Sphere.Lib.OutStream
import Sphere.Shmem.Allocator
import Sphere.Shmem.Heap
import Sphere.Shmem.Covering
import Sphere.Shmem.SharedMap
import Sphere.Shmem.Alignment
import Sphere.Shmem.System
import Sphere.Shmem.UnlockedFree
import Sphere.Shmem.Operations
import Sphere.Shmem.Contents
import Sphere.Shmem.Sharing
import Sphere.Shmem.Refusals
import Sphere.Shmem.Linearizable
import Sphere.Shmem.Owned
import Sphere.Shmem.Progress
import Sphere.Proc.Process
import Sphere.Proc.Descriptors
import Sphere.Proc.Signals
import Sphere.Proc.World
import Sphere.Proc.Pipes
import Sphere.Proc.Inherited
import Sphere.Proc.EndOfFile
import Sphere.Log.Logger
import Sphere.Log.Lines
import Sphere.Log.Levels
import Sphere.Net.Connection
import Sphere.Tcp.Exact
import Sphere.Net.Service
import Sphere.Tcp.Endpoints
import Sphere.Net.Buffers
import Sphere.Net.Container
import Sphere.Net.Reading
import Sphere.Net.HangUp
import Sphere.Net.Reacting
import Sphere.Net.Separate
import Sphere.Net.Echo
import Sphere.Net.Calculator
import Sphere.Http.Message
import Sphere.Http.Token
import Sphere.Http.Headers
import Sphere.Http.StartLine
import Sphere.Http.Awaiting
import Sphere.Http.Completion
import Sphere.Http.Grammar
import Sphere.Http.HeaderList
import Sphere.Http.RoundTrip
import Sphere.Http.Boundary
import Sphere.Http.Framing
import Sphere.Http.ViewSafety
import Sphere.Http.Connection
import Sphere.Http.Service
import Sphere.Http.Acceptor
import Sphere.Http.Worker
import Sphere.Http.System
import Sphere.Http.Scan
import Sphere.Http.Frame
import Sphere.Http.ClosedQueue
import Sphere.Http.Locks
import Sphere.Http.Events
import Sphere.Http.TimeoutList
import Sphere.Http.Isolation
import Sphere.Http.Scripts
import Sphere.Http.Fragments
import Sphere.Http.Delivery
import Sphere.Http.Handling
import Sphere.Http.Listener
import Sphere.Cor.Coroutine
import Sphere.Cor.Lifecycle
import Sphere.Cor.Worker
import Sphere.Cor.System
import Sphere.Cor.ClosedQueue
import Sphere.Cor.Locks
import Sphere.Cor.Resting
import Sphere.Cor.Handling
import Sphere.Cor.Live
import Sphere.Cor.Delivery
import Sphere.Cor.Ownership
import Sphere.Cor.Agreement
import Sphere.Cor.Conversation
import Sphere.Cor.Containment
import Sphere.Interview.Command
import Sphere.Interview.Fields
import Sphere.Interview.Session
