import Wavelet.Lib.BoundedQueue
import Wavelet.Control
import Wavelet.Runtime.Scheduler
import Wavelet.Runtime.Graph
import Wavelet.Runtime.EventDriver
import Wavelet.Runtime.Handles
import Wavelet.Runtime.Builder
import Wavelet.Runtime.Cycle
import Wavelet.Lib.Steps
import Wavelet.Runtime.Code
import Wavelet.Runtime.Micro
import Wavelet.Runtime.Structure
import Wavelet.Runtime.Reachable
import Wavelet.Runtime.Loop
import Wavelet.Cycle.Order
import Wavelet.Cycle.Tally
import Wavelet.Cycle.Books
import Wavelet.Cycle.Closure
import Wavelet.Runtime.Ownership
import Wavelet.Cleanup.Removals
import Wavelet.Events.Wakeups
import Wavelet.Events.Rest
import Wavelet.Events.Retry
import Wavelet.Cleanup.Cascade
import Wavelet.Cleanup.Sweep
import Wavelet.Channel.State
import Wavelet.Channel.Closed
import Wavelet.Notify.Machine
import Wavelet.Notify.Kept
import Wavelet.Notify.Asleep
import Wavelet.Handles.Exclusive
import Wavelet.Runtime.Declared
import Wavelet.Cycle.Dedup
import Wavelet.Runtime.World
import Wavelet.Wsnl.Time
import Wavelet.Wsnl.Control
import Wavelet.Channel.Balance
import Wavelet.Channel.Stranded
import Wavelet.Cycle.Ends
import Wavelet.Lib.Pairs
import Wavelet.Clock.Historical
import Wavelet.Runtime.Respects
import Wavelet.Runtime.Spelling
import Wavelet.Cycle.Alike
import Wavelet.Cleanup.Timing
import Wavelet.Events.Timers
import Wavelet.Events.Deadlines
import Wavelet.Cycle.Pops
import Wavelet.Clock.Precision
import Wavelet.Cycle.Life
import Wavelet.Runtime.Lineage
import Wavelet.Cycle.Course
import Wavelet.Cycle.Account
import Wavelet.Cycle.Reads
import Wavelet.Wsnl.Construct
import Wavelet.Wsnl.Switch
import Wavelet.Wsnl.Transform
import Wavelet.Wsnl.Routing
import Wavelet.Wsnl.Outlets
import Wavelet.Wsnl.Partition
import Wavelet.Lib.FloorQueue
import Wavelet.Runtime.MultiQueue
import Wavelet.Cycle.Mutated
import Wavelet.Factory.Keyed
import Wavelet.Handles.Refused
import Wavelet.Events.Precedence
import Wavelet.Testing.Push
import Wavelet.Lib.Wiring
import Wavelet.Wsnl.Logic
import Wavelet.Wsnl.Network
import Wavelet.Wsnl.Stream
import Wavelet.Wsnl.Pipeline
import Wavelet.Cycle.Progress
import Wavelet.Cycle.Spawns
import Wavelet.Notify.InTurn
import Wavelet.Channel.Delivery
import Wavelet.Factory.Simple
import Wavelet.Wsnl.TakeSwitch
import Wavelet.Cleanup.Holders
import Wavelet.Cleanup.Leaks
import Wavelet.Lib.Synchronous
import Wavelet.Wsnl.Dataflow
import Wavelet.Wsnl.Initial
import Wavelet.Wsnl.Memo
