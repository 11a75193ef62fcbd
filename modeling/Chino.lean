import Chino.Sync.Wakeup
import Chino.Sync.Primitives
import Chino.Sched.Unlocked
import Chino.Library.Count
import Chino.Library.Run
import Chino.Sched.Exit
import Chino.Sched.Release
import Chino.Sched.Delay
import Chino.Sched.Notify
import Chino.Sched.Recheck
import Chino.Sched.Running
import Chino.Library.Rotation
import Chino.Sched.Rotation
import Chino.Io.Delivery
import Chino.Io.Unwind
import Chino.Io.Waits
import Chino.Io.ReadyBlocks
import Chino.Io.Time
import Chino.Io.Worker
import Chino.Io.FileRefs
import Chino.Io.OpenFailure
import Chino.Io.Dispatch
import Chino.Io.Attach
import Chino.Drivers.DeviceQueue
import Chino.Drivers.HostSerial
import Chino.Drivers.ConsoleInput
import Chino.Drivers.HostConsole
import Chino.Drivers.Interrupts
import Chino.Drivers.ReceiveTimeout
import Chino.Drivers.SerialControl
import Chino.Mm.Allocation
import Chino.Mm.Bitmap
import Chino.Mm.Complete
import Chino.Mm.FreePageList
import Chino.Mm.Huge
import Chino.Mm.Preempt
import Chino.Mm.Rent
import Chino.ListOperations
import Chino.Ob.HandleCloses
import Chino.Ob.Namespace
import Chino.Ob.Partial
import Chino.Ob.ElementPool
import Chino.Hal.Emulator
import Chino.Hal.Builds
import Chino.Sync.Exclusion
import Chino.Mm.Exhaustion
import Chino.Sched.Waiting
import Chino.Io.DescriptorRuns
import Chino.Drivers.Datagrams
import Chino.Components.LineRuns
import Chino.Ob.ObjectPtr
import Chino.Components.Evaluation
import Chino.Components.VariableRuns
import Chino.Components.Tokenizer
import Chino.Components.LineSession
