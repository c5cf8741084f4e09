import LinuxDevNote.Library.Execution
import LinuxDevNote.Library.BitField
import LinuxDevNote.Library.Memory
import LinuxDevNote.Library.Conservation
import LinuxDevNote.Kernel.Machine
import LinuxDevNote.Mutex.Driver
import LinuxDevNote.Mutex.Positions
import LinuxDevNote.Mutex.Faults
import LinuxDevNote.Mutex.Seek
import LinuxDevNote.Library.Pieces
import LinuxDevNote.Mutex.RoundTrip
import LinuxDevNote.Library.LockOrder
import LinuxDevNote.Mutex.Interleaving
import LinuxDevNote.Mutex.Atomicity
import LinuxDevNote.Block.Driver
import LinuxDevNote.Block.FlatArray
import LinuxDevNote.Block.RangeCheck
import LinuxDevNote.Kernel.CopyLoop
import LinuxDevNote.QueueWait.Driver
import LinuxDevNote.QueueWait.Bounds
import LinuxDevNote.RWTest.Driver
import LinuxDevNote.RWTest.Bounds
import LinuxDevNote.RWTest.Fifo
import LinuxDevNote.RWTest.Appends
import LinuxDevNote.RWTest.Rounds
import LinuxDevNote.Library.Mailbox
import LinuxDevNote.QueueWait.Interleaving
import LinuxDevNote.QueueWait.Alone
import LinuxDevNote.QueueWait.Messages
import LinuxDevNote.QueueWait.Conservation
import LinuxDevNote.QueueWait.Sequence
import LinuxDevNote.QueueWait.Disclosure
import LinuxDevNote.QueueWait.Wakeup
import LinuxDevNote.QueueWait.Acknowledge
import LinuxDevNote.QueueWait.Signal
import LinuxDevNote.Lifecycle.Init
import LinuxDevNote.Lifecycle.Publish
import LinuxDevNote.Library.Resources
import LinuxDevNote.Lifecycle.Unload
import LinuxDevNote.Notifier.Driver
import LinuxDevNote.Notifier.Teardown
import LinuxDevNote.Notifier.Delivery
import LinuxDevNote.Library.CString
import LinuxDevNote.Fifo.Programs
import LinuxDevNote.Fifo.Framing
import LinuxDevNote.Tcp.Programs
import LinuxDevNote.Tcp.Agreement
import LinuxDevNote.Bus.Driver
import LinuxDevNote.Bus.Pairing
import LinuxDevNote.Library.Decimal
import LinuxDevNote.Signal.Driver
import LinuxDevNote.Signal.Parsing
import LinuxDevNote.Signal.Numerals
import LinuxDevNote.Library.ReadCopyUpdate
import LinuxDevNote.Signal.Calls
import LinuxDevNote.Signal.Lifetime
import LinuxDevNote.Tcp.Server
import LinuxDevNote.Library.Paging
import LinuxDevNote.Mmap.Driver
import LinuxDevNote.Mmap.Aliasing
import LinuxDevNote.Kernel.Ioctl
import LinuxDevNote.CharDev.Decoding
import LinuxDevNote.Library.Accesses
import LinuxDevNote.UnuseMutex.Driver
import LinuxDevNote.UnuseMutex.Outcomes
import LinuxDevNote.Library.Simulation
import LinuxDevNote.Mutex.Programs
import LinuxDevNote.Mutex.Refinement
import LinuxDevNote.Library.Countdown
import LinuxDevNote.Mutex.Progress
import LinuxDevNote.Mutex.App
import LinuxDevNote.UnuseMutex.App
import LinuxDevNote.Library.Reordering
import LinuxDevNote.Block.Reordering
import LinuxDevNote.Block.Merging
import LinuxDevNote.Library.Scripts
import LinuxDevNote.Lifecycle.Modules
import LinuxDevNote.Library.Semaphore
import LinuxDevNote.Semaphore.Driver
import LinuxDevNote.QueueWait.Programs
import LinuxDevNote.Library.Stores
import LinuxDevNote.Mmap.SharedArray
import LinuxDevNote.Mmap.App
import LinuxDevNote.Signal.App
import LinuxDevNote.Tcp.Service
import LinuxDevNote.MessageQueue.Program
import LinuxDevNote.MessageQueue.Delivery
