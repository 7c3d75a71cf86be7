import Pintos.Base.Reach
import Pintos.Base.Ordered
import Pintos.Base.Classes
import Pintos.Threads.Synch
import Pintos.Threads.Semaphore
import Pintos.Threads.Lock
import Pintos.Threads.Scheduler
import Pintos.Threads.Palloc
import Pintos.Devices.Timer
import Pintos.Devices.Alarm
import Pintos.Devices.Intq
import Pintos.Kernel.Bitmap
import Pintos.Kernel.HashSpec
import Pintos.Userprog.FdTable
import Pintos.Userprog.Syscall
import Pintos.Userprog.UserMemory
import Pintos.Userprog.Process
import Pintos.Userprog.ChildProtocol
import Pintos.Userprog.ProcessView
import Pintos.Userprog.ProcessRefine
import Pintos.Userprog.ChildStatus
import Pintos.Userprog.ExecHandshake
import Pintos.Userprog.WaitStatus
import Pintos.Filesys.WriteRace
import Pintos.Filesys.CreateFailure
import Pintos.Threads.CommandLine
import Pintos.Userprog.LoadExit
import Pintos.Userprog.LoadStale
import Pintos.Threads.Malloc
import Pintos.Threads.MallocSpec
import Pintos.Threads.MallocRun
import Pintos.Userprog.SyscallAccept
import Pintos.Filesys.InodeCounts
import Pintos.Userprog.WaitScan
import Pintos.Userprog.SyscallReturn
import Pintos.Filesys.CreateSize
import Pintos.Userprog.LoadBlock
import Pintos.Userprog.PagedirMap
import Pintos.Threads.SynchList
import Pintos.Devices.Serial
import Pintos.Userprog.ExecRobust
import Pintos.Userprog.Segment
import Pintos.Filesys.ChunkedIo
import Pintos.Devices.Calibrate
import Pintos.Devices.Wakeup
import Pintos.Threads.Realloc
import Pintos.Filesys.DirectoryMap
import Pintos.Userprog.ExitChildren
import Pintos.Lib.Arithmetic
import Pintos.Threads.Paging
import Pintos.Kernel.PackedBitmap
import Pintos.Base.Separated
import Pintos.Lib.Stdio
import Pintos.Lib.FormatInteger
import Pintos.Lib.Atoi
import Pintos.Lib.FormatScan
import Pintos.Lib.FieldWidth
import Pintos.Devices.Disk
import Pintos.Kernel.ConsoleLock
import Pintos.Base.NaturalMerge
import Pintos.Kernel.ListSort
import Pintos.Userprog.ExecPages
import Pintos.Base.RingBuffer
import Pintos.Devices.IntqFifo
import Pintos.Base.MaximalRuns
import Pintos.Lib.ByteMemory
import Pintos.Lib.Strtok
import Pintos.Lib.Memmove
import Pintos.Base.BinaryHeap
import Pintos.Lib.Elements
import Pintos.Lib.BinarySearch
import Pintos.Lib.HeapSort
import Pintos.Lib.Vsnprintf
import Pintos.Kernel.ListOps
import Pintos.Base.FirstOfClass
import Pintos.Kernel.ListUnique
import Pintos.Kernel.HashTable
import Pintos.Kernel.HashLayout
import Pintos.Kernel.HashIter
import Pintos.Base.Ia32
import Pintos.Base.Gates
import Pintos.Threads.Switch
import Pintos.Threads.IntrStubs
import Pintos.Threads.Idt
import Pintos.Threads.IntrHandler
import Pintos.Base.Tape
import Pintos.Devices.Vga
import Pintos.Userprog.UserMode
import Pintos.Devices.Kbd
import Pintos.Userprog.Activate
import Pintos.Threads.RoundRobin
