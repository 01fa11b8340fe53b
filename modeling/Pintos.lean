import Pintos.Library.StepSystem
import Pintos.Library.WordImage
import Pintos.Library.GrowArray
import Pintos.Library.Links
import Pintos.Library.Traced
import Pintos.Library.Walk
import Pintos.Library.Buckets
import Pintos.Base
import Pintos.Kernel.Bitmap
import Pintos.Kernel.WordBitmap
import Pintos.Kernel.Hash
import Pintos.Filesys.Disk
import Pintos.Filesys.Inode
import Pintos.Filesys.BlockMap
import Pintos.Filesys.FileIo
import Pintos.Filesys.FreeMap
import Pintos.Filesys.Allocate
import Pintos.Filesys.IndexBlocks
import Pintos.Filesys.Growth
import Pintos.Filesys.FileArray
import Pintos.Filesys.Create
import Pintos.Filesys.Store
import Pintos.Filesys.Ownership
import Pintos.Filesys.Deletion
import Pintos.Filesys.Isolation
import Pintos.Filesys.ByteView
import Pintos.Filesys.Extension
import Pintos.Filesys.GrowthCount
import Pintos.Filesys.Access
import Pintos.Filesys.Sparse
import Pintos.Filesys.FreeMapFile
import Pintos.Filesys.Path
import Pintos.Filesys.Directory
import Pintos.Filesys.DirMap
import Pintos.Filesys.Resolve
import Pintos.Filesys.Split
import Pintos.Filesys.Calls
import Pintos.Filesys.Creation
import Pintos.Filesys.Placement
import Pintos.Filesys.Shortage
import Pintos.Filesys.Descriptor
import Pintos.Filesys.DiskIo
import Pintos.Filesys.Walks
import Pintos.Filesys.Spill
import Pintos.Filesys.Failure
import Pintos.Filesys.Entries
import Pintos.Filesys.CurrentDir
import Pintos.Filesys.TwoRuns
import Pintos.Filesys.MakeDir
import Pintos.Filesys.MkdirReport
import Pintos.Filesys.AbsolutePaths
import Pintos.Filesys.NewFile
import Pintos.Filesys.CreateOpen
import Pintos.Filesys.Removal
import Pintos.Filesys.CreateRemove
import Pintos.Filesys.WriteDenial
import Pintos.Devices.Intq
import Pintos.Threads.Synch
import Pintos.Threads.LockState
import Pintos.Threads.NestedDonation
import Pintos.Threads.LockInv
import Pintos.Threads.Donation
import Pintos.Threads.Rollback
import Pintos.Threads.Machine
import Pintos.Threads.Effect
import Pintos.Threads.Frame
import Pintos.Threads.Scheduler
import Pintos.Threads.KernelInv
import Pintos.Threads.Interrupt
import Pintos.Threads.Dispatch
import Pintos.Threads.Semaphore
import Pintos.Threads.Mutex
import Pintos.Threads.Alarm
import Pintos.Threads.Queues
import Pintos.Threads.Condition
import Pintos.Threads.Broadcast
import Pintos.Threads.Residue
import Pintos.Threads.Mlfqs
import Pintos.Threads.Accounting
import Pintos.Threads.Preemption
import Pintos.Threads.NestedWalk
import Pintos.Threads.Wakeup
import Pintos.Threads.SetPriority
import Pintos.Threads.Vaddr
import Pintos.Threads.Palloc
import Pintos.Threads.Pte
import Pintos.Userprog.Syscall
import Pintos.Userprog.Confinement
import Pintos.Userprog.Wait
import Pintos.Userprog.Exec
import Pintos.Userprog.Pagedir
import Pintos.Userprog.Segment
import Pintos.Userprog.ArgStack
import Pintos.Userprog.Siblings
import Pintos.Vm.Memory
import Pintos.Vm.Paging
import Pintos.Vm.FrameRole
import Pintos.Vm.Steps
import Pintos.Vm.Isolation
import Pintos.Vm.FaultFrame
import Pintos.Vm.SwapErrors
import Pintos.Vm.Unmapping
import Pintos.Vm.Entries
import Pintos.Vm.Link
import Pintos.Vm.Linking
import Pintos.Vm.SwapSlots
import Pintos.Vm.SwapAccounts
import Pintos.Vm.MmapRange
import Pintos.Library.Quotient
import Pintos.Lib.Arithmetic
import Pintos.Threads.Malloc
import Pintos.Threads.Heap
import Pintos.Library.DoubleLinks
import Pintos.Kernel.Lists
import Pintos.Kernel.ListOps
import Pintos.Library.StableMerge
import Pintos.Kernel.ListSort
import Pintos.Library.HeapOrder
import Pintos.Lib.Sort
import Pintos.Library.Separated
import Pintos.Lib.Stdio
import Pintos.Lib.FormatInteger
import Pintos.Lib.ParseConversion
import Pintos.Lib.ScanFormat
import Pintos.Lib.FieldWidth
import Pintos.Filesys.Cache
import Pintos.Filesys.CacheCoherence
import Pintos.Library.Fifo
import Pintos.Kernel.OrderedList
import Pintos.Threads.PriorityOrder
import Pintos.Kernel.BitVector
import Pintos.Lib.Strings
import Pintos.Lib.Tokenize
import Pintos.Filesys.PathBuffers
import Pintos.Library.Handles
import Pintos.Userprog.WorkingDir
import Pintos.Kernel.Console
import Pintos.Vm.SwapContents
