import Pintos.Base.Run
import Pintos.Base.Splice
import Pintos.Base.Ledger
import Pintos.Base.PriorityList
import Pintos.Base.Monitor
import Pintos.Base.Inheritance
import Pintos.Base.KeyedSet
import Pintos.Base.Ring
import Pintos.Base.Triple
import Pintos.Base.Memory
import Pintos.Lib.Bitmap
import Pintos.Lib.BitmapWords
import Pintos.Lib.Hash
import Pintos.Lib.Strtok
import Pintos.Lib.Ustar
import Pintos.Lib.String
import Pintos.Lib.Arithmetic
import Pintos.Lib.Stdlib
import Pintos.Userprog.ExitState
import Pintos.Userprog.ExitWait
import Pintos.Userprog.ExitLifetime
import Pintos.Userprog.ExitMappings
import Pintos.Userprog.Arguments
import Pintos.Userprog.ArgumentStack
import Pintos.Userprog.ExecLoad
import Pintos.Userprog.Syscall
import Pintos.Userprog.SyscallFaults
import Pintos.Userprog.SyscallCopies
import Pintos.Userprog.SyscallEnds
import Pintos.Userprog.SyscallLock
import Pintos.Userprog.UserPointers
import Pintos.Userprog.SyscallLeaks
import Pintos.Userprog.SyscallAsserts
import Pintos.Vm.State
import Pintos.Vm.Swap
import Pintos.Vm.Fault
import Pintos.Vm.SupPageTable
import Pintos.Vm.Mapping
import Pintos.Vm.Effect
import Pintos.Vm.Shape
import Pintos.Vm.Sound
import Pintos.Vm.Preserve
import Pintos.Vm.SwapSlots
import Pintos.Vm.Apart
import Pintos.Vm.Unmap
import Pintos.Vm.WriteBack
import Pintos.Vm.MappedFile
import Pintos.Vm.MappedRun
import Pintos.Vm.Mmap
import Pintos.Vm.Statements
import Pintos.Vm.FrameOwners
import Pintos.Vm.Outline
import Pintos.Vm.OutlineSteps
import Pintos.Vm.View
import Pintos.Vm.OutlineSound
import Pintos.Vm.StoreKept
import Pintos.Vm.Lru
import Pintos.Vm.Elf
import Pintos.Vm.FreshPages
import Pintos.Threads.State
import Pintos.Threads.Synch
import Pintos.Threads.Queues
import Pintos.Threads.Frame
import Pintos.Threads.QueueSteps
import Pintos.Threads.Effect
import Pintos.Threads.Dispatch
import Pintos.Threads.ReadyQueue
import Pintos.Threads.Masking
import Pintos.Threads.Sleep
import Pintos.Threads.Locks
import Pintos.Threads.Donors
import Pintos.Threads.Semaphores
import Pintos.Threads.Preemption
import Pintos.Threads.Conditions
import Pintos.Threads.Donation
import Pintos.Filesys.Handles
import Pintos.Filesys.HandleCounts
import Pintos.Filesys.WriteDenial
import Pintos.Filesys.ProcessExit
import Pintos.Filesys.Fsutil
import Pintos.Devices.Intq
import Pintos.Devices.Partition
import Pintos.Fs.Disk
import Pintos.Fs.Inode
import Pintos.Fs.OpenInodes
import Pintos.Fs.Slots
import Pintos.Fs.Transfer
import Pintos.Fs.FreeMap
import Pintos.Fs.Mounted
import Pintos.Fs.Growing
import Pintos.Fs.Extend
import Pintos.Fs.Deallocate
import Pintos.Fs.Bounds
import Pintos.Fs.Directory
import Pintos.Fs.Filesys
import Pintos.Fs.Store
import Pintos.Fs.Operations
import Pintos.Fs.Lifetime
import Pintos.Fs.FileMap
import Pintos.Fs.Chunks
import Pintos.Fs.Session
