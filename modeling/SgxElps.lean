import SgxElps.Lib.Transition
import SgxElps.Lib.Participants
import SgxElps.Lib.Except
import SgxElps.Lib.Word
import SgxElps.Futex.Basic
import SgxElps.Futex.Invariant
import SgxElps.Futex.Waiters
import SgxElps.Futex.Wakeup
import SgxElps.Futex.Requeue
import SgxElps.Queue.Basic
import SgxElps.Queue.Ring
import SgxElps.Queue.Invariant
import SgxElps.Queue.Tickets
import SgxElps.Lib.Span
import SgxElps.Alloc.Basic
import SgxElps.Alloc.Invariant
import SgxElps.Alloc.Operations
import SgxElps.Alloc.Safety
import SgxElps.Lib.FreeSet
import SgxElps.Alloc.Effects
import SgxElps.Alloc.Ledger
import SgxElps.Alloc.Fit
import SgxElps.Alloc.Conservation
import SgxElps.Alloc.Coalescing
import SgxElps.Lib.RoundUp
import SgxElps.Alloc.MemAlign
import SgxElps.Lib.Placed
import SgxElps.Sched.Basic
import SgxElps.Sched.Invariant
import SgxElps.Sched.Clone
import SgxElps.Switch.Basic
import SgxElps.Switch.Invariant
import SgxElps.Switch.Registers
import SgxElps.Switch.Safety
import SgxElps.Lib.WaitFor
import SgxElps.Dispatch.Basic
import SgxElps.Dispatch.WaitFor
import SgxElps.Locking.Basic
import SgxElps.Locking.Invariant
import SgxElps.Locking.Deadlock
import SgxElps.Lib.Bytes
import SgxElps.Syscall.Basic
import SgxElps.Syscall.Frame
import SgxElps.Syscall.Rewriting
import SgxElps.Syscall.Marshal
import SgxElps.Syscall.Prepared
import SgxElps.Syscall.Invocation
import SgxElps.Syscall.Submission
import SgxElps.Syscall.Nested
import SgxElps.Syscall.Complete
import SgxElps.Syscall.Message
import SgxElps.Syscall.Secrecy
import SgxElps.Syscall.Ample
import SgxElps.Syscall.Gather
import SgxElps.Syscall.Release
import SgxElps.Syscall.Path
import SgxElps.Syscall.Checked
import SgxElps.Syscall.NullArgs
import SgxElps.Lib.BitWord
import SgxElps.Slub.Basic
import SgxElps.Slub.Layout
import SgxElps.Slub.Slots
import SgxElps.Slub.Invariant
import SgxElps.Slub.Ownership
import SgxElps.Slub.DoubleFree
import SgxElps.Syscall.Served
import SgxElps.Lib.Dll
import SgxElps.Slub.PerCpu
import SgxElps.Slub.PerCpuMemory
import SgxElps.Slub.PerCpuInvariant
import SgxElps.Request.Basic
import SgxElps.Request.Invariant
import SgxElps.Request.Epoll
import SgxElps.Request.Sleep
import SgxElps.Request.WatchList
import SgxElps.Mmap.Basic
import SgxElps.Mmap.Scan
import SgxElps.Mmap.Invariant
import SgxElps.Lib.Runs
import SgxElps.Mmap.Search
import SgxElps.Mmap.Bitmap
import SgxElps.Mmap.Reserve
import SgxElps.Mmap.Hint
import SgxElps.Malloc.Basic
import SgxElps.Malloc.Expand
import SgxElps.Malloc.Realloc
import SgxElps.Lib.RedBlack
import SgxElps.Rbtree.Basic
import SgxElps.Rbtree.Memory
import SgxElps.Rbtree.Insert
import SgxElps.Rbtree.Textbook
import SgxElps.Rbtree.Duplicate
import SgxElps.Rbtree.Erase
import SgxElps.Rbtree.Invariant
import SgxElps.Rbtree.Traverse
import SgxElps.Rbtree.Safety
import SgxElps.Lib.Preempt
import SgxElps.Interrupt.Basic
import SgxElps.Interrupt.Balance
import SgxElps.Interrupt.Nesting
import SgxElps.Lib.SortedMap
import SgxElps.Loader.Enclave
import SgxElps.Loader.Allocate
import SgxElps.Loader.Elf
import SgxElps.Lib.Patch
import SgxElps.Loader.Relocate
import SgxElps.Lib.BigNum
import SgxElps.Loader.Signature
import SgxElps.Loader.Measure
import SgxElps.Loader.Token
import SgxElps.Bitmap.Scan
import SgxElps.Bitmap.Unset
import SgxElps.Bitmap.Transaction
import SgxElps.Bitmap.Range
