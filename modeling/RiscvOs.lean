import RiscvOs.Lib.Bytes
import RiscvOs.Lib.Replay
import RiscvOs.Lib.Machine
import RiscvOs.Lib.Counting
import RiscvOs.Lib.Ring
import RiscvOs.Lib.Bitmap
import RiscvOs.Lib.Ownership
import RiscvOs.Lib.Loop
import RiscvOs.Lib.Overwrite
import RiscvOs.Lib.SlotMap
import RiscvOs.Param
import RiscvOs.Kernel.String
import RiscvOs.Disk.Log
import RiscvOs.Disk.LogCrash
import RiscvOs.Disk.LogReboot
import RiscvOs.Disk.Transaction
import RiscvOs.Disk.Bio
import RiscvOs.Disk.BioRefs
import RiscvOs.Disk.BioCoherence
import RiscvOs.Disk.BioWrap
import RiscvOs.Disk.Commit
import RiscvOs.Fs.Format
import RiscvOs.Fs.State
import RiscvOs.Fs.Inode
import RiscvOs.Fs.Table
import RiscvOs.Fs.InodeRefs
import RiscvOs.Fs.File
import RiscvOs.Fs.Ownership
import RiscvOs.Fs.Consistent
import RiscvOs.Fs.Calls
import RiscvOs.Fs.Write
import RiscvOs.Fs.Read
import RiscvOs.Fs.Contents
import RiscvOs.Fs.Exact
import RiscvOs.Fs.Dir
import RiscvOs.Fs.DirMap
import RiscvOs.Fs.Path
import RiscvOs.Fs.Books
import RiscvOs.Fs.Blocks
import RiscvOs.Fs.Holes
import RiscvOs.Fs.Mount
import RiscvOs.Mkfs.Program
import RiscvOs.Mkfs.Laid
import RiscvOs.Mkfs.Append
import RiscvOs.Mkfs.Image
import RiscvOs.Mkfs.Built
import RiscvOs.Mkfs.ReadBack
import RiscvOs.Mkfs.Solid
import RiscvOs.Fs.Buffers
import RiscvOs.Sys.File
import RiscvOs.Sys.Offset
import RiscvOs.Sys.Calls
import RiscvOs.Sys.Exec
import RiscvOs.Sys.Ledger
import RiscvOs.Sys.Settle
import RiscvOs.Sys.References
import RiscvOs.Sys.Balance
import RiscvOs.Sys.Lengths
import RiscvOs.Sys.Descriptors
import RiscvOs.Sys.Reservation
import RiscvOs.Trap.Hart
import RiscvOs.Lib.IndexRing
import RiscvOs.Driver.VirtioDisk
import RiscvOs.Driver.VirtioChains
import RiscvOs.Driver.VirtioProtocol
import RiscvOs.Lib.Memory
import RiscvOs.Lib.Radix
import RiscvOs.Mm.Kalloc
import RiscvOs.Mm.Allocator
import RiscvOs.Mm.Exhausted
import RiscvOs.Mm.Vm
import RiscvOs.Mm.PageTable
import RiscvOs.Mm.Mapping
import RiscvOs.Mm.Copyout
import RiscvOs.Mm.Copyin
import RiscvOs.Mm.Uvmcopy
import RiscvOs.Mm.UserVm
import RiscvOs.Mm.FreeVm
import RiscvOs.Proc.Machine
import RiscvOs.Proc.Locks
import RiscvOs.Proc.OneHart
import RiscvOs.Proc.Wakeup
import RiscvOs.Sys.Image
import RiscvOs.Sys.Loading
import RiscvOs.Sys.Argv
import RiscvOs.Lib.CInt
import RiscvOs.Fs.Balloc
import RiscvOs.Proc.Interrupts
import RiscvOs.Mm.UserPtr
import RiscvOs.Disk.BioRecency
import RiscvOs.Fs.Walk
import RiscvOs.Fs.Truncate
import RiscvOs.Fs.Reclaim
import RiscvOs.Fs.FailedCreate
import RiscvOs.User.Printf
