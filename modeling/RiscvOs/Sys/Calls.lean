import RiscvOs.Sys.File

set_option autoImplicit false

/-!
# System calls on files (`kernel/disk/sysfile.c`, `kernel/proc/proc.c`)

The system calls that work on open files, and what `kfork` and `kexit` do with the files of a
process. Arguments are what the kernel has read of them from user memory; a path that `argstr`
cannot read is `none`.
-/

namespace RiscvOs.Sys

open Fs

/-! ## `include/fcntl.h` -/

def O_RDONLY : UInt32 := 0x000

def O_WRONLY : UInt32 := 0x001

def O_RDWR : UInt32 := 0x002

def O_CREATE : UInt32 := 0x200

def O_TRUNC : UInt32 := 0x400

/-! ## Descriptors -/

/-- The directory in which a process looks up relative paths. A process that is alive has one. -/
def Kernel.dir (k : Kernel) (p : Fin NPROC) : Slot := (k.proc p).cwd.getD firstSlot

/-- Store an open file in a descriptor. -/
def Kernel.setFd (k : Kernel) (p : Fin NPROC) (fd : Fin NOFILE) (f : Option FileNo) : Kernel :=
  k.setProc p { k.proc p with ofile := Function.update (k.proc p).ofile fd f }

/-- Store an open file in the first free descriptor of the process. -/
def fdalloc (p : Fin NPROC) (f : FileNo) (k : Kernel) : Option (Fin NOFILE) × Kernel :=
  match (List.finRange NOFILE).find? fun fd => (k.proc p).ofile fd == none with
  | some fd => (some fd, k.setFd p fd (some f))
  | none => (none, k)

/-- The open file of a descriptor, which is an `int`. -/
def argfd (p : Fin NPROC) (fd : ℤ) (k : Kernel) : Option (Fin NOFILE × FileNo) :=
  if h : 0 ≤ fd ∧ fd.toNat < NOFILE then
    ((k.proc p).ofile ⟨fd.toNat, h.2⟩).map fun f => (⟨fd.toNat, h.2⟩, f)
  else none

def sysDup (p : Fin NPROC) (fd : ℤ) (k : Kernel) : Except Panic (Option (Fin NOFILE) × Kernel) :=
  match argfd p fd k with
  | none => .ok (none, k)
  | some (_, f) =>
    match fdalloc p f k with
    | (none, k) => .ok (none, k)
    | (some fd, k) => do
      let k ← filedup f k
      .ok (some fd, k)

/-- `sys_close`; the result is `false` for `-1`. -/
def sysClose (p : Fin NPROC) (fd : ℤ) (k : Kernel) : Except Panic (Bool × Kernel) :=
  match argfd p fd k with
  | none => .ok (false, k)
  | some (fd, f) => do
    let k ← fileclose f (k.setFd p fd none)
    .ok (true, k)

/-- `sys_read`. The result of `argfd` is not looked at, so the file pointer is not set when there is
no open file. -/
def sysRead (devsw : DevSw) (p : Fin NPROC) (fd : ℤ) (dst : Dest) (n : ℤ) (k : Kernel) :
    Except Panic ((Option ℕ × List UInt8) × Kernel) :=
  match argfd p fd k with
  | none => .error .wild
  | some (_, f) => fileread devsw f dst n k

/-- `sys_write`, where `null` says that the address is `0`. -/
def sysWrite (devsw : DevSw) (p : Fin NPROC) (fd : ℤ) (null : Bool) (src : Source) (n : ℤ)
    (k : Kernel) : Except Panic (Option ℕ × Kernel) :=
  match argfd p fd k with
  | none => .ok (none, k)
  | some (_, f) => if null then .ok (none, k) else filewrite devsw f src n k

/-! ## Paths -/

/-- `sys_mknod`; the result is `false` for `-1`. -/
def sysMknod (p : Fin NPROC) (path : Option (List UInt8)) (major minor : UInt16)
    (junk : ℕ → Dirent) (k : Kernel) : Except Panic (Bool × Kernel) :=
  match path with
  | none => .ok (false, endOp (beginOp k))
  | some path => do
    let (ip, k) ← (beginOp k).call (create path T_DEVICE major minor (k.dir p) junk)
    match ip with
    | none => .ok (false, endOp k)
    | some ip => do
      let k ← k.callUnit (iunlockput ip)
      .ok (true, endOp k)

/-- `sys_unlink`; the result is `false` for `-1`. -/
def sysUnlink (p : Fin NPROC) (path : Option (List UInt8)) (k : Kernel) :
    Except Panic (Bool × Kernel) :=
  match path with
  | none => .ok (false, k)
  | some path => do
    let (ok, k) ← (beginOp k).call (Fs.sysUnlink path (k.dir p))
    .ok (ok, endOp k)

/-- The inode that `sys_open` opens, with its lock held. -/
def openInode (path : List UInt8) (omode : UInt32) (cwd : Slot) (junk : ℕ → Dirent) (k : Kernel) :
    Except Panic (Option Slot × Kernel) :=
  if omode &&& O_CREATE ≠ 0 then k.call (create path T_FILE 0 0 cwd junk)
  else do
    let (ip, k) ← k.call (namei path cwd)
    match ip with
    | none => .ok (none, k)
    | some ip => do
      let k ← k.callUnit (ilock ip)
      if (k.fs.itable ip).type = T_DIR ∧ omode ≠ O_RDONLY then do
        let k ← k.callUnit (iunlockput ip)
        .ok (none, k)
      else .ok (some ip, k)

/-- The inode is a device whose major number, which is signed, is out of range. -/
def badDevice (v : Inode) : Bool :=
  v.type == T_DEVICE && (v.major.toInt16 < 0 || decide ((NDEV : ℤ) ≤ v.major.toInt16.toInt))

/-- The open file `f`, set up for the inode `ip`. -/
def openedFile (f : File) (ip : Slot) (v : Inode) (omode : UInt32) : File :=
  let f := if v.type = T_DEVICE then { f with type := .device, major := v.major }
    else { f with type := .inode, off := 0 }
  { f with
    ip := ip
    readable := omode &&& O_WRONLY == 0
    writable := omode &&& O_WRONLY != 0 || omode &&& O_RDWR != 0 }

/-- `if((omode & O_TRUNC) && ip->type == T_FILE) itrunc(ip)`. -/
def openTrunc (ip : Slot) (omode : UInt32) (s : FS) : Except Fs.Panic FS :=
  if omode &&& O_TRUNC ≠ 0 ∧ (s.itable ip).type = T_FILE then itrunc ip s else .ok s

/-- `iunlockput(ip); end_op(); return -1`. -/
def openFail (ip : Slot) (k : Kernel) : Except Panic (Option (Fin NOFILE) × Kernel) := do
  let k ← k.callUnit (iunlockput ip)
  .ok (none, endOp k)

/-- The part of `sys_open` after the inode has been found. -/
def openFile (p : Fin NPROC) (ip : Slot) (omode : UInt32) (k : Kernel) :
    Except Panic (Option (Fin NOFILE) × Kernel) :=
  if badDevice (k.fs.itable ip) then openFail ip k
  else
    match filealloc k with
    | (none, k) => openFail ip k
    | (some f, k) =>
      match fdalloc p f k with
      | (none, k) => do
        let k ← fileclose f k
        openFail ip k
      | (some fd, k) => do
        let k := k.setFile f (openedFile (k.file f) ip (k.fs.itable ip) omode)
        let k ← k.callUnit (openTrunc ip omode)
        let k ← k.callUnit (iunlock ip)
        .ok (some fd, endOp k)

def sysOpen (p : Fin NPROC) (path : Option (List UInt8)) (omode : UInt32) (junk : ℕ → Dirent)
    (k : Kernel) : Except Panic (Option (Fin NOFILE) × Kernel) :=
  match path with
  | none => .ok (none, k)
  | some path => do
    let (ip, k) ← openInode path omode (k.dir p) junk (beginOp k)
    match ip with
    | none => .ok (none, endOp k)
    | some ip => openFile p ip omode k

/-! ## Processes -/

/-- The slot that `allocproc` takes. -/
def findUnused (k : Kernel) : Option (Fin NPROC) :=
  (List.finRange NPROC).find? fun p => (k.proc p).state == .unused

/-- A round of the loop in `kfork` that duplicates the descriptors of `p` for `np`. -/
def forkFd (p np : Fin NPROC) (k : Kernel) (fd : Fin NOFILE) : Except Panic Kernel :=
  match (k.proc p).ofile fd with
  | none => .ok k
  | some f => do
    let k ← filedup f k
    .ok (k.setFd np fd (some f))

/-- What `kfork` does after the memory has been copied: the new process gets the descriptors and the
directory of `p`. -/
def forkFiles (p np : Fin NPROC) (k : Kernel) : Except Panic Kernel := do
  let k ← (List.finRange NOFILE).foldlM (forkFd p np) (k.setProc np { k.proc np with state := .used })
  let k := k.enter (idup (k.dir p) k.fs)
  .ok (k.setProc np { k.proc np with cwd := some (k.dir p), state := .alive })

/-- A round of the loop in `kexit` that closes the descriptors. -/
def exitFd (p : Fin NPROC) (k : Kernel) (fd : Fin NOFILE) : Except Panic Kernel :=
  match (k.proc p).ofile fd with
  | none => .ok k
  | some f => do
    let k ← fileclose f k
    .ok (k.setFd p fd none)

def kexit (p : Fin NPROC) (k : Kernel) : Except Panic Kernel := do
  let k ← (List.finRange NOFILE).foldlM (exitFd p) k
  let k ← (beginOp k).callUnit (iput (k.dir p))
  let k := endOp k
  .ok (k.setProc p { k.proc p with cwd := none, state := .zombie })

end RiscvOs.Sys
