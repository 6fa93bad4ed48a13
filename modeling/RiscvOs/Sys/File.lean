import RiscvOs.Fs.Path

set_option autoImplicit false

/-!
# Open files (`kernel/disk/file.c`)

The table of open files, the part of a process that refers to it, and the functions on open
files. `begin_op` and `end_op` keep an account of the transactions of the running system call.

## Implementation notes

System calls run one after the other here, so one account of transactions is enough: it is that of
the call which runs. Other calls may be in the middle of a transaction; how many is all that
`log_write` looks at. It adds to a list of the file system, so a call into the file system has
reached it exactly if that list has changed. The handlers of devices touch neither files nor
inodes; only what they return is modelled.
-/

namespace RiscvOs.Sys

open Function Fs

/-- `FD_NONE`, `FD_PIPE`, `FD_INODE` and `FD_DEVICE`. -/
inductive FdType where
  | none | pipe | inode | device
  deriving DecidableEq

/-- `struct file`. -/
structure File where
  type : FdType
  ref : ℕ
  readable : Bool
  writable : Bool
  ip : Slot
  off : UInt32
  major : UInt16

/-- A slot of `ftable`. -/
abbrev FileNo : Type := Fin NFILE

/-- `enum procstate`, where `alive` stands for `SLEEPING`, `RUNNABLE` and `RUNNING`. -/
inductive ProcState where
  | unused | used | alive | zombie
  deriving DecidableEq

/-- The fields of `struct PCB` that refer to files. -/
structure Proc where
  state : ProcState
  ofile : Fin NOFILE → Option FileNo
  cwd : Option Slot

/-- The account of the transactions of a system call: how often `begin_op` and `end_op` were called,
whether the call is inside a transaction, whether `begin_op` was called inside one, and whether
`log_write` was called outside. -/
structure Account where
  begins : ℕ
  ends : ℕ
  inside : Bool
  nested : Bool
  outside : Bool
  deriving DecidableEq

/-- The account of a call that has done nothing. -/
def Account.fresh : Account := ⟨0, 0, false, false, false⟩

/-- The file system, the open files, the processes, the account of the running call, and the number of
other calls that are inside a transaction. -/
structure Kernel where
  fs : FS
  file : FileNo → File
  proc : Fin NPROC → Proc
  account : Account
  outstanding : ℕ

def firstProc : Fin NPROC := ⟨0, by decide⟩

/-- Why a system call does not return: a panic of the file system, of `log_write`, of `file.c` or of
`exec.c`, or a file pointer that was never set. -/
inductive Panic where
  | fs (e : Fs.Panic)
  | logWrite | filedup | fileclose | fileread | filewrite | loadseg | wild
  deriving DecidableEq

/-- Change an open file. -/
def Kernel.setFile (k : Kernel) (f : FileNo) (v : File) : Kernel :=
  { k with file := update k.file f v }

/-- Change a process. -/
def Kernel.setProc (k : Kernel) (p : Fin NPROC) (v : Proc) : Kernel :=
  { k with proc := update k.proc p v }

/-- `begin_op`, as the calling process sees it. -/
def beginOp (k : Kernel) : Kernel :=
  { k with account := { k.account with
      begins := k.account.begins + 1
      inside := true
      nested := k.account.nested || k.account.inside } }

/-- `end_op`, as the calling process sees it. -/
def endOp (k : Kernel) : Kernel :=
  { k with account := { k.account with ends := k.account.ends + 1, inside := false } }

/-- The state after a call has changed the file system to `s`. -/
def Kernel.enter (k : Kernel) (s : FS) : Kernel :=
  { k with
    fs := s
    account := { k.account with
      outside := k.account.outside || (!k.account.inside && decide (s.logged ≠ k.fs.logged)) } }

/-- `log_write` panics if no call is inside a transaction. -/
def Kernel.mayEnter (k : Kernel) (s : FS) : Prop :=
  k.account.inside = true ∨ s.logged = k.fs.logged ∨ 0 < k.outstanding

instance (k : Kernel) (s : FS) : Decidable (k.mayEnter s) := by
  unfold Kernel.mayEnter
  infer_instance

/-- A call into the file system. -/
def Kernel.call {α : Type} (k : Kernel) (f : FS → Except Fs.Panic (α × FS)) :
    Except Panic (α × Kernel) :=
  match f k.fs with
  | .ok (a, s) => if k.mayEnter s then .ok (a, k.enter s) else .error .logWrite
  | .error e => .error (.fs e)

/-- A call into the file system that returns nothing. -/
def Kernel.callUnit (k : Kernel) (f : FS → Except Fs.Panic FS) : Except Panic Kernel :=
  match f k.fs with
  | .ok s => if k.mayEnter s then .ok (k.enter s) else .error .logWrite
  | .error e => .error (.fs e)

theorem call_eq_ok {α : Type} {k k' : Kernel} {f : FS → Except Fs.Panic (α × FS)} {a : α}
    (h : k.call f = .ok (a, k')) : ∃ s, f k.fs = .ok (a, s) ∧ k' = k.enter s := by
  unfold Kernel.call at h
  split at h
  · rename_i b s hs
    split_ifs at h
    cases h
    exact ⟨s, hs, rfl⟩
  · cases h

theorem callUnit_eq_ok {k k' : Kernel} {f : FS → Except Fs.Panic FS} (h : k.callUnit f = .ok k') :
    ∃ s, f k.fs = .ok s ∧ k.mayEnter s ∧ k' = k.enter s := by
  unfold Kernel.callUnit at h
  split at h
  · rename_i s hs
    split_ifs at h with hmay
    cases h
    exact ⟨s, hs, hmay, rfl⟩
  · cases h

/-! ## The table of open files -/

/-- Take a free slot of the table. The other fields of the slot are not touched. -/
def filealloc (k : Kernel) : Option FileNo × Kernel :=
  match (List.finRange NFILE).find? fun f => (k.file f).ref == 0 with
  | some f => (some f, k.setFile f { k.file f with ref := 1 })
  | none => (none, k)

/-- Another reference to an open file. -/
def filedup (f : FileNo) (k : Kernel) : Except Panic Kernel :=
  if (k.file f).ref < 1 then .error .filedup
  else .ok (k.setFile f { k.file f with ref := (k.file f).ref + 1 })

/-- Drop a reference to an open file; the last one gives back the inode. -/
def fileclose (f : FileNo) (k : Kernel) : Except Panic Kernel :=
  if (k.file f).ref < 1 then .error .fileclose
  else if 0 < (k.file f).ref - 1 then
    .ok (k.setFile f { k.file f with ref := (k.file f).ref - 1 })
  else
    let ff := k.file f
    let k := k.setFile f { ff with ref := 0, type := .none }
    if ff.type = .inode ∨ ff.type = .device then do
      let k ← (beginOp k).callUnit (iput ff.ip)
      .ok (endOp k)
    else .ok k

/-! ## Reading and writing -/

/-- The value of an `int` as a `uint`. -/
def asUint (n : ℤ) : ℕ := (n % 2 ^ 32).toNat

/-- `if(r > 0) f->off += r`, where `r` is an `int` and `none` is `-1`. -/
def File.advance (f : File) : Option ℕ → File
  | some r => if 0 < r ∧ r < 2 ^ 31 then { f with off := f.off + UInt32.ofNat r } else f
  | none => f

@[simp] theorem File.advance_ip (f : File) (r : Option ℕ) : (f.advance r).ip = f.ip := by
  unfold File.advance
  split
  · split_ifs <;> rfl
  · rfl

/-- What `fileread` does for an inode: the return value, the bytes, and the open file. -/
def readInode (dst : Dest) (n : ℤ) (f : File) (s : FS) :
    Except Fs.Panic ((Option ℕ × List UInt8 × File) × FS) := do
  let s ← ilock f.ip s
  let ((r, bytes), s) ← readi f.ip dst f.off.toNat (asUint n) s
  let f := f.advance r
  let s ← iunlock f.ip s
  .ok ((r, bytes, f), s)

/-- What a round of `filewrite` does between `begin_op` and `end_op`. -/
def writeInode (src : Source) (n1 : ℕ) (f : File) (s : FS) :
    Except Fs.Panic ((Option ℕ × File) × FS) := do
  let s ← ilock f.ip s
  let (r, s) ← writei f.ip src f.off.toNat n1 s
  let f := f.advance r
  let s ← iunlock f.ip s
  .ok ((r, f), s)

/-- The handlers of a device, which get the length and return a length or `-1`. -/
structure Device where
  read : Option (ℤ → Option ℕ)
  write : Option (ℤ → Option ℕ)

/-- `devsw`. -/
abbrev DevSw : Type := Fin NDEV → Device

/-- The entry of `devsw` for a major number, which is signed. -/
def DevSw.entry (devsw : DevSw) (major : UInt16) : Option Device :=
  if h : 0 ≤ major.toInt16.toInt ∧ major.toInt16.toInt.toNat < NDEV then
    some (devsw ⟨major.toInt16.toInt.toNat, h.2⟩)
  else none

/-- Read from an open file: the return value, and the bytes for a file that is not a device. -/
def fileread (devsw : DevSw) (f : FileNo) (dst : Dest) (n : ℤ) (k : Kernel) :
    Except Panic ((Option ℕ × List UInt8) × Kernel) :=
  if (k.file f).readable = false then .ok ((none, []), k)
  else
    match (k.file f).type with
    | .pipe => .ok ((some 0, []), k)
    | .device =>
      match (devsw.entry (k.file f).major).bind Device.read with
      | none => .ok ((none, []), k)
      | some read => .ok ((read n, []), k)
    | .inode => do
      let ((r, bytes, v), k) ← k.call (readInode dst n (k.file f))
      .ok ((r, bytes), k.setFile f v)
    | .none => .error .fileread

/-- The length of a write that is sure to fit into a transaction. -/
def maxWrite : ℕ := (MAXOPBLOCKS - 1 - 1 - 2) / 2 * BSIZE

/-- A round of `filewrite`. -/
def writeRound (f : FileNo) (src : Source) (n1 : ℕ) (k : Kernel) :
    Except Panic (Option ℕ × Kernel) := do
  let ((r, v), k) ← (beginOp k).call (writeInode src n1 (k.file f))
  .ok (r, endOp (k.setFile f v))

/-- The loop of `filewrite`; the result is the final `i`. -/
def writeRounds (f : FileNo) (src : Source) (n : ℕ) :
    (fuel i : ℕ) → Kernel → Except Panic (ℕ × Kernel)
  | 0, i, k => .ok (i, k)
  | fuel + 1, i, k =>
    if i < n then do
      let (r, k) ← writeRound f (fun j => src (i + j)) (min (n - i) maxWrite) k
      if r ≠ some (min (n - i) maxWrite) then .ok (i, k)
      else writeRounds f src n fuel (i + min (n - i) maxWrite) k
    else .ok (i, k)

/-- Write to an open file. The loop gets `n` rounds, which is enough because each one that is not
the last writes at least one byte. -/
def filewrite (devsw : DevSw) (f : FileNo) (src : Source) (n : ℤ) (k : Kernel) :
    Except Panic (Option ℕ × Kernel) :=
  if (k.file f).writable = false then .ok (none, k)
  else
    match (k.file f).type with
    | .pipe => .ok (some 0, k)
    | .device =>
      match (devsw.entry (k.file f).major).bind Device.write with
      | none => .ok (none, k)
      | some write => .ok (write n, k)
    | .inode => do
      let (i, k) ← writeRounds f src n.toNat n.toNat 0 k
      .ok (if (i : ℤ) = n then some i else none, k)
    | .none => .error .filewrite

end RiscvOs.Sys
