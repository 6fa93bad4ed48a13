import RiscvOs.Mm.Vm
import RiscvOs.Sys.Calls

set_option autoImplicit false

/-!
# Loading a program (`kernel/lib/exec.c`)

`kexec` reads a program from a file and builds a new address space from it. This module is the part
that works on the file; the functions on memory are the fields of a structure, over any type of
memory states, so that what is proved here holds whatever they do. The page table that is being
built is part of the state of the memory.
-/

namespace RiscvOs.Sys

open Fs
open Mm (PGSIZE PTE_W PTE_X)

/-- The functions on memory, over states `σ` and panics `π`.

* `fork p np`: the part of `kfork` that allocates the memory of `np` and copies that of `p`; `false`
  if there is not enough, after everything has been given back;
* `reap p`: the part of `kwait` that frees the memory of `p`;
* `fetchArgv p`: the loop of `sys_exec` that copies the arguments to pages of the kernel; `none` if
  that fails; `freeArgv`: the loops that free these pages;
* `procPagetable p`: `false` if there is no memory for the new page table;
* `uVmAlloc oldsz newsz perm`, `uFreeUserVM sz`: on the new page table;
* `uVA2PA va`: whether an address of the new page table is mapped; `store va bytes`: copy to it;
* `commit p sz entry path argv`: the part of `kexec` after the file has been closed. -/
structure Memory (σ π : Type) where
  fork : (p np : Fin NPROC) → σ → Except π (Bool × σ)
  reap : (p : Fin NPROC) → σ → Except π σ
  fetchArgv : (p : Fin NPROC) → σ → Except π (Option (List (List UInt8)) × σ)
  freeArgv : σ → Except π σ
  procPagetable : (p : Fin NPROC) → σ → Except π (Bool × σ)
  uVmAlloc : (oldsz newsz perm : ℕ) → σ → Except π (ℕ × σ)
  uFreeUserVM : (sz : ℕ) → σ → Except π σ
  uVA2PA : (va : ℕ) → σ → Bool
  store : (va : ℕ) → (bytes : List UInt8) → σ → σ
  commit : (p : Fin NPROC) → (sz entry : ℕ) → (path : List UInt8) → (argv : List (List UInt8)) →
    σ → Except π (Option ℕ × σ)

section Exec

variable {σ π : Type} (mem : Memory σ π)

/-- A panic of the kernel or of the functions on memory. -/
abbrev Fault (π : Type) : Type := Panic ⊕ π

/-- A computation of the kernel, among those on memory. -/
def sys {α : Type} (x : Except Panic α) : Except (Fault π) α := x.mapError Sum.inl

/-- A computation on memory, among those of the kernel. -/
def vm {α : Type} (x : Except π α) : Except (Fault π) α := x.mapError Sum.inr

/-! ## Headers -/

/-- The byte at a position of a header. -/
def hdrByte (bytes : List UInt8) (i : ℕ) : ℕ := (bytes.getD i 0).toNat

/-- The little-endian number of `w` bytes at a position of a header. -/
def hdrNum (bytes : List UInt8) (i : ℕ) : (w : ℕ) → ℕ
  | 0 => 0
  | w + 1 => hdrByte bytes i + 256 * hdrNum bytes (i + 1) w

/-- The fields of `struct elfhdr` that are used. -/
structure Elfhdr where
  magic : ℕ
  entry : ℕ
  phoff : ℕ
  phnum : ℕ

/-- `sizeof(struct elfhdr)`. -/
def elfhdrSize : ℕ := 64

def Elfhdr.ofBytes (bytes : List UInt8) : Elfhdr where
  magic := hdrNum bytes 0 4
  entry := hdrNum bytes 24 8
  phoff := hdrNum bytes 32 8
  phnum := hdrNum bytes 56 2

def ELF_MAGIC : ℕ := 0x464C457F

/-- The fields of `struct proghdr` that are used. -/
structure Proghdr where
  type : ℕ
  flags : ℕ
  off : ℕ
  vaddr : ℕ
  filesz : ℕ
  memsz : ℕ

/-- `sizeof(struct proghdr)`. -/
def proghdrSize : ℕ := 56

def Proghdr.ofBytes (bytes : List UInt8) : Proghdr where
  type := hdrNum bytes 0 4
  flags := hdrNum bytes 4 4
  off := hdrNum bytes 8 8
  vaddr := hdrNum bytes 16 8
  filesz := hdrNum bytes 32 8
  memsz := hdrNum bytes 40 8

def ELF_PROG_LOAD : ℕ := 1

/-- Map ELF permissions to PTE permission bits. -/
def flags2perm (flags : ℕ) : ℕ :=
  (if flags.testBit 0 then PTE_X else 0) ||| if flags.testBit 1 then PTE_W else 0

/-! ## Loading -/

/-- The loop of `loadseg`, at `i`. The arguments `offset` and `sz` are `uint`; the loop gets one
round for every page. -/
def loadsegLoop (ip : Slot) (va offset sz : ℕ) :
    (fuel i : ℕ) → Kernel → σ → Except (Fault π) (Bool × Kernel × σ)
  | 0, _, k, m => .ok (true, k, m)
  | fuel + 1, i, k, m =>
    if i < sz then
      if mem.uVA2PA (va + i) m then do
        let ((r, bytes), k) ←
          sys (k.call (readi ip kernelDst ((offset + i) % 2 ^ 32) (min (sz - i) PGSIZE)))
        let m := mem.store (va + i) bytes m
        if r ≠ some (min (sz - i) PGSIZE) then .ok (false, k, m)
        else loadsegLoop ip va offset sz fuel (i + PGSIZE) k m
      else .error (.inl .loadseg)
    else .ok (true, k, m)

/-- Load a program segment at the address `va`. -/
def loadseg (ip : Slot) (va offset sz : ℕ) (k : Kernel) (m : σ) :
    Except (Fault π) (Bool × Kernel × σ) :=
  loadsegLoop mem ip va (offset % 2 ^ 32) (sz % 2 ^ 32) (sz % 2 ^ 32 / PGSIZE + 1) 0 k m

/-- The segment of a program header: its memory is allocated and it is loaded. The result is the new
size and whether that succeeded. -/
def loadPh (ip : Slot) (ph : Proghdr) (sz : ℕ) (k : Kernel) (m : σ) :
    Except (Fault π) ((ℕ × Bool) × Kernel × σ) :=
  if ph.type ≠ ELF_PROG_LOAD then .ok ((sz, true), k, m)
  else if ph.memsz < ph.filesz then .ok ((sz, false), k, m)
  else if (ph.vaddr + ph.memsz) % 2 ^ 64 < ph.vaddr then .ok ((sz, false), k, m)
  else if ph.vaddr % PGSIZE ≠ 0 then .ok ((sz, false), k, m)
  else do
    let (sz1, m) ← vm (mem.uVmAlloc sz (ph.vaddr + ph.memsz) (flags2perm ph.flags) m)
    if sz1 = 0 then .ok ((sz, false), k, m)
    else do
      let (ok, k, m) ← loadseg mem ip ph.vaddr ph.off ph.filesz k m
      .ok ((sz1, ok), k, m)

/-- The loop over the program headers, of which `fuel` are left. The offset is an `int`, and used as
a `uint`. -/
def loadPhs (ip : Slot) : (fuel off sz : ℕ) → Kernel → σ →
    Except (Fault π) ((ℕ × Bool) × Kernel × σ)
  | 0, _, sz, k, m => .ok ((sz, true), k, m)
  | fuel + 1, off, sz, k, m => do
    let ((r, bytes), k) ← sys (k.call (readi ip kernelDst off proghdrSize))
    if r ≠ some proghdrSize then .ok ((sz, false), k, m)
    else do
      let ((sz, ok), k, m) ← loadPh mem ip (Proghdr.ofBytes bytes) sz k m
      if ok then loadPhs ip fuel ((off + proghdrSize) % 2 ^ 32) sz k m
      else .ok ((sz, false), k, m)

/-- How the loading of a file ends: the first test fails, or there is no page table yet; a segment
cannot be loaded; or everything is there. -/
inductive Loaded where
  | early
  | bad (sz : ℕ)
  | done (sz entry : ℕ)

/-- The part of `kexec` between `ilock` and the point where the file is closed. -/
def loadImage (p : Fin NPROC) (ip : Slot) (k : Kernel) (m : σ) :
    Except (Fault π) (Loaded × Kernel × σ) := do
  let ((r, bytes), k) ← sys (k.call (readi ip kernelDst 0 elfhdrSize))
  if r ≠ some elfhdrSize then .ok (.early, k, m)
  else if (Elfhdr.ofBytes bytes).magic ≠ ELF_MAGIC then .ok (.early, k, m)
  else do
    let (ok, m) ← vm (mem.procPagetable p m)
    if ok then do
      let ((sz, ok), k, m) ← loadPhs mem ip (Elfhdr.ofBytes bytes).phnum
        ((Elfhdr.ofBytes bytes).phoff % 2 ^ 32) 0 k m
      .ok (if ok then .done sz (Elfhdr.ofBytes bytes).entry else .bad sz, k, m)
    else .ok (.early, k, m)

/-- What follows the loading: the file is closed, and the new address space is freed or put in
place. -/
def finishExec (p : Fin NPROC) (path : List UInt8) (argv : List (List UInt8)) (ip : Slot)
    (l : Loaded) (k : Kernel) (m : σ) : Except (Fault π) (Option ℕ × Kernel × σ) :=
  match l with
  | .early => do
    let k ← sys (k.callUnit (iunlockput ip))
    .ok (none, endOp k, m)
  | .bad sz => do
    let m ← vm (mem.uFreeUserVM sz m)
    let k ← sys (k.callUnit (iunlockput ip))
    .ok (none, endOp k, m)
  | .done sz entry => do
    let k ← sys (k.callUnit (iunlockput ip))
    let k := endOp k
    let (r, m) ← vm (mem.commit p sz entry path argv m)
    .ok (r, k, m)

/-- Replace the memory of a process by a program. The result is the number of arguments. -/
def kexec (p : Fin NPROC) (path : List UInt8) (argv : List (List UInt8)) (k : Kernel) (m : σ) :
    Except (Fault π) (Option ℕ × Kernel × σ) := do
  let (ip, k) ← sys ((beginOp k).call (namei path (k.dir p)))
  match ip with
  | none => .ok (none, endOp k, m)
  | some ip => do
    let k ← sys (k.callUnit (ilock ip))
    let (l, k, m) ← loadImage mem p ip k m
    finishExec mem p path argv ip l k m

/-- `sys_exec`. -/
def sysExec (p : Fin NPROC) (path : Option (List UInt8)) (k : Kernel) (m : σ) :
    Except (Fault π) (Option ℕ × Kernel × σ) :=
  match path with
  | none => .ok (none, k, m)
  | some path => do
    let (argv, m) ← vm (mem.fetchArgv p m)
    match argv with
    | none => do
      let m ← vm (mem.freeArgv m)
      .ok (none, k, m)
    | some argv => do
      let (r, k, m) ← kexec mem p path argv k m
      let m ← vm (mem.freeArgv m)
      .ok (r, k, m)

/-- `kfork`; the result is the new process. -/
def kfork (p : Fin NPROC) (k : Kernel) (m : σ) :
    Except (Fault π) (Option (Fin NPROC) × Kernel × σ) :=
  match findUnused k with
  | none => .ok (none, k, m)
  | some np => do
    let (ok, m) ← vm (mem.fork p np m)
    if ok then do
      let k ← sys (forkFiles p np k)
      .ok (some np, k, m)
    else .ok (none, k, m)

/-- The part of `kwait` that frees a child. -/
def reapChild (q : Fin NPROC) (k : Kernel) (m : σ) : Except (Fault π) (Kernel × σ) :=
  if (k.proc q).state = .zombie then do
    let m ← vm (mem.reap q m)
    .ok (k.setProc q { k.proc q with state := .unused }, m)
  else .ok (k, m)

end Exec

end RiscvOs.Sys
