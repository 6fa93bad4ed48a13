import RiscvOs.Kernel.String
import RiscvOs.Mm.FreeVm
import RiscvOs.Sys.Exec

set_option autoImplicit false

/-!
# The memory of a new program

`Sys/Exec` has `kexec` over any functions on memory. Here they are those of `kernel/mm/vm.c`, on the
memory of the machine, and the second half of `kexec` is added: the stack, the arguments on it, and the
change of the address space.

## Main results

* `kexec_eq_some` — the parts of an `exec` that succeeds.

## Implementation notes

The subtractions from the stack pointer are a parameter. `sub64` is what the code does; `subChecked`
stops where the difference would be negative. What is copied to the stack is read from pages of the
caller, which nothing here changes, and is given as lists of bytes.
-/

namespace RiscvOs.Sys

open Loop

open Mm (Phys PGSIZE PTE_W)
open Str (cstr safestrcpy)

/-! ## The state -/

/-- What the kernel keeps about the memory of a process: its table, its size, the page of its trap frame
and its name. -/
structure ProcMem where
  pagetable : ℕ
  sz : ℕ
  trapframe : ℕ
  name : ℕ → UInt8

/-- The memory. `pagetable` is the table that `kexec` is about to build. -/
structure Ram where
  phys : Phys
  pagetable : ℕ
  procs : Fin NPROC → ProcMem

/-- Maximum number of arguments. -/
def MAXARG : ℕ := 32

/-- Number of pages of the stack. -/
def USERSTACK : ℕ := 3

/-- The size of the name of a process. -/
def nameSize : ℕ := 16

/-- The fields of `struct trapframe` that `kexec` sets, by their place. -/
def tfEpc : ℕ := 24

def tfSp : ℕ := 48

def tfA1 : ℕ := 120

/-- Why `exec` does not return: a panic, a store behind the end of `ustack`, or a difference that
`subChecked` does not have. -/
inductive ExecPanic where
  | vm (x : Mm.VmPanic)
  | ustack
  | negative
  deriving DecidableEq

def ofVm {α : Type} (x : Except Mm.VmPanic α) : Except ExecPanic α := x.mapError .vm

/-- The difference of two numbers of type `uint64`. -/
def sub64 (a b : ℕ) : Except ExecPanic ℕ := .ok ((a + 2 ^ 64 - b) % 2 ^ 64)

/-- The difference, if it is not negative. -/
def subChecked (a b : ℕ) : Except ExecPanic ℕ := if a < b then .error .negative else .ok (a - b)

/-! ## The stack -/

/-- The length of a string up to the first NUL. -/
def strlen (arg : List UInt8) : ℕ := (arg.takeWhile (· ≠ 0)).length

/-- The bytes of an array of `uint64`. -/
def wordByte (ws : List ℕ) (i : ℕ) : UInt8 := UInt8.ofNat (ws.getD (i / 8) 0 / 256 ^ (i % 8))

section Stack

variable (sub : ℕ → ℕ → Except ExecPanic ℕ) (kend etext psz root stackbase : ℕ)

/-- `sp -= n; sp -= sp % 16;` -/
def lower (sp n : ℕ) : Except ExecPanic ℕ := do
  let sp ← sub sp n
  sub sp (sp % 16)

/-- The loop over the arguments; `argc` is the number of words in `ustack`. The result is the stack
pointer and `ustack`, or `none` after `goto bad`. -/
def pushArgs : (argv : List (List UInt8)) → (sp : ℕ) → (ustack : List ℕ) → Phys →
    Except ExecPanic (Option (ℕ × List ℕ) × Phys)
  | [], sp, ustack, s => .ok (some (sp, ustack), s)
  | arg :: argv, sp, ustack, s =>
    if MAXARG ≤ ustack.length then .ok (none, s)
    else do
      let sp ← lower sub sp (strlen arg + 1)
      if sp < stackbase then .ok (none, s)
      else do
        let (r, s) ← ofVm (Mm.onPages (Mm.copyout kend etext psz root sp (cstr arg) (strlen arg + 1) s))
        if r < 0 then .ok (none, s)
        else pushArgs argv sp (ustack ++ [sp]) s

/-- The array of the arguments, with a final 0. -/
def pushUstack (sp : ℕ) (ustack : List ℕ) (s : Phys) : Except ExecPanic (Option ℕ × Phys) :=
  -- ustack[argc] = 0
  if MAXARG ≤ ustack.length then .error .ustack
  else do
    let sp ← lower sub sp ((ustack.length + 1) * 8)
    if sp < stackbase then .ok (none, s)
    else do
      let (r, s) ← ofVm (Mm.onPages (Mm.copyout kend etext psz root sp (wordByte (ustack ++ [0]))
        ((ustack.length + 1) * 8) s))
      if r < 0 then .ok (none, s) else .ok (some sp, s)

/-- The arguments and their array. The result is the stack pointer and the number of arguments. -/
def pushArgv (argv : List (List UInt8)) (sp : ℕ) (s : Phys) :
    Except ExecPanic (Option (ℕ × ℕ) × Phys) := do
  let (r, s) ← pushArgs sub kend etext psz root stackbase argv sp [] s
  match r with
  | none => .ok (none, s)
  | some (sp, ustack) => do
    let (r, s) ← pushUstack sub kend etext psz root stackbase sp ustack s
    .ok (r.map fun sp => (sp, ustack.length), s)

end Stack

/-! ## The end of `kexec` -/

/-- The part of a path after the last slash. -/
def lastName (path : List UInt8) : List UInt8 := (path.reverse.takeWhile (· ≠ 47)).reverse

section Commit

variable (sub : ℕ → ℕ → Except ExecPanic ℕ) (kend etext : ℕ)

/-- The label `bad`, after the file has been closed. -/
def bad (sz : ℕ) (m : Ram) : Except ExecPanic (Option ℕ × Ram) := do
  let s ← ofVm (Mm.uFreeUserVM kend m.pagetable sz m.phys)
  .ok (none, { m with phys := s })

/-- Set the registers in the trap frame of a process. -/
def setFrame (frame entry sp : ℕ) (s : Phys) : Phys :=
  ((s.setWord (frame + tfA1) sp).setWord (frame + tfEpc) entry).setWord (frame + tfSp) sp

/-- Commit to the user image: the process gets the new table, and the old one is freed. -/
def switch (p : Fin NPROC) (sz entry sp : ℕ) (path : List UInt8) (m : Ram) : Except ExecPanic Ram := do
  let old := m.procs p
  let new : ProcMem :=
    { old with
      name := safestrcpy old.name (cstr (lastName path)) nameSize
      pagetable := m.pagetable
      sz := sz }
  let s ← ofVm (Mm.uFreeUserVM kend old.pagetable old.sz (setFrame old.trapframe entry sp m.phys))
  .ok { m with phys := s, procs := Function.update m.procs p new }

/-- `kexec` after the file has been closed: the stack is allocated above the image, with a page below it
that the user cannot access, and gets the arguments. -/
@[irreducible] def commit (p : Fin NPROC) (sz entry : ℕ) (path : List UInt8) (argv : List (List UInt8))
    (m : Ram) : Except ExecPanic (Option ℕ × Ram) := do
  let sz := Mm.pgRoundUp sz % 2 ^ 64
  let (sz1, s) ← ofVm (Mm.uVmAlloc kend m.pagetable sz ((sz + (USERSTACK + 1) * PGSIZE) % 2 ^ 64) PTE_W
    m.phys)
  if sz1 = 0 then bad kend sz { m with phys := s }
  else do
    let guard ← sub sz1 ((USERSTACK + 1) * PGSIZE)
    let s ← ofVm (Mm.uvmclear m.pagetable guard s)
    let stackbase ← sub sz1 (USERSTACK * PGSIZE)
    let (r, s) ← pushArgv sub kend etext (m.procs p).sz m.pagetable stackbase argv sz1 s
    match r with
    | none => bad kend sz1 { m with phys := s }
    | some (sp, argc) => do
      let m ← switch kend p sz1 entry sp path { m with phys := s }
      .ok (some argc, m)

/-- The functions of `kernel/mm/vm.c` and the end of `kexec` in place of those of `base`. `trampoline` is the
page of the trap code. -/
def onRam (trampoline : ℕ) (base : Memory Ram ExecPanic) : Memory Ram ExecPanic :=
  { base with
    procPagetable := fun p m => do
      let (pagetable, s) ← ofVm (Mm.procPagetable kend trampoline (m.procs p).trapframe m.phys)
      .ok (decide (pagetable ≠ 0), { m with phys := s, pagetable := pagetable })
    uVmAlloc := fun oldsz newsz perm m => do
      let (sz, s) ← ofVm (Mm.uVmAlloc kend m.pagetable oldsz newsz perm m.phys)
      .ok (sz, { m with phys := s })
    uFreeUserVM := fun sz m => do
      let s ← ofVm (Mm.uFreeUserVM kend m.pagetable sz m.phys)
      .ok { m with phys := s }
    uVA2PA := fun va m => match Mm.uVA2PA m.pagetable va m.phys with
      | .ok pa => decide (pa ≠ 0)
      | .error _ => false
    store := fun va bytes m => match Mm.uVA2PA m.pagetable va m.phys with
      | .ok pa => { m with phys := m.phys.put pa bytes.length fun i => bytes.getD i 0 }
      | .error _ => m
    commit := commit sub kend etext }

end Commit

/-! ## The parts of `kexec` -/

section Parts

variable {σ π : Type} {mem : Memory σ π} {p : Fin NPROC} {path : List UInt8} {argv : List (List UInt8)}
  {k k' : Kernel} {m m' : σ}

/-- **An `exec` that succeeds**: the file is found, its image is loaded, and the process changes to it. -/
theorem kexec_eq_some {n : ℕ} (h : kexec mem p path argv k m = .ok (some n, k', m')) :
    ∃ ip k₀ k₁ k₂ sz entry m₁, (beginOp k).call (Fs.namei path (k.dir p)) = .ok (some ip, k₀) ∧
      k₀.callUnit (Fs.ilock ip) = .ok k₁ ∧ loadImage mem p ip k₁ m = .ok (.done sz entry, k₂, m₁) ∧
      mem.commit p sz entry path argv m₁ = .ok (some n, m') := by
  rw [kexec] at h
  obtain ⟨⟨_ | ip, k₀⟩, hnamei, h⟩ := bind_eq_ok.mp h
  · cases h
  · obtain ⟨k₁, hlock, h⟩ := bind_eq_ok.mp h
    obtain ⟨⟨l, k₂, m₁⟩, hload, h⟩ := bind_eq_ok.mp h
    cases l with
    | early =>
      obtain ⟨_, -, h⟩ := bind_eq_ok.mp h
      cases h
    | bad sz =>
      obtain ⟨_, -, h⟩ := bind_eq_ok.mp h
      obtain ⟨_, -, h⟩ := bind_eq_ok.mp h
      cases h
    | done sz entry =>
      obtain ⟨k₃, -, h⟩ := bind_eq_ok.mp h
      obtain ⟨⟨r, m₂⟩, hcommit, h⟩ := bind_eq_ok.mp h
      cases h
      exact ⟨ip, k₀, k₁, k₂, sz, entry, m₁, mapError_eq_ok.mp hnamei, mapError_eq_ok.mp hlock,
        hload, mapError_eq_ok.mp hcommit⟩

theorem loadImage_eq_done {ip : Fs.Slot} {sz entry : ℕ}
    (h : loadImage mem p ip k m = .ok (.done sz entry, k', m')) :
    ∃ bytes k₀ m₀, k.call (Fs.readi ip Fs.kernelDst 0 elfhdrSize) = .ok ((some elfhdrSize, bytes), k₀) ∧
      mem.procPagetable p m = .ok (true, m₀) ∧
      loadPhs mem ip (Elfhdr.ofBytes bytes).phnum ((Elfhdr.ofBytes bytes).phoff % 2 ^ 32) 0 k₀ m₀ =
        .ok ((sz, true), k', m') := by
  rw [loadImage] at h
  obtain ⟨⟨⟨r, bytes⟩, k₀⟩, hread, h⟩ := bind_eq_ok.mp h
  dsimp only at h
  split_ifs at h with hr hmagic
  · cases h
  · cases h
  · obtain ⟨⟨ok, m₀⟩, hnew, h⟩ := bind_eq_ok.mp h
    cases ok with
    | false => cases h
    | true =>
      obtain ⟨⟨⟨sz', ok⟩, k₁, m₁⟩, hphs, h⟩ := bind_eq_ok.mp h
      cases ok with
      | false => cases h
      | true =>
        cases h
        rw [not_not] at hr
        subst hr
        exact ⟨bytes, k₀, m₀, mapError_eq_ok.mp hread, mapError_eq_ok.mp hnew, hphs⟩

end Parts

end RiscvOs.Sys
