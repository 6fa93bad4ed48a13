import RiscvOs.Sys.Balance

set_option autoImplicit false

/-!
# Descriptors that are not open (`kernel/disk/sysfile.c`)

The four system calls that get a descriptor, down to their arguments in the trap frame and to the local
variables that `argfd` sets. `argfd` leaves them alone when there is no open file. `sys_write`, `sys_dup` and
`sys_close` return then. `sys_read` does not look at what `argfd` returns, and goes on with the pointer that
was on its stack.

## Main results

* `run_open` — with a descriptor that is open, the calls are the ones of the model of
  system calls and use pointers of the process only.
* `bad_descriptor_rejected_iff` — which calls reject a descriptor that is not open.
-/

namespace RiscvOs.Sys.Descriptors

open Fs Balance

/-- A value of type `struct file *`: the address of a slot of `ftable`, or any other. -/
inductive FilePtr where
  | slot (f : FileNo)
  | stray
  deriving DecidableEq

/-- The registers of the trap frame with the arguments. -/
structure Args where
  a0 : UInt64
  a1 : UInt64
  a2 : UInt64

/-- The local variables that `argfd` may set. Before that they hold what was on the stack. -/
structure Locals where
  f : FilePtr
  fd : ℤ

/-- The user memory of the process, as far as the calls see it: which bytes can be read and written from an
address on. -/
structure UserMem where
  src : UInt64 → Source
  dst : UInt64 → Dest

/-- What a call does: its return value, the bytes it writes to user memory and the state, and the file
pointers that it has used. -/
structure Outcome where
  result : Except Panic (ℤ × List UInt8 × Kernel)
  used : List FilePtr

/-- An argument as an `int`. -/
def argint (a : UInt64) : ℤ := a.toUInt32.toInt32.toInt

/-- `argfd`, which returns `-1` and sets nothing if there is no open file. -/
def argfd (p : Fin NPROC) (a : UInt64) (l : Locals) (k : Kernel) : ℤ × Locals :=
  match Sys.argfd p (argint a) k with
  | none => (-1, l)
  | some (fd, f) => (0, ⟨.slot f, fd.val⟩)

/-- Go on with a file pointer, which has to be the address of a slot. -/
def FilePtr.follow {α : Type} (f : FilePtr) (cont : FileNo → Except Panic α) : Except Panic α :=
  match f with
  | .slot f => cont f
  | .stray => .error .wild

/-- A return value, where `none` is `-1`. -/
def retval : Option ℕ → ℤ
  | none => -1
  | some r => r

/-- `return -1`, with nothing done. -/
def fail (k : Kernel) : Outcome := ⟨.ok (-1, [], k), []⟩

section Calls

variable (devsw : DevSw) (p : Fin NPROC) (args : Args) (user : UserMem) (l : Locals) (k : Kernel)

def sysWrite : Outcome :=
  let (r, l) := argfd p args.a0 l k
  if r < 0 then fail k
  else if args.a1 ≤ 0 then fail k
  else
    { result := l.f.follow fun f => do
        let (r, k) ← filewrite devsw f (user.src args.a1) (argint args.a2) k
        .ok (retval r, [], k)
      used := [l.f] }

/-- `sys_read`. Its test `f < 0` compares an address with 0 and is never true. -/
def sysRead : Outcome :=
  let (_, l) := argfd p args.a0 l k
  { result := l.f.follow fun f => do
      let ((r, bytes), k) ← fileread devsw f (user.dst args.a1) (argint args.a2) k
      .ok (retval r, bytes, k)
    used := [l.f] }

def sysDup : Outcome :=
  let (r, l) := argfd p args.a0 l k
  if r < 0 then fail k
  else
    { result := l.f.follow fun f =>
        match fdalloc p f k with
        | (none, k) => .ok (-1, [], k)
        | (some fd, k) => do
          let k ← filedup f k
          .ok (fd.val, [], k)
      used := [l.f] }

/-- `sys_close`. The descriptor that `argfd` has set is in range. -/
def sysClose : Outcome :=
  let (r, l) := argfd p args.a0 l k
  if r < 0 then fail k
  else
    { result := l.f.follow fun f =>
        if h : l.fd.toNat < NOFILE then do
          let k ← fileclose f (k.setFd p ⟨l.fd.toNat, h⟩ none)
          .ok (0, [], k)
        else .error .wild
      used := [l.f] }

end Calls

/-- The system calls that get a descriptor. -/
inductive FdCall where
  | read | write | dup | close
  deriving DecidableEq

def FdCall.run (devsw : DevSw) (p : Fin NPROC) (args : Args) (user : UserMem) (l : Locals) (k : Kernel) :
    FdCall → Outcome
  | .read => sysRead devsw p args user l k
  | .write => sysWrite devsw p args user l k
  | .dup => sysDup p args l k
  | .close => sysClose p args l k

/-- The pointer is in the descriptor table of the process. -/
def Own (p : Fin NPROC) (k : Kernel) (ptr : FilePtr) : Prop :=
  ∃ fd f, (k.proc p).ofile fd = some f ∧ ptr = .slot f

/-- The descriptor is negative, at least `NOFILE`, or that of a closed slot. -/
def Bad (p : Fin NPROC) (k : Kernel) (fd : ℤ) : Prop :=
  fd < 0 ∨ (NOFILE : ℤ) ≤ fd ∨ ∃ i : Fin NOFILE, fd = i.val ∧ (k.proc p).ofile i = none

/-- The call has returned `-1`, has changed neither the kernel's state nor the user memory, and has used no
file pointer that is not in the descriptor table of the process. -/
structure Rejected (p : Fin NPROC) (k : Kernel) (o : Outcome) : Prop where
  result : o.result = .ok (-1, [], k)
  used : ∀ ptr ∈ o.used, Own p k ptr

/-! ## `argfd` -/

section Argfd

variable {p : Fin NPROC} {k : Kernel} {a : UInt64}

theorem argfd_none_iff {fd : ℤ} : Sys.argfd p fd k = none ↔ Bad p k fd := by
  unfold Sys.argfd
  split_ifs with h
  · rw [Option.map_eq_none_iff]
    constructor
    · intro hnone
      exact Or.inr (Or.inr ⟨⟨fd.toNat, h.2⟩, (Int.toNat_of_nonneg h.1).symm, hnone⟩)
    · rintro (hneg | hlarge | ⟨i, rfl, hnone⟩)
      · omega
      · omega
      · exact hnone
  · refine iff_of_true rfl ?_
    by_cases hneg : fd < 0
    · exact Or.inl hneg
    · exact Or.inr (Or.inl (by omega))

theorem argfd_bad (hbad : Bad p k (argint a)) (l : Locals) : argfd p a l k = (-1, l) := by
  unfold argfd
  rw [argfd_none_iff.mpr hbad]

theorem argfd_open {fd : Fin NOFILE} {f : FileNo} (h : Sys.argfd p (argint a) k = some (fd, f)) (l : Locals) :
    argfd p a l k = (0, ⟨.slot f, fd.val⟩) := by
  unfold argfd
  rw [h]

theorem own_of_argfd {fd : ℤ} {i : Fin NOFILE} {f : FileNo} (h : Sys.argfd p fd k = some (i, f)) :
    Own p k (.slot f) := by
  unfold Sys.argfd at h
  split_ifs at h
  obtain ⟨g, hg, heq⟩ := Option.map_eq_some_iff.mp h
  cases heq
  exact ⟨_, _, hg, rfl⟩

end Argfd

/-! ## Open descriptors -/

section Open

variable {devsw : DevSw} {p : Fin NPROC} {args : Args} {user : UserMem} {l : Locals} {k : Kernel}
  {fd : Fin NOFILE} {f : FileNo}

/-- What the model of system calls says for an argument. -/
def FdCall.model (devsw : DevSw) (p : Fin NPROC) (args : Args) (user : UserMem) (k : Kernel) :
    FdCall → Except Panic (ℤ × List UInt8 × Kernel)
  | .read => do
    let ((r, bytes), k) ← Sys.sysRead devsw p (argint args.a0) (user.dst args.a1) (argint args.a2) k
    .ok (retval r, bytes, k)
  | .write => do
    let (r, k) ← Sys.sysWrite devsw p (argint args.a0) (decide (args.a1 = 0)) (user.src args.a1)
      (argint args.a2) k
    .ok (retval r, [], k)
  | .dup => do
    let (r, k) ← Sys.sysDup p (argint args.a0) k
    .ok (retval (r.map Fin.val), [], k)
  | .close => do
    let (ok, k) ← Sys.sysClose p (argint args.a0) k
    .ok (if ok then 0 else -1, [], k)

/-- **Open descriptors.** With a descriptor that is open, each call does what the model of system calls says,
and uses no pointer that is not in the descriptor table, whatever was on the stack. -/
theorem run_open (h : Sys.argfd p (argint args.a0) k = some (fd, f)) (call : FdCall) :
    (call.run devsw p args user l k).result = call.model devsw p args user k ∧
    ∀ ptr ∈ (call.run devsw p args user l k).used, Own p k ptr := by
  have hown : ∀ ptr ∈ [FilePtr.slot f], Own p k ptr := fun ptr hptr =>
    List.mem_singleton.mp hptr ▸ own_of_argfd h
  cases call with
  | read =>
    unfold FdCall.run FdCall.model sysRead Sys.sysRead
    rw [argfd_open h, h]
    exact ⟨rfl, hown⟩
  | write =>
    unfold FdCall.run FdCall.model sysWrite Sys.sysWrite
    rw [argfd_open h, h]
    dsimp only
    rw [if_neg (by omega)]
    by_cases hnull : args.a1 = 0
    · rw [if_pos (by simp [hnull]), if_pos (decide_eq_true hnull)]
      exact ⟨rfl, fun ptr hptr => absurd hptr List.not_mem_nil⟩
    · rw [if_neg (by simpa using hnull), if_neg (by simpa using hnull)]
      exact ⟨rfl, hown⟩
  | dup =>
    unfold FdCall.run FdCall.model sysDup Sys.sysDup
    rw [argfd_open h, h]
    refine ⟨?_, hown⟩
    dsimp only [FilePtr.follow]
    rcases fdalloc p f k with ⟨_ | i, k'⟩
    · rfl
    · dsimp only
      cases filedup f k' with
      | error e => rfl
      | ok k'' => rfl
  | close =>
    unfold FdCall.run FdCall.model sysClose Sys.sysClose
    rw [argfd_open h, h]
    refine ⟨?_, hown⟩
    dsimp only [FilePtr.follow]
    rw [if_neg (by omega)]
    dsimp only
    rw [dif_pos (show (fd.val : ℤ).toNat < NOFILE from fd.isLt)]
    change (do let k ← fileclose f (k.setFd p fd none); .ok ((0 : ℤ), [], k)) = _
    cases fileclose f (k.setFd p fd none) with
    | error e => rfl
    | ok k' => rfl

end Open

/-! ## Descriptors that are not open -/

section BadDescriptor

variable {devsw : DevSw} {p : Fin NPROC} {args : Args} {user : UserMem} {l : Locals} {k : Kernel}

theorem fail_rejected (p : Fin NPROC) (k : Kernel) : Rejected p k (fail k) :=
  ⟨rfl, fun _ hptr => absurd hptr List.not_mem_nil⟩

theorem run_bad (hbad : Bad p k (argint args.a0)) {call : FdCall} (hcall : call ≠ .read) :
    call.run devsw p args user l k = fail k := by
  cases call with
  | read => exact absurd rfl hcall
  | write =>
    unfold FdCall.run sysWrite
    rw [argfd_bad hbad]
    rfl
  | dup =>
    unfold FdCall.run sysDup
    rw [argfd_bad hbad]
    rfl
  | close =>
    unfold FdCall.run sysClose
    rw [argfd_bad hbad]
    rfl

theorem sysRead_bad (hbad : Bad p k (argint args.a0)) :
    sysRead devsw p args user l k =
      { result := l.f.follow fun f => do
          let ((r, bytes), k) ← fileread devsw f (user.dst args.a1) (argint args.a2) k
          .ok (retval r, bytes, k)
        used := [l.f] } := by
  unfold sysRead
  rw [argfd_bad hbad]

theorem sysRead_uses (hbad : Bad p k (argint args.a0)) :
    l.f ∈ (FdCall.run devsw p args user l k .read).used := by
  unfold FdCall.run
  rw [sysRead_bad hbad]
  exact List.mem_singleton_self l.f

/-- **Which calls reject a bad descriptor.** For every state of the kernel and every argument that is not an
open descriptor of the process: the call is rejected whatever the other arguments, the user memory and the
variables on the stack are, exactly if it is not `sys_read`. -/
theorem bad_descriptor_rejected_iff (devsw : DevSw) {a0 : UInt64} (hbad : Bad p k (argint a0)) (call : FdCall) :
    (∀ a1 a2 user l, Rejected p k (call.run devsw p ⟨a0, a1, a2⟩ user l k)) ↔ call ≠ .read := by
  constructor
  · rintro hall rfl
    -- an address outside `ftable` is on the stack
    have hrej := hall 0 0 ⟨fun _ _ => none, fun _ _ => false⟩ ⟨.stray, 0⟩
    have hbad' : Bad p k (argint (Args.mk a0 0 0).a0) := hbad
    obtain ⟨fd, f, -, heq⟩ := hrej.used _ (sysRead_uses hbad')
    cases heq
  · intro hcall a1 a2 user l
    have hbad' : Bad p k (argint (Args.mk a0 a1 a2).a0) := hbad
    rw [run_bad hbad' hcall]
    exact fail_rejected p k

theorem bad_descriptor_rejected_iff_close :
    Bad ⟨1, by decide⟩ (longKernel 0) (argint (-1)) ∧
    ∀ a1 a2 user l, Rejected ⟨1, by decide⟩ (longKernel 0)
      (FdCall.run noDevices ⟨1, by decide⟩ ⟨-1, a1, a2⟩ user l (longKernel 0) .close) := by
  have hbad : Bad ⟨1, by decide⟩ (longKernel 0) (argint (-1)) := Or.inl (by decide)
  exact ⟨hbad, (bad_descriptor_rejected_iff noDevices hbad .close).mpr (by decide)⟩

theorem bad_descriptor_read_other :
    Bad ⟨1, by decide⟩ (longKernel (14 * 1024 - 8)) (argint (-1)) ∧
    (sysRead noDevices ⟨1, by decide⟩ ⟨-1, 0x1000, 8⟩ ⟨fun _ _ => none, fun _ _ => true⟩
      ⟨.slot ⟨0, by decide⟩, 0⟩ (longKernel (14 * 1024 - 8))).result.map
        (fun x => (x.1, x.2.1.length, (x.2.2.file ⟨0, by decide⟩).off)) = .ok (8, 8, 14 * 1024) :=
  ⟨Or.inl (by decide), by decide⟩

end BadDescriptor

end RiscvOs.Sys.Descriptors
