import RiscvOs.Sys.Settle
import RiscvOs.Lib.Machine

set_option autoImplicit false

/-!
# References to open files and inodes are exact

Processes issue system calls on files, fork, execute programs and exit, in any order and with any
arguments. Between the calls the counter of every open file is the number of descriptors that point
to it, and the counter of every inode is the number of open files and of directories of processes
that point to it.

## Main results

* `settled_next` — every call settles its ledger.
* `references_exact` — the counters in every reachable state.

## Implementation notes

The functions on memory are arbitrary: a fork or an exec may fail at any point. The books of the
calls into the file system are in order whatever is on the disk; the file system has to be sound only
where the history of recorded branches is still empty.
-/

namespace RiscvOs.Sys

open Fs Loop Machine

/-- The state in which process `p` starts a system call. -/
def Kernel.start (k : Kernel) (p : Fin NPROC) : Kernel :=
  { k with fs := { k.fs with pid := p.val }, account := .fresh }

theorem Settled.start {o : Others} {out : Bool} {k : Kernel} (h : Settled o out k) (p : Fin NPROC) :
    Settled o false (k.start p) where
  file := h.file
  typed := h.typed
  inode := h.inode.switch p.val
  procs := h.procs
  begins := rfl
  inside := rfl
  nested := rfl
  outside := rfl

namespace References

/-- The system calls of a process, and the freeing of a child that has exited. -/
inductive Op where
  | openFile (p : Fin NPROC) (path : Option (List UInt8)) (omode : UInt32) (junk : ℕ → Dirent)
  | dup (p : Fin NPROC) (fd : ℤ)
  | close (p : Fin NPROC) (fd : ℤ)
  | mknod (p : Fin NPROC) (path : Option (List UInt8)) (major minor : UInt16) (junk : ℕ → Dirent)
  | unlink (p : Fin NPROC) (path : Option (List UInt8))
  | read (p : Fin NPROC) (fd : ℤ) (dst : Dest) (n : ℤ)
  | write (p : Fin NPROC) (fd : ℤ) (null : Bool) (src : Source) (n : ℤ)
  | fork (p : Fin NPROC)
  | exec (p : Fin NPROC) (path : Option (List UInt8))
  | exit (p : Fin NPROC)
  | reap (p q : Fin NPROC)

/-- The process that makes a call. -/
def Op.caller : Op → Fin NPROC
  | .openFile p _ _ _ | .dup p _ | .close p _ | .mknod p _ _ _ _ | .unlink p _ | .read p _ _ _
  | .write p _ _ _ _ | .fork p | .exec p _ | .exit p | .reap p _ => p

section Run

variable {σ π : Type} (mem : Memory σ π) (devsw : DevSw)

/-- A call that does not concern the memory. -/
def onKernel {α : Type} (m : σ) (x : Except Panic (α × Kernel)) : Except (Fault π) (Kernel × σ) := do
  let (_, k) ← sys x
  .ok (k, m)

/-- What a call does. -/
def next (x : Kernel × σ) (op : Op) : Except (Fault π) (Kernel × σ) :=
  let k := x.1.start op.caller
  match op with
  | .openFile p path omode junk => onKernel x.2 (sysOpen p path omode junk k)
  | .dup p fd => onKernel x.2 (sysDup p fd k)
  | .close p fd => onKernel x.2 (sysClose p fd k)
  | .mknod p path major minor junk => onKernel x.2 (sysMknod p path major minor junk k)
  | .unlink p path => onKernel x.2 (sysUnlink p path k)
  | .read p fd dst n => onKernel x.2 (sysRead devsw p fd dst n k)
  | .write p fd null src n => onKernel x.2 (sysWrite devsw p fd null src n k)
  | .fork p => do
    let (_, k, m) ← kfork mem p k x.2
    .ok (k, m)
  | .exec p path => do
    let (_, k, m) ← sysExec mem p path k x.2
    .ok (k, m)
  | .exit p => do
    let k ← sys (kexit p k)
    .ok (k, x.2)
  | .reap _ q => reapChild mem q k x.2

end Run

/-- Calls are made by processes that are alive. -/
def Legal {σ : Type} (x : Kernel × σ) (op : Op) : Prop := (x.1.proc op.caller).state = .alive

instance {σ : Type} (x : Kernel × σ) (op : Op) : Decidable (Legal x op) := by
  unfold Legal
  infer_instance

/-- The state in which the first process starts: no file is open, no lock is held, and the only
pointers to inodes are the directories of the processes. -/
structure Boot (k : Kernel) : Prop where
  layout : Layout k.fs.sb
  clean : Clean Fs.Sound k.fs
  file : ∀ f, (k.file f).ref = 0 ∧ (k.file f).type = .none
  ofile : ∀ p fd, (k.proc p).ofile fd = none
  procs : ∀ p, (k.proc p).Fine
  ref : ∀ ip, (k.fs.itable ip).ref = cwdRefs k ip
  lock : ∀ ip, (k.fs.itable ip).lock = none

section References

variable {σ π : Type} {mem : Memory σ π} {devsw : DevSw} {x x' : Kernel × σ} {k : Kernel} {op : Op}

theorem Boot.start (h : Boot k) (p : Fin NPROC) : Settled nobody false (k.start p) where
  file f := by
    have hfd : fdRefs (k.start p) f = 0 := by
      apply Finset.sum_eq_zero
      intro x _
      exact if_neg (by simp [Kernel.start, h.ofile])
    rw [hfd]
    exact (h.file f).1
  typed f := Or.inl ⟨(h.file f).2, (h.file f).1⟩
  inode := by
    have hself : Holds (k.refs nobody) nobody.lock [] [] k.fs := by
      refine ⟨k.fs, ⟨?_, h.clean⟩, fun ip => ⟨?_, h.lock ip⟩⟩
      · refine ⟨h.layout, rfl, rfl, List.suffix_refl _, fun _ => rfl, fun _ => rfl, fun ip hip => ?_,
          fun ip hip => absurd hip List.not_mem_nil, List.nodup_nil⟩
        exact absurd (h.lock ip) hip
      · have hfile : fileRefs k ip = 0 := by
          apply Finset.sum_eq_zero
          intro f _
          exact if_neg (by simp [(h.file f).2])
        simp [h.ref ip, Kernel.refs, hfile, nobody]
    exact hself.switch p.val
  procs := h.procs
  begins := rfl
  inside := rfl
  nested := rfl
  outside := rfl

theorem post_onKernel {α : Type} {m : σ} {y : Except Panic (α × Kernel)} {Q : Kernel → Prop}
    (h : Post (fun r => Q r.2) y) :
    Post (fun x : Kernel × σ => Q x.1) (onKernel m y : Except (Fault π) (Kernel × σ)) :=
  (post_sys h).bind fun _ hr => Post.ok hr

/-- After a call its ledger is settled, and only a read may have called `log_write` outside of a
transaction. -/
def Done (o : Others) (op : Op) (k : Kernel) : Prop :=
  ∃ out, Settled o out k ∧ (out = true → ∃ p fd dst n, op = .read p fd dst n)

theorem Settled.done {o : Others} (h : Settled o false k) : Done o op k :=
  ⟨false, h, fun hf => absurd hf Bool.false_ne_true⟩

/-- **Every call settles its ledger.** -/
theorem settled_next {o : Others} (h : Settled o false (x.1.start op.caller)) (hl : Legal x op) :
    Post (fun x' => Done o op x'.1) (next mem devsw x op) := by
  have hp : ((x.1.start op.caller).proc op.caller).state = .alive := hl
  cases op with
  | openFile p path omode junk =>
    exact post_onKernel (Q := Done o _) ((sysOpen_settles h hp).mono fun _ => Settled.done)
  | dup p fd => exact post_onKernel (Q := Done o _) ((sysDup_settles h hp).mono fun _ => Settled.done)
  | close p fd => exact post_onKernel (Q := Done o _) ((sysClose_settles h).mono fun _ => Settled.done)
  | mknod p path major minor junk =>
    exact post_onKernel (Q := Done o _) ((sysMknod_settles h hp).mono fun _ => Settled.done)
  | unlink p path =>
    exact post_onKernel (Q := Done o _) ((sysUnlink_settles h hp).mono fun _ => Settled.done)
  | read p fd dst n =>
    apply post_onKernel (Q := Done o _)
    exact (sysRead_settles h).mono fun r hr => ⟨_, hr, fun _ => ⟨p, fd, dst, n, rfl⟩⟩
  | write p fd null src n =>
    exact post_onKernel (Q := Done o _) ((sysWrite_settles h).mono fun _ => Settled.done)
  | fork p => exact (kfork_settles h hp).bind fun r hr => Post.ok (Settled.done hr)
  | exec p path => exact (sysExec_settles h hp).bind fun r hr => Post.ok (Settled.done hr)
  | exit p => exact (post_sys (kexit_settles h hp)).bind fun k' hk' => Post.ok (Settled.done hk')
  | reap p q => exact (reapChild_settles h).mono fun _ => Settled.done

theorem Settled.counters {out : Bool} (h : Settled nobody out k) :
    (∀ f, (k.file f).ref = (Finset.univ.filter fun x : Fin NPROC × Fin NOFILE =>
        (k.proc x.1).ofile x.2 = some f).card) ∧
      ∀ ip, (k.fs.itable ip).ref =
        (Finset.univ.filter fun f => 0 < (k.file f).ref ∧ (k.file f).ip = ip).card +
          (Finset.univ.filter fun p => (k.proc p).cwd = some ip).card := by
  refine ⟨fun f => ?_, fun ip => ?_⟩
  · rw [h.file f, Finset.card_filter, List.count_nil, Nat.add_zero, fdRefs]
  · have hopen : ∀ f, (k.file f).type ≠ .none ↔ 0 < (k.file f).ref := by
      intro f
      rcases h.typed f with ⟨ht, h0⟩ | ⟨ht | ht, hpos⟩
      · simp [ht, h0]
      · simp [ht, hpos]
      · simp [ht, hpos]
    rw [h.inode.ref, Kernel.refs, fileRefs, cwdRefs, Finset.card_filter, Finset.card_filter,
      List.count_nil, Nat.add_zero]
    simp only [hopen, nobody, Nat.add_zero]

/-- **References are exact**: in every state that processes reach with any system calls, whether they
succeed or fail, the counter of an open file is the number of descriptors that point to it, and the
counter of an inode is the number of open files in use and of processes that point to it. -/
theorem references_exact {x₀ : Kernel × σ} (h₀ : Boot x₀.1)
    (hr : Reach (next mem devsw) Legal x₀ x) :
    (∀ f, (x.1.file f).ref = (Finset.univ.filter fun y : Fin NPROC × Fin NOFILE =>
        (x.1.proc y.1).ofile y.2 = some f).card) ∧
      ∀ ip, (x.1.fs.itable ip).ref =
        (Finset.univ.filter fun f => 0 < (x.1.file f).ref ∧ (x.1.file f).ip = ip).card +
          (Finset.univ.filter fun p => (x.1.proc p).cwd = some ip).card := by
  have hstart : ∀ p, Settled nobody false (x.1.start p) := by
    refine hr.invariant (I := fun x => ∀ p, Settled nobody false (x.1.start p))
      (fun p => h₀.start p) ?_
    intro x op x' h hl hn p
    obtain ⟨out, h', -⟩ := settled_next (h op.caller) hl x' hn
    exact h'.start p
  have h := Settled.counters (hstart ⟨0, by decide⟩)
  exact h

end References

/-! ## An example -/

/-- The small file system, with a pointer to its root directory. -/
def bootFS : FS :=
  smallFS.setInode firstSlot { Inode.empty with dev := ROOTDEV, inum := ROOTINO, ref := 1 }

/-- One process, in the root directory. -/
def bootKernel : Kernel where
  fs := bootFS
  file := fun _ => ⟨.none, 0, false, false, firstSlot, 0, 0⟩
  proc := fun p => if p.val = 0 then ⟨.alive, fun _ => none, some firstSlot⟩
    else ⟨.unused, fun _ => none, none⟩
  account := .fresh
  outstanding := 0

theorem iget_smallFS : iget ROOTDEV ROOTINO smallFS = .ok (firstSlot, bootFS) := by
  rfl

theorem boot_bootKernel : Boot bootKernel where
  layout := layout_smallSb
  clean _ := Fs.Sound.iget Blocks.sound_smallFS (by decide) iget_smallFS
  file _ := ⟨rfl, rfl⟩
  ofile p fd := by
    unfold bootKernel
    dsimp only
    split_ifs <;> rfl
  procs p := by
    unfold bootKernel
    dsimp only
    split_ifs
    · refine ⟨fun _ => Option.some_ne_none _, fun hs => ?_⟩
      rcases hs with hs | hs <;> cases hs
    · refine ⟨fun hs => ?_, fun _ => ⟨fun _ => rfl, rfl⟩⟩
      cases hs
  ref := by
    decide
  lock := by
    decide

/-- A memory in which everything succeeds. -/
def freeMemory : Memory Unit Empty where
  fork _ _ m := .ok (true, m)
  reap _ m := .ok m
  fetchArgv _ m := .ok (some [], m)
  freeArgv m := .ok m
  procPagetable _ m := .ok (true, m)
  uVmAlloc _ newsz _ m := .ok (newsz, m)
  uFreeUserVM _ m := .ok m
  uVA2PA _ _ := true
  store _ _ m := m
  commit _ _ _ _ argv m := .ok (some argv.length, m)

/-- A file is made, its descriptor is duplicated, and the process forks. -/
def forkRun : List Op :=
  [.openFile firstProc (some [slash, 97]) (O_CREATE ||| O_RDWR) fun _ _ => 0, .dup firstProc 0,
    .fork firstProc]

theorem references_exact_forkRun :
    (((after (next freeMemory fun _ => ⟨none, none⟩) (bootKernel, ()) forkRun).1.file
      ⟨0, by decide⟩).ref = 4) ∧
      (Finset.univ.filter fun y : Fin NPROC × Fin NOFILE =>
        ((after (next freeMemory fun _ => ⟨none, none⟩) (bootKernel, ()) forkRun).1.proc y.1).ofile
          y.2 = some ⟨0, by decide⟩).card = 4 := by
  have hrun : errorOf (exec (next freeMemory fun _ => ⟨none, none⟩) (bootKernel, ()) forkRun) = none ∧
      Along (next freeMemory fun _ => ⟨none, none⟩) Legal (bootKernel, ()) forkRun ∧
      ((after (next freeMemory fun _ => ⟨none, none⟩) (bootKernel, ()) forkRun).1.file
        ⟨0, by decide⟩).ref = 4 := by
    decide
  have hr := reach_of_exec hrun.2.1 (exec_eq_after hrun.1)
  have h := (references_exact boot_bootKernel hr).1 ⟨0, by decide⟩
  exact ⟨hrun.2.2, h.symm.trans hrun.2.2⟩

end References

end RiscvOs.Sys
