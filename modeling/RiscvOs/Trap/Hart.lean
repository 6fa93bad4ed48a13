import RiscvOs.Param
import RiscvOs.Lib.Machine

set_option autoImplicit false

/-!
# The register that names the hart (`kernel/trap`, `kernel/proc`)

`cpuid()` returns the register `tp`. It is set when a hart starts; `uservec` loads it from the
trapframe, where `prepare_return` has stored it; `kernelVec` saves it on the stack and loads it again;
`swtch` neither saves nor loads it. A thread can be preempted between the save and the load of
`kernelVec`, in the `yield` of `kernelTrap`.

## Main results

* `Inv.step` — the invariant, along all steps that meet the condition.
* `kernel_knows_hart` — the kernel knows its hart in every state of such a run.
* `migration_loses_hart` — a thread that was preempted in `kernelTrap` and continues on
  another hart.

## Implementation notes

There are any number `n` of harts. Interrupts are possible at every point of the kernel
code, also in `kernelTrap` itself, so the saved values form a stack. Which process a scheduler picks
is open.
-/

namespace RiscvOs.Hart

open Function Machine

/-- What a hart executes: `scheduler()`, user code of a process, or kernel code on the kernel stack of
a process. -/
inductive Runs (P : Type) where
  | scheduler
  | user (p : P)
  | kernel (p : P)
  deriving DecidableEq

/-- The process that a hart executes. -/
def Runs.proc {P : Type} : Runs P → Option P
  | .scheduler => none
  | .user p | .kernel p => some p

/-- The registers `tp` and what the harts execute; the values of `tp` that `kernelVec` has saved on the
stacks of the schedulers and of the processes, the last one first; and two fields of the trapframes,
`kernel_hartid` and `tp`. -/
structure State (n : ℕ) (P : Type) where
  tp : Fin n → ℕ
  runs : Fin n → Runs P
  schedFrames : Fin n → List ℕ
  frames : P → List ℕ
  kernelHartid : P → ℕ
  userTp : P → ℕ

/-- The steps of hart `h`. In user mode it may write any value to `tp`, and trap into the kernel. In the
kernel it may be interrupted, return from `kernelVec`, switch to its scheduler (in `yield`, `sleep` or
`kexit`), and return to user mode. Its scheduler may switch to a process. -/
inductive Event (n : ℕ) (P : Type) where
  | userCode (h : Fin n) (v : ℕ)
  | userTrap (h : Fin n)
  | interrupt (h : Fin n)
  | kernelReturn (h : Fin n)
  | sched (h : Fin n)
  | resume (h : Fin n) (p : P)
  | userReturn (h : Fin n)

/-- Why a step is not possible: the hart does something else, or there is nothing to return from. -/
inductive Stop where
  | elsewhere | noFrame
  deriving DecidableEq

section Code

variable {n : ℕ} {P : Type} [DecidableEq P]

def State.setTp (s : State n P) (h : Fin n) (v : ℕ) : State n P := { s with tp := update s.tp h v }

def State.setRuns (s : State n P) (h : Fin n) (r : Runs P) : State n P :=
  { s with runs := update s.runs h r }

/-- `uservec`: the user's `tp` goes to the trapframe, and `kernel_hartid` comes from it. -/
def uservec (h : Fin n) (p : P) (s : State n P) : State n P :=
  ({ s with userTp := update s.userTp p (s.tp h) }.setTp h (s.kernelHartid p)).setRuns h
    (.kernel p)

/-- `prepare_return` stores `tp` in the trapframe. -/
def prepareReturn (h : Fin n) (p : P) (s : State n P) : State n P :=
  { s with kernelHartid := update s.kernelHartid p (s.tp h) }

/-- `userret` loads the user's `tp`. -/
def userret (h : Fin n) (p : P) (s : State n P) : State n P :=
  (s.setTp h (s.userTp p)).setRuns h (.user p)

/-- The first half of `kernelVec`, on the stack of the thread that runs on `h`. -/
def kernelVecSave (h : Fin n) (s : State n P) : Except Stop (State n P) :=
  match s.runs h with
  | .user _ => .error .elsewhere
  | .scheduler =>
    .ok { s with schedFrames := update s.schedFrames h (s.tp h :: s.schedFrames h) }
  | .kernel p => .ok { s with frames := update s.frames p (s.tp h :: s.frames p) }

/-- The second half of `kernelVec`. -/
def kernelVecLoad (h : Fin n) (s : State n P) : Except Stop (State n P) :=
  match s.runs h with
  | .user _ => .error .elsewhere
  | .scheduler =>
    match s.schedFrames h with
    | [] => .error .noFrame
    | v :: l => .ok ({ s with schedFrames := update s.schedFrames h l }.setTp h v)
  | .kernel p =>
    match s.frames p with
    | [] => .error .noFrame
    | v :: l => .ok ({ s with frames := update s.frames p l }.setTp h v)

/-- One step. `swtch` does not touch `tp`. -/
def next (s : State n P) : Event n P → Except Stop (State n P)
  | .userCode h v =>
    match s.runs h with
    | .user _ => .ok (s.setTp h v)
    | _ => .error .elsewhere
  | .userTrap h =>
    match s.runs h with
    | .user p => .ok (uservec h p s)
    | _ => .error .elsewhere
  | .interrupt h => kernelVecSave h s
  | .kernelReturn h => kernelVecLoad h s
  | .sched h =>
    match s.runs h with
    | .kernel _ => .ok (s.setRuns h .scheduler)
    | _ => .error .elsewhere
  | .resume h p =>
    match s.runs h with
    | .scheduler => .ok (s.setRuns h (.kernel p))
    | _ => .error .elsewhere
  | .userReturn h =>
    match s.runs h with
    | .kernel p => .ok (userret h p (prepareReturn h p s))
    | _ => .error .elsewhere

/-- A scheduler, which is not in an interrupt, resumes a process that no hart executes; the kernel
returns to user mode from the bottom of the kernel stack. -/
def Legal (s : State n P) : Event n P → Prop
  | .resume h p => s.schedFrames h = [] ∧ ∀ h', (s.runs h').proc ≠ some p
  | .userReturn h => ∀ p, s.runs h = .kernel p → s.frames p = []
  | _ => True

/-- A process that was interrupted in the kernel is resumed by the hart whose number was saved. -/
def Returns (s : State n P) : Event n P → Prop
  | .resume h p => ∀ v ∈ s.frames p, v = h.val
  | _ => True

instance decidableLegal (s : State n P) : ∀ e, Decidable (Legal s e)
  | .resume h p =>
    inferInstanceAs (Decidable (s.schedFrames h = [] ∧ ∀ h', (s.runs h').proc ≠ some p))
  | .userReturn h =>
    match hr : s.runs h with
    | .kernel p => decidable_of_iff (s.frames p = []) (by simp [Legal, hr])
    | .scheduler => .isTrue (by simp [Legal, hr])
    | .user _ => .isTrue (by simp [Legal, hr])
  | .userCode _ _ | .userTrap _ | .interrupt _ | .kernelReturn _ | .sched _ => .isTrue trivial

instance (s : State n P) (e : Event n P) : Decidable (Returns s e) := by
  cases e <;> unfold Returns <;> infer_instance

/-- The harts have started, and no process has run yet. -/
structure Boot (s : State n P) : Prop where
  tp : ∀ h, s.tp h = h.val
  runs : ∀ h, s.runs h = .scheduler
  schedFrames : ∀ h, s.schedFrames h = []
  frames : ∀ p, s.frames p = []

end Code

/-- Hart `h` does not execute kernel code, or `cpuid()` returns its number. -/
def Knows {n : ℕ} {P : Type} (s : State n P) (h : Fin n) : Prop := (∃ p, s.runs h = .user p) ∨ s.tp h = h.val

/-! ## The invariant -/

/-- A process is executed by at most one hart; a hart in the kernel has its number in `tp`, and so have
the frames on the stack it works on; a process in user mode has the number of its hart in the
trapframe, and an empty kernel stack. -/
structure Inv {n : ℕ} {P : Type} (s : State n P) : Prop where
  alone : ∀ h h' p, (s.runs h).proc = some p → (s.runs h').proc = some p → h = h'
  tp : ∀ h, (∀ p, s.runs h ≠ .user p) → s.tp h = h.val
  sched : ∀ h, ∀ v ∈ s.schedFrames h, v = h.val
  kernel : ∀ h p, s.runs h = .kernel p → ∀ v ∈ s.frames p, v = h.val
  user : ∀ h p, s.runs h = .user p → s.kernelHartid p = h.val ∧ s.frames p = []

section Inv

variable {n : ℕ} {P : Type} {s s' : State n P} {e : Event n P} {h : Fin n} {p : P}

theorem Boot.inv (hb : Boot s) : Inv s where
  alone h h' p hp := by simp [hb.runs h, Runs.proc] at hp
  tp h _ := hb.tp h
  sched h := by simp [hb.schedFrames h]
  kernel h p hp := by simp [hb.runs h] at hp
  user h p hp := by simp [hb.runs h] at hp

theorem Inv.tp_kernel (hs : Inv s) (hp : s.runs h = .kernel p) : s.tp h = h.val := by
  apply hs.tp
  intro q hq
  simp [hp] at hq

theorem Inv.tp_scheduler (hs : Inv s) (hr : s.runs h = .scheduler) : s.tp h = h.val := by
  apply hs.tp
  intro q hq
  simp [hr] at hq

/-- What hart `h` may see and change: its registers and its stack, and the process that it executes. -/
structure Local (h : Fin n) (s s' : State n P) : Prop where
  tp : ∀ h', h' ≠ h → s'.tp h' = s.tp h'
  runs : ∀ h', h' ≠ h → s'.runs h' = s.runs h'
  sched : ∀ h', h' ≠ h → s'.schedFrames h' = s.schedFrames h'
  frames : ∀ p, (s.runs h).proc ≠ some p → s'.frames p = s.frames p
  kernelHartid : ∀ p, (s.runs h).proc ≠ some p → s'.kernelHartid p = s.kernelHartid p

/-- **A step of one hart** keeps the invariant if it does so for that hart, and the process that it
executes afterwards is executed by no other hart. -/
theorem Inv.of_local (hs : Inv s) (hl : Local h s s')
    (halone : ∀ p, (s'.runs h).proc = some p → ∀ h', h' ≠ h → (s.runs h').proc ≠ some p)
    (htp : (∀ p, s'.runs h ≠ .user p) → s'.tp h = h.val) (hsched : ∀ v ∈ s'.schedFrames h, v = h.val)
    (hkernel : ∀ p, s'.runs h = .kernel p → ∀ v ∈ s'.frames p, v = h.val)
    (huser : ∀ p, s'.runs h = .user p → s'.kernelHartid p = h.val ∧ s'.frames p = []) : Inv s' := by
  -- a process of another hart is not the one that `h` has worked on
  have hother : ∀ h' p, h' ≠ h → (s.runs h').proc = some p → (s.runs h).proc ≠ some p := by
    intro h' p hne hp hp'
    exact hne (hs.alone h' h p hp hp')
  constructor
  · intro h₁ h₂ p hp₁ hp₂
    by_cases h1 : h₁ = h <;> by_cases h2 : h₂ = h
    · rw [h1, h2]
    · rw [h1] at hp₁
      rw [hl.runs h₂ h2] at hp₂
      exact absurd hp₂ (halone p hp₁ h₂ h2)
    · rw [h2] at hp₂
      rw [hl.runs h₁ h1] at hp₁
      exact absurd hp₁ (halone p hp₂ h₁ h1)
    · rw [hl.runs h₁ h1] at hp₁
      rw [hl.runs h₂ h2] at hp₂
      exact hs.alone h₁ h₂ p hp₁ hp₂
  · intro h' hno
    by_cases hh : h' = h
    · subst hh
      exact htp hno
    · rw [hl.runs h' hh] at hno
      rw [hl.tp h' hh]
      exact hs.tp h' hno
  · intro h'
    by_cases hh : h' = h
    · subst hh
      exact hsched
    · rw [hl.sched h' hh]
      exact hs.sched h'
  · intro h' p hp
    by_cases hh : h' = h
    · subst hh
      exact hkernel p hp
    · rw [hl.runs h' hh] at hp
      rw [hl.frames p (hother h' p hh (by simp [hp, Runs.proc]))]
      exact hs.kernel h' p hp
  · intro h' p hp
    by_cases hh : h' = h
    · subst hh
      exact huser p hp
    · rw [hl.runs h' hh] at hp
      have hne := hother h' p hh (by simp [hp, Runs.proc])
      rw [hl.frames p hne, hl.kernelHartid p hne]
      exact hs.user h' p hp

theorem Inv.others (hs : Inv s) (hp : (s.runs h).proc = some p) :
    ∀ h', h' ≠ h → (s.runs h').proc ≠ some p :=
  fun h' hne hp' => hne (hs.alone h' h p hp' hp)

variable [DecidableEq P]

theorem Inv.userCode {v : ℕ} (hs : Inv s) (hn : next s (.userCode h v) = .ok s') : Inv s' := by
  simp only [next] at hn
  split at hn
  · rename_i p hp
    cases hn
    refine hs.of_local (h := h) ?_ ?_ ?_ (hs.sched h) (hs.kernel h) (hs.user h)
    · constructor <;> simp +contextual [State.setTp, update_of_ne]
    · intro q hq
      exact hs.others hq
    · intro hno
      exact absurd hp (hno p)
  · cases hn

theorem Inv.userTrap (hs : Inv s) (hn : next s (.userTrap h) = .ok s') : Inv s' := by
  simp only [next] at hn
  split at hn
  · rename_i p hp
    cases hn
    obtain ⟨hid, hframes⟩ := hs.user h p hp
    have hproc : (s.runs h).proc = some p := by simp [hp, Runs.proc]
    refine hs.of_local (h := h) ?_ ?_ ?_ (hs.sched h) ?_ ?_
    · constructor <;> simp +contextual [uservec, State.setTp, State.setRuns, update_of_ne]
    · intro q hq
      simp only [uservec, State.setRuns, update_self, Runs.proc, Option.some.injEq] at hq
      subst hq
      exact hs.others hproc
    · intro _
      simp [uservec, State.setTp, State.setRuns, hid]
    · intro q hq
      simp only [uservec, State.setRuns, update_self, Runs.kernel.injEq] at hq
      subst hq
      simp [uservec, State.setTp, State.setRuns, hframes]
    · intro q hq
      simp [uservec, State.setRuns] at hq
  · cases hn

theorem Inv.interrupt (hs : Inv s) (hn : next s (.interrupt h) = .ok s') : Inv s' := by
  simp only [next, kernelVecSave] at hn
  split at hn
  · cases hn
  · rename_i hr
    cases hn
    have htp := hs.tp_scheduler hr
    refine hs.of_local (h := h) ?_ ?_ ?_ ?_ (hs.kernel h) (hs.user h)
    · constructor <;> simp +contextual [update_of_ne]
    · intro q hq
      exact hs.others hq
    · intro _
      exact htp
    · intro v hv
      simp only [update_self, List.mem_cons] at hv
      rcases hv with rfl | hv
      · exact htp
      · exact hs.sched h v hv
  · rename_i p hp
    cases hn
    have htp := hs.tp_kernel hp
    refine hs.of_local (h := h) ?_ ?_ ?_ (hs.sched h) ?_ ?_
    · constructor <;> simp +contextual [hp, Runs.proc, update_of_ne, eq_comm]
    · intro q hq
      exact hs.others hq
    · intro _
      exact htp
    · intro q hq v hv
      cases hp.symm.trans hq
      simp only [update_self, List.mem_cons] at hv
      rcases hv with rfl | hv
      · exact htp
      · exact hs.kernel h p hp v hv
    · intro q hq
      cases hp.symm.trans hq

theorem Inv.kernelReturn (hs : Inv s) (hn : next s (.kernelReturn h) = .ok s') : Inv s' := by
  simp only [next, kernelVecLoad] at hn
  split at hn
  · cases hn
  · rename_i hr
    split at hn
    · cases hn
    · rename_i v l hl
      cases hn
      have hall : ∀ w ∈ v :: l, w = h.val := hl ▸ hs.sched h
      refine hs.of_local (h := h) ?_ ?_ ?_ ?_ (hs.kernel h) (hs.user h)
      · constructor <;> simp +contextual [State.setTp, update_of_ne]
      · intro q hq
        exact hs.others hq
      · intro _
        simp [State.setTp, hall v]
      · intro w hw
        simp only [State.setTp, update_self] at hw
        exact hall w (List.mem_cons_of_mem v hw)
  · rename_i p hp
    split at hn
    · cases hn
    · rename_i v l hl
      cases hn
      have hall : ∀ w ∈ v :: l, w = h.val := hl ▸ hs.kernel h p hp
      refine hs.of_local (h := h) ?_ ?_ ?_ (hs.sched h) ?_ ?_
      · constructor <;> simp +contextual [State.setTp, hp, Runs.proc, update_of_ne, eq_comm]
      · intro q hq
        exact hs.others hq
      · intro _
        simp [State.setTp, hall v]
      · intro q hq w hw
        cases hp.symm.trans hq
        simp only [State.setTp, update_self] at hw
        exact hall w (List.mem_cons_of_mem v hw)
      · intro q hq
        cases hp.symm.trans hq

theorem Inv.toScheduler (hs : Inv s) (hn : next s (.sched h) = .ok s') : Inv s' := by
  simp only [next] at hn
  split at hn
  · rename_i p hp
    cases hn
    refine hs.of_local (h := h) ?_ ?_ ?_ (hs.sched h) ?_ ?_
    · constructor <;> simp +contextual [State.setRuns, update_of_ne]
    · intro q hq
      simp [State.setRuns, Runs.proc] at hq
    · intro _
      exact hs.tp_kernel hp
    · intro q hq
      simp [State.setRuns] at hq
    · intro q hq
      simp [State.setRuns] at hq
  · cases hn

theorem Inv.resume (hs : Inv s) (hl : Legal s (.resume h p)) (hret : Returns s (.resume h p))
    (hn : next s (.resume h p) = .ok s') : Inv s' := by
  simp only [next] at hn
  split at hn
  · rename_i hr
    cases hn
    refine hs.of_local (h := h) ?_ ?_ ?_ (hs.sched h) ?_ ?_
    · constructor <;> simp +contextual [State.setRuns, update_of_ne]
    · intro q hq h' _
      simp only [State.setRuns, update_self, Runs.proc, Option.some.injEq] at hq
      subst hq
      exact hl.2 h'
    · intro _
      exact hs.tp_scheduler hr
    · intro q hq
      simp only [State.setRuns, update_self, Runs.kernel.injEq] at hq
      subst hq
      exact hret
    · intro q hq
      simp [State.setRuns] at hq
  · cases hn

theorem Inv.userReturn (hs : Inv s) (hl : Legal s (.userReturn h))
    (hn : next s (.userReturn h) = .ok s') : Inv s' := by
  simp only [next] at hn
  split at hn
  · rename_i p hp
    cases hn
    have hproc : (s.runs h).proc = some p := by simp [hp, Runs.proc]
    refine hs.of_local (h := h) ?_ ?_ ?_ (hs.sched h) ?_ ?_
    · constructor <;> simp +contextual [userret, prepareReturn, State.setTp, State.setRuns, hp, Runs.proc,
        update_of_ne, eq_comm]
    · intro q hq
      simp only [userret, State.setRuns, update_self, Runs.proc, Option.some.injEq] at hq
      subst hq
      exact hs.others hproc
    · intro hno
      exact absurd (by simp [userret, State.setRuns]) (hno p)
    · intro q hq
      simp [userret, State.setRuns] at hq
    · intro q hq
      simp only [userret, State.setRuns, update_self, Runs.user.injEq] at hq
      subst hq
      exact ⟨by simp [userret, prepareReturn, State.setTp, State.setRuns, hs.tp_kernel hp], hl p hp⟩
  · cases hn

/-- **Every step that meets the condition** keeps the invariant. -/
theorem Inv.step (hs : Inv s) (hl : Legal s e ∧ Returns s e) (hn : next s e = .ok s') : Inv s' := by
  cases e with
  | userCode h v => exact hs.userCode hn
  | userTrap h => exact hs.userTrap hn
  | interrupt h => exact hs.interrupt hn
  | kernelReturn h => exact hs.kernelReturn hn
  | sched h => exact hs.toScheduler hn
  | resume h p => exact hs.resume hl.1 hl.2 hn
  | userReturn h => exact hs.userReturn hl.1 hn

/-- **The kernel knows its hart**: in every state of a run in which each thread that was interrupted in
the kernel is resumed by the hart it was interrupted on, a hart that executes kernel code finds its own
number in `tp`. -/
theorem kernel_knows_hart {s₀ : State n P} (h₀ : Boot s₀)
    (hr : Reach next (fun s e => Legal s e ∧ Returns s e) s₀ s) (h : Fin n) : Knows s h := by
  have hs : Inv s := hr.invariant (I := Inv) h₀.inv fun hi hl hn => hi.step hl hn
  by_cases hu : ∃ p, s.runs h = .user p
  · exact Or.inl hu
  · exact Or.inr (hs.tp h fun p hp => hu ⟨p, hp⟩)

end Inv

/-! ## A thread that migrates -/

/-- Two harts after boot, and one process. -/
def bootState : State 2 Unit where
  tp := fun h => h.val
  runs := fun _ => .scheduler
  schedFrames := fun _ => []
  frames := fun _ => []
  kernelHartid := fun _ => 0
  userTp := fun _ => 0

theorem boot_bootState : Boot bootState := by
  constructor <;> simp [bootState]

/-- The process starts on hart `0`, goes to user mode and back, and is preempted there by a timer
interrupt in the kernel. Then it continues on hart `h`. -/
def preempt (h : Fin 2) : List (Event 2 Unit) :=
  [.resume left (), .userReturn left, .userCode left 7, .userTrap left, .interrupt left, .sched left,
    .resume h (), .kernelReturn h]

theorem kernel_knows_hart_sameHart :
    Along next (fun s e => Legal s e ∧ Returns s e) bootState (preempt 0) ∧
      errorOf (exec next bootState (preempt 0)) = none ∧
      (after next bootState (preempt 0)).runs 0 = .kernel () ∧
      Knows (after next bootState (preempt 0)) 0 := by
  have hrun : Along next (fun s e => Legal s e ∧ Returns s e) bootState (preempt 0) ∧
      errorOf (exec next bootState (preempt 0)) = none ∧
      (after next bootState (preempt 0)).runs 0 = .kernel () := by
    decide
  have hr := reach_of_exec hrun.1 (exec_eq_after hrun.2.1)
  exact ⟨hrun.1, hrun.2.1, hrun.2.2, kernel_knows_hart boot_bootState hr 0⟩

/-- **A migration loses the hart**: on hart `1` the process loads the number that `kernelVec` has saved
on hart `0`. -/
theorem migration_loses_hart :
    Boot bootState ∧ Along next Legal bootState (preempt 1) ∧
      errorOf (exec next bootState (preempt 1)) = none ∧
      (after next bootState (preempt 1)).runs 1 = .kernel () ∧
      (after next bootState (preempt 1)).tp 1 = 0 ∧ ¬ Knows (after next bootState (preempt 1)) 1 := by
  have hrun : Along next Legal bootState (preempt 1) ∧
      errorOf (exec next bootState (preempt 1)) = none ∧
      (after next bootState (preempt 1)).runs 1 = .kernel () ∧
      (after next bootState (preempt 1)).tp 1 = 0 := by
    decide
  refine ⟨boot_bootState, hrun.1, hrun.2.1, hrun.2.2.1, hrun.2.2.2, ?_⟩
  rintro (⟨p, hp⟩ | htp)
  · cases hrun.2.2.1.symm.trans hp
  · cases hrun.2.2.2.symm.trans htp

end RiscvOs.Hart
