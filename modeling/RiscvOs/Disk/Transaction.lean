import RiscvOs.Param
import RiscvOs.Lib.Machine
import RiscvOs.Lib.Counting

set_option autoImplicit false

/-!
# Transactions of many processes (`kernel/disk/log.c`)

`begin_op`, `log_write` and `end_op` as the steps of a machine with any number of processes.
Each step is a section of the code that runs under `log.lock`; between two steps of one process
any other process may run. `commit()` runs without the lock: it is the interval between the
step of `end_op` that sets `committing` and the step that clears it, and it contains the point
at which `commit()` sets `log.lh.n = 0`.

`sleep(&log, &log.lock)` gives up the lock and waits in one step, and `wakeup(&log)` moves
every sleeper back to the test at the head of the loop in `begin_op`.

## Main results

* `Inv.step` — every step preserves the invariant.
* `isolation` — commits and operations exclude each other, in every run.
* `Reserved.step` — every step keeps the reservation of the running operations.
* `never_tooBig_iff` — when `log_write` never finds the log full.
-/

namespace RiscvOs.LogOp

open Function Machine

/-- Where a process is: outside any operation, at the head of the loop in `begin_op`, asleep in
`begin_op`, between `begin_op` and `end_op`, inside `commit()`, or inside `commit()` after
`log.lh.n = 0`. -/
inductive Pc where
  | outside | trying | asleep | inOp | committing | cleared
  deriving DecidableEq

/-- The calls of `panic` in `log_write` ("too big a transaction", "log_write outside of trans")
and in `end_op` ("log.committing"). -/
inductive Panic where
  | tooBig | outsideTrans | logCommitting
  deriving DecidableEq

/-- The log in memory and the processes that use it. The last two fields are history: the
blocks passed to `log_write` since the last commit, and those the current operation of each
process has passed to it. -/
structure State (P : Type) where
  outstanding : ℤ
  committing : Bool
  lh : List UInt32
  pc : P → Pc
  since : Finset UInt32
  written : P → Finset UInt32

/-- The steps. `call` enters `begin_op`; `beginOp` is one round of its loop; `commitClear` is
the point of `commit()` at which the block list is emptied; `commitEnd` is the second critical
section of `end_op`. -/
inductive Event (P : Type) where
  | call (p : P)
  | beginOp (p : P)
  | logWrite (p : P) (b : UInt32)
  | endOp (p : P)
  | commitClear (p : P)
  | commitEnd (p : P)

/-- The loop of `log_write`: find `b` in the block list or append it. -/
def absorb (b : UInt32) : List UInt32 → List UInt32
  | [] => [b]
  | c :: cs => if c = b then b :: cs else c :: absorb b cs

section Code

variable {P : Type} [DecidableEq P]

/-- `wakeup(&log)`: every sleeper goes back to the head of the loop. -/
def wakeup (pc : P → Pc) (p : P) : Pc := if pc p = .asleep then .trying else pc p

/-- One step of a process. -/
def next (s : State P) : Event P → Except Panic (State P)
  | .call p => .ok { s with pc := update s.pc p .trying }
  | .beginOp p =>
    if s.committing then
      .ok { s with pc := update s.pc p .asleep }
    else if (s.lh.length : ℤ) + (s.outstanding + 1) * MAXOPBLOCKS > LOGBLOCKS then
      .ok { s with pc := update s.pc p .asleep }
    else
      .ok { s with
        outstanding := s.outstanding + 1
        pc := update s.pc p .inOp
        written := update s.written p ∅ }
  | .logWrite p b =>
    if s.lh.length ≥ LOGBLOCKS then .error .tooBig
    else if s.outstanding < 1 then .error .outsideTrans
    else
      .ok { s with
        lh := absorb b s.lh
        since := insert b s.since
        written := update s.written p (insert b (s.written p)) }
  | .endOp p =>
    if s.committing then .error .logCommitting
    else if s.outstanding - 1 = 0 then
      .ok { s with
        outstanding := s.outstanding - 1
        committing := true
        pc := update s.pc p .committing }
    else
      .ok { s with
        outstanding := s.outstanding - 1
        pc := wakeup (update s.pc p .outside) }
  | .commitClear p =>
    .ok { s with lh := [], since := ∅, pc := update s.pc p .cleared }
  | .commitEnd p =>
    .ok { s with
      committing := false
      pc := wakeup (update s.pc p .outside) }

/-- The step a process is about to make. `log_write` is called between the caller's own
`begin_op` and `end_op`. -/
def Enabled (s : State P) : Event P → Prop
  | .call p => s.pc p = .outside
  | .beginOp p => s.pc p = .trying
  | .logWrite p _ => s.pc p = .inOp
  | .endOp p => s.pc p = .inOp
  | .commitClear p => s.pc p = .committing
  | .commitEnd p => s.pc p = .cleared

instance (s : State P) (e : Event P) : Decidable (Enabled s e) := by
  cases e <;> unfold Enabled <;> infer_instance

/-- After `initlog`: nobody is in an operation and the block list is empty. -/
def init (P : Type) : State P where
  outstanding := 0
  committing := false
  lh := []
  pc := fun _ => .outside
  since := ∅
  written := fun _ => ∅

end Code

/-! ## The block list -/

theorem mem_absorb {b c : UInt32} {l : List UInt32} : c ∈ absorb b l ↔ c = b ∨ c ∈ l := by
  induction l with
  | nil => simp [absorb]
  | cons d l ih =>
    rw [absorb]
    split_ifs with h
    · simp [h]
    · rw [List.mem_cons, ih, List.mem_cons]
      tauto

theorem nodup_absorb {b : UInt32} {l : List UInt32} (h : l.Nodup) : (absorb b l).Nodup := by
  induction l with
  | nil => simp [absorb]
  | cons d l ih =>
    rw [List.nodup_cons] at h
    rw [absorb]
    split_ifs with hd
    · rw [← hd, List.nodup_cons]
      exact h
    · rw [List.nodup_cons, mem_absorb]
      exact ⟨fun hm => hm.elim hd h.1, ih h.2⟩

theorem absorb_of_mem {b : UInt32} {l : List UInt32} (h : b ∈ l) :
    (absorb b l).length = l.length := by
  induction l with
  | nil => simp at h
  | cons d l ih =>
    rw [absorb]
    split_ifs with hd
    · rfl
    · rw [List.length_cons, List.length_cons, ih ((List.mem_cons.mp h).resolve_left (Ne.symm hd))]

theorem absorb_of_not_mem {b : UInt32} {l : List UInt32} (h : b ∉ l) :
    (absorb b l).length = l.length + 1 := by
  induction l with
  | nil => rfl
  | cons d l ih =>
    rw [List.mem_cons, not_or] at h
    rw [absorb, if_neg (Ne.symm h.1), List.length_cons, ih h.2, List.length_cons]

/-! ## The invariant -/

theorem wakeup_eq_iff {P : Type} {pc : P → Pc} {p : P} {c : Pc} (h₁ : c ≠ .asleep)
    (h₂ : c ≠ .trying) : wakeup pc p = c ↔ pc p = c := by
  unfold wakeup
  split_ifs with h
  · rw [h]
    exact ⟨fun hc => absurd hc.symm h₂, fun hc => absurd hc.symm h₁⟩
  · rfl

theorem wakeup_ne_asleep {P : Type} (pc : P → Pc) (p : P) : wakeup pc p ≠ .asleep := by
  unfold wakeup
  split_ifs with h
  · simp
  · exact h

section Inv

variable {P : Type} [Fintype P]

/-- The number of processes between `begin_op` and `end_op`. -/
def running (pc : P → Pc) : ℕ := ∑ q, if pc q = .inOp then 1 else 0

/-- The number of processes inside `commit()`. -/
def committers (pc : P → Pc) : ℕ := ∑ q, if pc q = .committing ∨ pc q = .cleared then 1 else 0

/-- The counters of the log agree with where the processes are. -/
structure Inv (s : State P) : Prop where
  outstanding_eq : s.outstanding = running s.pc
  committers_eq : committers s.pc = if s.committing then 1 else 0
  quiet : s.committing = true → s.outstanding = 0
  nodup : s.lh.Nodup
  mem_lh_iff : ∀ b, b ∈ s.lh ↔ b ∈ s.since
  empty : s.committing = false → s.outstanding = 0 → s.lh = []
  empty_of_cleared : ∀ p, s.pc p = .cleared → s.lh = []
  waited : ∀ p, s.pc p = .asleep → s.committing = true ∨ 0 < s.outstanding

theorem inv_init : Inv (init P) where
  outstanding_eq := by simp [init, running]
  committers_eq := by simp [init, committers]
  quiet := by simp [init]
  nodup := by simp [init]
  mem_lh_iff := by simp [init]
  empty := by simp [init]
  empty_of_cleared := by simp [init]
  waited := by simp [init]

theorem running_wakeup (pc : P → Pc) : running (wakeup pc) = running pc := by
  refine Finset.sum_congr rfl fun q _ => ?_
  rw [if_congr (wakeup_eq_iff (by simp) (by simp)) rfl rfl]

theorem committers_wakeup (pc : P → Pc) : committers (wakeup pc) = committers pc := by
  refine Finset.sum_congr rfl fun q _ => ?_
  rw [if_congr (or_congr (wakeup_eq_iff (by simp) (by simp)) (wakeup_eq_iff (by simp) (by simp)))
    rfl rfl]

theorem Inv.outstanding_pos {s : State P} (h : Inv s) {p : P} (hp : s.pc p = .inOp) :
    0 < s.outstanding := by
  have hle := Counting.le_sum (fun q => if s.pc q = .inOp then 1 else 0) p
  rw [if_pos hp] at hle
  have := h.outstanding_eq
  rw [running] at this
  omega

theorem Inv.not_committing {s : State P} (h : Inv s) {p : P} (hp : s.pc p = .inOp) :
    s.committing = false := by
  by_contra hc
  have := h.quiet (by simpa using hc)
  have := h.outstanding_pos hp
  omega

theorem Inv.committing_of_committer {s : State P} (h : Inv s) {p : P}
    (hp : s.pc p = .committing ∨ s.pc p = .cleared) : s.committing = true := by
  have hle := Counting.le_sum
    (fun q => if s.pc q = .committing ∨ s.pc q = .cleared then 1 else 0) p
  rw [if_pos hp] at hle
  have hc := h.committers_eq
  rw [committers] at hc
  by_contra hn
  rw [if_neg hn] at hc
  omega

theorem Inv.exists_committer {s : State P} (h : Inv s) (hc : s.committing = true) :
    ∃ p, s.pc p = .committing ∨ s.pc p = .cleared := by
  have hsum := h.committers_eq
  rw [if_pos hc, committers] at hsum
  obtain ⟨p, hp⟩ := Counting.exists_of_sum_pos (by rw [hsum]; omega)
  refine ⟨p, ?_⟩
  by_contra hn
  rw [if_neg hn] at hp
  omega

theorem Inv.exists_running {s : State P} (h : Inv s) (ho : 0 < s.outstanding) :
    ∃ p, s.pc p = .inOp := by
  have hsum := h.outstanding_eq
  rw [running] at hsum
  obtain ⟨p, hp⟩ := Counting.exists_of_sum_pos
    (f := fun q => if s.pc q = .inOp then 1 else 0) (by omega)
  refine ⟨p, ?_⟩
  by_contra hn
  rw [if_neg hn] at hp
  omega

theorem Inv.waited_of_full {s : State P} (h : Inv s)
    (hfull : (s.lh.length : ℤ) + (s.outstanding + 1) * MAXOPBLOCKS > LOGBLOCKS) :
    s.committing = true ∨ 0 < s.outstanding := by
  by_contra hn
  push Not at hn
  have h0 : s.outstanding = 0 := by
    have := h.outstanding_eq
    omega
  have hlh := h.empty (by simpa using hn.1) h0
  rw [hlh, h0] at hfull
  simp [LOGBLOCKS, MAXOPBLOCKS] at hfull

theorem Inv.write {s : State P} {p : P} (h : Inv s) (hp : s.pc p = .inOp) (b : UInt32)
    (w : P → Finset UInt32) :
    Inv { s with lh := absorb b s.lh, since := insert b s.since, written := w } := by
  have hpos := h.outstanding_pos hp
  refine ⟨h.outstanding_eq, h.committers_eq, h.quiet, nodup_absorb h.nodup, fun c => ?_,
    fun _ h0 => ?_, fun q hq => ?_, h.waited⟩
  · rw [mem_absorb, Finset.mem_insert, h.mem_lh_iff]
  · simp only at h0
    omega
  · have := h.committing_of_committer (Or.inr hq)
    rw [h.not_committing hp] at this
    cases this

variable [DecidableEq P]

theorem running_update (pc : P → Pc) (p : P) (c : Pc) :
    running (update pc p c) + (if pc p = .inOp then 1 else 0) =
      running pc + if c = .inOp then 1 else 0 :=
  Counting.sum_update (fun c : Pc => if c = .inOp then 1 else 0) pc p c

theorem committers_update (pc : P → Pc) (p : P) (c : Pc) :
    committers (update pc p c) + (if pc p = .committing ∨ pc p = .cleared then 1 else 0) =
      committers pc + if c = .committing ∨ c = .cleared then 1 else 0 :=
  Counting.sum_update (fun c : Pc => if c = .committing ∨ c = .cleared then 1 else 0) pc p c

/-! ## Every step preserves the invariant -/

section Steps

variable {s : State P} {p : P}

theorem Inv.move (h : Inv s) {c : Pc} (hp : s.pc p = .outside ∨ s.pc p = .trying)
    (hc : c = .trying ∨ c = .asleep)
    (hw : c = .asleep → s.committing = true ∨ 0 < s.outstanding) :
    Inv { s with pc := update s.pc p c } := by
  have hrun : running (update s.pc p c) = running s.pc := by
    have := running_update s.pc p c
    rcases hp with hp | hp <;> rcases hc with rfl | rfl <;> simpa [hp] using this
  have hcom : committers (update s.pc p c) = committers s.pc := by
    have := committers_update s.pc p c
    rcases hp with hp | hp <;> rcases hc with rfl | rfl <;> simpa [hp] using this
  refine ⟨by rw [hrun]; exact h.outstanding_eq, by rw [hcom]; exact h.committers_eq, h.quiet,
    h.nodup, h.mem_lh_iff, h.empty, fun q hq => ?_, fun q hq => ?_⟩
  · exact h.empty_of_cleared q
      (Counting.eq_of_update_eq hq (by rcases hc with rfl | rfl <;> simp))
  · rcases Counting.update_eq_cases hq with ⟨-, hq⟩ | ⟨-, hq⟩
    · exact hw hq
    · exact h.waited q hq

theorem Inv.begin (h : Inv s) (hp : s.pc p = .trying) (hc : s.committing = false)
    (w : P → Finset UInt32) :
    Inv { s with outstanding := s.outstanding + 1, pc := update s.pc p .inOp,
                 written := w } := by
  have hrun := running_update s.pc p .inOp
  have hcom := committers_update s.pc p .inOp
  simp only [hp, reduceCtorEq, if_true, if_false, or_self] at hrun hcom
  have hout := h.outstanding_eq
  refine ⟨by simp only; omega, ?_, fun hq => ?_, h.nodup, h.mem_lh_iff, fun _ h0 => ?_,
    fun q hq => h.empty_of_cleared q (Counting.eq_of_update_eq hq (by simp)),
    fun q _ => Or.inr ?_⟩
  · have := h.committers_eq
    simp only at this ⊢
    omega
  · simp only [hc] at hq
    cases hq
  · simp only at h0
    omega
  · simp only
    omega

theorem Inv.endLast (h : Inv s) (hp : s.pc p = .inOp) (h1 : s.outstanding - 1 = 0) :
    Inv { s with outstanding := s.outstanding - 1, committing := true,
                 pc := update s.pc p .committing } := by
  have hrun := running_update s.pc p .committing
  have hcom := committers_update s.pc p .committing
  simp only [hp, reduceCtorEq, if_true, if_false, or_self, true_or] at hrun hcom
  have hout := h.outstanding_eq
  have hnc := h.not_committing hp
  have hce := h.committers_eq
  rw [hnc] at hce
  refine ⟨by simp only; omega, by simp only [if_true] at hce ⊢; simpa [hce] using hcom,
    fun _ => h1, h.nodup, h.mem_lh_iff, fun hc => ?_, fun q hq => ?_, fun _ _ => Or.inl rfl⟩
  · cases hc
  · have := h.committing_of_committer (Or.inr (Counting.eq_of_update_eq hq (by simp)))
    rw [hnc] at this
    cases this

theorem Inv.endEarly (h : Inv s) (hp : s.pc p = .inOp) (h1 : s.outstanding - 1 ≠ 0) :
    Inv { s with outstanding := s.outstanding - 1,
                 pc := wakeup (update s.pc p .outside) } := by
  have hrun := running_update s.pc p .outside
  have hcom := committers_update s.pc p .outside
  simp only [hp, reduceCtorEq, if_true, if_false, or_self] at hrun hcom
  have hout := h.outstanding_eq
  have hnc := h.not_committing hp
  refine ⟨?_, ?_, fun hc => ?_, h.nodup, h.mem_lh_iff, fun _ h0 => absurd h0 h1,
    fun q hq => ?_, fun q hq => absurd hq (wakeup_ne_asleep _ q)⟩
  · simp only [running_wakeup]
    omega
  · have := h.committers_eq
    simp only [committers_wakeup] at this ⊢
    omega
  · simp only [hnc] at hc
    cases hc
  · have hq := (wakeup_eq_iff (by simp) (by simp)).mp hq
    exact h.empty_of_cleared q (Counting.eq_of_update_eq hq (by simp))

theorem Inv.clear (h : Inv s) (hp : s.pc p = .committing) :
    Inv { s with lh := [], since := ∅, pc := update s.pc p .cleared } := by
  have hrun := running_update s.pc p .cleared
  have hcom := committers_update s.pc p .cleared
  simp only [hp, reduceCtorEq, if_true, if_false, true_or, or_true] at hrun hcom
  refine ⟨?_, ?_, h.quiet, List.nodup_nil, by simp, fun _ _ => rfl, fun _ _ => rfl,
    fun q hq => Or.inl (h.committing_of_committer (Or.inl hp))⟩
  · have := h.outstanding_eq
    simp only at this ⊢
    omega
  · have := h.committers_eq
    simp only at this ⊢
    omega

theorem Inv.commitEnd (h : Inv s) (hp : s.pc p = .cleared) :
    Inv { s with committing := false, pc := wakeup (update s.pc p .outside) } := by
  have hrun := running_update s.pc p .outside
  have hcom := committers_update s.pc p .outside
  simp only [hp, reduceCtorEq, if_true, if_false, or_true, or_self] at hrun hcom
  have hc := h.committing_of_committer (Or.inr hp)
  have hlh := h.empty_of_cleared p hp
  refine ⟨?_, ?_, fun hc' => ?_, h.nodup, h.mem_lh_iff, fun _ _ => hlh, fun _ _ => hlh,
    fun q hq => absurd hq (wakeup_ne_asleep _ q)⟩
  · have := h.outstanding_eq
    simp only [running_wakeup] at this ⊢
    omega
  · have := h.committers_eq
    rw [hc] at this
    simp only [committers_wakeup, if_true] at this ⊢
    simpa [this] using hcom
  · cases hc'

end Steps

/-- **Every step preserves the invariant.** -/
theorem Inv.step {s s' : State P} {e : Event P} (h : Inv s) (he : Enabled s e)
    (hn : next s e = .ok s') : Inv s' := by
  cases e with
  | call p =>
    cases hn
    exact h.move (Or.inl he) (Or.inl rfl) (by simp)
  | beginOp p =>
    rw [next] at hn
    split_ifs at hn with hc hfull <;> cases hn
    · exact h.move (Or.inr he) (Or.inr rfl) fun _ => Or.inl hc
    · exact h.move (Or.inr he) (Or.inr rfl) fun _ => h.waited_of_full hfull
    · exact h.begin he (by simpa using hc) _
  | logWrite p b =>
    rw [next] at hn
    split_ifs at hn
    cases hn
    exact h.write he b _
  | endOp p =>
    rw [next] at hn
    split_ifs at hn with hc h1 <;> cases hn
    · exact h.endLast he h1
    · exact h.endEarly he h1
  | commitClear p =>
    cases hn
    exact h.clear he
  | commitEnd p =>
    cases hn
    exact h.commitEnd he

theorem inv_of_reach {s : State P} (hr : Reach next Enabled (init P) s) : Inv s :=
  hr.invariant inv_init Inv.step

end Inv

/-! ## Isolation -/

/-- Operations and commits exclude each other in the state `s`. -/
structure Isolated {P : Type} [DecidableEq P] (s : State P) : Prop where
  /-- While a process runs `commit()` no operation is outstanding, nobody can call `log_write`,
  and every test in `begin_op` goes to sleep. -/
  commit_alone : ∀ p, s.pc p = .committing ∨ s.pc p = .cleared →
    s.outstanding = 0 ∧ s.committing = true ∧ (∀ q b, ¬ Enabled s (.logWrite q b)) ∧
      ∀ q s', Enabled s (.beginOp q) → next s (.beginOp q) = .ok s' → s'.pc q = .asleep
  nodup : s.lh.Nodup
  mem_lh_iff : ∀ b, b ∈ s.lh ↔ b ∈ s.since
  empty : s.committing = false → s.outstanding = 0 → s.lh = []
  /-- A sleeper in `begin_op` waits for a running commit or for an operation. -/
  waited : ∀ p, s.pc p = .asleep →
    (∃ q, s.pc q = .committing ∨ s.pc q = .cleared) ∨ ∃ q, s.pc q = .inOp
  /-- The end of an operation starts a commit or leaves no sleeper. -/
  endOp_wakes : ∀ q s', Enabled s (.endOp q) → next s (.endOp q) = .ok s' →
    s'.pc q = .committing ∨ ∀ p, s'.pc p ≠ .asleep
  /-- The end of a commit leaves no sleeper. -/
  commitEnd_wakes : ∀ q s', next s (.commitEnd q) = .ok s' → ∀ p, s'.pc p ≠ .asleep
  no_panic : ∀ e, Enabled s e →
    next s e ≠ .error .logCommitting ∧ next s e ≠ .error .outsideTrans

section Isolation

variable {P : Type} [Fintype P] [DecidableEq P]

theorem Inv.no_panic {s : State P} (h : Inv s) {e : Event P} (he : Enabled s e) :
    next s e ≠ .error .logCommitting ∧ next s e ≠ .error .outsideTrans := by
  cases e with
  | call p => simp [next]
  | beginOp p =>
    rw [next]
    split_ifs <;> simp
  | logWrite p b =>
    have hpos := h.outstanding_pos he
    rw [next, if_neg (show ¬ s.outstanding < 1 by omega)]
    split_ifs <;> simp
  | endOp p =>
    rw [next, if_neg (by simp [h.not_committing he])]
    split_ifs <;> simp
  | commitClear p => simp [next]
  | commitEnd p => simp [next]

/-- **Transactions are isolated in every run**: for any number of processes and any
interleaving of `begin_op`, `log_write` and `end_op`, commits and operations exclude each
other, the block list holds exactly the blocks logged since the last commit, nobody sleeps
without somebody to wake them, and the two protocol panics are unreachable.

**Proof sketch.** All parts read off the invariant `Inv`, which counts the processes in an
operation and in `commit()`; it holds initially and is preserved by every step (`Inv.step`). -/
theorem isolation {s : State P} (hr : Reach next Enabled (init P) s) : Isolated s := by
  have h := inv_of_reach hr
  refine ⟨fun p hp => ?_, h.nodup, h.mem_lh_iff, h.empty, fun p hp => ?_, fun q s' he hn => ?_,
    fun q s' hn => ?_, fun e he => h.no_panic he⟩
  · have hc := h.committing_of_committer hp
    have h0 := h.quiet hc
    refine ⟨h0, hc, fun q b hq => ?_, fun q s' _ hn => ?_⟩
    · have := h.outstanding_pos hq
      omega
    · rw [next, if_pos hc] at hn
      cases hn
      simp
  · rcases h.waited p hp with hc | ho
    · exact Or.inl (h.exists_committer hc)
    · exact Or.inr (h.exists_running ho)
  · rw [next] at hn
    split_ifs at hn <;> cases hn
    · left
      simp
    · exact Or.inr fun p => wakeup_ne_asleep _ p
  · cases hn
    exact fun p => wakeup_ne_asleep _ p

/-- A process logs a block and starts the commit; another one falls asleep in `begin_op`. -/
def commitRun : List (Event Bool) :=
  [.call true, .beginOp true, .logWrite true 5, .endOp true, .call false, .beginOp false]

theorem isolation_commitRun : ∃ s, exec next (init Bool) commitRun = .ok s ∧
    s.pc true = .committing ∧ s.pc false = .asleep ∧ Isolated s :=
  have hl : Along next Enabled (init Bool) commitRun := by decide
  ⟨_, rfl, rfl, rfl, isolation (reach_of_exec hl rfl)⟩

end Isolation

/-! ## The reservation -/

section Reservation

variable {P : Type}

/-- Every operation logs at most `MAXOPBLOCKS` distinct blocks. -/
def WithinBudget (s : State P) : Event P → Prop
  | .logWrite p b => (insert b (s.written p)).card ≤ MAXOPBLOCKS
  | _ => True

/-- An enabled step within the budget of its operation. -/
def Legal (s : State P) (e : Event P) : Prop := Enabled s e ∧ WithinBudget s e

/-- A `log_write` of a block that is already logged, into a log that is exactly full. -/
def AbsorbsFull (s : State P) : Event P → Prop
  | .logWrite _ b => b ∈ s.lh ∧ s.lh.length = LOGBLOCKS
  | _ => False

instance (s : State P) (e : Event P) : Decidable (WithinBudget s e) := by
  cases e <;> unfold WithinBudget <;> infer_instance

instance (s : State P) (e : Event P) : Decidable (Legal s e) :=
  inferInstanceAs (Decidable (_ ∧ _))

instance (s : State P) (e : Event P) : Decidable (AbsorbsFull s e) := by
  cases e <;> unfold AbsorbsFull <;> infer_instance

variable [Fintype P]

/-- What the running operations may still log. -/
def reserve (pc : P → Pc) (written : P → Finset UInt32) : ℕ :=
  ∑ q, if pc q = .inOp then MAXOPBLOCKS - (written q).card else 0

/-- The logged blocks and what the running operations may still log fit in the log, and every
running operation has logged what it has written. -/
structure Reserved (s : State P) : Prop where
  fits : s.lh.length + reserve s.pc s.written ≤ LOGBLOCKS
  logged : ∀ q, s.pc q = .inOp → s.written q ⊆ s.since

theorem reserved_init : Reserved (init P) := by
  refine ⟨by simp [init, reserve], fun q hq => ?_⟩
  cases hq

theorem reserve_le (pc : P → Pc) (w : P → Finset UInt32) :
    reserve pc w ≤ running pc * MAXOPBLOCKS := by
  rw [reserve, running, Finset.sum_mul]
  refine Finset.sum_le_sum fun q _ => ?_
  split_ifs
  · omega
  · omega

theorem reserve_wakeup (pc : P → Pc) (w : P → Finset UInt32) :
    reserve (wakeup pc) w = reserve pc w := by
  refine Finset.sum_congr rfl fun q _ => ?_
  rw [if_congr (wakeup_eq_iff (by simp) (by simp)) rfl rfl]

theorem Reserved.wakeup {s : State P} (h : Reserved s) :
    Reserved { s with pc := wakeup s.pc } := by
  refine ⟨?_, fun q hq => h.logged q ((wakeup_eq_iff (by simp) (by simp)).mp hq)⟩
  simp only [reserve_wakeup]
  exact h.fits

theorem Reserved.room {s : State P} (hi : Inv s) (h : Reserved s) {p : P} {b : UInt32}
    (hp : s.pc p = .inOp) (hb : b ∉ s.lh) (hbud : (insert b (s.written p)).card ≤ MAXOPBLOCKS) :
    (s.written p).card < MAXOPBLOCKS ∧ s.lh.length < LOGBLOCKS := by
  have hbw : b ∉ s.written p := fun hm => hb ((hi.mem_lh_iff b).mpr (h.logged p hp hm))
  rw [Finset.card_insert_of_notMem hbw] at hbud
  have hle := Counting.le_sum
    (fun q => if s.pc q = .inOp then MAXOPBLOCKS - (s.written q).card else 0) p
  rw [if_pos hp] at hle
  have hfits := h.fits
  rw [reserve] at hfits
  omega

variable [DecidableEq P]

theorem reserve_update (pc pc' : P → Pc) (w w' : P → Finset UInt32) (p : P)
    (hpc : ∀ q, q ≠ p → pc' q = pc q) (hw : ∀ q, q ≠ p → w' q = w q) :
    reserve pc' w' + (if pc p = .inOp then MAXOPBLOCKS - (w p).card else 0) =
      reserve pc w + if pc' p = .inOp then MAXOPBLOCKS - (w' p).card else 0 := by
  exact Counting.sum_add_of_eq_off
    (f := fun q => if pc q = .inOp then MAXOPBLOCKS - (w q).card else 0)
    (g := fun q => if pc' q = .inOp then MAXOPBLOCKS - (w' q).card else 0) p
    (fun q hq => by simp only [hpc q hq, hw q hq])

theorem Reserved.leave {s : State P} (h : Reserved s) (p : P) {c : Pc} (hc : c ≠ .inOp) :
    Reserved { s with pc := update s.pc p c } := by
  have hr := reserve_update s.pc (update s.pc p c) s.written s.written p
    (fun q hq => update_of_ne hq _ _) (fun _ _ => rfl)
  rw [update_self, if_neg hc] at hr
  have hfits := h.fits
  exact ⟨by simp only; omega, fun q hq => h.logged q (Counting.eq_of_update_eq hq hc)⟩

/-- **Every legal step keeps the reservation.** -/
theorem Reserved.step {s s' : State P} {e : Event P} (hi : Inv s) (h : Reserved s)
    (hl : Legal s e) (hn : next s e = .ok s') : Reserved s' := by
  have hfits := h.fits
  obtain ⟨he, hbud⟩ := hl
  cases e with
  | call p =>
    cases hn
    exact h.leave p (by simp)
  | beginOp p =>
    have hp : s.pc p = .trying := he
    rw [next] at hn
    split_ifs at hn with hc hfull <;> cases hn
    · exact h.leave p (by simp)
    · exact h.leave p (by simp)
    · have hr := reserve_update s.pc (update s.pc p .inOp) s.written
        (update s.written p ∅) p (fun q hq => update_of_ne hq _ _)
        (fun q hq => update_of_ne hq _ _)
      simp only [update_self, hp, reduceCtorEq, if_false, if_true,
        Finset.card_empty] at hr
      have hle := reserve_le s.pc s.written
      have hout := hi.outstanding_eq
      refine ⟨?_, fun q hq => ?_⟩
      · simp only [LOGBLOCKS, MAXOPBLOCKS] at hr hle hfull ⊢
        omega
      · rcases Counting.update_eq_cases hq with ⟨rfl, -⟩ | ⟨hqp, hq⟩
        · simp
        · simpa [update_of_ne hqp] using h.logged q hq
  | logWrite p b =>
    have hp : s.pc p = .inOp := he
    rw [next] at hn
    split_ifs at hn
    cases hn
    have hr := reserve_update s.pc s.pc s.written
      (update s.written p (insert b (s.written p))) p
      (fun _ _ => rfl) (fun q hq => update_of_ne hq _ _)
    simp only [update_self, hp, if_true] at hr
    refine ⟨?_, fun q hq => ?_⟩
    · by_cases hb : b ∈ s.lh
      · have hcard := Finset.card_le_card (Finset.subset_insert b (s.written p))
        simp only [absorb_of_mem hb]
        omega
      · have hroom := h.room hi hp hb hbud
        have hbw : b ∉ s.written p := fun hm => hb ((hi.mem_lh_iff b).mpr (h.logged p hp hm))
        rw [Finset.card_insert_of_notMem hbw] at hr
        simp only [absorb_of_not_mem hb]
        omega
    · by_cases hqp : q = p
      · subst hqp
        simpa using Finset.insert_subset_insert b (h.logged q hq)
      · simpa [update_of_ne hqp] using
          (h.logged q hq).trans (Finset.subset_insert b s.since)
  | endOp p =>
    rw [next] at hn
    split_ifs at hn with hc h1 <;> cases hn
    · exact { h.leave p (c := .committing) (by simp) with }
    · exact { (h.leave p (c := .outside) (by simp)).wakeup with }
  | commitClear p =>
    cases hn
    have hleave := h.leave p (c := .cleared) (by simp)
    refine ⟨(Nat.add_le_add_right (Nat.zero_le _) _).trans hleave.fits, fun q hq => ?_⟩
    -- no operation is running during a commit
    have := hi.not_committing (Counting.eq_of_update_eq hq (by simp))
    rw [hi.committing_of_committer (Or.inl he)] at this
    cases this
  | commitEnd p =>
    cases hn
    exact { (h.leave p (c := .outside) (by simp)).wakeup with }

theorem tooBig_iff {s : State P} {e : Event P} (hi : Inv s) (h : Reserved s) (hl : Legal s e) :
    next s e = .error .tooBig ↔ AbsorbsFull s e := by
  obtain ⟨he, hbud⟩ := hl
  cases e with
  | call p => simp [next, AbsorbsFull]
  | beginOp p =>
    rw [next]
    split_ifs <;> simp [AbsorbsFull]
  | logWrite p b =>
    have hfits := h.fits
    rw [next]
    constructor
    · intro hn
      split_ifs at hn with hfull
      · have hb : b ∈ s.lh := by
          by_contra hb
          have := (h.room hi he hb hbud).2
          omega
        exact ⟨hb, by omega⟩
      · cases hn
    · rintro ⟨-, hlen⟩
      rw [if_pos (by omega)]
  | endOp p =>
    rw [next]
    split_ifs <;> simp [AbsorbsFull]
  | commitClear p => simp [next, AbsorbsFull]
  | commitEnd p => simp [next, AbsorbsFull]

/-- **When the reservation is sufficient**: a run in which every operation logs at most
`MAXOPBLOCKS` distinct blocks avoids the panic `too big a transaction` if and only if it never
logs a block a second time while the log is exactly full.

**Proof sketch.** The invariant `Reserved` leaves room for a block that is new in the log, so
the length test of `log_write` can only fail for a block that would have been absorbed; the
test comes before the search for it. -/
theorem never_tooBig_iff (es : List (Event P)) (hl : Along next Legal (init P) es) :
    exec next (init P) es ≠ .error .tooBig ↔
      Along next (fun s e => ¬ AbsorbsFull s e) (init P) es :=
  exec_ne_error_iff (I := fun s => Inv s ∧ Reserved s)
    (fun hI hl hn => ⟨hI.1.step hl.1 hn, hI.2.step hI.1 hl hn⟩)
    (fun hI hl => tooBig_iff hI.1 hI.2 hl) ⟨inv_init, reserved_init⟩ hl

end Reservation

theorem never_tooBig_commitRun :
    Along next Legal (init Bool) commitRun ∧
      exec next (init Bool) commitRun ≠ .error .tooBig :=
  ⟨by decide, (never_tooBig_iff commitRun (by decide)).mpr (by decide)⟩

/-- Three operations log thirty different blocks each, and then the first one logs block `0`
again. -/
def fullRun : List (Event (Fin 3)) :=
  [.call 0, .beginOp 0, .call 1, .beginOp 1, .call 2, .beginOp 2] ++
    (List.range LOGBLOCKS).map
      (fun i => .logWrite (Fin.ofNat 3 (i / MAXOPBLOCKS)) (UInt32.ofNat i)) ++ [.logWrite 0 0]

/-- **A reservation that is not sufficient**: no operation of `fullRun` logs more than
`MAXOPBLOCKS` distinct blocks, and the second `log_write` of block `0` panics. -/
theorem fullRun_tooBig :
    Along next Legal (init (Fin 3)) fullRun ∧
      exec next (init (Fin 3)) fullRun = .error .tooBig :=
  ⟨by decide +kernel, eq_error_of_errorOf (by decide +kernel)⟩

end RiscvOs.LogOp
