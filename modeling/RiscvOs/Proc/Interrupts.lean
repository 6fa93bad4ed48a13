import RiscvOs.Param
import RiscvOs.Lib.CInt
import RiscvOs.Lib.Machine

set_option autoImplicit false

/-!
# Nested sections without interrupts (`kernel/lib/spinlock.c`)

`push_off` and `pop_off` count how deep the sections are nested in which interrupts are off, and `intena` says
whether they were on before the outermost one. Both are fields of `struct cpu`. A process that gives up its
hart in `sched` is inside such a section; `sched` keeps `intena` in a local variable, and stores it again when
the process is resumed.

The machine is one hart: its scheduler and the processes execute `push_off` and `pop_off`, take and release
locks in any order, and switch between each other.

## Main results

* `Inv.step` — the invariant.
* `interrupts_restored` — interrupts are off inside sections, `pop_off` does not panic, and
  at the end of an outermost section they are as they were at its start.
* `deep_nesting_panics` — the counter overflows.

## Implementation notes

`depth` and `outer` are history: how many sections a thread has entered and not left, and whether interrupts
were on when it entered the outermost one. A new process begins inside the section that the scheduler has
entered for it, and the scheduler is resumed inside the section of the process that gives up the hart: the
outermost section is then not the thread's own, and `outer` is `none`. Locks that other harts hold do not
matter here, since `acquire` waits for them; of the state of a process `sched` only tests that it is not
`RUNNING`, which its callers have changed.
-/

namespace RiscvOs.Interrupts

open Function (update update_self update_of_ne)
open CInt Machine

/-- The locks of the processes, and all others. -/
inductive Lock (P L : Type) where
  | pcb (p : P)
  | other (l : L)
  deriving DecidableEq

/-- One hart. `cur` is the process that it executes, or `none` for the scheduler; `held` are the locks for which
`holding` is true; `saved` is the variable `intena` of the `sched` in which a process waits, and `none` if the
process has not run yet. -/
structure State (P L : Type) where
  intr : Bool
  noff : ℤ
  intena : Bool
  held : Lock P L → Bool
  cur : Option P
  saved : P → Option Bool
  depth : Option P → ℕ
  outer : Option P → Option Bool

/-- The calls of `panic`, and a step of another thread. -/
inductive Stop where
  | acquire | release | popInterruptible | popOff | schedLock | schedLocks | schedInterruptible | elsewhere
  deriving DecidableEq

/-- The steps of the hart. `setIntr` is `intr_on`, `intr_off`, and the entry to and the return from a trap;
`create` makes a new process in a slot. -/
inductive Event (P L : Type) where
  | pushOff
  | popOff
  | acquire (l : Lock P L)
  | release (l : Lock P L)
  | setIntr (on : Bool)
  | sched
  | resume (p : P)
  | create (p : P)

section Code

variable {P L : Type} [DecidableEq P] [DecidableEq L]

/-- A section is entered. -/
def State.enter (s : State P L) : State P L :=
  { s with
    depth := update s.depth s.cur (s.depth s.cur + 1)
    outer := if s.depth s.cur = 0 then update s.outer s.cur (some s.intr) else s.outer }

/-- A section is left. -/
def State.leave (s : State P L) : State P L :=
  { s with
    depth := update s.depth s.cur (s.depth s.cur - 1)
    outer := if s.depth s.cur = 1 then update s.outer s.cur none else s.outer }

def pushOff (s : State P L) : State P L :=
  let old := s.intr
  let s : State P L := { s.enter with intr := false }
  let s := if s.noff = 0 then { s with intena := old } else s
  { s with noff := int (s.noff + 1) }

def popOff (s : State P L) : Except Stop (State P L) :=
  if s.intr then .error .popInterruptible
  else if s.noff < 1 then .error .popOff
  else
    let s : State P L := { s.leave with noff := int (s.noff - 1) }
    .ok (if s.noff = 0 ∧ s.intena then { s with intr := true } else s)

def acquire (l : Lock P L) (s : State P L) : Except Stop (State P L) :=
  let s := pushOff s
  if s.held l then .error .acquire else .ok { s with held := update s.held l true }

def release (l : Lock P L) (s : State P L) : Except Stop (State P L) :=
  if s.held l then popOff { s with held := update s.held l false } else .error .release

/-- `sched`, up to the call of `swtch`. -/
def sched (s : State P L) : Except Stop (State P L) :=
  match s.cur with
  | none => .error .elsewhere
  | some p =>
    if ¬ s.held (.pcb p) then .error .schedLock
    else if s.noff ≠ 1 then .error .schedLocks
    else if s.intr then .error .schedInterruptible
    else .ok { s with saved := update s.saved p (some s.intena), cur := none }

/-- The call of `swtch` in `scheduler`; a process that waits in `sched` stores its `intena`. -/
def resume (p : P) (s : State P L) : Except Stop (State P L) :=
  if s.cur = none then
    let s : State P L := { s with cur := some p, outer := update s.outer none none }
    match s.saved p with
    | some intena => .ok { s with intena := intena }
    | none =>
      .ok { s with
        depth := update s.depth (some p) 1
        outer := update s.outer (some p) none }
  else .error .elsewhere

/-- One step. -/
def next (s : State P L) : Event P L → Except Stop (State P L)
  | .pushOff => .ok (pushOff s)
  | .popOff => popOff s
  | .acquire l => acquire l s
  | .release l => release l s
  | .setIntr on => .ok { s with intr := on }
  | .sched => sched s
  | .resume p => resume p s
  | .create p => .ok { s with saved := update s.saved p none }

/-- A thread leaves only sections that it has entered, and sets the state of the interrupts only outside of
sections; the scheduler resumes a process whose lock it has taken; a slot is given to a new process only while
it does not run. -/
def Nested (s : State P L) : Event P L → Prop
  | .popOff | .release _ => 0 < s.depth s.cur
  | .setIntr _ => s.depth s.cur = 0
  | .resume p => s.depth none = 1 ∧ s.held (.pcb p) = true
  | .create p => s.cur ≠ some p
  | .pushOff | .acquire _ | .sched => True

/-- `noff` can be incremented. -/
def Shallow (s : State P L) : Event P L → Prop
  | .pushOff | .acquire _ => s.noff < 2 ^ 31 - 1
  | _ => True

instance (s : State P L) (e : Event P L) : Decidable (Nested s e) := by
  cases e <;> unfold Nested <;> infer_instance

instance (s : State P L) (e : Event P L) : Decidable (Shallow s e) := by
  cases e <;> unfold Shallow <;> infer_instance

end Code

/-! ## The invariant -/

section Invariant

variable {P L : Type}

/-- The hart outside of all sections: it executes the scheduler, or a process that the scheduler has
resumed. -/
structure Start (s : State P L) : Prop where
  noff : s.noff = 0
  depth : s.depth s.cur = 0
  outer : s.outer s.cur = none
  saved : ∀ p, s.saved p = none
  scheduler : ∀ p, s.cur = some p → s.depth none = 1 ∧ s.outer none = none

/-- `noff` is the depth of the thread that runs; `intena` is the state of the interrupts before its outermost
section, and `saved` that of the processes that wait. -/
structure Inv (s : State P L) : Prop where
  noff : s.noff = s.depth s.cur
  small : s.depth s.cur < 2 ^ 31
  off : 0 < s.depth s.cur → s.intr = false
  kept : ∀ b, s.outer s.cur = some b → 0 < s.depth s.cur ∧ s.intena = b
  waits : ∀ p, s.cur ≠ some p → ∀ b, s.saved p = some b →
    s.depth (some p) = 1 ∧ ∀ c, s.outer (some p) = some c → b = c
  scheduler : ∀ p, s.cur = some p → s.depth none = 1 ∧ s.outer none = none

theorem Start.inv {s : State P L} (h : Start s) : Inv s := by
  refine ⟨by rw [h.noff, h.depth, Nat.cast_zero], by rw [h.depth]; decide, fun hpos => ?_, fun b hb => ?_,
    fun p _ b hb => ?_, h.scheduler⟩
  · rw [h.depth] at hpos
    omega
  · rw [h.outer] at hb
    cases hb
  · rw [h.saved p] at hb
    cases hb

variable {s t : State P L}

theorem Inv.own (h : Inv s) (hcur : t.cur = s.cur) (hsaved : t.saved = s.saved)
    (hdepth : ∀ x, x ≠ s.cur → t.depth x = s.depth x) (houter : ∀ x, x ≠ s.cur → t.outer x = s.outer x)
    (hnoff : t.noff = t.depth s.cur) (hsmall : t.depth s.cur < 2 ^ 31)
    (hoff : 0 < t.depth s.cur → t.intr = false)
    (hkept : ∀ b, t.outer s.cur = some b → 0 < t.depth s.cur ∧ t.intena = b) : Inv t := by
  refine ⟨hcur ▸ hnoff, hcur ▸ hsmall, hcur ▸ hoff, hcur ▸ hkept, fun p hp b hb => ?_, fun p hp => ?_⟩
  · rw [hcur] at hp
    rw [hsaved] at hb
    rw [hdepth _ hp.symm, houter _ hp.symm]
    exact h.waits p hp b hb
  · rw [hcur] at hp
    have hne : (none : Option P) ≠ s.cur := by
      rw [hp]
      exact (Option.some_ne_none p).symm
    rw [hdepth none hne, houter none hne]
    exact h.scheduler p hp

theorem Inv.held (h : Inv s) (f : Lock P L → Bool) : Inv { s with held := f } :=
  ⟨h.noff, h.small, h.off, h.kept, h.waits, h.scheduler⟩

variable [DecidableEq P]

theorem pushOff_eq (s : State P L) : pushOff s =
    { s.enter with
      intr := false
      intena := if s.noff = 0 then s.intr else s.intena
      noff := int (s.noff + 1) } := by
  have hnoff : s.enter.noff = s.noff := rfl
  rw [pushOff]
  dsimp only
  rw [hnoff]
  split_ifs <;> rfl

theorem enter_depth (s : State P L) : s.enter.depth s.cur = s.depth s.cur + 1 := update_self ..

theorem enter_outer (s : State P L) :
    s.enter.outer s.cur = if s.depth s.cur = 0 then some s.intr else s.outer s.cur := by
  rw [State.enter]
  split_ifs
  · exact update_self ..
  · rfl

theorem leave_depth (s : State P L) : s.leave.depth s.cur = s.depth s.cur - 1 := update_self ..

theorem leave_outer (s : State P L) :
    s.leave.outer s.cur = if s.depth s.cur = 1 then none else s.outer s.cur := by
  rw [State.leave]
  split_ifs
  · exact update_self ..
  · rfl

theorem enter_of_ne {x : Option P} (hx : x ≠ s.cur) :
    s.enter.depth x = s.depth x ∧ s.enter.outer x = s.outer x := by
  refine ⟨update_of_ne hx _ _, ?_⟩
  rw [State.enter]
  split_ifs
  · exact update_of_ne hx _ _
  · rfl

theorem leave_of_ne {x : Option P} (hx : x ≠ s.cur) :
    s.leave.depth x = s.depth x ∧ s.leave.outer x = s.outer x := by
  refine ⟨update_of_ne hx _ _, ?_⟩
  rw [State.leave]
  split_ifs
  · exact update_of_ne hx _ _
  · rfl

theorem Inv.pushOff (h : Inv s) (hlt : s.noff < 2 ^ 31 - 1) : Inv (pushOff s) := by
  have hnoff := h.noff
  rw [pushOff_eq]
  refine h.own rfl rfl (fun x hx => (enter_of_ne hx).1) (fun x hx => (enter_of_ne hx).2) ?_ ?_ (fun _ => rfl)
    fun b hb => ?_
  · dsimp only
    rw [enter_depth, int_eq (by omega) (by omega), hnoff, Nat.cast_succ]
  · dsimp only
    rw [enter_depth]
    omega
  · dsimp only at hb ⊢
    rw [enter_outer] at hb
    rw [enter_depth]
    refine ⟨Nat.succ_pos _, ?_⟩
    by_cases hzero : s.depth s.cur = 0
    · rw [if_pos hzero] at hb
      rw [if_pos (by omega)]
      exact Option.some.inj hb
    · rw [if_neg hzero] at hb
      rw [if_neg (by omega)]
      exact (h.kept b hb).2

theorem Inv.popOff_eq (h : Inv s) (hpos : 0 < s.depth s.cur) : popOff s =
    .ok { s.leave with
      noff := ((s.depth s.cur - 1 : ℕ) : ℤ)
      intr := decide (s.depth s.cur = 1) && s.intena } := by
  have hnoff := h.noff
  have hsmall := h.small
  have hint : int (s.noff - 1) = ((s.depth s.cur - 1 : ℕ) : ℤ) := by
    rw [int_eq (by omega) (by omega)]
    omega
  have hintena : s.leave.intena = s.intena := rfl
  have hintr : s.leave.intr = false := h.off hpos
  rw [Interrupts.popOff, h.off hpos, if_neg Bool.false_ne_true, if_neg (by omega)]
  dsimp only
  rw [hint, hintena]
  by_cases hone : s.depth s.cur = 1
  · cases hb : s.intena with
    | false => simp [hone, hintr]
    | true => simp [hone]
  · rw [if_neg fun hzero => hone (by omega), decide_eq_false hone, Bool.false_and, ← hintr]

theorem Inv.popOff (h : Inv s) (hpos : 0 < s.depth s.cur) (ht : popOff s = .ok t) : Inv t := by
  have hsmall := h.small
  rw [h.popOff_eq hpos] at ht
  cases ht
  refine h.own rfl rfl (fun x hx => (leave_of_ne hx).1) (fun x hx => (leave_of_ne hx).2) ?_ ?_ ?_ fun b hb => ?_
  · dsimp only
    rw [leave_depth]
  · dsimp only
    rw [leave_depth]
    omega
  · dsimp only
    rw [leave_depth]
    intro hlt
    rw [decide_eq_false (by omega), Bool.false_and]
  · dsimp only at hb ⊢
    rw [leave_outer] at hb
    rw [leave_depth]
    split_ifs at hb with hone
    exact ⟨by omega, (h.kept b hb).2⟩

theorem Inv.popOff_restores (h : Inv s) (hpos : 0 < s.depth s.cur) (ht : Interrupts.popOff s = .ok t)
    (hzero : t.noff = 0) {b : Bool} (hb : s.outer s.cur = some b) : t.intr = b := by
  rw [h.popOff_eq hpos] at ht
  cases ht
  dsimp only at hzero ⊢
  rw [decide_eq_true (by omega), Bool.true_and]
  exact (h.kept b hb).2

theorem Inv.sched (h : Inv s) (ht : sched s = .ok t) : Inv t := by
  have hnoff := h.noff
  rw [Interrupts.sched] at ht
  cases hcur : s.cur with
  | none =>
    rw [hcur] at ht
    cases ht
  | some p =>
    rw [hcur] at ht hnoff
    dsimp only at ht
    split_ifs at ht with hlock hone hintr
    cases ht
    rw [not_not] at hone
    obtain ⟨hdepth, houter⟩ := h.scheduler p hcur
    have hkept := h.kept
    rw [hcur] at hkept
    refine ⟨?_, ?_, fun _ => by simpa using hintr, fun b hb => ?_, fun q hq b hb => ?_, fun q hq => ?_⟩
    · dsimp only
      rw [hone, hdepth, Nat.cast_one]
    · dsimp only
      rw [hdepth]
      decide
    · dsimp only at hb
      rw [houter] at hb
      cases hb
    · dsimp only at hb ⊢
      by_cases hqp : q = p
      · subst hqp
        rw [update_self] at hb
        refine ⟨by omega, fun c hc => ?_⟩
        rw [← Option.some.inj hb]
        exact (hkept c hc).2
      · rw [update_of_ne hqp] at hb
        refine h.waits q ?_ b hb
        rw [hcur]
        exact fun he => hqp (Option.some.inj he).symm
    · cases hq

theorem Inv.resume (h : Inv s) {p : P} (hdepth : s.depth none = 1) (ht : resume p s = .ok t) : Inv t := by
  have hnoff := h.noff
  have hoff := h.off
  rw [Interrupts.resume] at ht
  split_ifs at ht with hcur
  rw [hcur] at hnoff hoff
  have hintr : s.intr = false := hoff (by omega)
  have hwaits : ∀ q, s.cur ≠ some q := by
    intro q
    rw [hcur]
    exact (Option.some_ne_none q).symm
  have hone : ∀ q, update s.outer none none (some q) = s.outer (some q) := fun q =>
    update_of_ne (Option.some_ne_none q) _ _
  dsimp only at ht
  cases hsaved : s.saved p with
  | some intena =>
    rw [hsaved] at ht
    cases ht
    obtain ⟨hp, houter⟩ := h.waits p (hwaits p) intena hsaved
    refine ⟨?_, ?_, fun _ => hintr, fun b hb => ?_, fun q _ b hb => ?_, fun q _ => ?_⟩
    · dsimp only
      rw [hnoff, hdepth, hp]
    · dsimp only
      rw [hp]
      decide
    · dsimp only at hb ⊢
      rw [hone] at hb
      exact ⟨by omega, houter b hb⟩
    · dsimp only at hb ⊢
      rw [hone]
      exact h.waits q (hwaits q) b hb
    · dsimp only
      rw [update_self]
      exact ⟨hdepth, rfl⟩
  | none =>
    rw [hsaved] at ht
    cases ht
    refine ⟨?_, ?_, fun _ => hintr, fun b hb => ?_, fun q hq b hb => ?_, fun q _ => ?_⟩
    · dsimp only
      rw [update_self, hnoff, hdepth]
    · dsimp only
      rw [update_self]
      decide
    · dsimp only at hb
      rw [update_self] at hb
      cases hb
    · dsimp only at hq hb ⊢
      rw [update_of_ne hq.symm, update_of_ne hq.symm, hone]
      exact h.waits q (hwaits q) b hb
    · dsimp only
      have hne : (none : Option P) ≠ some p := (Option.some_ne_none p).symm
      rw [update_of_ne hne, update_of_ne hne, update_self]
      exact ⟨hdepth, rfl⟩

variable [DecidableEq L]

/-- **The invariant is kept by every step.** -/
theorem Inv.step (h : Inv s) {e : Event P L} (he : Nested s e) (hs : Shallow s e) (ht : next s e = .ok t) :
    Inv t := by
  cases e with
  | pushOff =>
    cases ht
    exact h.pushOff hs
  | popOff => exact h.popOff he ht
  | acquire l =>
    rw [next, Interrupts.acquire] at ht
    split_ifs at ht
    cases ht
    exact (h.pushOff hs).held _
  | release l =>
    rw [next, Interrupts.release] at ht
    split_ifs at ht
    exact (h.held (update s.held l false)).popOff he ht
  | setIntr on =>
    cases ht
    have hzero : s.depth s.cur = 0 := he
    exact h.own rfl rfl (fun _ _ => rfl) (fun _ _ => rfl) h.noff h.small (fun hpos => by dsimp only at hpos; omega)
      h.kept
  | sched => exact h.sched ht
  | resume p => exact h.resume he.1 ht
  | create p =>
    cases ht
    refine ⟨h.noff, h.small, h.off, h.kept, fun q hq b hb => ?_, h.scheduler⟩
    by_cases hqp : q = p
    · subst hqp
      dsimp only at hb
      rw [update_self] at hb
      cases hb
    · dsimp only at hb
      rw [update_of_ne hqp] at hb
      exact h.waits q hq b hb

/-- `pop_off` does not panic. -/
theorem Inv.no_pop_panic (h : Inv s) {e : Event P L} (he : Nested s e) :
    next s e ≠ .error .popInterruptible ∧ next s e ≠ .error .popOff := by
  cases e with
  | popOff =>
    rw [next, h.popOff_eq he]
    exact ⟨nofun, nofun⟩
  | release l =>
    rw [next, Interrupts.release]
    split_ifs
    · rw [(h.held (update s.held l false)).popOff_eq he]
      exact ⟨nofun, nofun⟩
    · exact ⟨nofun, nofun⟩
  | pushOff | acquire _ | setIntr _ | sched | resume _ | create _ =>
    simp only [next, Interrupts.acquire, Interrupts.sched, Interrupts.resume]
    repeat' split
    all_goals exact ⟨nofun, nofun⟩

/-- **At the end of an outermost section the interrupts are as they were before it.** -/
theorem Inv.restores (h : Inv s) {e : Event P L} (he : Nested s e) (hs : Shallow s e) (ht : next s e = .ok t)
    (hpos : 0 < s.noff) (hzero : t.noff = 0) {b : Bool} (hb : s.outer s.cur = some b) : t.intr = b := by
  have hnoff := h.noff
  have hpush : (Interrupts.pushOff s).noff = int (s.noff + 1) := by
    rw [pushOff_eq]
  cases e with
  | pushOff =>
    cases ht
    have hlt : s.noff < 2 ^ 31 - 1 := hs
    rw [hpush, int_eq (by omega) (by omega)] at hzero
    omega
  | acquire l =>
    have hlt : s.noff < 2 ^ 31 - 1 := hs
    rw [next, Interrupts.acquire] at ht
    split_ifs at ht
    cases ht
    dsimp only at hzero
    rw [hpush, int_eq (by omega) (by omega)] at hzero
    omega
  | popOff => exact h.popOff_restores he ht hzero hb
  | release l =>
    rw [next, Interrupts.release] at ht
    split_ifs at ht
    exact (h.held (update s.held l false)).popOff_restores he ht hzero hb
  | setIntr on =>
    have hdepth : s.depth s.cur = 0 := he
    omega
  | sched | resume _ | create _ =>
    have hsame : t.noff = s.noff := by
      simp only [next, Interrupts.sched, Interrupts.resume] at ht
      repeat' split at ht
      all_goals
        cases ht
        try rfl
    omega

theorem Inv.records (h : Inv s) {e : Event P L} (hpush : e = .pushOff ∨ ∃ l, e = .acquire l)
    (ht : next s e = .ok t) (hzero : s.noff = 0) : t.cur = s.cur ∧ t.outer s.cur = some s.intr := by
  have hnoff := h.noff
  have houter : s.enter.outer s.cur = some s.intr := by
    rw [enter_outer, if_pos (by omega)]
  rcases hpush with rfl | ⟨l, rfl⟩
  · cases ht
    rw [pushOff_eq]
    exact ⟨rfl, houter⟩
  · rw [next, Interrupts.acquire] at ht
    split_ifs at ht
    cases ht
    dsimp only
    rw [pushOff_eq]
    exact ⟨rfl, houter⟩

/-- `outer` of a process stays until the process leaves the section, also while other threads run. -/
theorem Inv.remembers (h : Inv s) {e : Event P L} (he : Nested s e) (ht : next s e = .ok t) {p : P} {b : Bool}
    (hb : s.outer (some p) = some b) :
    t.outer (some p) = some b ∨ s.cur = some p ∧ t.depth (some p) = 0 ∨ e = .resume p ∧ s.saved p = none := by
  have henter : s.enter.outer (some p) = some b := by
    by_cases hcur : some p = s.cur
    · rw [hcur] at hb ⊢
      rw [enter_outer, if_neg (h.kept b hb).1.ne', hb]
    · rw [(enter_of_ne hcur).2, hb]
  have hleave : s.leave.outer (some p) = some b ∨ s.cur = some p ∧ s.leave.depth (some p) = 0 := by
    by_cases hcur : some p = s.cur
    · rw [hcur] at hb ⊢
      rw [leave_outer, leave_depth]
      by_cases hone : s.depth s.cur = 1
      · exact Or.inr ⟨rfl, by omega⟩
      · rw [if_neg hone]
        exact Or.inl hb
    · rw [(leave_of_ne hcur).2]
      exact Or.inl hb
  cases e with
  | pushOff =>
    cases ht
    rw [pushOff_eq]
    exact Or.inl henter
  | acquire l =>
    rw [next, Interrupts.acquire] at ht
    split_ifs at ht
    cases ht
    dsimp only
    rw [pushOff_eq]
    exact Or.inl henter
  | popOff =>
    rw [next, h.popOff_eq he] at ht
    cases ht
    exact hleave.imp_right Or.inl
  | release l =>
    rw [next, Interrupts.release] at ht
    split_ifs at ht
    rw [(h.held (update s.held l false)).popOff_eq he] at ht
    cases ht
    exact hleave.imp_right Or.inl
  | setIntr _ | sched | create _ =>
    simp only [next, Interrupts.sched] at ht
    repeat' split at ht
    all_goals
      cases ht
      try exact Or.inl hb
  | resume q =>
    have hother : update s.outer none none (some p) = some b := by
      rw [update_of_ne (Option.some_ne_none p), hb]
    rw [next, Interrupts.resume] at ht
    split_ifs at ht
    dsimp only at ht
    cases hsaved : s.saved q with
    | none =>
      rw [hsaved] at ht
      cases ht
      by_cases hqp : q = p
      · subst hqp
        exact Or.inr (Or.inr ⟨rfl, hsaved⟩)
      · refine Or.inl ?_
        dsimp only
        rw [update_of_ne fun he => hqp (Option.some.inj he).symm, hother]
    | some intena =>
      rw [hsaved] at ht
      cases ht
      exact Or.inl hother

end Invariant

/-! ## The theorem -/

/-- **Interrupts are off inside sections and restored after them.** In every run of the threads of one hart,
from any state outside of all sections, in which a thread leaves only sections that it has entered and `noff`
does not overflow: interrupts are off while `noff` is positive, `pop_off` does not panic, and when the thread
that runs comes to the end of an outermost section of its own, the interrupts are as they were before it. What
they were is recorded at the start of the section, and stays recorded, for a process also while it waits in
`sched`, until the process has left the section or its slot has been given to a new process. -/
theorem interrupts_restored {P L : Type} [DecidableEq P] [DecidableEq L] {s₀ s : State P L} (h₀ : Start s₀)
    (hr : Reach next (fun s e => Nested s e ∧ Shallow s e) s₀ s) :
    (0 < s.noff → s.intr = false) ∧
    ∀ e, Nested s e →
      (next s e ≠ .error .popInterruptible ∧ next s e ≠ .error .popOff) ∧
      ∀ t, Shallow s e → next s e = .ok t →
        (∀ b, 0 < s.noff → t.noff = 0 → s.outer s.cur = some b → t.intr = b) ∧
        ((e = .pushOff ∨ ∃ l, e = .acquire l) → s.noff = 0 → t.cur = s.cur ∧ t.outer s.cur = some s.intr) ∧
        ∀ p b, s.outer (some p) = some b → t.outer (some p) = some b ∨
          s.cur = some p ∧ t.depth (some p) = 0 ∨ e = .resume p ∧ s.saved p = none := by
  have h : Inv s := hr.invariant h₀.inv fun hinv he ht => hinv.step he.1 he.2 ht
  refine ⟨fun hpos => h.off (by have := h.noff; omega), fun e he => ⟨h.no_pop_panic he, fun t hs ht => ?_⟩⟩
  exact ⟨fun b hpos hzero hb => h.restores he hs ht hpos hzero hb, fun hpush hzero => h.records hpush ht hzero,
    fun p b hb => h.remembers he ht hb⟩

/-- A hart in its scheduler, with two processes that have not run. -/
def freshHart (intr : Bool) : State (Fin 2) Unit where
  intr := intr
  noff := 0
  intena := false
  held := fun _ => false
  cur := none
  saved := fun _ => none
  depth := fun _ => 0
  outer := fun _ => none

theorem start_freshHart (intr : Bool) : Start (freshHart intr) :=
  ⟨rfl, rfl, rfl, fun _ => rfl, fun _ hp => nomatch hp⟩

/-- Process 0 runs with interrupts on and yields; process 1 runs with interrupts off and yields; process 0 is
resumed. -/
def twoYields : List (Event (Fin 2) Unit) :=
  [.setIntr true, .setIntr false, .acquire (.pcb left), .resume left, .release (.pcb left),
    .setIntr true, .acquire (.pcb left), .sched, .release (.pcb left), .setIntr false,
    .acquire (.pcb right), .resume right, .release (.pcb right), .acquire (.pcb right), .sched,
    .release (.pcb right), .acquire (.pcb left), .resume left]

theorem interrupts_restored_twoYields :
    ∃ t, next (after next (freshHart false) twoYields) (.release (.pcb 0)) = .ok t ∧ t.intr = true := by
  have hrun : errorOf (exec next (freshHart false) twoYields) = none ∧
      Along next (fun s e => Nested s e ∧ Shallow s e) (freshHart false) twoYields ∧
      Nested (after next (freshHart false) twoYields) (.release (.pcb 0)) ∧
      (after next (freshHart false) twoYields).noff = 1 ∧
      (after next (freshHart false) twoYields).outer (after next (freshHart false) twoYields).cur = some true ∧
      ((next (after next (freshHart false) twoYields) (.release (.pcb 0))).toOption.map fun t => t.noff) =
        some 0 := by
    decide +kernel
  obtain ⟨hok, hlegal, hnested, hone, houter, hzero⟩ := hrun
  have h := interrupts_restored (start_freshHart false) (reach_of_exec hlegal (exec_eq_after hok))
  cases ht : next (after next (freshHart false) twoYields) (.release (.pcb 0)) with
  | error x =>
    rw [ht] at hzero
    cases hzero
  | ok t =>
    rw [ht] at hzero
    refine ⟨t, rfl, ((h.2 _ hnested).2 t trivial ht).1 true (by rw [hone]; decide) ?_ houter⟩
    exact Option.some.inj hzero

/-! ## Overflow of the counter -/

theorem runs_pushOff (n : ℕ) : ∃ s, Runs next Nested (freshHart true) (List.replicate n .pushOff) s ∧
    s.noff = int n ∧ s.cur = none ∧ s.depth none = n ∧ (0 < n → s.intr = false) := by
  induction n with
  | zero => exact ⟨freshHart true, Runs.nil _, (int_eq (by decide) (by decide)).symm, rfl, rfl, nofun⟩
  | succ n ih =>
    obtain ⟨s, hs, hnoff, hcur, hdepth, -⟩ := ih
    refine ⟨pushOff s, ?_, ?_, ?_, ?_, fun _ => ?_⟩
    · rw [List.replicate_succ']
      exact hs.append (Runs.cons trivial rfl (Runs.nil _))
    · rw [pushOff_eq]
      rw [hnoff, int_add_int, Nat.cast_succ]
    · rw [pushOff_eq]
      exact hcur
    · rw [pushOff_eq, ← hcur]
      rw [enter_depth, hcur, hdepth]
    · rw [pushOff_eq]

/-- **After `2 ^ 31` calls of `push_off`, `pop_off` panics.** -/
theorem deep_nesting_panics : Start (freshHart true) ∧
    ∃ s, Runs next Nested (freshHart true) (List.replicate (2 ^ 31) .pushOff) s ∧ Nested s .popOff ∧
      next s .popOff = .error .popOff := by
  obtain ⟨s, hs, hnoff, hcur, hdepth, hintr⟩ := runs_pushOff (2 ^ 31)
  have hneg : s.noff = -2 ^ 31 := by
    rw [hnoff, int_of_ge (by decide) (by decide)]
    decide
  refine ⟨start_freshHart true, s, hs, ?_, ?_⟩
  · change 0 < s.depth s.cur
    rw [hcur, hdepth]
    decide
  · rw [next, popOff, hintr (by decide), if_neg Bool.false_ne_true, if_pos (by rw [hneg]; decide)]

end RiscvOs.Interrupts
