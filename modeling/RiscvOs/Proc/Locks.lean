import RiscvOs.Proc.Machine

set_option autoImplicit false

/-!
# Locks, threads and new processes

The lock of a process moves with the hart across the switch between the process and the scheduler. `Safe` says
of the code that a hart has before it which locks it takes and gives back, and in which state of the process.
From it follows who may change a process: the hart that executes it, or one that holds its lock while nobody
executes it.

## Main results

* `Safe.serve`, `Safe.exec` — an operation goes on with code that keeps to the locks.
* `Locked.nobody` — who holds the lock of a process that is not `RUNNING` knows that nobody
  executes it.
* `Tidy.frame`, `Locked.frame` — the frame rules for a step of one hart.
-/

namespace RiscvOs.Proc

open Function

section Code

variable {H : Type} {N : ℕ} {L K : Type} [DecidableEq L]

/-! ## Code that keeps to the locks -/

/-- The code of the process `self`, or of the scheduler, can be executed in the state `st` of the process by a
hart that has taken the locks `held`. -/
def Safe (g : Config N L K) (self : Option (Fin N)) :
    PState → List (Lock N L) → List (Op N L K) → Prop
  | st, held, [] => st = .running ∧ held = [] ∧ self ≠ none
  | st, held, .acquire l :: c => st = .running ∧ l ∉ held ∧ Safe g self st (l :: held) c
  | st, held, .release l :: c =>
    l ∈ held ∧ (st = .running ∨ ∀ p, self = some p → l ≠ .pcb p) ∧ Safe g self st (held.erase l) c
  | st, held, .schedLoop _ :: c => st = .running ∧ self = none ∧ held = [] ∧ c = []
  | st, held, .dispatch p :: c =>
    st = .running ∧ self = none ∧ held = [.pcb p] ∧ ∃ i, c = [.release (.pcb p), .schedLoop i]
  -- a process that has exited is not dispatched again
  | st, held, .sched :: c =>
    ∃ p, self = some p ∧ held = [.pcb p] ∧ st ≠ .running ∧
      (st = .zombie ∧ c = [.panic] ∨ Safe g self .running held c)
  | st, held, .setRunnable :: c =>
    st = .running ∧ (∃ p, self = some p ∧ held = [.pcb p]) ∧ Safe g self .runnable held c
  | st, held, .setSleeping _ :: c =>
    st = .running ∧ (∃ p, self = some p ∧ held = [.pcb p]) ∧ Safe g self .sleeping held c
  | st, held, .clearChan :: c | st, held, .markKilled :: c =>
    st = .running ∧ (∃ p, self = some p ∧ held = [.pcb p]) ∧ Safe g self st held c
  | st, held, .wakeLoop _ _ :: c => st = .running ∧ (∀ q, .pcb q ∉ held) ∧ Safe g self st held c
  | st, held, .wake q _ :: c => st = .running ∧ .pcb q ∈ held ∧ Safe g self st held c
  | st, held, .killScan _ _ :: c | st, held, .forkScan _ :: c =>
    st = .running ∧ self ≠ none ∧ held = [] ∧ c = []
  | st, held, .kill q _ :: c | st, held, .claim q :: c | st, held, .setUp q :: c
  | st, held, .forkCopy q :: c => st = .running ∧ self ≠ none ∧ held = [.pcb q] ∧ c = []
  | st, held, .takePid q :: c =>
    st = .running ∧ self ≠ none ∧ held = [.pid, .pcb q] ∧ c = [.release .pid, .setUp q]
  | st, held, .setParent q :: c =>
    st = .running ∧ self ≠ none ∧ held = [.wait] ∧
      c = [.release .wait, .acquire (.pcb q), .setReady q, .release (.pcb q)]
  | st, held, .setReady q :: c =>
    st = .running ∧ self ≠ none ∧ held = [.pcb q] ∧ c = [.release (.pcb q)]
  | st, held, .reparent _ :: c =>
    st = .running ∧ held = [.wait] ∧ ∃ p status, self = some p ∧ c = .wakeParent :: exitCode p status
  | st, held, .wakeParent :: c =>
    st = .running ∧ held = [.wait] ∧ ∃ p status, self = some p ∧ c = exitCode p status
  | st, held, .zombie _ :: c =>
    st = .running ∧ ∃ p, self = some p ∧ held = [.pcb p, .wait] ∧ c = [.release .wait, .sched, .panic]
  | _, _, .panic :: _ => False
  | st, held, .waitScan _ _ _ :: c => st = .running ∧ self ≠ none ∧ held = [.wait] ∧ c = []
  | st, held, .check q _ :: c => st = .running ∧ self ≠ none ∧ held = [.pcb q, .wait] ∧ c = []
  | st, held, .readKilled _ :: c =>
    st = .running ∧ (∃ p, self = some p ∧ held = [.pcb p, .wait]) ∧ c = []
  | st, held, .test k :: c =>
    st = .running ∧ self ≠ none ∧ held = [.user (g.lockOf k)] ∧ Safe g self st held c
  | st, held, .setCond _ _ :: c => st = .running ∧ Safe g self st held c
  | st, held, .noteSignal k :: c =>
    st = .running ∧ .user (g.lockOf k) ∈ held ∧ Safe g self st held c

section Safe

variable {g : Config N L K} {self : Option (Fin N)} {p : Fin N} {st : PState} {held : List (Lock N L)}
  {c rest : List (Op N L K)}

attribute [local simp] Safe

theorem Safe.acts {l : L} (hc : Safe g self .running [.user l] c) (acts : List (Act K)) :
    Safe g self .running [.user l] (acts.map Act.op ++ c) := by
  induction acts with
  | nil => exact hc
  | cons a acts ih =>
    cases a with
    | update k v => exact ⟨rfl, ih⟩
    | wakeup k => exact ⟨rfl, by simp, ih⟩

theorem Safe.notes {l : L} (hc : Safe g self .running [.user l] c) (acts : List (Act K)) :
    Safe g self .running [.user l] (acts.filterMap (Act.note g l) ++ c) := by
  induction acts with
  | nil => exact hc
  | cons a acts ih =>
    cases a with
    | update k v => exact ih
    | wakeup k =>
      by_cases hl : g.lockOf k = l
      · simpa [Act.note, hl] using ih
      · simpa [Act.note, hl] using ih

theorem Safe.sectionCode {l : L} (hc : Safe g self .running [] c) (acts : List (Act K)) :
    Safe g self .running [.user l] (sectionCode g l acts ++ c) := by
  rw [Proc.sectionCode, List.append_assoc, List.append_assoc]
  apply Safe.acts
  apply Safe.notes
  simpa using hc

theorem Safe.yieldCode (hc : Safe g (some p) .running [] c) :
    Safe g (some p) .running [] (yieldCode p ++ c) := by
  simpa [Proc.yieldCode] using hc

theorem Safe.sleepCode {ch : Chan N K} {lk : Lock N L} (hk : lk ≠ .pcb p)
    (hc : Safe g (some p) .running [lk] c) :
    Safe g (some p) .running [lk] (sleepCode p ch lk ++ c) := by
  simpa [Proc.sleepCode, hk, hk.symm] using hc

theorem safe_exitCode (status : ℤ) : Safe g (some p) .running [.wait] (exitCode p status) := by
  simp [exitCode]

theorem safe_call (call : Call N L K) : Safe g (some p) .running [] (call.code g p) := by
  have hn : Safe g (some p) .running [] [] := ⟨rfl, rfl, by simp⟩
  cases call with
  | yield => exact hn.yieldCode
  | await k acts =>
    have h : Safe g (some p) .running [.user (g.lockOf k)] (sectionCode g (g.lockOf k) acts ++ []) :=
      hn.sectionCode acts
    simpa [Call.code] using h
  | inside l acts =>
    have h : Safe g (some p) .running [.user l] (sectionCode g l acts ++ []) := hn.sectionCode acts
    simpa [Call.code] using h
  | exit status => simp [Call.code]
  | wakeup _ | fork | wait _ | kill _ | setkilled => simp [Call.code]

theorem safe_schedRound (i : ℕ) : Safe g none .running [] (schedRound i : List (Op N L K)) := by
  rw [schedRound]
  split
  · simp
  · simp

/-- The state of a process after one of its operations. -/
def Op.leaves : Op N L K → PState → PState
  | .setRunnable, _ => .runnable
  | .setSleeping _, _ => .sleeping
  | .zombie _, _ => .zombie
  | _, st => st

theorem Safe.serve [DecidableEq K] {op : Op N L K} (ho : op.served = true) (hs : Safe g self st held (op :: rest))
    (s : State H N L K) : Safe g self st held ((Proc.serve self s op).1 ++ rest) := by
  cases op <;> simp only [Op.served, Bool.false_eq_true] at ho
  case wakeLoop i ch =>
    obtain ⟨rfl, hq, hs⟩ := hs
    simp only [Proc.serve]
    split
    · split
      · exact ⟨rfl, hq, hs⟩
      · simp [hq, hs]
    · exact hs
  case wake q ch =>
    simp only [Proc.serve]
    split <;> exact hs.2.2
  case setCond k v => exact hs.2
  case noteSignal k => exact hs.2.2

theorem Safe.exec [DecidableEq K] {op : Op N L K} (ho : op.plain = true) (hs : Safe g (some p) st held (op :: rest))
    (ok : Bool) (s : State H N L K) :
    Safe g (some p) (op.leaves st) held ((Proc.exec g p ok s op).1 ++ rest) := by
  have hr := safe_exitCode (L := L) (K := K) (g := g) (p := p)
  cases op <;> simp only [Op.plain, Bool.false_eq_true] at ho <;> simp only [Safe] at hs <;>
    simp only [Proc.exec, Op.leaves]
  case setRunnable | setSleeping | clearChan | markKilled => exact hs.2.2
  case test k =>
    obtain ⟨rfl, -, rfl, hs⟩ := hs
    split
    · exact hs
    · rw [List.append_assoc]
      apply Safe.sleepCode (by simp)
      simpa using hs
  case zombie status =>
    obtain ⟨rfl, p', hp, rfl, rfl⟩ := hs
    cases hp
    simp
  case readKilled addr =>
    obtain ⟨rfl, ⟨p', hp, rfl⟩, rfl⟩ := hs
    cases hp
    split
    · simp
    · rw [List.append_nil, Safe]
      refine ⟨by simp, .inl rfl, ?_⟩
      rw [List.erase_cons_head]
      apply Safe.sleepCode (by simp)
      simp
  case reparent i =>
    obtain ⟨rfl, rfl, p', status, hp, rfl⟩ := hs
    cases hp
    split
    · split <;> simp
    · simp
  case wakeParent =>
    obtain ⟨rfl, rfl, p', status, hp, rfl⟩ := hs
    cases hp
    simpa using hr status
  case takePid | setParent | setReady =>
    obtain ⟨rfl, -, rfl, rfl⟩ := hs
    simp
  all_goals
    obtain ⟨rfl, -, rfl, rfl⟩ := hs
    split_ifs <;> simp

theorem Safe.own (hs : Safe g (some p) st held c) : st = .running ∨ .pcb p ∈ held := by
  induction c generalizing held with
  | nil => exact .inl hs.1
  | cons op c ih =>
    cases op
    case release l =>
      obtain ⟨-, hst, hs⟩ := hs
      rcases hst with hst | hl
      · exact .inl hst
      · exact (ih hs).imp_right List.mem_of_mem_erase
    case sched =>
      obtain ⟨p', hp, rfl, -⟩ := hs
      cases hp
      exact .inr (by simp)
    case panic => exact hs.elim
    all_goals exact .inl hs.1

end Safe

end Code

/-! ## Threads and new processes -/

section Threads

variable {H : Type} {N : ℕ} {L K : Type}

/-- The states of a process that waits to be executed. -/
def PState.parked : PState → Bool
  | .used | .runnable | .sleeping => true
  | _ => false

/-- The code that a process goes on with: that of the hart that executes it, or the saved one. -/
def Thread (s : State H N L K) (p : Fin N) (c : List (Op N L K)) : Prop :=
  (∃ h, (s.cpu h).proc = some p ∧ (s.cpu h).code = c) ∨
    ((s.pcb p).state.parked = true ∧ (s.pcb p).ctx = some c)

/-- How far `kfork` is with a slot: before it is `USED`, before the slot has a parent, or after that. -/
inductive Phase where
  | early | copy | ready

/-- The slot that an operation of `kfork` fills, and the phase. -/
def Op.makes : Op N L K → Option (Fin N × Phase)
  | .takePid q | .setUp q => some (q, .early)
  | .forkCopy q | .setParent q => some (q, .copy)
  | .setReady q => some (q, .ready)
  | _ => none

def making (c : List (Op N L K)) : Option (Fin N × Phase) := c.findSome? Op.makes

theorem making_cons {op : Op N L K} {c : List (Op N L K)} (ho : op.makes = none) :
    making (op :: c) = making c := by
  rw [making, List.findSome?_cons, ho]
  rfl

theorem making_append {push c : List (Op N L K)} (hp : making push = none) :
    making (push ++ c) = making c := by
  rw [making] at hp
  rw [making, making, List.findSome?_append, hp, Option.none_or]

/-- The code between the choice of a slot and `USED`, with the locks. -/
inductive Early (q : Fin N) : List (Lock N L) → List (Op N L K) → Prop where
  | found : Early q [.pcb q] [.acquire .pid, .takePid q, .release .pid, .setUp q]
  | locked : Early q [.pid, .pcb q] [.takePid q, .release .pid, .setUp q]
  | taken : Early q [.pid, .pcb q] [.release .pid, .setUp q]
  | named : Early q [.pcb q] [.setUp q]

theorem Early.held_ne_nil {q : Fin N} {held : List (Lock N L)} {c : List (Op N L K)}
    (he : Early q held c) : held ≠ [] := by
  cases he <;> simp

theorem Early.mem {q : Fin N} {held : List (Lock N L)} {c : List (Op N L K)} (he : Early q held c) :
    .pcb q ∈ held := by
  cases he <;> simp

/-- The state of the slot that is being filled. -/
def slotState : Phase → PState
  | .early => .unused
  | _ => .used

theorem slotState_cases (ph : Phase) : slotState ph = .unused ∨ slotState ph = .used := by
  cases ph
  · exact .inl rfl
  · exact .inr rfl
  · exact .inr rfl

end Threads

/-! ## The invariant -/

section Invariant

variable {H : Type} {N : ℕ} {L K : Type} [DecidableEq L]

def State.stateOf (s : State H N L K) : Option (Fin N) → PState
  | none => .running
  | some p => (s.pcb p).state

/-- The locks: who holds them, and code that keeps to them. -/
structure Locked (g : Config N L K) (s : State H N L K) : Prop where
  holds : ∀ l h, s.lock l = some h ↔ l ∈ (s.cpu h).held
  nodup : ∀ h, (s.cpu h).held.Nodup
  noff : ∀ h, (s.cpu h).noff = (s.cpu h).held.length
  safe : ∀ h, Safe g (s.cpu h).proc (s.stateOf (s.cpu h).proc) (s.cpu h).held (s.cpu h).code
  back : ∀ h p, (s.cpu h).proc = some p → ∃ i, (s.cpu h).back = [.release (.pcb p), .schedLoop i]

/-- The processes: who executes them, what is saved, and who fills a slot. -/
structure Tidy (g : Config N L K) (s : State H N L K) : Prop where
  excl : ∀ h h' p, (s.cpu h).proc = some p → (s.cpu h').proc = some p → h = h'
  ran : ∀ h p, (s.cpu h).proc = some p →
    (s.pcb p).ctx = none ∧ (s.pcb p).state ≠ .unused ∧ (s.pcb p).state ≠ .used
  idle : ∀ p, (s.pcb p).state = .running → ∃ h, (s.cpu h).proc = some p
  saved : ∀ p, (s.pcb p).state.parked = true → (∀ h, (s.cpu h).proc ≠ some p) →
    ∃ c, (s.pcb p).ctx = some c ∧ Safe g (some p) .running [.pcb p] c
  make : ∀ p c q ph, Thread s p c → making c = some (q, ph) →
    (s.pcb q).state = slotState ph ∧
      (ph = .early → ∃ h, (s.cpu h).proc = some p ∧ Early q (s.cpu h).held c)
  maker : ∀ p p' c c' q ph ph', Thread s p c → Thread s p' c' → making c = some (q, ph) →
    making c' = some (q, ph') → p = p'

structure Inv (g : Config N L K) (s : State H N L K) : Prop where
  locked : Locked g s
  tidy : Tidy g s

section Facts

variable {g : Config N L K} {s t : State H N L K} {h h' : H} {p q r : Fin N}
  {c rest push : List (Op N L K)} {op : Op N L K} {ph : Phase}

theorem Locked.unique (hi : Locked g s) {l : Lock N L} (hl : l ∈ (s.cpu h).held)
    (hl' : l ∈ (s.cpu h').held) : h = h' := by
  have h₁ := (hi.holds l h).mpr hl
  rw [(hi.holds l h').mpr hl'] at h₁
  exact (Option.some.inj h₁).symm

theorem Locked.safe_some (hi : Locked g s) (hp : (s.cpu h).proc = some p) :
    Safe g (some p) (s.pcb p).state (s.cpu h).held (s.cpu h).code := by
  have hs := hi.safe h
  rw [hp] at hs
  exact hs

theorem Locked.nobody (hi : Locked g s) (hl : .pcb q ∈ (s.cpu h).held) (hp : (s.cpu h).proc ≠ some q)
    (hst : (s.pcb q).state ≠ .running) : ∀ h', (s.cpu h').proc ≠ some q := by
  intro h' hp'
  rcases (hi.safe_some hp').own with hr | hm
  · exact hst hr
  · rw [hi.unique hl hm] at hp
    exact hp hp'

theorem Tidy.ne_of_parked (hi : Tidy g s) (hp : (s.cpu h).proc = some p)
    (hq : (s.pcb q).state = .unused ∨ (s.pcb q).state = .used) : q ≠ p := by
  rintro rfl
  obtain ⟨-, h₁, h₂⟩ := hi.ran h q hp
  exact hq.elim h₁ h₂

theorem Tidy.made_nobody (hi : Tidy g s) (ht : Thread s p c) (hm : making c = some (q, ph)) (h : H) :
    (s.cpu h).proc ≠ some q := by
  intro hq
  obtain ⟨-, h₁, h₂⟩ := hi.ran h q hq
  have hst := (hi.make p c q ph ht hm).1
  exact (slotState_cases ph).elim (fun he => h₁ (hst.trans he)) fun he => h₂ (hst.trans he)

/-! ### A step of one hart -/

/-- What a step of the hart `h` does to a slot: nothing, or its own process gets another state, or a process
that nobody executes does. Only the process of `h` may be filling the slot then. -/
inductive Touch (g : Config N L K) (s : State H N L K) (h : H) (r : Fin N) (v : Pcb N L K) : Prop where
  | same (hst : v.state = (s.pcb r).state) (hx : v.ctx = (s.pcb r).ctx)
  | own (hp : (s.cpu h).proc = some r) (hx : v.ctx = (s.pcb r).ctx) (hst : v.state ≠ .unused ∧ v.state ≠ .used)
  | other (hn : ∀ h', (s.cpu h').proc ≠ some r) (hst : v.state ≠ .running)
    (hx : v.state.parked = true → ∃ c, v.ctx = some c ∧ Safe g (some r) .running [.pcb r] c ∧
      (c = forkret r ∨ Thread s r c))
    (hm : ∀ p c ph, Thread s p c → making c = some (r, ph) → (s.cpu h).proc = some p)

theorem Touch.saved {v : Pcb N L K} (ht : Touch g s h r v) (hi : Tidy g s) (hpk : v.state.parked = true)
    (hx : v.ctx = some c) :
    ((s.pcb r).state.parked = true ∧ (s.pcb r).ctx = some c) ∨ c = forkret r := by
  cases ht with
  | same hst hx' => exact .inl ⟨hst ▸ hpk, hx' ▸ hx⟩
  | own hp hx' _ =>
    rw [hx', (hi.ran h r hp).1] at hx
    cases hx
  | other hn _ hx' _ =>
    obtain ⟨c', hc', -, hm⟩ := hx' hpk
    obtain rfl : c' = c := Option.some.inj (hc'.symm.trans hx)
    rcases hm with hm | ⟨h', hp, -⟩ | hm
    · exact .inr hm
    · exact (hn h' hp).elim
    · exact .inl hm

/-- After a step of the hart `h`, its process `p` fills the slot `q`, and no other process did before. -/
structure Made (s t : State H N L K) (h : H) (p q : Fin N) (ph : Phase) : Prop where
  state : (t.pcb q).state = slotState ph
  early : ph = .early → Early q (t.cpu h).held (t.cpu h).code
  only : ∀ r c ph', Thread s r c → making c = some (q, ph') → r = p

theorem Tidy.thread_inv (hi : Tidy g s) (hproc : ∀ h', (t.cpu h').proc = (s.cpu h').proc)
    (hother : ∀ h', h' ≠ h → t.cpu h' = s.cpu h') (ht : ∀ r, Touch g s h r (t.pcb r)) (hr : Thread t r c) :
    ((s.cpu h).proc = some r ∧ (t.cpu h).code = c) ∨ ((s.cpu h).proc ≠ some r ∧ Thread s r c) ∨
      c = forkret r := by
  rcases hr with ⟨h', hp, hc⟩ | ⟨hst, hx⟩
  · rw [hproc] at hp
    by_cases he : h' = h
    · subst he
      exact .inl ⟨hp, hc⟩
    · rw [hother h' he] at hc
      exact .inr (.inl ⟨fun hp' => he (hi.excl _ _ r hp hp'), .inl ⟨h', hp, hc⟩⟩)
  · rcases (ht r).saved hi hst hx with ⟨hst, hx⟩ | hc
    · refine .inr (.inl ⟨fun hp => ?_, .inr ⟨hst, hx⟩⟩)
      rw [(hi.ran h r hp).1] at hx
      cases hx
    · exact .inr (.inr hc)

/-- **The frame rule for a step of one hart** that goes on with the same process. -/
theorem Tidy.frame (hi : Tidy g s) (hproc : ∀ h', (t.cpu h').proc = (s.cpu h').proc)
    (hother : ∀ h', h' ≠ h → t.cpu h' = s.cpu h') (ht : ∀ r, Touch g s h r (t.pcb r))
    (hm : ∀ p q ph, (s.cpu h).proc = some p → making (t.cpu h).code = some (q, ph) →
      Made s t h p q ph) : Tidy g t where
  excl h₁ h₂ p hp hp' := hi.excl h₁ h₂ p (hproc h₁ ▸ hp) (hproc h₂ ▸ hp')
  ran h' p hp := by
    rw [hproc] at hp
    obtain ⟨hx, hst⟩ := hi.ran h' p hp
    cases ht p with
    | same hst' hx' =>
      rw [hst', hx']
      exact ⟨hx, hst⟩
    | own _ hx' hst' =>
      rw [hx']
      exact ⟨hx, hst'⟩
    | other hn _ _ _ => exact (hn h' hp).elim
  idle p hst := by
    simp only [hproc]
    cases ht p with
    | same hst' _ => exact hi.idle p (hst' ▸ hst)
    | own hp _ _ => exact ⟨h, hp⟩
    | other _ hst' _ _ => exact (hst' hst).elim
  saved p hst hn := by
    simp only [hproc] at hn
    cases ht p with
    | same hst' hx' =>
      rw [hst'] at hst
      rw [hx']
      exact hi.saved p hst hn
    | own hp _ _ => exact (hn h hp).elim
    | other _ _ hx' _ =>
      obtain ⟨c, hc, hs, -⟩ := hx' hst
      exact ⟨c, hc, hs⟩
  make p c q ph hr hq := by
    rcases hi.thread_inv hproc hother ht hr with ⟨hp, rfl⟩ | ⟨hp, hr⟩ | hn
    · have hmade := hm p q ph hp hq
      exact ⟨hmade.state, fun he => ⟨h, (hproc h).trans hp, hmade.early he⟩⟩
    · obtain ⟨hst, he⟩ := hi.make p c q ph hr hq
      refine ⟨?_, fun he' => ?_⟩
      · cases ht q with
        | same hst' _ => exact hst'.trans hst
        | own hp' _ _ => exact (hi.made_nobody hr hq h hp').elim
        | other _ _ _ hm' => exact (hp (hm' p c ph hr hq)).elim
      · obtain ⟨h', hp', he⟩ := he he'
        have hne : h' ≠ h := by
          rintro rfl
          exact hp hp'
        refine ⟨h', (hproc h').trans hp', ?_⟩
        rw [hother h' hne]
        exact he
    · rw [hn] at hq
      cases hq
  maker p p' c c' q ph ph' hr hr' hq hq' := by
    rcases hi.thread_inv hproc hother ht hr with ⟨hp, rfl⟩ | ⟨hp, hr⟩ | hn
    · rcases hi.thread_inv hproc hother ht hr' with ⟨hp', rfl⟩ | ⟨hp', hr'⟩ | hn
      · exact Option.some.inj (hp.symm.trans hp')
      · exact ((hm p q ph hp hq).only p' c' ph' hr' hq').symm
      · rw [hn] at hq'
        cases hq'
    · rcases hi.thread_inv hproc hother ht hr' with ⟨hp', rfl⟩ | ⟨hp', hr'⟩ | hn
      · exact (hm p' q ph' hp' hq').only p c ph hr hq
      · exact hi.maker p p' c c' q ph ph' hr hr' hq hq'
      · rw [hn] at hq'
        cases hq'
    · rw [hn] at hq
      cases hq

/-- A step that leaves the locks alone. -/
theorem Locked.frame [DecidableEq H] (hi : Locked g s) (hd : Tidy g s) (ht : ∀ r, Touch g s h r (t.pcb r))
    (hlock : t.lock = s.lock) (hcpu : t.cpu = s.cpu)
    (hs : Safe g (s.cpu h).proc (t.stateOf (s.cpu h).proc) (s.cpu h).held c) : Locked g (t.setCode h c) where
  holds l h' := by
    by_cases he : h' = h
    · subst he
      simp [State.setCode, State.setCpu, hlock, hcpu, hi.holds]
    · simp [State.setCode, State.setCpu, hlock, hcpu, hi.holds, he]
  nodup h' := by
    by_cases he : h' = h
    · subst he
      simp [State.setCode, State.setCpu, hcpu, hi.nodup]
    · simp [State.setCode, State.setCpu, hcpu, hi.nodup, he]
  noff h' := by
    by_cases he : h' = h
    · subst he
      simp [State.setCode, State.setCpu, hcpu, hi.noff]
    · simp [State.setCode, State.setCpu, hcpu, hi.noff, he]
  safe h' := by
    by_cases he : h' = h
    · subst he
      simp only [State.setCode, State.setCpu, update_self, hcpu]
      exact hs
    · simp only [State.setCode, State.setCpu, update_of_ne he, hcpu]
      have hst : t.stateOf (s.cpu h').proc = s.stateOf (s.cpu h').proc := by
        cases hp : (s.cpu h').proc with
        | none => rfl
        | some r =>
          cases ht r with
          | same hst _ => exact hst
          | own hp' _ _ => exact (he (hd.excl _ _ r hp hp')).elim
          | other hn _ _ _ => exact (hn h' hp).elim
      exact hst ▸ hi.safe h'
  back h' p hp := by
    by_cases he : h' = h
    · subst he
      simp only [State.setCode, State.setCpu, update_self, hcpu] at hp ⊢
      exact hi.back h' p hp
    · simp only [State.setCode, State.setCpu, update_of_ne he, hcpu] at hp ⊢
      exact hi.back h' p hp

/-! ### Who goes on filling a slot -/

theorem Tidy.only (hi : Tidy g s) (hp : (s.cpu h).proc = some p)
    (hm : making (s.cpu h).code = some (q, ph)) :
    ∀ r c ph', Thread s r c → making c = some (q, ph') → r = p := by
  intro r c ph' hr hc
  exact hi.maker r p c _ q ph' ph hr (.inl ⟨h, hp, rfl⟩) hc hm

theorem Tidy.early_of (hi : Tidy g s) (hp : (s.cpu h).proc = some p)
    (hm : making (s.cpu h).code = some (q, .early)) : Early q (s.cpu h).held (s.cpu h).code := by
  obtain ⟨h', hp', he⟩ := (hi.make p _ q .early (.inl ⟨h, hp, rfl⟩) hm).2 rfl
  rw [hi.excl h h' p hp hp'] at he ⊢
  exact he

theorem Tidy.made_of_push (hi : Tidy g s) (hp : (s.cpu h).proc = some p)
    (hc : (s.cpu h).code = op :: rest) (ho : op.makes = none)
    (hl : op.plain = true ∨ op.served = true) (hu : making push = none)
    (hm : making (push ++ rest) = some (q, ph)) :
    (s.pcb q).state = slotState ph ∧ ph ≠ .early ∧
      ∀ r c ph', Thread s r c → making c = some (q, ph') → r = p := by
  have hm' : making (s.cpu h).code = some (q, ph) := by
    rw [hc, making_cons ho, ← hm, making_append hu]
  refine ⟨(hi.make p _ q ph (.inl ⟨h, hp, rfl⟩) hm').1, ?_, hi.only hp hm'⟩
  rintro rfl
  have he := hi.early_of hp hm'
  rw [hc] at he
  generalize (s.cpu h).held = held at he
  cases he with
  | found | taken => simp [Op.plain, Op.served] at hl
  | locked | named => cases ho

end Facts

end Invariant

end RiscvOs.Proc
