import RiscvOs.Proc.Locks

set_option autoImplicit false

/-!
# One hart per process

Every step of the machine keeps the invariant of `Locks`, so it holds in every reachable state,
and no check of the kernel fails.

## Main results

* `Inv.step` — a step keeps the invariant.
* `Inv.no_panic` — no step calls `panic`.
* `one_hart_per_process` — at most one hart executes a process, a process that may be dispatched
  has its registers saved, and the process that `kwait` frees is not executed.
-/

namespace RiscvOs.Proc

open Function

/-! ## Code that fills no slot -/

section Making

variable {H : Type} {N : ℕ} {L K : Type}

theorem making_eq_none {c : List (Op N L K)} (hc : ∀ op ∈ c, op.makes = none) : making c = none :=
  List.findSome?_eq_none_iff.mpr hc

theorem making_serve [DecidableEq K] {op : Op N L K} (self : Option (Fin N)) (s : State H N L K) :
    making (serve self s op).1 = none := by
  cases op <;> simp only [serve]
  case wakeLoop => split_ifs <;> rfl
  case wake => split_ifs <;> rfl
  all_goals rfl

variable [DecidableEq L] {g : Config N L K}

theorem making_sectionCode (l : L) (acts : List (Act K)) : making (sectionCode g l acts) = none := by
  apply making_eq_none
  intro op ho
  rw [sectionCode, List.mem_append, List.mem_append, List.mem_map, List.mem_filterMap,
    List.mem_singleton] at ho
  rcases ho with (⟨a, -, rfl⟩ | ⟨a, -, ha⟩) | rfl
  · cases a <;> rfl
  · cases a with
    | update k v => cases ha
    | wakeup k =>
      simp only [Act.note] at ha
      split_ifs at ha
      cases ha
      rfl
  · rfl

theorem making_call {p : Fin N} (call : Call N L K) : making (call.code g p) = none := by
  cases call with
  | await k acts =>
    rw [Call.code, making_cons rfl, making_cons rfl]
    exact making_sectionCode _ acts
  | inside l acts =>
    rw [Call.code, making_cons rfl]
    exact making_sectionCode l acts
  | yield | wakeup _ | fork | exit _ | wait _ | kill _ | setkilled => rfl

end Making

section Steps

variable {H : Type} {N : ℕ} {L K : Type} [DecidableEq L] {g : Config N L K} {s t : State H N L K} {h : H}
  {p q r : Fin N} {c rest : List (Op N L K)} {op : Op N L K} {ph : Phase} {ok : Bool}

theorem Inv.touch_wake (hi : Inv g s) (hl : .pcb q ∈ (s.cpu h).held) (hr : s.stateOf (s.cpu h).proc = .running)
    (hst : (s.pcb q).state = .sleeping) {v : Pcb N L K} (hst' : v.state = .runnable)
    (hx : v.ctx = (s.pcb q).ctx) : Touch g s h q v := by
  have hn : ∀ h', (s.cpu h').proc ≠ some q := by
    refine hi.locked.nobody hl (fun hp => ?_) (by rw [hst]; decide)
    rw [hp, State.stateOf, hst] at hr
    cases hr
  refine .other hn (by rw [hst']; decide) (fun _ => ?_) (fun p c ph hc hm => ?_)
  · have hpk : (s.pcb q).state.parked = true := by rw [hst]; rfl
    obtain ⟨c, hc, hs⟩ := hi.tidy.saved q hpk hn
    exact ⟨c, hx.trans hc, hs, .inr (.inr ⟨hpk, hc⟩)⟩
  · have := (hi.tidy.make p c q ph hc hm).1
    rw [hst] at this
    cases ph <;> cases this

variable [DecidableEq H]

/-! ## Steps that leave the locks alone -/

theorem Inv.local_step (hi : Inv g s) (ht : ∀ r, Touch g s h r (t.pcb r)) (hlock : t.lock = s.lock)
    (hcpu : t.cpu = s.cpu)
    (hs : Safe g (s.cpu h).proc (t.stateOf (s.cpu h).proc) (s.cpu h).held c)
    (hm : ∀ p q ph, (s.cpu h).proc = some p → making c = some (q, ph) →
      (t.pcb q).state = slotState ph ∧ (ph = .early → Early q (s.cpu h).held c) ∧
        ∀ r c' ph', Thread s r c' → making c' = some (q, ph') → r = p) :
    Inv g (t.setCode h c) := by
  refine ⟨hi.locked.frame hi.tidy ht hlock hcpu hs, ?_⟩
  have hself : ((t.setCode h c).cpu h) = { s.cpu h with code := c } := by
    rw [setCode_self, hcpu]
  have hother : ∀ h', h' ≠ h → (t.setCode h c).cpu h' = s.cpu h' := by
    intro h' hne
    rw [setCode_of_ne t c hne, hcpu]
  refine hi.tidy.frame ?_ hother (h := h) ?_ ?_
  · intro h'
    rw [setCode_proc, hcpu]
  · exact ht
  · intro p q ph hp hq
    rw [hself] at hq
    obtain ⟨hst, he, ho⟩ := hm p q ph hp hq
    refine ⟨hst, ?_, ho⟩
    rw [hself]
    exact he

theorem Inv.quiet (hi : Inv g s) (hst : ∀ r, (t.pcb r).state = (s.pcb r).state)
    (hx : ∀ r, (t.pcb r).ctx = (s.pcb r).ctx) (hlock : t.lock = s.lock) (hcpu : t.cpu = s.cpu)
    (hs : Safe g (s.cpu h).proc (s.stateOf (s.cpu h).proc) (s.cpu h).held c)
    (hm : ∀ p q ph, (s.cpu h).proc = some p → making c = some (q, ph) →
      (s.pcb q).state = slotState ph ∧ (ph = .early → Early q (s.cpu h).held c) ∧
        ∀ r c' ph', Thread s r c' → making c' = some (q, ph') → r = p) :
    Inv g (t.setCode h c) := by
  refine hi.local_step (fun r => .same (hst r) (hx r)) hlock hcpu ?_ ?_
  · have h₁ : t.stateOf (s.cpu h).proc = s.stateOf (s.cpu h).proc := by
      cases (s.cpu h).proc with
      | none => rfl
      | some r => exact hst r
    exact h₁ ▸ hs
  · intro p q ph hp hq
    rw [hst q]
    exact hm p q ph hp hq

/-! ## Interrupts -/

omit [DecidableEq H] in
theorem Locked.interruptible (hi : Locked g s) (hn : (s.cpu h).noff = 0) :
    (s.cpu h).held = [] ∧ s.stateOf (s.cpu h).proc = .running := by
  have hheld : (s.cpu h).held = [] := by
    rw [hi.noff] at hn
    exact List.length_eq_zero_iff.mp hn
  refine ⟨hheld, ?_⟩
  cases hp : (s.cpu h).proc with
  | none => rfl
  | some p =>
    rcases (hi.safe_some hp).own with hr | hm
    · exact hr
    · rw [hheld] at hm
      cases hm

omit [DecidableEq H] in
theorem Tidy.made_of_interrupt (hi : Tidy g s) (hheld : (s.cpu h).held = []) (hp : (s.cpu h).proc = some p)
    (hm : making (s.cpu h).code = some (q, ph)) :
    (s.pcb q).state = slotState ph ∧ (ph = .early → Early q (s.cpu h).held c) ∧
      ∀ r c' ph', Thread s r c' → making c' = some (q, ph') → r = p := by
  refine ⟨(hi.make p _ q ph (.inl ⟨h, hp, rfl⟩) hm).1, ?_, hi.only hp hm⟩
  rintro rfl
  exact ((hi.early_of hp hm).held_ne_nil hheld).elim

/-! ## Locks -/

/-- A step that changes the locks of one hart. -/
theorem Inv.relock (held : List (Lock N L)) (hi : Inv g s) (hpcb : t.pcb = s.pcb)
    (hself : t.cpu h = { s.cpu h with code := rest, noff := held.length, held := held })
    (hother : ∀ h', h' ≠ h → t.cpu h' = s.cpu h')
    (hlock : ∀ l h', t.lock l = some h' ↔ l ∈ (t.cpu h').held) (hnd : held.Nodup)
    (hs : Safe g (s.cpu h).proc (s.stateOf (s.cpu h).proc) held rest)
    (hm : ∀ q ph, making rest = some (q, ph) → making (s.cpu h).code = some (q, ph))
    (he : ∀ q, Early q (s.cpu h).held (s.cpu h).code → Early q held rest) : Inv g t := by
  have hproc : ∀ h', (t.cpu h').proc = (s.cpu h').proc := by
    intro h'
    by_cases hh : h' = h
    · rw [hh, hself]
    · rw [hother h' hh]
  have hst : ∀ o, t.stateOf o = s.stateOf o := by
    intro o
    cases o with
    | none => rfl
    | some r => rw [State.stateOf, hpcb, State.stateOf]
  refine ⟨⟨hlock, ?_, ?_, ?_, ?_⟩, ?_⟩
  · intro h'
    by_cases hh : h' = h
    · rw [hh, hself]
      exact hnd
    · rw [hother h' hh]
      exact hi.locked.nodup h'
  · intro h'
    by_cases hh : h' = h
    · rw [hh, hself]
    · rw [hother h' hh]
      exact hi.locked.noff h'
  · intro h'
    rw [hst]
    by_cases hh : h' = h
    · rw [hh, hself]
      exact hs
    · rw [hother h' hh]
      exact hi.locked.safe h'
  · intro h' p hp
    rw [hproc] at hp
    by_cases hh : h' = h
    · rw [hh] at hp ⊢
      rw [hself]
      exact hi.locked.back h p hp
    · rw [hother h' hh]
      exact hi.locked.back h' p hp
  · refine hi.tidy.frame (h := h) hproc hother ?_ ?_
    · exact fun r => .same (by rw [hpcb]) (by rw [hpcb])
    · intro p q ph hp hq
      rw [hself] at hq
      have hq' := hm q ph hq
      refine ⟨?_, ?_, hi.tidy.only hp hq'⟩
      · rw [hpcb]
        exact (hi.tidy.make p _ q ph (.inl ⟨h, hp, rfl⟩) hq').1
      · rintro rfl
        rw [hself]
        exact he q (hi.tidy.early_of hp hq')

theorem Inv.acquire {l : Lock N L} (hi : Inv g s) (hc : (s.cpu h).code = .acquire l :: rest)
    (hl : s.lock l = none) : Inv g (s.acquire h l rest) := by
  have hs := hi.locked.safe h
  rw [hc] at hs
  obtain ⟨hrun, hnl, hs⟩ := hs
  have hself : (s.acquire h l rest).cpu h =
      { s.cpu h with code := rest, noff := (s.cpu h).noff + 1, held := l :: (s.cpu h).held } :=
    update_self ..
  have hother : ∀ h', h' ≠ h → (s.acquire h l rest).cpu h' = s.cpu h' :=
    fun h' hne => update_of_ne hne ..
  refine hi.relock (l :: (s.cpu h).held) rfl ?_ hother ?_ ?_ hs ?_ ?_
  · rw [hself, hi.locked.noff]
    rfl
  · intro l' h'
    have hlk : (s.acquire h l rest).lock = update s.lock l (some h) := rfl
    rw [hlk]
    by_cases hll : l' = l
    · subst hll
      rw [update_self]
      by_cases hh : h' = h
      · subst hh
        simp [hself]
      · rw [hother h' hh, ← hi.locked.holds, hl]
        simp [Ne.symm hh]
    · rw [update_of_ne hll]
      by_cases hh : h' = h
      · subst hh
        rw [hself, hi.locked.holds]
        simp [hll]
      · rw [hother h' hh, hi.locked.holds]
  · exact List.nodup_cons.mpr ⟨hnl, hi.locked.nodup h⟩
  · intro q ph hq
    rwa [hc, making_cons rfl]
  · intro q he
    rw [hc] at he
    generalize (s.cpu h).held = held at he
    cases he
    exact .locked

theorem Inv.release {l : Lock N L} (hi : Inv g s) (hc : (s.cpu h).code = .release l :: rest) :
    Inv g (s.release h l rest) := by
  have hs := hi.locked.safe h
  rw [hc] at hs
  obtain ⟨hl, -, hs⟩ := hs
  have hnd := hi.locked.nodup h
  have hself : (s.release h l rest).cpu h =
      { s.cpu h with code := rest, noff := (s.cpu h).noff - 1, held := (s.cpu h).held.erase l } :=
    update_self ..
  have hother : ∀ h', h' ≠ h → (s.release h l rest).cpu h' = s.cpu h' :=
    fun h' hne => update_of_ne hne ..
  refine hi.relock ((s.cpu h).held.erase l) rfl ?_ hother ?_ (hnd.erase l) hs ?_ ?_
  · rw [hself, hi.locked.noff, List.length_erase_of_mem hl]
  · intro l' h'
    have hlk : (s.release h l rest).lock = update s.lock l none := rfl
    rw [hlk]
    by_cases hll : l' = l
    · subst hll
      rw [update_self]
      by_cases hh : h' = h
      · subst hh
        simp [hself, hnd.mem_erase_iff]
      · rw [hother h' hh]
        refine iff_of_false (by simp) fun hl' => hh (hi.locked.unique hl' hl)
    · rw [update_of_ne hll]
      by_cases hh : h' = h
      · subst hh
        rw [hself, hi.locked.holds]
        simp [hll, hnd.mem_erase_iff]
      · rw [hother h' hh, hi.locked.holds]
  · intro q ph hq
    rwa [hc, making_cons rfl]
  · intro q he
    rw [hc] at he
    generalize (s.cpu h).held = held at he
    cases he
    exact .named

/-! ## Switches -/

/-- What a switch between the process `p` and the scheduler of the hart `h` has to keep. The hart goes on with
`o`, which is `p` or the scheduler, and keeps its locks. -/
structure Switch (g : Config N L K) (s t : State H N L K) (h : H) (p : Fin N) (o : Option (Fin N))
    (c b : List (Op N L K)) : Prop where
  self : t.cpu h = { s.cpu h with proc := o, code := c, back := b }
  other : ∀ h', h' ≠ h → t.cpu h' = s.cpu h'
  slots : ∀ r, r ≠ p → t.pcb r = s.pcb r
  lock : t.lock = s.lock
  before : ∀ h' r, (s.cpu h').proc = some r → (r = p ↔ h' = h)
  after : ∀ r, o = some r → r = p
  live : (s.pcb p).state ≠ .unused ∧ (s.pcb p).state ≠ .used
  safe : Safe g o (t.stateOf o) (s.cpu h).held c
  back : o = some p → ∃ i, b = [.release (.pcb p), .schedLoop i]
  ran : o = some p → (t.pcb p).ctx = none ∧ (t.pcb p).state ≠ .unused ∧ (t.pcb p).state ≠ .used
  idle : (t.pcb p).state = .running → o = some p
  saved : (t.pcb p).state.parked = true → o ≠ some p →
    ∃ c, (t.pcb p).ctx = some c ∧ Safe g (some p) .running [.pcb p] c
  thread : ∀ c q ph, Thread t p c → making c = some (q, ph) →
    ph ≠ .early ∧ ∃ c', Thread s p c' ∧ making c' = some (q, ph)

section Switch

variable {o : Option (Fin N)} {b : List (Op N L K)}

theorem Switch.locked (hw : Switch g s t h p o c b) (hi : Locked g s) : Locked g t := by
  have hheld : ∀ h', (t.cpu h').held = (s.cpu h').held ∧ (t.cpu h').noff = (s.cpu h').noff := by
    intro h'
    by_cases hh : h' = h
    · rw [hh, hw.self]
      exact ⟨rfl, rfl⟩
    · rw [hw.other h' hh]
      exact ⟨rfl, rfl⟩
  refine ⟨?_, ?_, ?_, ?_, ?_⟩
  · intro l h'
    rw [hw.lock, (hheld h').1]
    exact hi.holds l h'
  · intro h'
    rw [(hheld h').1]
    exact hi.nodup h'
  · intro h'
    rw [(hheld h').1, (hheld h').2]
    exact hi.noff h'
  · intro h'
    by_cases hh : h' = h
    · rw [hh, hw.self]
      exact hw.safe
    · rw [hw.other h' hh]
      have hs := hi.safe h'
      cases hr : (s.cpu h').proc with
      | none => rwa [hr] at hs
      | some r =>
        rw [hr] at hs
        rw [State.stateOf, hw.slots r fun he => hh ((hw.before h' r hr).mp he)]
        exact hs
  · intro h' r hr
    by_cases hh : h' = h
    · rw [hh, hw.self] at hr
      obtain rfl := hw.after r hr
      rw [hh, hw.self]
      exact hw.back hr
    · rw [hw.other h' hh] at hr ⊢
      exact hi.back h' r hr

theorem Switch.thread_inv (hw : Switch g s t h p o c b) {r : Fin N} {c' : List (Op N L K)} (hr : r ≠ p)
    (ht : Thread t r c') : Thread s r c' := by
  rcases ht with ⟨h', hp, hc⟩ | ⟨hst, hx⟩
  · by_cases hh : h' = h
    · rw [hh, hw.self] at hp
      exact (hr (hw.after r hp)).elim
    · rw [hw.other h' hh] at hp hc
      exact .inl ⟨h', hp, hc⟩
  · rw [hw.slots r hr] at hst hx
    exact .inr ⟨hst, hx⟩

theorem Switch.maker (hw : Switch g s t h p o c b) {c' : List (Op N L K)} (ht : Thread t r c')
    (hm : making c' = some (q, ph)) : ∃ c'', Thread s r c'' ∧ making c'' = some (q, ph) := by
  by_cases hr : r = p
  · subst hr
    exact (hw.thread c' q ph ht hm).2
  · exact ⟨c', hw.thread_inv hr ht, hm⟩

theorem Switch.tidy (hw : Switch g s t h p o c b) (hi : Tidy g s) : Tidy g t := by
  have hproc : ∀ h' r, (t.cpu h').proc = some r → r ≠ p → (s.cpu h').proc = some r ∧ h' ≠ h := by
    intro h' r hr hne
    have hh : h' ≠ h := by
      rintro rfl
      rw [hw.self] at hr
      exact hne (hw.after r hr)
    rw [hw.other h' hh] at hr
    exact ⟨hr, hh⟩
  have hself : ∀ h', (t.cpu h').proc = some p → h' = h := by
    intro h' hp
    by_contra hh
    rw [hw.other h' hh] at hp
    exact hh ((hw.before h' p hp).mp rfl)
  refine ⟨?_, ?_, ?_, ?_, ?_, ?_⟩
  · intro h₁ h₂ r h₁r h₂r
    by_cases hr : r = p
    · subst hr
      rw [hself h₁ h₁r, hself h₂ h₂r]
    · exact hi.excl h₁ h₂ r (hproc h₁ r h₁r hr).1 (hproc h₂ r h₂r hr).1
  · intro h' r hr
    by_cases hrp : r = p
    · subst hrp
      rw [hself h' hr, hw.self] at hr
      exact hw.ran hr
    · rw [hw.slots r hrp]
      exact hi.ran h' r (hproc h' r hr hrp).1
  · intro r hst
    by_cases hr : r = p
    · subst hr
      refine ⟨h, ?_⟩
      rw [hw.self]
      exact hw.idle hst
    · rw [hw.slots r hr] at hst
      obtain ⟨h', hp⟩ := hi.idle r hst
      have hh : h' ≠ h := fun he => hr ((hw.before h' r hp).mpr he)
      exact ⟨h', by rw [hw.other h' hh, hp]⟩
  · intro r hst hn
    by_cases hr : r = p
    · subst hr
      refine hw.saved hst fun ho => hn h ?_
      rw [hw.self, ho]
    · rw [hw.slots r hr] at hst ⊢
      refine hi.saved r hst fun h' hp => hn h' ?_
      have hh : h' ≠ h := fun he => hr ((hw.before h' r hp).mpr he)
      rw [hw.other h' hh, hp]
  · intro r c' q ph ht hm
    obtain ⟨c'', hs, hm'⟩ := hw.maker ht hm
    obtain ⟨hst, he⟩ := hi.make r c'' q ph hs hm'
    have hq : q ≠ p := by
      rintro rfl
      exact (slotState_cases ph).elim (fun he => hw.live.1 (hst.trans he)) fun he => hw.live.2 (hst.trans he)
    refine ⟨?_, fun he' => ?_⟩
    · rw [hw.slots q hq]
      exact hst
    · subst he'
      have hr : r ≠ p := by
        rintro rfl
        exact (hw.thread c' q .early ht hm).1 rfl
      obtain ⟨h', hp, he⟩ := (hi.make r c' q .early (hw.thread_inv hr ht) hm).2 rfl
      have hh : h' ≠ h := fun heq => hr ((hw.before h' r hp).mpr heq)
      exact ⟨h', by rw [hw.other h' hh, hp], by rw [hw.other h' hh]; exact he⟩
  · intro r r' c₁ c₂ q e e' ht ht' hm hm'
    obtain ⟨c₁', hs, hm⟩ := hw.maker ht hm
    obtain ⟨c₂', hs', hm'⟩ := hw.maker ht' hm'
    exact hi.maker r r' c₁' c₂' q e e' hs hs' hm hm'

end Switch

/-- The scheduler starts a process. -/
theorem Inv.switchIn (hi : Inv g s) (hc : (s.cpu h).code = .dispatch p :: rest)
    (hst : (s.pcb p).state = .runnable) (hx : (s.pcb p).ctx = some c) :
    Inv g (s.switchIn h p c rest) := by
  have hs := hi.locked.safe h
  rw [hc] at hs
  obtain ⟨hrun, hnone, hheld, hs⟩ := hs
  have hpk : (s.pcb p).state.parked = true := by rw [hst]; rfl
  have hn : ∀ h', (s.cpu h').proc ≠ some p := by
    refine hi.locked.nobody (h := h) ?_ ?_ (by rw [hst]; decide)
    · rw [hheld]
      simp
    · rw [hnone]
      simp
  obtain ⟨c', hc', hsc⟩ := hi.tidy.saved p hpk hn
  obtain rfl : c = c' := Option.some.inj (hx.symm.trans hc')
  have hpself : (s.switchIn h p c rest).pcb p = { s.pcb p with state := .running, ctx := none } :=
    update_self ..
  have hcself : (s.switchIn h p c rest).cpu h = { s.cpu h with proc := some p, code := c, back := rest } :=
    update_self ..
  have hw : Switch g s (s.switchIn h p c rest) h p (some p) c rest := by
    refine ⟨hcself, fun h' hh => update_of_ne hh .., ?_, rfl, ?_, ?_, ?_, ?_, ?_,
      ?_, ?_, ?_, ?_⟩
    · exact fun r hr => update_of_ne hr ..
    · intro h' r hp
      refine iff_of_false (fun hr => hn h' (hr ▸ hp)) fun hh => ?_
      rw [hh, hnone] at hp
      cases hp
    · rintro r ⟨rfl⟩
      rfl
    · rw [hst]
      decide
    · rw [State.stateOf, hpself, hheld]
      exact hsc
    · exact fun _ => hs
    · intro _
      rw [hpself]
      simp
    · exact fun _ => rfl
    · rw [hpself]
      simp [PState.parked]
    · intro c' q ph ht hm
      have hth : Thread s p c := .inr ⟨hpk, hx⟩
      have hcc : c' = c := by
        rcases ht with ⟨h', hp, hc'⟩ | ⟨hpk', -⟩
        · by_cases hh : h' = h
          · rw [hh] at hc'
            have hcode : ((s.switchIn h p c rest).cpu h).code = c := by rw [hcself]
            exact hc'.symm.trans hcode
          · have : (s.switchIn h p c rest).cpu h' = s.cpu h' := update_of_ne hh ..
            rw [this] at hp
            exact (hn h' hp).elim
        · rw [hpself] at hpk'
          cases hpk'
      rw [hcc] at hm
      refine ⟨?_, c, hth, hm⟩
      rintro rfl
      obtain ⟨h', hp, -⟩ := (hi.tidy.make p c q .early hth hm).2 rfl
      exact hn h' hp
  exact ⟨hw.locked hi.locked, hw.tidy hi.tidy⟩

/-- A process goes back to the scheduler. -/
theorem Inv.switchOut (hi : Inv g s) (hc : (s.cpu h).code = .sched :: rest)
    (hp : (s.cpu h).proc = some p) : Inv g (s.switchOut h p rest) := by
  have hs := hi.locked.safe_some hp
  rw [hc] at hs
  obtain ⟨p', hp', hheld, hst, hs⟩ := hs
  cases hp'
  have hpself : (s.switchOut h p rest).pcb p = { s.pcb p with ctx := some rest } :=
    update_self ..
  have hcself : (s.switchOut h p rest).cpu h =
      { s.cpu h with proc := none, code := (s.cpu h).back, back := [] } := update_self ..
  have hother : ∀ h', h' ≠ h → (s.switchOut h p rest).cpu h' = s.cpu h' :=
    fun h' hne => update_of_ne hne ..
  have hw : Switch g s (s.switchOut h p rest) h p none (s.cpu h).back [] := by
    refine ⟨hcself, hother, ?_, rfl, ?_, ?_, ?_, ?_, ?_, ?_, ?_, ?_, ?_⟩
    · exact fun r hr => update_of_ne hr ..
    · intro h' r hr
      constructor
      · rintro rfl
        exact hi.tidy.excl h' h r hr hp
      · rintro rfl
        exact Option.some.inj (hr.symm.trans hp)
    · intro r hr
      cases hr
    · exact (hi.tidy.ran h p hp).2
    · obtain ⟨i, hb⟩ := hi.locked.back h p hp
      rw [hheld, hb]
      simp [Safe, State.stateOf]
    · intro ho
      cases ho
    · intro ho
      cases ho
    · intro hr
      rw [hpself] at hr
      exact (hst hr).elim
    · intro hpk _
      rw [hpself] at hpk ⊢
      rw [hheld] at hs
      refine ⟨rest, rfl, hs.elim (fun hz => ?_) id⟩
      rw [hz.1] at hpk
      cases hpk
    · intro c' q ph ht hm
      have hcc : c' = rest := by
        rcases ht with ⟨h', hp', -⟩ | ⟨-, hx⟩
        · by_cases hh : h' = h
          · rw [hh, hcself] at hp'
            cases hp'
          · rw [hother h' hh] at hp'
            exact (hh (hi.tidy.excl h' h p hp' hp)).elim
        · rw [hpself] at hx
          exact (Option.some.inj hx).symm
      have hm' : making (s.cpu h).code = some (q, ph) := by rwa [hc, making_cons rfl, ← hcc]
      refine ⟨?_, _, .inl ⟨h, hp, rfl⟩, hm'⟩
      rintro rfl
      have he := hi.tidy.early_of hp hm'
      rw [hc] at he
      generalize (s.cpu h).held = held at he
      cases he
  exact ⟨hw.locked hi.locked, hw.tidy hi.tidy⟩

/-! ## Operations -/

variable [DecidableEq K]

omit [DecidableEq H] in
theorem Inv.touch_serve (hi : Inv g s) (hc : (s.cpu h).code = op :: rest) (ho : op.served = true)
    (r : Fin N) : Touch g s h r ((Proc.serve (s.cpu h).proc s op).2.pcb r) := by
  have hs := hi.locked.safe h
  rw [hc] at hs
  rcases serve_change s r (s.cpu h).proc op with he | ⟨ch, rfl, hst, -, he⟩
  · rw [he]
    exact .same rfl rfl
  · rw [he]
    exact hi.touch_wake hs.2.1 hs.1 hst rfl rfl

theorem Inv.serve (hi : Inv g s) (hc : (s.cpu h).code = op :: rest) (ho : op.served = true) :
    Inv g (s.serve h op rest) := by
  have hs := hi.locked.safe h
  rw [hc] at hs
  have hrun : s.stateOf (s.cpu h).proc = .running := by
    cases op <;> first | exact hs.1 | cases ho
  have hst : (Proc.serve (s.cpu h).proc s op).2.stateOf (s.cpu h).proc = s.stateOf (s.cpu h).proc := by
    cases hp : (s.cpu h).proc with
    | none => rfl
    | some p =>
      apply serve_state
      rw [hp] at hrun
      exact fun hsl => by cases hsl.symm.trans hrun
  refine hi.local_step (hi.touch_serve hc ho) (serve_lock ..) (serve_cpu ..) ?_ ?_
  · rw [hst]
    exact hs.serve ho s
  · intro p q ph hp hm
    obtain ⟨h₁, h₂, h₃⟩ := hi.tidy.made_of_push hp hc (by cases op <;> first | rfl | cases ho)
      (.inr ho) (making_serve _ s) hm
    refine ⟨?_, fun he => (h₂ he).elim, h₃⟩
    rw [serve_state _ _ (by rw [h₁]; cases ph <;> decide), h₁]

omit [DecidableEq L] [DecidableEq H] in
theorem exec_used (ho : op.makes = none) (hq : (s.pcb q).state = .used) (hne : q ≠ p) :
    ((exec g p ok s op).2.pcb q).state = .used := by
  have hch := exec_change s p q g ok op
  generalize (Proc.exec g p ok s op).2.pcb q = v at hch ⊢
  cases hch with
  | same | orphaned => exact hq
  | yields | sleeps | resumes | marked | exits => exact (hne rfl).elim
  | killed => exact (congrArg PState.woken hq).trans rfl
  | reaped hz => cases hz.symm.trans hq
  | named | used | noMemory | noCopy | adopted | ready => cases ho

omit [DecidableEq H] in
/-- What an operation of a process does to a slot. -/
theorem Inv.touch_exec (hi : Inv g s) (hp : (s.cpu h).proc = some p) (hc : (s.cpu h).code = op :: rest)
    (ho : op.plain = true) (ok : Bool) (r : Fin N) : Touch g s h r ((exec g p ok s op).2.pcb r) := by
  have hs := hi.locked.safe_some hp
  rw [hc] at hs
  have hth : Thread s p (op :: rest) := .inl ⟨h, hp, hc⟩
  -- the slot that this process is filling
  have hfree : ∀ (q : Fin N) (e : Phase) (v : Pcb N L K), making (op :: rest) = some (q, e) →
      v.state ≠ .running → (v.state.parked = true → ∃ c, v.ctx = some c ∧
        Safe g (some q) .running [.pcb q] c ∧ (c = forkret q ∨ Thread s q c)) → Touch g s h q v := by
    intro q e v hm hv hx
    refine .other (hi.tidy.made_nobody hth hm) hv hx ?_
    intro p' c e' hc' hm'
    rw [hi.tidy.maker p' p c _ q e' e hc' hth hm' hm]
    exact hp
  have hch := exec_change s p r g ok op
  generalize (Proc.exec g p ok s op).2.pcb r = v at hch ⊢
  cases hch with
  | same | resumes | marked | named | adopted | orphaned => exact .same rfl rfl
  | yields | sleeps | exits => exact .own hp rfl (by simp)
  | @killed q pid =>
    by_cases hq : (s.pcb r).state = .sleeping
    · refine hi.touch_wake ?_ ?_ hq ?_ rfl
      · rw [hs.2.2.1]
        simp
      · rw [hp]
        exact hs.1
      · exact (congrArg PState.woken hq).trans rfl
    · exact .same (PState.woken_of_ne hq) rfl
  | used =>
    refine hfree r .early _ rfl (by simp) ?_
    exact fun _ => ⟨forkret r, rfl, by simp [forkret, Safe], .inl rfl⟩
  | noMemory => exact hfree r .early _ rfl (by simp [Pcb.freed]) (by simp [Pcb.freed, PState.parked])
  | noCopy => exact hfree r .copy _ rfl (by simp [Pcb.freed]) (by simp [Pcb.freed, PState.parked])
  | ready =>
    refine hfree r .ready _ rfl (by simp) (fun _ => ?_)
    have hpk : (s.pcb r).state.parked = true := by rw [(hi.tidy.make p _ r .ready hth rfl).1]; rfl
    obtain ⟨c, hx, hsf⟩ := hi.tidy.saved r hpk (hi.tidy.made_nobody hth rfl)
    exact ⟨c, hx, hsf, .inr (.inr ⟨hpk, hx⟩)⟩
  | reaped hz =>
    refine .other ?_ (by simp [Pcb.freed]) (by simp [Pcb.freed, PState.parked]) ?_
    · refine hi.locked.nobody (h := h) ?_ ?_ (by rw [hz]; decide)
      · rw [hs.2.2.1]
        simp
      · rw [hp]
        rintro ⟨rfl⟩
        cases hz.symm.trans hs.1
    · intro p' c e hc' hm
      have := (hi.tidy.make p' c r e hc' hm).1
      rw [hz] at this
      cases e <;> cases this

omit [DecidableEq H] in
theorem Inv.exec_own (hi : Inv g s) (hp : (s.cpu h).proc = some p) (hc : (s.cpu h).code = op :: rest)
    (ok : Bool) : ((exec g p ok s op).2.pcb p).state = op.leaves (s.pcb p).state := by
  have hs := hi.locked.safe_some hp
  rw [hc] at hs
  have hne : ∀ e, making (op :: rest) ≠ some (p, e) :=
    fun e hm => hi.tidy.made_nobody (.inl ⟨h, hp, hc⟩) hm h hp
  have hch := exec_change s p p g ok op
  generalize hv : (Proc.exec g p ok s op).2.pcb p = v at hch ⊢
  cases hch with
  | same =>
    have hst := congrArg Pcb.state hv
    cases op <;> first | rfl | exact hst.symm.trans (congrArg Pcb.state (setPcb_self ..))
  | yields | sleeps | exits | resumes | marked | orphaned => rfl
  | killed => exact (congrArg PState.woken hs.1).trans hs.1.symm
  | named | used | noMemory => exact (hne .early rfl).elim
  | noCopy | adopted => exact (hne .copy rfl).elim
  | ready => exact (hne .ready rfl).elim
  | reaped hz => cases hz.symm.trans hs.1

/-- An operation of a process. -/
theorem Inv.exec (hi : Inv g s) (hp : (s.cpu h).proc = some p) (hc : (s.cpu h).code = op :: rest)
    (ho : op.plain = true) (ok : Bool) : Inv g (s.exec g h p ok op rest) := by
  have hs := hi.locked.safe_some hp
  rw [hc] at hs
  have ht := hi.touch_exec hp hc ho ok
  have hth : Thread s p (op :: rest) := .inl ⟨h, hp, hc⟩
  refine hi.local_step ht (exec_lock ..) (exec_cpu ..) ?_ ?_
  · rw [hp, State.stateOf, hi.exec_own hp hc ok]
    exact hs.exec ho ok s
  intro p' q ph hp' hm
  obtain rfl : p = p' := Option.some.inj (hp.symm.trans hp')
  by_cases hn : op.makes = none ∧ making (Proc.exec g p ok s op).1 = none
  · obtain ⟨hst, hph, honly⟩ := hi.tidy.made_of_push hp hc hn.1 (.inl ho) hn.2 hm
    refine ⟨?_, fun he => (hph he).elim, honly⟩
    have hu : slotState ph = .used := (slotState_cases ph).resolve_left fun he => by
      cases ph <;> first | exact hph rfl | cases he
    rw [hu] at hst ⊢
    exact exec_used hn.1 hst (hi.tidy.ne_of_parked hp (.inr hst))
  -- only the operations of `kfork` are left
  have hrest : ∀ q e, making (op :: rest) = some (q, e) →
      (s.pcb q).state = slotState e ∧ ∀ r c e', Thread s r c → making c = some (q, e') → r = p := by
    intro q e hq
    exact ⟨(hi.tidy.make p _ q e hth hq).1, fun r c e' hr hc' => hi.tidy.maker r p c _ q e' e hr hth hc' hq⟩
  cases op <;> simp only [Op.plain, Bool.false_eq_true] at ho
  case claim q' =>
    obtain ⟨-, -, hheld, rfl⟩ := hs
    simp only [Proc.exec] at hm ⊢
    split_ifs at hm ⊢ with hu
    · have hm' : some (q', Phase.early) = some (q, ph) := hm
      cases hm'
      refine ⟨hu, fun _ => ?_, ?_⟩
      · rw [hheld]
        exact .found
      -- who fills the slot already holds its lock
      · intro r c e' hr hc'
        obtain ⟨hst, he⟩ := hi.tidy.make r c q e' hr hc'
        obtain rfl : e' = .early := by
          cases e' with
          | early => rfl
          | copy | ready => cases hu.symm.trans hst
        obtain ⟨h', hp', he⟩ := he rfl
        have hh : h' = h := hi.locked.unique he.mem (by rw [hheld]; simp)
        rw [hh, hp] at hp'
        exact (Option.some.inj hp').symm
    · cases hm
  case takePid q' =>
    obtain ⟨-, -, hheld, rfl⟩ := hs
    have hm' : some (q', Phase.early) = some (q, ph) := hm
    cases hm'
    obtain ⟨hst, honly⟩ := hrest q .early rfl
    refine ⟨?_, fun _ => ?_, honly⟩
    · exact (congrArg Pcb.state (setPcb_self ..)).trans hst
    · rw [hheld]
      exact .taken
  case setUp q' =>
    obtain ⟨-, -, hheld, rfl⟩ := hs
    simp only [Proc.exec] at hm ⊢
    split_ifs at hm ⊢
    · have hm' : some (q', Phase.copy) = some (q, ph) := hm
      cases hm'
      refine ⟨?_, (fun he => by cases he), (hrest q .early rfl).2⟩
      rw [setPcb_self]
      rfl
    · cases hm
  case forkCopy q' =>
    obtain ⟨-, -, hheld, rfl⟩ := hs
    simp only [Proc.exec] at hm ⊢
    split_ifs at hm ⊢
    · have hm' : some (q', Phase.copy) = some (q, ph) := hm
      cases hm'
      obtain ⟨hst, honly⟩ := hrest q .copy rfl
      exact ⟨hst, (fun he => by cases he), honly⟩
    · cases hm
  case setParent q' =>
    obtain ⟨-, -, hheld, rfl⟩ := hs
    have hm' : some (q', Phase.ready) = some (q, ph) := hm
    cases hm'
    obtain ⟨hst, honly⟩ := hrest q .copy rfl
    refine ⟨?_, (fun he => by cases he), honly⟩
    exact (congrArg Pcb.state (setPcb_self ..)).trans hst
  case setReady q' =>
    obtain ⟨-, -, hheld, rfl⟩ := hs
    cases hm
  all_goals
    exfalso
    apply hn
    simp only [Proc.exec]
    refine ⟨rfl, ?_⟩
    first | rfl | (split_ifs <;> rfl)

/-! ## All steps -/

/-- **A step keeps the invariant.** -/
theorem Inv.step {e : Event H N L K} (hi : Inv g s) (hn : next g s e = .ok t) : Inv g t := by
  cases step_of_next hn with
  | acquire hc hl => exact hi.acquire hc hl
  | release hc hl => exact hi.release hc
  | @look h ok i rest hc =>
    have hs := hi.locked.safe h
    rw [hc] at hs
    obtain ⟨hrun, hself, hheld, rfl⟩ := hs
    refine hi.quiet (fun _ => rfl) (fun _ => rfl) rfl rfl ?_ ?_
    · rw [List.append_nil, hrun, hself, hheld]
      exact safe_schedRound _
    · intro p q ph hp
      rw [hself] at hp
      cases hp
  | @pass h ok p rest hc hst =>
    have hs := hi.locked.safe h
    rw [hc] at hs
    obtain ⟨hrun, hself, hheld, i, rfl⟩ := hs
    refine hi.quiet (fun _ => rfl) (fun _ => rfl) rfl rfl ?_ ?_
    · rw [hrun, hself, hheld]
      simp [Safe]
    · intro p q ph hp
      rw [hself] at hp
      cases hp
  | switchIn hc hst hx => exact hi.switchIn hc hst hx
  | switchOut hc hp hl hn hst => exact hi.switchOut hc hp
  | serve hc ho => exact hi.serve hc ho
  | exec hc hp ho => exact hi.exec hp hc ho _
  | @start h p call hc hp =>
    have hs := hi.locked.safe_some hp
    rw [hc] at hs
    refine hi.quiet (fun _ => rfl) (fun _ => rfl) rfl rfl ?_ ?_
    · rw [hp, State.stateOf, hs.1, hs.2.1]
      exact safe_call call
    · intro p' q ph _ hm
      rw [making_call] at hm
      cases hm
  | @timer h p hp hf =>
    obtain ⟨hheld, hrun⟩ := hi.locked.interruptible hf
    have hs := hi.locked.safe h
    refine hi.quiet (fun _ => rfl) (fun _ => rfl) rfl rfl ?_ ?_
    · rw [hrun, hheld, hp] at hs ⊢
      exact hs.yieldCode
    · intro p' q ph hp' hm
      exact hi.tidy.made_of_interrupt hheld hp' (hm.symm.trans (making_append rfl)).symm
  | @intr h l acts hf =>
    obtain ⟨hheld, hrun⟩ := hi.locked.interruptible hf
    have hs := hi.locked.safe h
    refine hi.quiet (fun _ => rfl) (fun _ => rfl) rfl rfl ?_ ?_
    · rw [hrun, hheld] at hs ⊢
      exact ⟨rfl, by simp, hs.sectionCode acts⟩
    · intro p' q ph hp' hm
      rw [making_cons rfl, making_append (making_sectionCode l acts)] at hm
      exact hi.tidy.made_of_interrupt hheld hp' hm

/-- **No check of the kernel fails**, and no process goes on with registers that are not its own. -/
theorem Inv.no_panic {e : Event H N L K} {x : Stop} (hi : Inv g s) (hn : next g s e = .error x) :
    x = .elsewhere := by
  cases e with
  | step h ok =>
    have hs := hi.locked.safe h
    cases hc : (s.cpu h).code with
    | nil =>
      simp only [next, hc] at hn
      cases hn
      rfl
    | cons op rest =>
      rw [hc] at hs
      cases op <;> simp only [next, hc] at hn
      case acquire l =>
        split_ifs at hn with h₁ h₂
        · exact (hs.2.1 ((hi.locked.holds l h).mp h₂)).elim
        · cases hn
          rfl
      case release l =>
        rw [if_pos ((hi.locked.holds l h).mpr hs.1)] at hn
        cases hn
      case dispatch p =>
        split_ifs at hn with hst
        split at hn
        case h_1 hx =>
          obtain ⟨hrun, hnone, hheld, -⟩ := hs
          have hnob : ∀ h', (s.cpu h').proc ≠ some p := by
            refine hi.locked.nobody (h := h) ?_ ?_ (by rw [hst]; decide)
            · rw [hheld]
              simp
            · rw [hnone]
              simp
          obtain ⟨c, hc', -⟩ := hi.tidy.saved p (by rw [hst]; rfl) hnob
          cases hx.symm.trans hc'
        case h_2 => cases hn
      case sched =>
        obtain ⟨p, hp, hheld, hst, -⟩ := hs
        have hlock : s.lock (.pcb p) = some h := (hi.locked.holds _ h).mpr (by rw [hheld]; simp)
        have hnoff : (s.cpu h).noff = 1 := by rw [hi.locked.noff, hheld]; rfl
        rw [hp, State.stateOf] at hst
        simp only [hp, hlock, hnoff, hst, ne_eq, not_true_eq_false, if_false, reduceCtorEq] at hn
      case panic => exact hs.elim
      case schedLoop | wakeLoop | wake | setCond | noteSignal => cases hn
      all_goals
        split at hn <;> cases hn
        rfl
  | start h call =>
    simp only [next] at hn
    split at hn <;> cases hn
    rfl
  | timer h =>
    simp only [next] at hn
    split at hn
    · cases hn
      rfl
    · split_ifs at hn
      cases hn
      rfl
  | intr h l acts =>
    simp only [next] at hn
    split_ifs at hn
    cases hn
    rfl

end Steps

/-! ## Reachable states -/

section Reachable

variable {H : Type} {N : ℕ} {L K : Type} [DecidableEq L] {g : Config N L K} {s s₀ : State H N L K}

/-- The invariant holds at the start. -/
theorem Boot.inv (hb : Boot g s) : Inv g s := by
  have hproc : ∀ h, (s.cpu h).proc = none := fun h => by rw [hb.cpu]
  have hheld : ∀ h, (s.cpu h).held = [] := fun h => by rw [hb.cpu]
  have hpcb : ∀ p, (s.pcb p).state ≠ .running ∧ ((s.pcb p).state.parked = true →
      (s.pcb p).ctx = some (forkret p)) := by
    intro p
    by_cases hp : p = g.initproc
    · rw [hp, hb.init]
      simp
    · rw [hb.others p hp]
      simp [PState.parked]
  have hth : ∀ p c, Thread s p c → making c = none := by
    rintro p c (⟨h, hp, -⟩ | ⟨hpk, hx⟩)
    · rw [hproc] at hp
      cases hp
    · rw [(hpcb p).2 hpk] at hx
      cases hx
      rfl
  refine ⟨⟨?_, ?_, ?_, ?_, ?_⟩, ⟨?_, ?_, ?_, ?_, ?_, ?_⟩⟩
  · intro l h
    rw [hb.lock, hheld]
    simp
  · intro h
    rw [hheld]
    exact List.nodup_nil
  · intro h
    rw [hb.cpu]
    rfl
  · intro h
    rw [hb.cpu]
    exact ⟨rfl, rfl, rfl, rfl⟩
  · intro h p hp
    rw [hproc] at hp
    cases hp
  · intro h h' p hp
    rw [hproc] at hp
    cases hp
  · intro h p hp
    rw [hproc] at hp
    cases hp
  · intro p hst
    exact ((hpcb p).1 hst).elim
  · intro p hpk _
    exact ⟨_, (hpcb p).2 hpk, by simp [forkret, Safe]⟩
  · intro p c q ph ht hm
    rw [hth p c ht] at hm
    cases hm
  · intro p p' c c' q ph ph' ht _ hm
    rw [hth p c ht] at hm
    cases hm

variable [DecidableEq H] [DecidableEq K]

theorem Boot.reach (hb : Boot g s₀) {legal : State H N L K → Event H N L K → Prop}
    (hr : Machine.Reach (next g) legal s₀ s) : Inv g s :=
  hr.invariant hb.inv fun hi _ hn => hi.step hn

/-- **One hart per process.** In every reachable state at most one hart executes on the stack of a process; a
process that is `RUNNABLE` or `SLEEPING` and whose lock is free has its registers saved, and no hart executes
it; and no hart executes the process that `kwait` is about to free. -/
theorem one_hart_per_process (hb : Boot g s₀) (hr : Machine.Reach (next g) (fun _ _ => True) s₀ s) :
    (∀ h h' p, (s.cpu h).proc = some p → (s.cpu h').proc = some p → h = h') ∧
      (∀ p, (s.pcb p).state = .runnable ∨ (s.pcb p).state = .sleeping → s.lock (.pcb p) = none →
        (∀ h, (s.cpu h).proc ≠ some p) ∧ ∃ c, (s.pcb p).ctx = some c) ∧
      ∀ h q addr rest, (s.cpu h).code = .check q addr :: rest → (s.pcb q).state = .zombie →
        ∀ h', (s.cpu h').proc ≠ some q := by
  have hi := hb.reach hr
  refine ⟨hi.tidy.excl, ?_, ?_⟩
  · intro p hst hl
    have hne : (s.pcb p).state ≠ .running := by
      rcases hst with hst | hst <;> rw [hst] <;> decide
    have hn : ∀ h, (s.cpu h).proc ≠ some p := by
      intro h hp
      rcases (hi.locked.safe_some hp).own with hr | hm
      · exact hne hr
      · rw [(hi.locked.holds _ h).mpr hm] at hl
        cases hl
    have hpk : (s.pcb p).state.parked = true := by
      rcases hst with hst | hst <;> rw [hst] <;> rfl
    obtain ⟨c, hc, -⟩ := hi.tidy.saved p hpk hn
    exact ⟨hn, c, hc⟩
  · intro h q addr rest hc hz
    have hs := hi.locked.safe h
    rw [hc] at hs
    obtain ⟨hrun, -, hheld, -⟩ := hs
    refine hi.locked.nobody (h := h) ?_ (fun hp => ?_) (by rw [hz]; decide)
    · rw [hheld]
      simp
    · rw [hp, State.stateOf, hz] at hrun
      cases hrun

end Reachable

/-! ### A run of two harts -/

open Machine

/-- Two slots and one condition. -/
def pair : Config 2 Unit Unit := ⟨fun _ => (), left⟩

def steps (h : Fin 2) (n : ℕ) : List (Event (Fin 2) 2 Unit Unit) := List.replicate n (.step h true)

/-- `initproc` forks on one hart, the child exits on the other one, and `initproc` has found it. -/
def forkExit : List (Event (Fin 2) 2 Unit Unit) :=
  steps left 4 ++ [.start left .fork] ++ steps left 19 ++ steps right 8 ++ [.start right (.exit 7)] ++
    steps right 16 ++ [.start left (.wait true)] ++ steps left 4

theorem one_hart_per_process_forkExit :
    ((after (next pair) pair.boot forkExit).pcb 1).state = .zombie ∧
      ∀ h, ((after (next pair) pair.boot forkExit).cpu h).proc ≠ some 1 := by
  have hok : errorOf (Machine.exec (next pair) pair.boot forkExit) = none := by decide
  have hr : Reach (next pair) (fun _ _ => True) pair.boot (after (next pair) pair.boot forkExit) :=
    reach_of_exec (by decide) (exec_eq_after hok)
  exact ⟨by decide, (one_hart_per_process (boot_boot pair) hr).2.2 0 1 true [] (by decide)
    (by decide)⟩

end RiscvOs.Proc
