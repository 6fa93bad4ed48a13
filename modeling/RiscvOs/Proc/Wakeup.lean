import RiscvOs.Proc.OneHart

set_option autoImplicit false

/-!
# No wakeup is lost

A process that waits for a condition tests it, takes its own lock, gives up the lock of the condition, and
falls asleep. Who wakes it up holds the lock of the condition and visits the processes one by one. As long as
that critical section lasts, every process that sleeps, or is about to, is still to be visited: the waker has
to wait for the lock of a process that is about to fall asleep.

## Main results

* `no_lost_wakeup` — a process that sleeps has tested the condition after the last critical
  section of a waker.
-/

namespace RiscvOs.Proc

open Function

/-! ## Code -/

section Code

variable {H : Type} {N : ℕ} {L K : Type}

/-- An operation that wakes up the process `p` if it sleeps on the channel. -/
def Op.wakes (p : Fin N) (ch : Chan N K) : Op N L K → Prop
  | .wakeLoop i c => i ≤ p.val ∧ c = some ch
  | .wake q c => q = p ∧ c = some ch
  | _ => False

/-- In the rest of a critical section, the process `p` is woken up before the section is counted as one that
wakes up those who wait for the condition. -/
def Due (g : Config N L K) (k : K) (p : Fin N) : List (Op N L K) → Prop
  | [] => True
  | .release (.user l) :: c => l = g.lockOf k ∨ Due g k p c
  | .noteSignal k' :: c => k' ≠ k ∧ Due g k p c
  | op :: c => op.wakes p (.other k) ∨ Due g k p c

/-- Every critical section that the code enters, or enters again after `sleep`, wakes up all processes before
it is counted. -/
def Sound (g : Config N L K) (k : K) : List (Op N L K) → Prop
  | [] => True
  | .acquire (.user l) :: c => (l = g.lockOf k → ∀ p, Due g k p c) ∧ Sound g k c
  | .test k' :: c => (g.lockOf k' = g.lockOf k → ∀ p, Due g k p c) ∧ Sound g k c
  | _ :: c => Sound g k c

/-- Code that is not falling asleep on a condition. -/
def Clean (c : List (Op N L K)) : Prop := ∀ k, .setSleeping (.other k) ∉ c

/-- The operations that neither enter nor leave a critical section, nor count one, nor fall asleep on a
condition. -/
def Op.neutral : Op N L K → Bool
  | .acquire (.user _) | .release (.user _) | .noteSignal _ | .test _ | .setSleeping (.other _) => false
  | _ => true

variable {g : Config N L K} {k : K} {p : Fin N} {op : Op N L K} {c push : List (Op N L K)}

theorem Due.cons (ho : op.neutral = true) (hc : Due g k p c) : Due g k p (op :: c) := by
  cases op
  case acquire l => cases l <;> exact .inr hc
  case release l =>
    cases l
    case user => cases ho
    all_goals exact .inr hc
  case noteSignal => cases ho
  all_goals exact .inr hc

theorem Due.of_cons (ho : op.neutral = true) (hc : Due g k p (op :: c)) :
    op.wakes p (.other k) ∨ Due g k p c := by
  cases op
  case acquire l => cases l <;> exact hc
  case release l =>
    cases l
    case user => cases ho
    all_goals exact hc
  case noteSignal => cases ho
  all_goals exact hc

theorem Due.append (hp : push.all Op.neutral = true) (hc : Due g k p c) : Due g k p (push ++ c) := by
  induction push with
  | nil => exact hc
  | cons op push ih =>
    rw [List.all_cons, Bool.and_eq_true] at hp
    exact (ih hp.2).cons hp.1

theorem sound_cons (ho : op.neutral = true) : Sound g k (op :: c) ↔ Sound g k c := by
  cases op
  case acquire l =>
    cases l
    case user => cases ho
    all_goals exact Iff.rfl
  case test => cases ho
  all_goals exact Iff.rfl

theorem Sound.of_cons (hc : Sound g k (op :: c)) : Sound g k c := by
  cases op
  case acquire l =>
    cases l
    case user => exact hc.2
    all_goals exact hc
  case test => exact hc.2
  all_goals exact hc

theorem sound_append (hp : push.all Op.neutral = true) : Sound g k (push ++ c) ↔ Sound g k c := by
  induction push with
  | nil => exact Iff.rfl
  | cons op push ih =>
    rw [List.all_cons, Bool.and_eq_true] at hp
    rw [List.cons_append, sound_cons hp.1, ih hp.2]

theorem Clean.of_cons (hc : Clean (op :: c)) : Clean c :=
  fun k hk => hc k (List.mem_cons_of_mem _ hk)

theorem Clean.ne_cons {c' : List (Op N L K)} (hc : Clean c) : c ≠ .setSleeping (.other k) :: c' := by
  rintro rfl
  exact hc k List.mem_cons_self

theorem Clean.append (hp : Clean push) (hc : Clean c) : Clean (push ++ c) := by
  intro k hk
  exact (List.mem_append.mp hk).elim (hp k) (hc k)

theorem clean_of_neutral (hp : push.all Op.neutral = true) : Clean push := by
  intro k hk
  cases List.all_eq_true.mp hp _ hk

/-! ### The code of the kernel -/

variable [DecidableEq L]

omit [DecidableEq L] in
theorem acts_neutral (acts : List (Act K)) : (acts.map (Act.op : Act K → Op N L K)).all Op.neutral = true := by
  rw [List.all_eq_true]
  intro op ho
  obtain ⟨a, -, rfl⟩ := List.mem_map.mp ho
  cases a <;> rfl

omit [DecidableEq L] in
theorem due_acts {acts : List (Act K)} (hk : .wakeup k ∈ acts) (c : List (Op N L K)) :
    Due g k p (acts.map Act.op ++ c) := by
  induction acts with
  | nil => cases hk
  | cons a acts ih =>
    rcases List.mem_cons.mp hk with rfl | hk
    · exact .inl ⟨Nat.zero_le _, rfl⟩
    · refine (ih hk).cons ?_
      cases a <;> rfl

theorem due_notes {l : L} {acts : List (Act K)} (hk : .wakeup k ∉ acts) (hc : Due g k p c) :
    Due g k p (acts.filterMap (Act.note g l) ++ c) := by
  induction acts with
  | nil => exact hc
  | cons a acts ih =>
    rw [List.mem_cons, not_or] at hk
    cases a with
    | update k' v => exact ih hk.2
    | wakeup k' =>
      have hne : k' ≠ k := fun he => hk.1 (by rw [he])
      by_cases hl : g.lockOf k' = l
      · rw [List.filterMap_cons_some (b := .noteSignal k') (by rw [Act.note, if_pos hl])]
        exact ⟨hne, ih hk.2⟩
      · rw [List.filterMap_cons_none (by rw [Act.note, if_neg hl])]
        exact ih hk.2

theorem due_sectionCode (p : Fin N) (acts : List (Act K)) (c : List (Op N L K)) :
    Due g k p (sectionCode g (g.lockOf k) acts ++ c) := by
  rw [sectionCode, List.append_assoc, List.append_assoc]
  by_cases hk : .wakeup k ∈ acts
  · exact due_acts hk _
  · exact Due.append (acts_neutral acts) (due_notes hk (.inl rfl))

theorem mem_sectionCode {l : L} {acts : List (Act K)} (ho : op ∈ sectionCode g l acts) :
    (∃ a, op = Act.op a) ∨ (∃ k, op = .noteSignal k) ∨ op = .release (.user l) := by
  rw [sectionCode, List.mem_append, List.mem_append, List.mem_map, List.mem_filterMap,
    List.mem_singleton] at ho
  rcases ho with (⟨a, -, rfl⟩ | ⟨a, -, ha⟩) | rfl
  · exact .inl ⟨a, rfl⟩
  · cases a with
    | update k v => cases ha
    | wakeup k =>
      rw [Act.note] at ha
      split_ifs at ha
      exact .inr (.inl ⟨k, (Option.some.inj ha).symm⟩)
  · exact .inr (.inr rfl)

omit [DecidableEq L] in
theorem sound_append_of_forall (hp : ∀ op ∈ push, (∀ l, op ≠ .acquire (.user l)) ∧ ∀ k, op ≠ .test k) :
    Sound g k (push ++ c) ↔ Sound g k c := by
  induction push with
  | nil => exact Iff.rfl
  | cons op push ih =>
    rw [List.cons_append, ← ih fun o ho => hp o (List.mem_cons_of_mem _ ho)]
    obtain ⟨h₁, h₂⟩ := hp op List.mem_cons_self
    cases op
    case acquire l =>
      cases l
      case user l => exact (h₁ l rfl).elim
      all_goals exact Iff.rfl
    case test k' => exact (h₂ k' rfl).elim
    all_goals exact Iff.rfl

theorem sound_sectionCode {l : L} (acts : List (Act K)) :
    Sound g k (sectionCode g l acts ++ c) ↔ Sound g k c := by
  apply sound_append_of_forall
  intro op ho
  rcases mem_sectionCode ho with ⟨a, rfl⟩ | ⟨k, rfl⟩ | rfl
  · cases a <;> simp [Act.op]
  · simp
  · simp

theorem clean_sectionCode (l : L) (acts : List (Act K)) : Clean (sectionCode g l acts) := by
  intro k hk
  rcases mem_sectionCode hk with ⟨a, ha⟩ | ⟨k, hk⟩ | hr
  · cases a <;> cases ha
  · cases hk
  · cases hr

theorem sound_enter {l : L} (acts : List (Act K)) (hc : Sound g k c) :
    Sound g k (.acquire (.user l) :: (sectionCode g l acts ++ c)) := by
  refine ⟨?_, (sound_sectionCode acts).mpr hc⟩
  rintro rfl p
  exact due_sectionCode p acts c

theorem sound_call (call : Call N L K) : Sound g k (call.code g p) := by
  cases call with
  | await k' acts =>
    have hd : g.lockOf k' = g.lockOf k → ∀ p, Due g k p (sectionCode g (g.lockOf k') acts) := by
      intro hl p
      have := due_sectionCode (g := g) (k := k) p acts []
      rwa [List.append_nil, ← hl] at this
    have hs : Sound g k (sectionCode g (g.lockOf k') acts) := by
      have := (sound_sectionCode (g := g) (k := k) (l := g.lockOf k') (c := []) acts).mpr trivial
      rwa [List.append_nil] at this
    exact ⟨fun hl p => .inr (hd hl p), hd, hs⟩
  | inside l acts =>
    have := sound_enter (g := g) (k := k) (l := l) (c := []) acts trivial
    rwa [List.append_nil] at this
  | yield | wakeup _ | fork | exit _ | wait _ | kill _ | setkilled => trivial

theorem clean_call (call : Call N L K) : Clean (call.code g p) := by
  cases call with
  | await k' acts =>
    intro k hk
    rcases List.mem_cons.mp hk with hk | hk
    · cases hk
    · rcases List.mem_cons.mp hk with hk | hk
      · cases hk
      · exact clean_sectionCode _ acts k hk
  | inside l acts =>
    intro k hk
    rcases List.mem_cons.mp hk with hk | hk
    · cases hk
    · exact clean_sectionCode _ acts k hk
  | yield | wakeup _ | fork | exit _ | wait _ | kill _ | setkilled => exact clean_of_neutral rfl

end Code

/-! ## The invariant -/

section Invariant

variable {H : Type} {N : ℕ} {L K : Type}

/-- The process sleeps on the condition, or it has given up the lock of the condition and is about to. -/
def Dozing (s : State H N L K) (p : Fin N) (k : K) : Prop :=
  ((s.pcb p).state = .sleeping ∧ (s.pcb p).chan = some (.other k)) ∨
    ∃ h c, (s.cpu h).proc = some p ∧ (s.cpu h).code = .setSleeping (.other k) :: c

/-- The three stages of falling asleep, with the locks. -/
inductive Falls (g : Config N L K) (p : Fin N) (k : K) : List (Lock N L) → List (Op N L K) → Prop where
  | first {c : List (Op N L K)} (hc : Clean c) :
    Falls g p k [.user (g.lockOf k)]
      (.acquire (.pcb p) :: .release (.user (g.lockOf k)) :: .setSleeping (.other k) :: c)
  | second {c : List (Op N L K)} (hc : Clean c) :
    Falls g p k [.pcb p, .user (g.lockOf k)]
      (.release (.user (g.lockOf k)) :: .setSleeping (.other k) :: c)
  | third {c : List (Op N L K)} (hc : Clean c) : Falls g p k [.pcb p] (.setSleeping (.other k) :: c)

/-- What holds of sleeping and waking in every reachable state. -/
structure Wakeful (g : Config N L K) (s : State H N L K) : Prop where
  sound : ∀ h k, Sound g k (s.cpu h).code
  saved : ∀ p c, (s.pcb p).state.parked = true → (s.pcb p).ctx = some c → Clean c ∧ ∀ k, Sound g k c
  due : ∀ h k p, .user (g.lockOf k) ∈ (s.cpu h).held → Dozing s p k → Due g k p (s.cpu h).code
  falls : ∀ h, Clean (s.cpu h).code ∨ ∃ p k, (s.cpu h).proc = some p ∧
    Falls g p k (s.cpu h).held (s.cpu h).code ∧ s.tested p k = s.ended k
  slept : ∀ p k, (s.pcb p).state = .sleeping → (s.pcb p).chan = some (.other k) → s.tested p k = s.ended k

variable {g : Config N L K} {s t : State H N L K} {h : H} {p : Fin N} {k : K} {op : Op N L K}
  {c rest push : List (Op N L K)}

theorem Wakeful.falls_head (hw : Wakeful g s) (hp : (s.cpu h).proc = some p)
    (hc : (s.cpu h).code = .setSleeping (.other k) :: c) :
    (s.cpu h).held = [.pcb p] ∧ Clean c ∧ s.tested p k = s.ended k := by
  rcases hw.falls h with hcl | ⟨p', k', hp', hf, ht⟩
  · exact (hcl.ne_cons hc).elim
  · obtain rfl : p = p' := Option.some.inj (hp.symm.trans hp')
    rw [hc] at hf
    generalize (s.cpu h).held = held at hf
    cases hf with
    | third hcl => exact ⟨rfl, hcl, ht⟩

theorem Wakeful.dozing (hw : Wakeful g s) (hd : Dozing s p k) : s.tested p k = s.ended k := by
  rcases hd with ⟨hst, hch⟩ | ⟨h, c, hp, hc⟩
  · exact hw.slept p k hst hch
  · exact (hw.falls_head hp hc).2.2

theorem Wakeful.clean (hw : Wakeful g s) (hheld : (s.cpu h).held = []) : Clean (s.cpu h).code := by
  rcases hw.falls h with hcl | ⟨p, k, -, hf, -⟩
  · exact hcl
  · rw [hheld] at hf
    cases hf

theorem Wakeful.clean_rest (hw : Wakeful g s) (hc : (s.cpu h).code = op :: rest)
    (ho : ∀ p k held, ¬ Falls g p k held (op :: rest)) : Clean rest := by
  rcases hw.falls h with hcl | ⟨p, k, -, hf, -⟩
  · rw [hc] at hcl
    exact hcl.of_cons
  · rw [hc] at hf
    exact (ho p k _ hf).elim

theorem Wakeful.sound_rest (hw : Wakeful g s) (hc : (s.cpu h).code = op :: rest) (k : K) : Sound g k rest := by
  have := hw.sound h k
  rw [hc] at this
  exact this.of_cons

theorem Wakeful.due_code (hw : Wakeful g s) (hc : (s.cpu h).code = op :: rest)
    (hl : .user (g.lockOf k) ∈ (s.cpu h).held) (hd : Dozing s p k) : Due g k p (op :: rest) := by
  rw [← hc]
  exact hw.due h k p hl hd

variable [DecidableEq L] [DecidableEq H]

/-- **The frame rule for a step of one hart.** -/
theorem Wakeful.frame {v : Cpu N L K} (hw : Wakeful g s) (hi : Locked g s) (hcpu : t.cpu = update s.cpu h v)
    (hsound : ∀ k, Sound g k v.code)
    (hsaved : ∀ p c, (t.pcb p).state.parked = true → (t.pcb p).ctx = some c →
      ((s.pcb p).state.parked = true ∧ (s.pcb p).ctx = some c) ∨ Clean c ∧ ∀ k, Sound g k c)
    (hdue : ∀ k p, .user (g.lockOf k) ∈ v.held → Dozing s p k → Dozing t p k → Due g k p v.code)
    (hfalls : Clean v.code ∨
      (∃ p k, v.proc = some p ∧ Falls g p k v.held v.code ∧ t.tested p k = t.ended k) ∧
        ∀ k c, v.code = .setSleeping (.other k) :: c →
          .user (g.lockOf k) ∈ (s.cpu h).held ∧ .user (g.lockOf k) ∉ v.held)
    (hsleep : ∀ p k, (t.pcb p).state = .sleeping → (t.pcb p).chan = some (.other k) → Dozing s p k)
    (hte : ∀ p k, Dozing s p k ∨ (∃ h', h' ≠ h ∧ (s.cpu h').proc = some p ∧
      Falls g p k (s.cpu h').held (s.cpu h').code) → s.tested p k = s.ended k →
      t.tested p k = t.ended k) : Wakeful g t := by
  have hself : t.cpu h = v := by rw [hcpu, update_self]
  have hother : ∀ h', h' ≠ h → t.cpu h' = s.cpu h' := fun h' hh => by rw [hcpu, update_of_ne hh]
  have hdoze : ∀ p k, Dozing t p k → Dozing s p k ∨
      (.user (g.lockOf k) ∈ (s.cpu h).held ∧ .user (g.lockOf k) ∉ v.held) := by
    rintro p k (⟨hst, hch⟩ | ⟨h', c, hp, hc⟩)
    · exact .inl (hsleep p k hst hch)
    · by_cases hh : h' = h
      · rw [hh, hself] at hc
        exact .inr (hfalls.elim (fun hcl => (hcl.ne_cons hc).elim) fun hf => hf.2 k c hc)
      · rw [hother h' hh] at hp hc
        exact .inl (.inr ⟨h', c, hp, hc⟩)
  refine ⟨?_, ?_, ?_, ?_, ?_⟩
  · intro h' k
    by_cases hh : h' = h
    · rw [hh, hself]
      exact hsound k
    · rw [hother h' hh]
      exact hw.sound h' k
  · intro p c hpk hx
    rcases hsaved p c hpk hx with ⟨hpk, hx⟩ | hc
    · exact hw.saved p c hpk hx
    · exact hc
  · intro h' k p hl hd
    rcases hdoze p k hd with hd' | ⟨hl₁, hl₂⟩
    · by_cases hh : h' = h
      · rw [hh, hself] at hl ⊢
        exact hdue k p hl hd' hd
      · rw [hother h' hh] at hl ⊢
        exact hw.due h' k p hl hd'
    · by_cases hh : h' = h
      · rw [hh, hself] at hl
        exact (hl₂ hl).elim
      · rw [hother h' hh] at hl
        exact (hh (hi.unique hl hl₁)).elim
  · intro h'
    by_cases hh : h' = h
    · rw [hh, hself]
      exact hfalls.imp_right And.left
    · rw [hother h' hh]
      refine (hw.falls h').imp_right ?_
      rintro ⟨p, k, hp, hf, ht⟩
      exact ⟨p, k, hp, hf, hte p k (.inr ⟨h', hh, hp, hf⟩) ht⟩
  · intro p k hst hch
    have hd := hsleep p k hst hch
    exact hte p k (.inl hd) (hw.dozing hd)

/-! ### Operations -/

theorem Wakeful.neutral_step (hw : Wakeful g s) (hi : Inv g s) (hcpu : t.cpu = s.cpu)
    (hc : (s.cpu h).code = op :: rest) (ho : op.neutral = true) (hl : op.plain = true ∨ op.served = true)
    (hu : push.all Op.neutral = true) (ht : ∀ r, Touch g s h r (t.pcb r))
    (hwakes : ∀ k p, Dozing s p k → Dozing (t.setCode h (push ++ rest)) p k → op.wakes p (.other k) →
      Due g k p (push ++ rest))
    (hsleep : ∀ p k, (t.pcb p).state = .sleeping → (t.pcb p).chan = some (.other k) → Dozing s p k)
    (htest : t.tested = s.tested) (hend : t.ended = s.ended) : Wakeful g (t.setCode h (push ++ rest)) := by
  have hclean : Clean rest := by
    refine hw.clean_rest hc fun p k held hf => ?_
    cases hf with
    | first | second => simp [Op.plain, Op.served] at hl
    | third => cases ho
  refine hw.frame (h := h) hi.locked (v := { s.cpu h with code := push ++ rest }) ?_ (fun k => ?_) ?_ ?_
    (.inl ((clean_of_neutral hu).append hclean)) hsleep ?_
  · rw [State.setCode, State.setCpu, hcpu]
  · exact (sound_append hu).mpr (hw.sound_rest hc k)
  · intro p c hpk hx
    refine ((ht p).saved hi.tidy hpk hx).imp_right ?_
    rintro rfl
    exact ⟨clean_of_neutral rfl, fun k => trivial⟩
  · intro k p hlk hd hd'
    rcases (hw.due_code hc hlk hd).of_cons ho with hwk | hdue
    · exact hwakes k p hd hd' hwk
    · exact hdue.append hu
  · intro p k _ he
    rw [setCode_tested, setCode_ended, htest, hend]
    exact he

/-! ### Locks and switches -/

theorem Wakeful.acquire {l : Lock N L} (hw : Wakeful g s) (hi : Inv g s)
    (hc : (s.cpu h).code = .acquire l :: rest) : Wakeful g (s.acquire h l rest) := by
  refine hw.frame hi.locked rfl (hw.sound_rest hc) (fun _ _ hpk hx => .inl ⟨hpk, hx⟩) ?_ ?_
    (fun _ _ hst hch => .inl ⟨hst, hch⟩) fun _ _ _ he => he
  · intro k p hlk hd _
    rcases List.mem_cons.mp hlk with rfl | hlk
    · have := hw.sound h k
      rw [hc] at this
      exact this.1 rfl p
    · have hdue := hw.due_code hc hlk hd
      cases l <;> exact hdue.elim False.elim id
  · rcases hw.falls h with hcl | ⟨p, k, hp, hf, ht⟩
    · rw [hc] at hcl
      exact .inl hcl.of_cons
    · rw [hc] at hf
      generalize (s.cpu h).held = held at hf
      cases hf with
      | first hcl => exact .inr ⟨⟨p, k, hp, .second hcl, ht⟩, by simp⟩

theorem Wakeful.release {l : Lock N L} (hw : Wakeful g s) (hi : Inv g s)
    (hc : (s.cpu h).code = .release l :: rest) : Wakeful g (s.release h l rest) := by
  refine hw.frame hi.locked rfl (hw.sound_rest hc) (fun _ _ hpk hx => .inl ⟨hpk, hx⟩) ?_ ?_
    (fun _ _ hst hch => .inl ⟨hst, hch⟩) fun _ _ _ he => he
  · intro k p hlk hd _
    obtain ⟨hne, hlk⟩ := (hi.locked.nodup h).mem_erase_iff.mp hlk
    have hdue := hw.due_code hc hlk hd
    cases l with
    | user l => exact hdue.resolve_left fun hl => hne (by rw [hl])
    | pcb | wait | pid => exact hdue.resolve_left id
  · rcases hw.falls h with hcl | ⟨p, k, hp, hf, ht⟩
    · rw [hc] at hcl
      exact .inl hcl.of_cons
    · rw [hc] at hf
      generalize (s.cpu h).held = held at hf
      cases hf with
      | second hcl =>
        have herase : [Lock.pcb p, .user (g.lockOf k)].erase (.user (g.lockOf k)) = [.pcb p] := by
          simp
        rw [herase]
        refine .inr ⟨⟨p, k, hp, .third hcl, ht⟩, ?_⟩
        rintro k' c hk
        cases hk
        simp

theorem Wakeful.switchIn (hw : Wakeful g s) (hi : Inv g s) (hc : (s.cpu h).code = .dispatch p :: rest)
    (hst : (s.pcb p).state = .runnable) (hx : (s.pcb p).ctx = some c) :
    Wakeful g (s.switchIn h p c rest) := by
  have hs := hi.locked.safe h
  rw [hc] at hs
  have hheld := hs.2.2.1
  have hpself : (s.switchIn h p c rest).pcb p = { s.pcb p with state := .running, ctx := none } :=
    update_self ..
  have hpother : ∀ r, r ≠ p → (s.switchIn h p c rest).pcb r = s.pcb r :=
    fun r hne => update_of_ne hne ..
  obtain ⟨hclean, hsound⟩ := hw.saved p c (by rw [hst]; rfl) hx
  refine hw.frame hi.locked rfl hsound ?_ ?_ (.inl hclean) ?_ fun _ _ _ he => he
  · intro r c' hpk hx'
    by_cases hr : r = p
    · subst hr
      rw [hpself] at hpk
      cases hpk
    · rw [hpother r hr] at hpk hx'
      exact .inl ⟨hpk, hx'⟩
  · intro k q hlk
    simp [hheld] at hlk
  · intro r k hst' hch
    by_cases hr : r = p
    · subst hr
      rw [hpself] at hst'
      cases hst'
    · rw [hpother r hr] at hst' hch
      exact .inl ⟨hst', hch⟩

theorem Wakeful.switchOut (hw : Wakeful g s) (hi : Inv g s) (hc : (s.cpu h).code = .sched :: rest)
    (hp : (s.cpu h).proc = some p) : Wakeful g (s.switchOut h p rest) := by
  have hs := hi.locked.safe_some hp
  rw [hc] at hs
  obtain ⟨p', hp', hheld, -⟩ := hs
  cases hp'
  obtain ⟨i, hback⟩ := hi.locked.back h p hp
  have hpself : (s.switchOut h p rest).pcb p = { s.pcb p with ctx := some rest } :=
    update_self ..
  have hpother : ∀ r, r ≠ p → (s.switchOut h p rest).pcb r = s.pcb r :=
    fun r hne => update_of_ne hne ..
  have hclean : Clean rest := hw.clean_rest hc fun _ _ _ hf => nomatch hf
  refine hw.frame hi.locked rfl (fun k => ?_) ?_ ?_ (.inl ?_) ?_ fun _ _ _ he => he
  · rw [hback]
    trivial
  · intro r c' hpk hx
    by_cases hr : r = p
    · subst hr
      rw [hpself] at hx
      cases hx
      exact .inr ⟨hclean, hw.sound_rest hc⟩
    · rw [hpother r hr] at hpk hx
      exact .inl ⟨hpk, hx⟩
  · intro k q hlk
    simp [hheld] at hlk
  · rw [hback]
    exact clean_of_neutral rfl
  · intro r k hst hch
    by_cases hr : r = p
    · subst hr
      rw [hpself] at hst hch
      exact .inl ⟨hst, hch⟩
    · rw [hpother r hr] at hst hch
      exact .inl ⟨hst, hch⟩

theorem Wakeful.setCode (hw : Wakeful g s) (hi : Inv g s) (hs : ∀ k, Sound g k c) (hcl : Clean c)
    (hl : ∀ l, .user l ∉ (s.cpu h).held) : Wakeful g (s.setCode h c) :=
  hw.frame hi.locked rfl hs (fun _ _ hpk hx => .inl ⟨hpk, hx⟩) (fun _ _ hlk => (hl _ hlk).elim) (.inl hcl)
    (fun _ _ hst hch => .inl ⟨hst, hch⟩) fun _ _ _ he => he

/-! ### Operations on a condition -/

variable [DecidableEq K]

omit [DecidableEq H] [DecidableEq L] in
theorem exec_neutral {ok : Bool} (ho : op.neutral = true) :
    (exec g p ok s op).1.all Op.neutral = true := by
  cases op <;> first | (simp only [exec]; split_ifs <;> rfl) | rfl | cases ho

omit [DecidableEq H] [DecidableEq L] in
theorem exec_tested {ok : Bool} (ho : op.neutral = true) :
    (exec g p ok s op).2.tested = s.tested ∧ (exec g p ok s op).2.ended = s.ended := by
  cases op <;> first | (simp only [exec]; split_ifs <;> exact ⟨rfl, rfl⟩) | exact ⟨rfl, rfl⟩ | cases ho

omit [DecidableEq H] [DecidableEq L] in
theorem serve_neutral {self : Option (Fin N)} : (serve self s op).1.all Op.neutral = true := by
  cases op <;> first | (simp only [serve]; split_ifs <;> rfl) | rfl

theorem Wakeful.noteSignal {k₀ : K} (hw : Wakeful g s) (hi : Inv g s)
    (hc : (s.cpu h).code = .noteSignal k₀ :: rest) : Wakeful g (s.serve h (.noteSignal k₀) rest) := by
  have hs := hi.locked.safe h
  rw [hc] at hs
  obtain ⟨-, hl, -⟩ := hs
  have hclean : Clean rest := hw.clean_rest hc fun _ _ _ hf => nomatch hf
  refine hw.frame hi.locked rfl (hw.sound_rest hc) (fun _ _ hpk hx => .inl ⟨hpk, hx⟩)
    (fun k p hlk hd _ => (hw.due_code hc hlk hd).2) (.inl hclean) (fun _ _ hst hch => .inl ⟨hst, hch⟩) ?_
  · intro p k hd he
    have hne : k ≠ k₀ := by
      rintro rfl
      have hnd : ¬ Dozing s p k := by
        intro hd
        have hdue := hw.due h k p hl hd
        rw [hc] at hdue
        exact hdue.1 rfl
      rcases hd with hd | ⟨h', hh, hp, hf⟩
      · exact hnd hd
      · have hl' : .user (g.lockOf k) ∉ (s.cpu h').held := fun hl' => hh (hi.locked.unique hl' hl)
        have hcode' : ∀ c, (s.cpu h').code ≠ .setSleeping (.other k) :: c :=
          fun c hc' => hnd (.inr ⟨h', c, hp, hc'⟩)
        generalize (s.cpu h').held = held at hf hl'
        generalize (s.cpu h').code = code at hf hcode'
        cases hf with
        | first | second => exact hl' (by simp)
        | third => exact hcode' _ rfl
    have : (s.serve h (.noteSignal k₀) rest).ended k = s.ended k := update_of_ne hne ..
    rw [this]
    exact he

theorem Wakeful.serve (hw : Wakeful g s) (hi : Inv g s) (hc : (s.cpu h).code = op :: rest)
    (ho : op.served = true) : Wakeful g (s.serve h op rest) := by
  have hs := hi.locked.safe h
  rw [hc] at hs
  by_cases hn : op.neutral = true
  · refine hw.neutral_step hi (serve_cpu ..) hc hn (.inr ho) serve_neutral (hi.touch_serve hc ho) ?_ ?_ ?_ ?_
    · intro k p hd hd' hwk
      cases op <;> first | exact hwk.elim | skip
      case wakeLoop i ch =>
        obtain ⟨hip, rfl⟩ := hwk
        -- who executes the loop is not asleep
        have hne : (s.cpu h).proc ≠ some p := by
          intro hp
          rcases hd with ⟨hst, -⟩ | ⟨h', c, hp', hc'⟩
          · rw [hp, State.stateOf, hst] at hs
            cases hs.1
          · rw [hi.tidy.excl h' h p hp' hp, hc] at hc'
            cases hc'
        have hiN : i < N := lt_of_le_of_lt hip p.isLt
        simp only [Proc.serve, dif_pos hiN]
        split_ifs with hself
        · have hlt : i ≠ p.val := by
            rintro rfl
            exact hne hself
          exact .inl ⟨by omega, rfl⟩
        · by_cases hlt : i = p.val
          · subst hlt
            exact .inr (.inl ⟨rfl, rfl⟩)
          · exact .inr (.inr (.inr (.inl ⟨by omega, rfl⟩)))
      case wake q ch =>
        obtain ⟨rfl, rfl⟩ := hwk
        exfalso
        rcases hd with ⟨hst, hch⟩ | ⟨h', c, hp, hc'⟩
        · rcases hd' with ⟨hst', -⟩ | ⟨h', c, hp, -⟩
          · simp [Proc.serve, hst, hch] at hst'
          · rw [setCode_proc, serve_cpu] at hp
            refine hi.locked.nobody hs.2.1 (fun hp' => ?_) (by rw [hst]; decide) h' hp
            rw [hp', State.stateOf, hst] at hs
            cases hs.1
        -- who is about to fall asleep has its lock
        · have hl : .pcb q ∈ (s.cpu h').held := by
            rw [(hw.falls_head hp hc').1]
            simp
          rw [hi.locked.unique hl hs.2.1, hc] at hc'
          cases hc'
    · intro p k hst hch
      rcases serve_change s p (s.cpu h).proc op with he | ⟨ch, -, -, -, he⟩
      · rw [he] at hst hch
        exact .inl ⟨hst, hch⟩
      · rw [he] at hst
        cases hst
    · cases op <;> first | (simp only [Proc.serve]; split_ifs <;> rfl) | rfl
    · cases op <;> first | (simp only [Proc.serve]; split_ifs <;> rfl) | rfl | cases hn
  · cases op
    case noteSignal k => exact hw.noteSignal hi hc
    all_goals first | exact (hn rfl).elim | cases ho

theorem Wakeful.setSleeping {ok : Bool} {k₀ : K} (hw : Wakeful g s) (hi : Inv g s)
    (hp : (s.cpu h).proc = some p) (hc : (s.cpu h).code = .setSleeping (.other k₀) :: rest) :
    Wakeful g (s.exec g h p ok (.setSleeping (.other k₀)) rest) := by
  obtain ⟨hheld, hclean, -⟩ := hw.falls_head hp hc
  refine hw.frame hi.locked rfl (hw.sound_rest hc) ?_ ?_ (.inl hclean) ?_ fun _ _ _ he => he
  · intro q c hpk hx
    refine ((hi.touch_exec hp hc rfl ok q).saved hi.tidy hpk hx).imp_right ?_
    rintro rfl
    exact ⟨clean_of_neutral rfl, fun k => trivial⟩
  · intro k q hlk
    simp [hheld] at hlk
  · intro q k hst hch
    have hch' := exec_change s p q g ok (.setSleeping (.other k₀))
    rw [State.exec, setCode_pcb] at hst hch
    generalize (Proc.exec g p ok s (.setSleeping (.other k₀))).2.pcb q = v at hch' hst hch
    cases hch' with
    | same => exact .inl ⟨hst, hch⟩
    | sleeps =>
      cases hch
      exact .inr ⟨h, rest, hp, hc⟩

/-- A test of the condition. -/
theorem Wakeful.test {ok : Bool} {k₀ : K} (hw : Wakeful g s) (hi : Inv g s)
    (hp : (s.cpu h).proc = some p) (hc : (s.cpu h).code = .test k₀ :: rest) :
    Wakeful g (s.exec g h p ok (.test k₀) rest) := by
  have hs := hi.locked.safe_some hp
  rw [hc] at hs
  obtain ⟨hrun, -, hheld, -⟩ := hs
  have hsound : ∀ k, (g.lockOf k₀ = g.lockOf k → ∀ p, Due g k p rest) ∧ Sound g k rest := by
    intro k
    have := hw.sound h k
    rw [hc] at this
    exact this
  have hclean : Clean rest := hw.clean_rest hc fun _ _ _ hf => nomatch hf
  have hpcb : (s.exec g h p ok (.test k₀) rest).pcb = s.pcb := by
    rw [State.exec, setCode_pcb]
    simp only [Proc.exec]
    split_ifs <;> rfl
  have hend : (s.exec g h p ok (.test k₀) rest).ended = s.ended := by
    rw [State.exec, setCode_ended]
    simp only [Proc.exec]
    split_ifs <;> rfl
  have htest : (s.exec g h p ok (.test k₀) rest).tested =
      update s.tested p (update (s.tested p) k₀ (s.ended k₀)) := by
    rw [State.exec, setCode_tested]
    simp only [Proc.exec]
    split_ifs <;> rfl
  obtain ⟨code, hcpu, hcode⟩ : ∃ c,
      (s.exec g h p ok (.test k₀) rest).cpu = update s.cpu h { s.cpu h with code := c } ∧
      (c = rest ∨ c = sleepCode p (.other k₀) (.user (g.lockOf k₀)) ++ .test k₀ :: rest) := by
    refine ⟨_, by rw [State.exec, State.setCode, State.setCpu, exec_cpu], ?_⟩
    simp only [Proc.exec]
    split_ifs
    · exact .inl rfl
    · exact .inr (List.append_assoc ..)
  refine hw.frame hi.locked hcpu ?_ ?_ ?_ ?_ ?_ ?_
  · intro k
    rcases hcode with rfl | rfl
    · exact (hsound k).2
    · exact ⟨fun hl q => .inr ((hsound k).1 hl q), hsound k⟩
  · intro q c hpk hx
    rw [hpcb] at hpk hx
    exact .inl ⟨hpk, hx⟩
  · intro k q hlk _ _
    rw [hheld, List.mem_singleton, Lock.user.injEq] at hlk
    rcases hcode with rfl | rfl
    · exact (hsound k).1 hlk.symm q
    · exact .inr (.inl hlk.symm)
  · rw [hend, htest]
    rcases hcode with rfl | rfl
    · exact .inl hclean
    · refine .inr ⟨⟨p, k₀, hp, ?_, by simp⟩, by simp [sleepCode]⟩
      rw [hheld]
      have hcl : Clean (.sched :: .clearChan :: .release (.pcb p) :: .acquire (.user (g.lockOf k₀)) ::
          .test k₀ :: rest) := by
        intro k hk
        simp only [List.mem_cons, reduceCtorEq, false_or] at hk
        exact hclean k hk
      exact .first hcl
  · intro q k hst hch
    rw [hpcb] at hst hch
    exact .inl ⟨hst, hch⟩
  · intro q k hd he
    rw [hend, htest]
    have hne : q ≠ p := by
      rintro rfl
      rcases hd with (⟨hst, -⟩ | ⟨h', c, hp', hc'⟩) | ⟨h', hh, hp', -⟩
      · cases hst.symm.trans hrun
      · rw [hi.tidy.excl h' h q hp' hp, hc] at hc'
        cases hc'
      · exact hh (hi.tidy.excl h' h q hp' hp)
    rw [update_of_ne hne]
    exact he

theorem Wakeful.exec {ok : Bool} (hw : Wakeful g s) (hi : Inv g s) (hp : (s.cpu h).proc = some p)
    (hc : (s.cpu h).code = op :: rest) (ho : op.plain = true) : Wakeful g (s.exec g h p ok op rest) := by
  by_cases hn : op.neutral = true
  · refine hw.neutral_step hi (exec_cpu ..) hc hn (.inl ho) (exec_neutral hn) (hi.touch_exec hp hc ho ok)
      ?_ ?_ (exec_tested hn).1 (exec_tested hn).2
    · intro k q _ _ hwk
      cases op <;> first | exact hwk.elim | cases ho
    · intro q k hst hch
      by_cases hs : ∃ c, op = .setSleeping c
      · obtain ⟨c, rfl⟩ := hs
        have hch' := exec_change s p q g ok (.setSleeping c)
        generalize (Proc.exec g p ok s (.setSleeping c)).2.pcb q = v at hch' hst hch
        cases hch' with
        | same => exact .inl ⟨hst, hch⟩
        | sleeps =>
          cases hch
          cases hn
      · exact .inl (exec_sleeping (fun c he => hs ⟨c, he⟩) hst hch)
  · cases op
    case setSleeping ch =>
      cases ch with
      | proc q => exact (hn rfl).elim
      | other k => exact hw.setSleeping hi hp hc
    case test k => exact hw.test hi hp hc
    all_goals first | exact (hn rfl).elim | cases ho

/-! ### All steps -/

theorem Wakeful.step {e : Event H N L K} (hw : Wakeful g s) (hi : Inv g s)
    (hn : next g s e = .ok t) : Wakeful g t := by
  cases step_of_next hn with
  | acquire hc hl => exact hw.acquire hi hc
  | release hc hl => exact hw.release hi hc
  | @look h ok i rest hc =>
    have hs := hi.locked.safe h
    rw [hc] at hs
    obtain ⟨-, -, hheld, rfl⟩ := hs
    have hu : (schedRound i ++ [] : List (Op N L K)).all Op.neutral = true := by
      rw [List.append_nil, schedRound]
      split_ifs <;> rfl
    refine hw.setCode hi (fun k => ?_) (clean_of_neutral hu) (by rw [hheld]; simp)
    have := (sound_append (g := g) (k := k) (c := []) hu).mpr trivial
    rwa [List.append_nil] at this
  | @pass h ok p rest hc hst =>
    have hs := hi.locked.safe h
    rw [hc] at hs
    obtain ⟨-, -, hheld, i, rfl⟩ := hs
    exact hw.setCode hi (fun k => trivial) (clean_of_neutral rfl) (by rw [hheld]; simp)
  | switchIn hc hst hx => exact hw.switchIn hi hc hst hx
  | switchOut hc hp hl hn hst => exact hw.switchOut hi hc hp
  | serve hc ho => exact hw.serve hi hc ho
  | exec hc hp ho => exact hw.exec hi hp hc ho
  | @start h p call hc hp =>
    have hs := hi.locked.safe_some hp
    rw [hc] at hs
    exact hw.setCode hi (fun k => sound_call call) (clean_call call) (by rw [hs.2.1]; simp)
  | @timer h p hp hf =>
    have hheld := (hi.locked.interruptible hf).1
    refine hw.setCode hi (fun k => (sound_append rfl).mpr (hw.sound h k)) ?_ (by rw [hheld]; simp)
    exact (clean_of_neutral rfl).append (hw.clean hheld)
  | @intr h l acts hf =>
    have hheld := (hi.locked.interruptible hf).1
    refine hw.setCode hi (fun k => sound_enter acts (hw.sound h k)) ?_ (by rw [hheld]; simp)
    have hcl : Clean ([.acquire (.user l)] : List (Op N L K)) := by
      intro k hk
      simp at hk
    exact hcl.append ((clean_sectionCode l acts).append (hw.clean hheld))

omit [DecidableEq H] [DecidableEq L] [DecidableEq K] in
theorem Boot.wakeful (hb : Boot g s) : Wakeful g s := by
  have hcode : ∀ h, (s.cpu h).code = [.schedLoop 0] := fun h => by rw [hb.cpu]
  have hpcb : ∀ p, (s.pcb p).state ≠ .sleeping ∧ ((s.pcb p).state.parked = true →
      (s.pcb p).ctx = some (forkret p)) := by
    intro p
    by_cases hp : p = g.initproc
    · rw [hp, hb.init]
      simp
    · rw [hb.others p hp]
      simp [PState.parked]
  refine ⟨?_, ?_, ?_, ?_, ?_⟩
  · intro h k
    rw [hcode]
    trivial
  · intro p c hpk hx
    rw [(hpcb p).2 hpk] at hx
    cases hx
    exact ⟨clean_of_neutral rfl, fun k => trivial⟩
  · intro h k p hl
    rw [hb.cpu] at hl
    cases hl
  · intro h
    rw [hcode]
    exact .inl (clean_of_neutral rfl)
  · intro p k hst
    exact ((hpcb p).1 hst).elim

end Invariant

/-! ## Reachable states -/

section Reachable

variable {H : Type} {N : ℕ} {L K : Type} [DecidableEq H] [DecidableEq L] [DecidableEq K]
  {g : Config N L K} {s s₀ : State H N L K}

/-- **No wakeup is lost.** In every reachable state, a process that sleeps on a condition has tested it after
the last critical section that has ended and that woke up those who wait for the condition. -/
theorem no_lost_wakeup (hb : Boot g s₀) (hr : Machine.Reach (next g) (fun _ _ => True) s₀ s) (p : Fin N)
    (k : K) (hst : (s.pcb p).state = .sleeping) (hch : (s.pcb p).chan = some (.other k)) :
    s.tested p k = s.ended k := by
  have h : Inv g s ∧ Wakeful g s :=
    hr.invariant (I := fun s => Inv g s ∧ Wakeful g s) ⟨hb.inv, hb.wakeful⟩
      fun hi _ hn => ⟨hi.1.step hn, hi.2.step hi.1 hn⟩
  exact h.2.slept p k hst hch

end Reachable

open Machine

/-- An interrupt handler wakes up those who wait for the condition, and then `initproc` waits for it. -/
def wakeThenSleep : List (Event (Fin 2) 2 Unit Unit) :=
  [.intr right () [.wakeup ()]] ++ steps right 12 ++ steps left 4 ++ [.start left (.await () [])] ++
    steps left 6

theorem no_lost_wakeup_wakeThenSleep :
    (after (next pair) pair.boot wakeThenSleep).ended () = 1 ∧
      (after (next pair) pair.boot wakeThenSleep).tested 0 () =
        (after (next pair) pair.boot wakeThenSleep).ended () := by
  have hok : errorOf (Machine.exec (next pair) pair.boot wakeThenSleep) = none := by decide
  have hr : Reach (next pair) (fun _ _ => True) pair.boot (after (next pair) pair.boot wakeThenSleep) :=
    reach_of_exec (by decide) (exec_eq_after hok)
  exact ⟨by decide, no_lost_wakeup (boot_boot pair) hr 0 () (by decide)
    (by decide)⟩

end RiscvOs.Proc
