import RiscvOs.Disk.Bio
import RiscvOs.Lib.Counting

set_option autoImplicit false

/-!
# Reference counts of the buffer cache

`refcnt` is meant to count the processes that hold or wait for a buffer and its pins. The count
is a sum over the processes, and each step of the cache changes the contribution of one process.

## Main results

* `refcnt_exact` — the counters are exact in every run without a second increment.
* `hitRun_counts_twice` — a hit is counted twice.
-/

namespace RiscvOs.Bio

open Function Machine

/-- The process is between the wait for the buffer and the second increment of its counter. -/
def Pc.bumping (b : BufId) : Pc → Bool
  | .load b' _ | .inc b' _ _ => b' = b
  | _ => false

/-- What a process contributes by waiting for the buffer or by being inside `brelse`; a hit
that waits has weight `w`. -/
def Pc.claim (w : ℕ) (b : BufId) : Pc → ℕ
  | .wait b' _ hit => if b' = b then (if hit then w else 1) else 0
  | .release b' => if b' = b then 1 else 0
  | _ => 0

theorem lock_update {P : Type} {f : BufId → Buf P} {b : BufId} {c : Buf P}
    (hc : c.lock = (f b).lock) (b' : BufId) :
    (update f b c b').lock = (f b').lock := by
  by_cases hb : b' = b
  · rw [hb, update_self, hc]
  · rw [update_of_ne hb]

theorem refcnt_update {P : Type} {f : BufId → Buf P} {b : BufId} {c : Buf P}
    (hc : c.refcnt = (f b).refcnt) (b' : BufId) :
    (update f b c b').refcnt = (f b').refcnt := by
  by_cases hb : b' = b
  · rw [hb, update_self, hc]
  · rw [update_of_ne hb]

section Count

variable {P : Type} [DecidableEq P]

/-- What a process contributes to the count of a buffer. A hit before its second increment has
weight `w`, every other reference weight `1`. -/
def share (w : ℕ) (s : State P) (p : P) (b : BufId) : ℕ :=
  (if (s.buf b).lock = some p then (if (s.pc p).bumping b then w else 1) else 0) +
    (s.pc p).claim w b

/-- No counter is incremented at its largest value. -/
def NoWrap (s : State P) : Event P → Prop
  | .bget _ r => ∀ b, (s.buf b).key = r → (s.buf b).refcnt.toNat + 1 < 2 ^ 32
  | .inc _ _ _ v => v.toNat + 1 < 2 ^ 32
  | .bpin _ b => (s.buf b).refcnt.toNat + 1 < 2 ^ 32
  | _ => True

/-- The steps after which the counters are still exact: no second increment of a hit, and no
increment at the largest value. -/
def CountsOnce (s : State P) : Event P → Prop
  | .inc _ _ _ _ => False
  | e => NoWrap s e

/-- A legal step that counts each reference once. -/
def LegalOnce (s : State P) (e : Event P) : Prop := Enabled s e ∧ CountsOnce s e

variable [Fintype P]

/-- The references to a buffer: the process that holds it, the processes that wait for it or
are inside `brelse` for it, and its pins. -/
def references (s : State P) (b : BufId) : ℕ :=
  ∑ p, ((if (s.buf b).lock = some p then 1 else 0) + (s.pc p).claim 1 b) + s.pins b

/-- The weighted count of the references to a buffer. -/
def count (w : ℕ) (s : State P) (b : BufId) : ℕ := ∑ p, share w s p b + s.pins b

theorem references_eq_count (s : State P) (b : BufId) : references s b = count 1 s b := by
  simp only [references, count, share, ite_self]

theorem count_move (w : ℕ) {s t : State P} (p : P) (b : BufId)
    (hpc : ∀ q, q ≠ p → t.pc q = s.pc q)
    (hlock : ∀ q, q ≠ p → ((t.buf b).lock = some q ↔ (s.buf b).lock = some q)) :
    count w t b + share w s p b + s.pins b = count w s b + share w t p b + t.pins b := by
  have h := Counting.sum_add_of_eq_off (f := fun q => share w s q b)
    (g := fun q => share w t q b) p (fun q hq => by
      simp only [share, hpc q hq, hlock q hq])
  simp only [count]
  omega

theorem share_le_count (w : ℕ) (s : State P) (p : P) (b : BufId) :
    share w s p b + s.pins b ≤ count w s b :=
  Nat.add_le_add_right (Counting.le_sum (fun q => share w s q b) p) _

/-! ## The count after each step -/

section Steps

variable {s : State P} {p : P} {b : BufId} {r : Req}

theorem count_setPc {t : State P} {c₀ c : Pc} (w : ℕ) (b' : BufId) (hp : s.pc p = c₀)
    (hlock : ∀ b, (t.buf b).lock = (s.buf b).lock) (hpc : t.pc = update s.pc p c)
    (hpins : t.pins = s.pins) :
    count w t b' + ((if (s.buf b').lock = some p then (if c₀.bumping b' then w else 1) else 0) +
        c₀.claim w b') =
      count w s b' + ((if (s.buf b').lock = some p then (if c.bumping b' then w else 1) else 0) +
        c.claim w b') := by
  have h := count_move w (s := s) (t := t) p b'
    (fun q hq => by rw [hpc, update_of_ne hq]) (fun q _ => by rw [hlock])
  rw [hpins] at h
  simp only [share, hlock, hpc, update_self, hp] at h
  omega

theorem count_hit (w : ℕ) (hp : s.pc p = .idle) (b' : BufId) :
    count w (s.hit p b r) b' = count w s b' + if b = b' then w else 0 := by
  have h := count_setPc (t := s.hit p b r) w b' hp (lock_update rfl) rfl rfl
  simp only [Pc.bumping, Pc.claim, if_true, Bool.false_eq_true, if_false] at h
  omega

theorem count_recycle (w : ℕ) (hp : s.pc p = .idle) (b' : BufId) :
    count w (s.recycle p b r) b' = count w s b' + if b = b' then 1 else 0 := by
  have h := count_setPc (t := s.recycle p b r) w b' hp (lock_update rfl) rfl rfl
  simp only [Pc.bumping, Pc.claim, Bool.false_eq_true, if_false] at h
  omega

theorem count_acquiresleep (w : ℕ) {hit : Bool} (hp : s.pc p = .wait b r hit)
    (hl : (s.buf b).lock = none) (b' : BufId) :
    count w ((s.setBuf b { s.buf b with lock := some p }).setPc p
      (if hit then .load b r else .fill b r)) b' = count w s b' := by
  have h := count_move w (s := s) (t := (s.setBuf b { s.buf b with lock := some p }).setPc p
    (if hit then .load b r else .fill b r)) p b'
    (fun q hq => update_of_ne hq _ _) (fun q hq => by
      by_cases hb : b' = b
      · subst hb
        simp [State.setBuf, State.setPc, hl, Ne.symm hq]
      · simp [State.setBuf, State.setPc, update_of_ne hb])
  by_cases hb : b' = b
  · subst hb
    cases hit <;>
      simp [share, State.setBuf, State.setPc, hp, hl, Pc.bumping, Pc.claim] at h ⊢ <;> omega
  · cases hit <;>
      simp [share, State.setBuf, State.setPc, hp, update_of_ne hb, Pc.bumping, Pc.claim,
        Ne.symm hb] at h ⊢ <;> omega

theorem count_load (w : ℕ) (hp : s.pc p = .load b r) (v : UInt32) (b' : BufId) :
    count w (s.setPc p (.inc b r v)) b' = count w s b' := by
  have h := count_setPc (t := s.setPc p (.inc b r v)) w b' hp (fun _ => rfl) rfl rfl
  exact Nat.add_right_cancel h

theorem count_inc (w : ℕ) {v c : UInt32} (hp : s.pc p = .inc b r v)
    (hl : (s.buf b).lock = some p) (b' : BufId) :
    count w ((s.setBuf b { s.buf b with refcnt := c }).setPc p (.fill b r)) b' +
      (if b = b' then w else 0) = count w s b' + if b = b' then 1 else 0 := by
  have h := count_setPc (t := (s.setBuf b { s.buf b with refcnt := c }).setPc p (.fill b r)) w b'
    hp (lock_update rfl) rfl rfl
  by_cases hb : b = b'
  · subst hb
    simp only [Pc.bumping, Pc.claim, hl, if_true, decide_true, Bool.false_eq_true, if_false] at h ⊢
    omega
  · simp only [Pc.bumping, Pc.claim, hb, if_false, decide_false, Bool.false_eq_true] at h ⊢
    omega

theorem count_fill (w : ℕ) {t : State P} (hp : s.pc p = .fill b r)
    (hlock : ∀ b, (t.buf b).lock = (s.buf b).lock) (hpc : t.pc = update s.pc p .idle)
    (hpins : t.pins = s.pins) (b' : BufId) : count w t b' = count w s b' := by
  have h := count_setPc w b' hp hlock hpc hpins
  simp only [Pc.bumping, Pc.claim, Bool.false_eq_true, if_false] at h
  omega

theorem count_setPins (w : ℕ) {t : State P} {n : ℕ}
    (hlock : ∀ b, (t.buf b).lock = (s.buf b).lock) (hpc : t.pc = s.pc)
    (hpins : t.pins = update s.pins b n) (b' : BufId) :
    count w t b' + s.pins b' = count w s b' + if b = b' then n else s.pins b' := by
  simp only [count, share, hlock, hpc, hpins, update_apply, eq_comm (a := b')]
  omega

theorem count_congr (w : ℕ) {t : State P} (hlock : ∀ b, (t.buf b).lock = (s.buf b).lock)
    (hpc : t.pc = s.pc) (hpins : t.pins = s.pins) (b' : BufId) :
    count w t b' = count w s b' := by
  simp only [count, share, hlock, hpc, hpins]

theorem count_brelse (w : ℕ) (hp : s.pc p = .idle) (hl : (s.buf b).lock = some p) (b' : BufId) :
    count w ((s.setBuf b { s.buf b with lock := none }).setPc p (.release b)) b' =
      count w s b' := by
  have h := count_move w (s := s) (t := (s.setBuf b { s.buf b with lock := none }).setPc p
    (.release b)) p b' (fun q hq => update_of_ne hq _ _) (fun q hq => by
      by_cases hb : b' = b
      · subst hb
        simp [State.setBuf, State.setPc, hl, Ne.symm hq]
      · simp [State.setBuf, State.setPc, update_of_ne hb])
  by_cases hb : b' = b
  · subst hb
    simp [share, State.setBuf, State.setPc, hp, hl, Pc.bumping, Pc.claim] at h ⊢
    omega
  · simp [share, State.setBuf, State.setPc, hp, update_of_ne hb, Pc.bumping, Pc.claim,
      Ne.symm hb] at h ⊢
    omega

theorem count_drop (w : ℕ) {t : State P} (hp : s.pc p = .release b)
    (hlock : ∀ b, (t.buf b).lock = (s.buf b).lock) (hpc : t.pc = update s.pc p .idle)
    (hpins : t.pins = s.pins) (b' : BufId) :
    count w t b' + (if b = b' then 1 else 0) = count w s b' := by
  have h := count_setPc w b' hp hlock hpc hpins
  simp only [Pc.bumping, Pc.claim, Bool.false_eq_true, if_false] at h
  omega

end Steps

/-! ## Exact counters -/

/-- Every counter is the number of references. -/
def Exact (s : State P) : Prop := ∀ b, (s.buf b).refcnt.toNat = references s b

theorem toNat_add_one {v : UInt32} (h : v.toNat + 1 < 2 ^ 32) : (v + 1).toNat = v.toNat + 1 := by
  rw [UInt32.toNat_add, UInt32.toNat_one, Nat.mod_eq_of_lt h]

theorem toNat_sub_one {v : UInt32} (h : 0 < v.toNat) : (v - 1).toNat = v.toNat - 1 := by
  rw [UInt32.toNat_sub_of_le v 1 (by rw [UInt32.le_iff_toNat_le, UInt32.toNat_one]; exact h),
    UInt32.toNat_one]

theorem Exact.change {s s' : State P} (h : Exact s) {b : BufId} {c : Buf P}
    (hbuf : s'.buf = update s.buf b c) (hoff : ∀ b', b' ≠ b → count 1 s' b' = count 1 s b')
    (hb : c.refcnt.toNat = count 1 s' b) : Exact s' := by
  intro b'
  rw [references_eq_count, hbuf]
  by_cases hbb : b' = b
  · rw [hbb, update_self, hb]
  · rw [update_of_ne hbb, hoff b' hbb, h b', references_eq_count]

theorem Exact.congr {s s' : State P} (h : Exact s)
    (hbuf : ∀ b, (s'.buf b).refcnt = (s.buf b).refcnt) (hc : ∀ b, count 1 s' b = count 1 s b) :
    Exact s' := by
  intro b
  rw [references_eq_count, hbuf, hc, h b, references_eq_count]

theorem Exact.setPins {s s' : State P} (h : Exact s) {b : BufId} {c : Buf P} {n : ℕ}
    (hbuf : s'.buf = update s.buf b c) (hlock : c.lock = (s.buf b).lock)
    (hpc : s'.pc = s.pc) (hpins : s'.pins = update s.pins b n)
    (hc : c.refcnt.toNat + s.pins b = (s.buf b).refcnt.toNat + n) : Exact s' := by
  have hcnt := count_setPins 1 (s := s) (by rw [hbuf]; exact lock_update hlock) hpc hpins
  refine h.change hbuf (fun b' hb' => ?_) ?_
  · have := hcnt b'
    rw [if_neg (Ne.symm hb')] at this
    omega
  · have := hcnt b
    rw [if_pos rfl] at this
    rw [h b, references_eq_count] at hc
    omega

/-- **Every step that counts once keeps the counters exact.** -/
theorem Exact.step {s s' : State P} {e : Event P} (hrep : Rep s) (h : Exact s)
    (hl : LegalOnce s e) (hn : next s e = .ok s') : Exact s' := by
  obtain ⟨he, hc⟩ := hl
  have hx : ∀ b, (s.buf b).refcnt.toNat = count 1 s b := fun b => by
    rw [h b, references_eq_count]
  cases e with
  | bget p r =>
    rcases bget_cases hrep hn with ⟨b, hb, rfl⟩ | ⟨b, -, h0, rfl⟩
    · refine h.change rfl (fun b' hb' => ?_) ?_
      · rw [count_hit 1 he, if_neg (Ne.symm hb'), Nat.add_zero]
      · rw [count_hit 1 he, if_pos rfl, toNat_add_one (hc b hb), hx]
    · -- a buffer with `refcnt == 0` has no references, the process is its first one
      refine h.change rfl (fun b' hb' => ?_) ?_
      · rw [count_recycle 1 he, if_neg (Ne.symm hb'), Nat.add_zero]
      · rw [count_recycle 1 he, if_pos rfl, ← hx, h0, UInt32.toNat_one, UInt32.toNat_zero]
  | acquiresleep p b r hit =>
    cases hn
    exact h.congr (refcnt_update rfl) (count_acquiresleep 1 he.1 he.2)
  | load p b r =>
    cases hn
    exact h.congr (fun _ => rfl) (count_load 1 he _)
  | inc p b r v => exact hc.elim
  | fill p b r =>
    rw [next] at hn
    split_ifs at hn <;> cases hn
    · exact h.congr (fun _ => rfl) (count_fill 1 he (fun _ => rfl) rfl rfl)
    · exact h.congr (refcnt_update rfl) (count_fill 1 he (lock_update rfl) rfl rfl)
  | store p b data =>
    cases hn
    exact h.congr (refcnt_update rfl) (count_congr 1 (lock_update rfl) rfl rfl)
  | bwrite p b =>
    rw [next] at hn
    split_ifs at hn
    cases hn
    exact h.congr (fun _ => rfl) (count_congr 1 (fun _ => rfl) rfl rfl)
  | brelse p b =>
    rw [next] at hn
    split_ifs at hn
    cases hn
    exact h.congr (refcnt_update rfl) (count_brelse 1 he.1 he.2)
  | drop p b =>
    have hdrop : ∀ {t : State P}, t.buf = update s.buf b
        { s.buf b with refcnt := (s.buf b).refcnt - 1 } →
        t.pc = update s.pc p .idle → t.pins = s.pins → Exact t := by
      intro t hbuf hpc hpins
      have hcnt := count_drop 1 (t := t) he (by rw [hbuf]; exact lock_update rfl) hpc hpins
      refine h.change hbuf (fun b' hb' => ?_) ?_
      · rw [← hcnt b', if_neg (Ne.symm hb'), Nat.add_zero]
      · have hb := hcnt b
        rw [if_pos rfl, ← hx b] at hb
        rw [toNat_sub_one (by omega)]
        omega
    rw [next] at hn
    split_ifs at hn <;> cases hn
    · exact hdrop rfl rfl rfl
    · exact hdrop rfl rfl rfl
  | bpin p b =>
    cases hn
    refine h.setPins rfl rfl rfl rfl ?_
    rw [toNat_add_one hc]
    omega
  | bunpin p b =>
    cases hn
    have hpos := share_le_count 1 s p b
    have hpins := he.2
    rw [← hx] at hpos
    refine h.setPins rfl rfl rfl rfl ?_
    rw [toNat_sub_one (by omega)]
    omega

theorem exact_init (disk : UInt32 → Block) : Exact (init P disk) := by
  intro b
  simp [references, init, Pc.claim]

/-- **The counters are exact in every run that never reaches the second increment**: for any
number of processes and any interleaving of `bread`, `brelse`, `bpin` and `bunpin` in which no
hit gets past the wait to `b->refcnt++` and no counter overflows, `refcnt` is the number of
references, and `bget` panics only when every buffer is held, waited for or pinned.

**Proof sketch.** Each step moves one process; `Exact.step` compares the change of `refcnt`
with the change of that process's contribution. The panic needs `refcnt ≠ 0` for every buffer,
by `bget_error`. -/
theorem refcnt_exact {disk : UInt32 → Block} {s : State P}
    (hr : Reach next LegalOnce (init P disk) s) :
    (∀ b, (s.buf b).refcnt.toNat = references s b) ∧
      ∀ p r, next s (.bget p r) = .error .noBuffers → ∀ b, 0 < references s b := by
  have h : Rep s ∧ Exact s := hr.invariant (I := fun s => Rep s ∧ Exact s)
    ⟨rep_init P disk, exact_init disk⟩
    fun hI hl hn => ⟨hI.1.step hn, hI.2.step hI.1 hl hn⟩
  refine ⟨h.2, fun p r hn b => ?_⟩
  have hb := (bget_error h.1 hn).2 b
  rw [← h.2 b]
  by_contra h0
  exact hb (UInt32.toNat_inj.mp (by simpa using h0))

end Count

/-! ## A hit is counted twice -/

/-- The buffer at the front of the list that `binit` builds. -/
def front : BufId := ⟨89, by decide⟩

/-- Blocks of the root device. -/
def block5 : Req := ⟨1, 5⟩

@[inherit_doc block5] def block6 : Req := ⟨1, 6⟩

/-- One process reads a block and another one waits for it. -/
def waitRun : List (Event Bool) :=
  [.bget true block5, .acquiresleep true front block5 false, .fill true front block5,
    .bget false block5]

instance {P : Type} (s : State P) (e : Event P) : Decidable (NoWrap s e) := by
  rcases e <;> unfold NoWrap <;> infer_instance

instance {P : Type} (s : State P) (e : Event P) : Decidable (CountsOnce s e) := by
  rcases e <;> unfold CountsOnce <;> infer_instance

instance {P : Type} [DecidableEq P] (s : State P) (e : Event P) : Decidable (LegalOnce s e) :=
  inferInstanceAs (Decidable (_ ∧ _))

/-- A zeroed disk. -/
def zeroSectors : UInt32 → Block := fun _ _ => 0

theorem refcnt_exact_waitRun :
    ((after next (init Bool zeroSectors) waitRun).buf front).refcnt = 2 ∧
      references (after next (init Bool zeroSectors) waitRun) front = 2 := by
  have hl : Along next LegalOnce (init Bool zeroSectors) waitRun := by decide +kernel
  have hx : ((after next (init Bool zeroSectors) waitRun).buf front).refcnt = 2 := by
    decide +kernel
  have h := refcnt_exact (reach_of_exec hl (exec_eq_after (by decide +kernel)))
  exact ⟨hx, by rw [← h.1 front, hx]; rfl⟩

/-- A process reads a block, releases it and reads it again. -/
def hitRun : List (Event Bool) :=
  [.bget true block5, .acquiresleep true front block5 false, .fill true front block5,
    .brelse true front, .drop true front, .bget true block5, .acquiresleep true front block5 true,
    .load true front block5, .inc true front block5 1, .fill true front block5]

/-- **A hit is counted twice**: after `hitRun` one process holds the buffer and nobody else
refers to it, and `refcnt` is `2`. -/
theorem hitRun_counts_twice :
    Along next Enabled (init Bool zeroSectors) hitRun ∧
      errorOf (exec next (init Bool zeroSectors) hitRun) = none ∧
      ((after next (init Bool zeroSectors) hitRun).buf front).refcnt = 2 ∧
      references (after next (init Bool zeroSectors) hitRun) front = 1 := by
  refine ⟨?_, ?_, ?_, ?_⟩ <;> decide +kernel

end RiscvOs.Bio
