import RiscvOs.Disk.BioRefs

set_option autoImplicit false

/-!
# Coherence of the buffer cache

A holder that changes a buffer writes it to the disk, or pins it until it is written, before it
releases it. Then a buffer is never recycled while it holds an update that is not on the disk,
and `bread` returns the data stored last, as long as no counter wraps around.

The second increment of a hit races with the other changes of the counter, so `refcnt` can be
smaller than the number of references. What survives the race is weaker: it is at least the
number of references that are past their second increment, and greater while a hit is not.

## Main results

* `Refs.step`, `Control.step`, `Data.step` — every step
  preserves the invariants.
* `represents_of_reach` — coherence in every run without an overflow.
-/

namespace RiscvOs.Bio

open Function Machine

/-! ## The invariants -/

/-- The process has found its block and has still to count it a second time. -/
def Pc.pending (b : BufId) : Pc → Bool
  | .wait b' _ true | .load b' _ | .inc b' _ _ => b' = b
  | _ => false

/-- The process is in `bread` and has the sleep lock. -/
def Pc.filling (b : BufId) : Pc → Bool
  | .load b' _ | .inc b' _ _ | .fill b' _ => b' = b
  | _ => false

/-- The buffer that a process in `bread` has chosen, and the block it is reading. -/
def Pc.target : Pc → Option (BufId × Req)
  | .wait b r _ | .load b r | .inc b r _ | .fill b r => some (b, r)
  | .idle | .release _ => none

/-- A block of the root device whose sectors have 32-bit numbers. -/
def Req.OnRoot (r : Req) : Prop := r.dev.toNat = ROOTDEV ∧ r.blockno.toNat < 2 ^ 31

instance (r : Req) : Decidable r.OnRoot := inferInstanceAs (Decidable (_ ∧ _))

section Defs

variable {P : Type}

/-- A buffer with an update that is not on the disk is pinned when it is released, and stays
pinned. -/
def Disciplined (s : State P) : Event P → Prop
  | .brelse _ b => s.dirty b = true → 0 < s.pins b
  | .bunpin _ b => s.dirty b = true → 1 < s.pins b
  | _ => True

/-- Only blocks of the root device are read. -/
def RootOnly : Event P → Prop
  | .bget _ r => r.OnRoot
  | _ => True

/-- Who uses a buffer: a process in `bread` uses a buffer of the block it is reading; a held
buffer is filled, or being filled; an update that is not on the disk is held or pinned. -/
structure Control (s : State P) : Prop where
  target : ∀ p b r, (s.pc p).target = some (b, r) → (s.buf b).key = r ∧ r.OnRoot
  held : ∀ b, (s.buf b).lock ≠ none → (s.buf b).key.OnRoot
  filled : ∀ p b, (s.buf b).lock = some p → (s.buf b).valid = true ∨ (s.pc p).filling b = true
  dirty_kept : ∀ b, s.dirty b = true → (s.buf b).lock ≠ none ∨ 0 < s.pins b

/-- What the buffers contain: a valid buffer has the data stored last, and the disk has the
data stored last for every block without an update in the cache. -/
structure Data (s : State P) : Prop where
  dirty_valid : ∀ b, s.dirty b = true → (s.buf b).valid = true ∧ (s.buf b).key.OnRoot
  data_eq : ∀ b, (s.buf b).valid = true → (s.buf b).key.OnRoot →
    (s.buf b).data = s.latest (s.buf b).key
  clean : ∀ r : Req, r.OnRoot → (∀ b, (s.buf b).key = r → s.dirty b = false) →
    s.disk (sector r.blockno) = s.latest r

variable [DecidableEq P]

/-- A legal, disciplined step on the root device that does not overflow a counter. -/
@[mk_iff] structure LegalNoWrap (s : State P) (e : Event P) : Prop where
  enabled : Enabled s e
  disciplined : Disciplined s e
  rootOnly : RootOnly e
  noWrap : NoWrap s e

variable [Fintype P]

/-- How `refcnt` bounds the references. `count 0` leaves out the hits that are still to be
counted a second time; while there is one, the bound is strict, also for the value that it has
loaded. -/
structure Refs (s : State P) : Prop where
  locked : ∀ p b, (s.pc p).filling b = true → (s.buf b).lock = some p
  le : ∀ b, count 0 s b ≤ (s.buf b).refcnt.toNat
  lt : ∀ p b, (s.pc p).pending b = true → count 0 s b < (s.buf b).refcnt.toNat
  loaded : ∀ p b r v, s.pc p = .inc b r v → count 0 s b < v.toNat

end Defs

/-! ## The counters -/

section Refs

variable {P : Type} [DecidableEq P] [Fintype P] {s s' : State P}

theorem refs_init (disk : UInt32 → Block) : Refs (init P disk) := by
  refine ⟨fun p b h => ?_, fun b => ?_, fun p b h => ?_, fun p b r v h => ?_⟩
  · cases h
  · simp [count, share, init, Pc.claim]
  · cases h
  · cases h

/-- **A buffer with `refcnt == 0` is not in use.** -/
theorem Refs.unused (h : Refs s) {b : BufId} (h0 : (s.buf b).refcnt = 0) :
    (s.buf b).lock = none ∧ s.pins b = 0 ∧ (∀ p r, (s.pc p).target ≠ some (b, r)) := by
  have hz : (s.buf b).refcnt.toNat = 0 := by rw [h0]; rfl
  have hcount : count 0 s b = 0 := by
    have := h.le b
    omega
  have hshare : ∀ p, share 0 s p b = 0 := fun p => by
    have := share_le_count 0 s p b
    omega
  have hpend : ∀ p, (s.pc p).pending b = false := fun p => by
    by_contra hp
    have := h.lt p b (by simpa using hp)
    omega
  have hlock : ∀ p, (s.buf b).lock ≠ some p := fun p hl => by
    have h1 := hshare p
    have h2 := hpend p
    rw [share, if_pos hl] at h1
    cases hc : s.pc p <;> simp [hc, Pc.bumping, Pc.pending] at h1 h2
    · exact h2 h1.1
    · exact h2 h1.1
  refine ⟨?_, ?_, fun p r ht => ?_⟩
  · cases hl : (s.buf b).lock with
    | none => rfl
    | some p => exact absurd hl (hlock p)
  · rw [count] at hcount
    omega
  · have h1 := hshare p
    have h2 := hpend p
    cases hc : s.pc p with
    | idle => simp [hc, Pc.target] at ht
    | release b' => simp [hc, Pc.target] at ht
    | wait b' r' hit =>
      -- a hit is pending, a miss has weight one
      simp only [hc, Pc.target, Option.some.injEq, Prod.mk.injEq] at ht
      rw [share, if_neg (hlock p), hc] at h1
      rw [hc] at h2
      cases hit <;> simp [Pc.claim, Pc.pending, ht.1] at h1 h2
    | load b' r' | inc b' r' v | fill b' r' =>
      simp only [hc, Pc.target, Option.some.injEq, Prod.mk.injEq] at ht
      exact hlock p (h.locked p b (by simp [hc, Pc.filling, ht.1]))

theorem Refs.of_gap (h : Refs s) (p : P) (hpc : ∀ q, q ≠ p → s'.pc q = s.pc q)
    (hlock : ∀ q b, q ≠ p → (s.buf b).lock = some q → (s'.buf b).lock = some q)
    (hp : ∀ b, (s'.pc p).filling b = true → (s'.buf b).lock = some p)
    (hgap : ∀ b, (s.buf b).refcnt.toNat + count 0 s' b ≤
      (s'.buf b).refcnt.toNat + count 0 s b)
    (hcount : ∀ q b r v, q ≠ p → s.pc q = .inc b r v → count 0 s' b ≤ count 0 s b)
    (hpend : ∀ b, (s'.pc p).pending b = true → count 0 s' b < (s'.buf b).refcnt.toNat)
    (hload : ∀ b r v, s'.pc p = .inc b r v → count 0 s' b < v.toNat) : Refs s' := by
  refine ⟨fun q b hq => ?_, fun b => ?_, fun q b hq => ?_, fun q b r v hq => ?_⟩
  · by_cases hqp : q = p
    · subst hqp
      exact hp b hq
    · rw [hpc q hqp] at hq
      exact hlock q b hqp (h.locked q b hq)
  · have := h.le b
    have := hgap b
    omega
  · by_cases hqp : q = p
    · subst hqp
      exact hpend b hq
    · rw [hpc q hqp] at hq
      have := h.lt q b hq
      have := hgap b
      omega
  · by_cases hqp : q = p
    · subst hqp
      exact hload b r v hq
    · rw [hpc q hqp] at hq
      have := h.loaded q b r v hq
      have := hcount q b r v hqp hq
      omega

theorem Refs.of_eq (h : Refs s) (p : P) (hpc : ∀ q, q ≠ p → s'.pc q = s.pc q)
    (hlock : ∀ q b, q ≠ p → (s.buf b).lock = some q → (s'.buf b).lock = some q)
    (hp : ∀ b, (s'.pc p).filling b = true → (s'.buf b).lock = some p)
    (href : ∀ b, (s'.buf b).refcnt = (s.buf b).refcnt) (hcount : ∀ b, count 0 s' b = count 0 s b)
    (hpend : ∀ b, (s'.pc p).pending b = true → (s.pc p).pending b = true)
    (hload : ∀ b r v, s'.pc p = .inc b r v → count 0 s b < v.toNat) : Refs s' := by
  refine h.of_gap p hpc hlock hp (fun b => ?_) (fun q b r v _ _ => (hcount b).le)
    (fun b hb => ?_) (fun b r v hb => ?_)
  · rw [href, hcount]
  · rw [href, hcount]
    exact h.lt p b (hpend b hb)
  · rw [hcount]
    exact hload b r v hb

theorem Refs.hit (h : Refs s) {p : P} {b : BufId} {r : Req} (hp : s.pc p = .idle)
    (hw : (s.buf b).refcnt.toNat + 1 < 2 ^ 32) : Refs (s.hit p b r) := by
  have hpc : (s.hit p b r).pc p = .wait b r true := update_self ..
  have hlock : ∀ b', ((s.hit p b r).buf b').lock = (s.buf b').lock := lock_update rfl
  have hcount : ∀ b', count 0 (s.hit p b r) b' = count 0 s b' := fun b' => by
    rw [count_hit 0 hp, ite_self, Nat.add_zero]
  have href : ∀ b', ((s.hit p b r).buf b').refcnt.toNat =
      (s.buf b').refcnt.toNat + if b = b' then 1 else 0 := fun b' => by
    by_cases hb : b' = b
    · rw [hb, if_pos rfl, ← toNat_add_one hw]
      simp [State.hit, State.setBuf, State.setPc]
    · rw [if_neg (Ne.symm hb)]
      simp [State.hit, State.setBuf, State.setPc, update_of_ne hb]
  refine h.of_gap p (fun q hq => update_of_ne hq _ _)
    (fun q b' _ hl => (hlock b').trans hl) (fun b' hb' => ?_) (fun b' => ?_)
    (fun q b' _ _ _ _ => (hcount b').le) (fun b' hb' => ?_) (fun b' r' v hv => ?_)
  · rw [hpc] at hb'
    cases hb'
  · rw [hcount, href]
    omega
  · have hb : b = b' := by simpa [hpc, Pc.pending] using hb'
    have := h.le b'
    rw [hcount, href, if_pos hb]
    omega
  · rw [hpc] at hv
    cases hv

theorem Refs.recycle (h : Refs s) {p : P} {b : BufId} {r : Req} (hp : s.pc p = .idle)
    (h0 : (s.buf b).refcnt = 0) : Refs (s.recycle p b r) := by
  have hpc : (s.recycle p b r).pc p = .wait b r false := update_self ..
  have hlock : ∀ b', ((s.recycle p b r).buf b').lock = (s.buf b').lock := lock_update rfl
  have hcount := count_recycle (b := b) (r := r) 0 hp
  have hb0 : count 0 s b = 0 := by
    have := h.le b
    rw [h0, UInt32.toNat_zero] at this
    omega
  refine h.of_gap p (fun q hq => update_of_ne hq _ _)
    (fun q b' _ hl => (hlock b').trans hl) (fun b' hb' => ?_) (fun b' => ?_)
    (fun q b' r' v _ hq => ?_) (fun b' hb' => ?_) (fun b' r' v hv => ?_)
  · rw [hpc] at hb'
    cases hb'
  · rw [hcount]
    by_cases hb : b' = b
    · subst hb
      simp [State.recycle, State.setBuf, State.setPc, h0, hb0]
    · rw [if_neg (Ne.symm hb)]
      simp [State.recycle, State.setBuf, State.setPc, update_of_ne hb]
  · -- nobody is about to store the counter of an unused buffer
    have hne : b ≠ b' := fun hb => (h.unused h0).2.2 q r' (by rw [hq, hb]; rfl)
    rw [hcount, if_neg hne, Nat.add_zero]
  · rw [hpc] at hb'
    cases hb'
  · rw [hpc] at hv
    cases hv

/-- **The second increment.** The value it stores may be stale, but it exceeds the count by
one, and no other process has loaded the counter: it would hold the sleep lock. -/
theorem Refs.inc (h : Refs s) {p : P} {b : BufId} {r : Req} {v : UInt32}
    (hp : s.pc p = .inc b r v) (hw : v.toNat + 1 < 2 ^ 32) :
    Refs ((s.setBuf b { s.buf b with refcnt := v + 1 }).setPc p (.fill b r)) := by
  have hl : (s.buf b).lock = some p := h.locked p b (by simp [hp, Pc.filling])
  have hv := h.loaded p b r v hp
  set s' := (s.setBuf b { s.buf b with refcnt := v + 1 }).setPc p (.fill b r)
  have hpc : s'.pc p = .fill b r := update_self ..
  have hoff : ∀ q, q ≠ p → s'.pc q = s.pc q := fun q hq => update_of_ne hq _ _
  have hlock : ∀ b', (s'.buf b').lock = (s.buf b').lock := lock_update rfl
  have hcount : ∀ b', count 0 s' b' = count 0 s b' + if b = b' then 1 else 0 := fun b' => by
    have := count_inc (c := v + 1) 0 hp hl b'
    rwa [ite_self, Nat.add_zero] at this
  have hb : (s'.buf b).refcnt.toNat = v.toNat + 1 := by
    rw [← toNat_add_one hw]
    simp [s', State.setBuf, State.setPc]
  have hne : ∀ b', b' ≠ b → (s'.buf b').refcnt = (s.buf b').refcnt := fun b' hb' => by
    simp [s', State.setBuf, State.setPc, update_of_ne hb']
  refine ⟨fun q b' hq => ?_, fun b' => ?_, fun q b' hq => ?_, fun q b' r' v' hq => ?_⟩
  · rw [hlock]
    by_cases hqp : q = p
    · rw [hqp, hpc, Pc.filling, decide_eq_true_eq] at hq
      rw [← hq, hqp, hl]
    · rw [hoff q hqp] at hq
      exact h.locked q b' hq
  · by_cases hbb : b' = b
    · rw [hbb, hb, hcount, if_pos rfl]
      omega
    · rw [hne b' hbb, hcount, if_neg (Ne.symm hbb)]
      exact h.le b'
  · by_cases hqp : q = p
    · rw [hqp, hpc] at hq
      cases hq
    · rw [hoff q hqp] at hq
      by_cases hbb : b' = b
      · rw [hbb, hb, hcount, if_pos rfl]
        omega
      · rw [hne b' hbb, hcount, if_neg (Ne.symm hbb)]
        exact h.lt q b' hq
  · by_cases hqp : q = p
    · rw [hqp, hpc] at hq
      cases hq
    · rw [hoff q hqp] at hq
      have hbb : b ≠ b' := by
        rintro rfl
        have := h.locked q b (by simp [hq, Pc.filling])
        rw [hl] at this
        exact hqp (Option.some.inj this).symm
      rw [hcount, if_neg hbb]
      exact h.loaded q b' r' v' hq

/-- A step that moves nobody, and changes a counter together with the pins. -/
theorem Refs.setPins (h : Refs s) {p : P} {b : BufId} {c : Buf P} {n : ℕ}
    (hbuf : s'.buf = update s.buf b c) (hlock : c.lock = (s.buf b).lock)
    (hpc : s'.pc = s.pc) (hpins : s'.pins = update s.pins b n)
    (hc : c.refcnt.toNat + s.pins b = (s.buf b).refcnt.toNat + n)
    (hinc : s.pins b < n → ∀ q r v, s.pc q ≠ .inc b r v) : Refs s' := by
  have hl : ∀ b', (s'.buf b').lock = (s.buf b').lock := by
    rw [hbuf]
    exact lock_update hlock
  have hcount := count_setPins 0 hl hpc hpins
  have hgap : ∀ b', (s.buf b').refcnt.toNat + count 0 s' b' =
      (s'.buf b').refcnt.toNat + count 0 s b' := fun b' => by
    have := hcount b'
    by_cases hb : b' = b
    · subst hb
      rw [if_pos rfl] at this
      rw [hbuf, update_self]
      omega
    · rw [if_neg (Ne.symm hb)] at this
      rw [hbuf, update_of_ne hb]
      omega
  have hle : ∀ q b' r v, s.pc q = .inc b' r v → count 0 s' b' ≤ count 0 s b' :=
    fun q b' r v hq => by
      have := hcount b'
      split_ifs at this with hb
      · subst hb
        by_cases hn : s.pins b < n
        · exact absurd hq (hinc hn q r v)
        · omega
      · omega
  refine h.of_gap p (fun q _ => by rw [hpc]) (fun q b' _ hq => by rw [hl, hq])
    (fun b' hb' => ?_) (fun b' => (hgap b').le) (fun q b' r v _ hq => hle q b' r v hq)
    (fun b' hb' => ?_) (fun b' r v hv => ?_)
  · rw [hpc] at hb'
    rw [hl]
    exact h.locked p b' hb'
  · rw [hpc] at hb'
    have := h.lt p b' hb'
    have := hgap b'
    omega
  · rw [hpc] at hv
    have := h.loaded p b' r v hv
    have := hle p b' r v hv
    omega

theorem Refs.drop (h : Refs s) {p : P} {b : BufId} (hp : s.pc p = .release b)
    (hbuf : s'.buf = update s.buf b { s.buf b with refcnt := (s.buf b).refcnt - 1 })
    (hpc : s'.pc = update s.pc p .idle) (hpins : s'.pins = s.pins) : Refs s' := by
  have hl : ∀ b', (s'.buf b').lock = (s.buf b').lock := by
    rw [hbuf]
    exact lock_update rfl
  have hcount := count_drop 0 hp hl hpc hpins
  have hidle : s'.pc p = .idle := by rw [hpc, update_self]
  refine h.of_gap p (fun q hq => by rw [hpc, update_of_ne hq])
    (fun q b' _ hq => by rw [hl, hq]) (fun b' hb' => ?_) (fun b' => ?_) (fun q b' r v _ _ => ?_)
    (fun b' hb' => ?_) (fun b' r v hv => ?_)
  · rw [hidle] at hb'
    cases hb'
  · have hc := hcount b'
    have := h.le b'
    by_cases hb : b' = b
    · subst hb
      rw [if_pos rfl] at hc
      rw [hbuf, update_self, toNat_sub_one (by omega)]
      omega
    · rw [if_neg (Ne.symm hb)] at hc
      rw [hbuf, update_of_ne hb]
      omega
  · have := hcount b'
    omega
  · rw [hidle] at hb'
    cases hb'
  · rw [hidle] at hv
    cases hv

/-- **Every step that does not overflow keeps the bounds.** -/
theorem Refs.step {e : Event P} (hrep : Rep s) (h : Refs s) (he : Enabled s e) (hw : NoWrap s e)
    (hn : next s e = .ok s') : Refs s' := by
  cases e with
  | bget p r =>
    rcases bget_cases hrep hn with ⟨b, hb, rfl⟩ | ⟨b, -, h0, rfl⟩
    · exact h.hit he (hw b hb)
    · exact h.recycle he h0
  | acquiresleep p b r hit =>
    obtain ⟨hp, hl⟩ := he
    cases hn
    refine h.of_eq p (fun q hq => update_of_ne hq _ _) (fun q b' _ hq => ?_)
      (fun b' hb' => ?_) (refcnt_update rfl) (count_acquiresleep 0 hp hl) (fun b' hb' => ?_)
      (fun b' r' v hv => ?_)
    · have hb : b' ≠ b := by
        rintro rfl
        rw [hl] at hq
        cases hq
      simpa [State.setBuf, State.setPc, update_of_ne hb] using hq
    · have hb : b = b' := by
        cases hit <;> simpa [State.setPc, Pc.filling] using hb'
      subst hb
      simp [State.setBuf, State.setPc]
    · rw [hp]
      cases hit with
      | false => simp [State.setPc, Pc.pending] at hb'
      | true => simpa [State.setPc, Pc.pending] using hb'
    · cases hit <;> simp [State.setPc] at hv
  | load p b r =>
    have hp : s.pc p = .load b r := he
    cases hn
    refine h.of_eq p (fun q hq => update_of_ne hq _ _) (fun q b' _ hq => hq)
      (fun b' hb' => h.locked p b' ?_) (fun _ => rfl) (count_load 0 hp _) (fun b' hb' => ?_)
      (fun b' r' v hv => ?_)
    · simpa [State.setPc, Pc.filling, hp] using hb'
    · simpa [State.setPc, Pc.pending, hp] using hb'
    · obtain ⟨rfl, rfl, rfl⟩ : b = b' ∧ r = r' ∧ (s.buf b).refcnt = v := by
        simpa [State.setPc] using hv
      exact h.lt p b (by simp [hp, Pc.pending])
  | inc p b r v =>
    cases hn
    exact h.inc he hw
  | fill p b r =>
    have hfill : ∀ {t : State P}, (∀ b, (t.buf b).lock = (s.buf b).lock) →
        (∀ b, (t.buf b).refcnt = (s.buf b).refcnt) → t.pc = update s.pc p .idle →
        t.pins = s.pins → Refs t := by
      intro t hl href hpc hpins
      have hidle : t.pc p = .idle := by rw [hpc, update_self]
      refine h.of_eq p (fun q hq => by rw [hpc, update_of_ne hq])
        (fun q b' _ hq => by rw [hl, hq]) (fun b' hb' => ?_) href (count_fill 0 he hl hpc hpins)
        (fun b' hb' => ?_) (fun b' r' v hv => ?_)
      · rw [hidle] at hb'
        cases hb'
      · rw [hidle] at hb'
        cases hb'
      · rw [hidle] at hv
        cases hv
    rw [next] at hn
    split_ifs at hn <;> cases hn
    · exact hfill (fun _ => rfl) (fun _ => rfl) rfl rfl
    · exact hfill (lock_update rfl) (refcnt_update rfl) rfl rfl
  | store p b data =>
    cases hn
    exact h.setPins (p := p) rfl rfl rfl (update_eq_self b s.pins).symm rfl fun hlt =>
      absurd hlt (lt_irrefl _)
  | bwrite p b =>
    rw [next] at hn
    split_ifs at hn
    cases hn
    exact h.setPins (p := p) (update_eq_self b s.buf).symm rfl rfl (update_eq_self b s.pins).symm rfl
      fun hlt => absurd hlt (lt_irrefl _)
  | brelse p b =>
    obtain ⟨hp, hl⟩ := he
    rw [next] at hn
    split_ifs at hn
    cases hn
    refine h.of_eq p (fun q hq => update_of_ne hq _ _) (fun q b' hqp hq => ?_)
      (fun b' hb' => ?_) (refcnt_update rfl) (count_brelse 0 hp hl) (fun b' hb' => ?_)
      (fun b' r' v hv => ?_)
    · have hb : b' ≠ b := by
        rintro rfl
        rw [hl] at hq
        exact hqp (Option.some.inj hq).symm
      simpa [State.setBuf, State.setPc, update_of_ne hb] using hq
    · simp [State.setPc, Pc.filling] at hb'
    · simp [State.setPc, Pc.pending] at hb'
    · simp [State.setPc] at hv
  | drop p b =>
    rw [next] at hn
    split_ifs at hn <;> cases hn
    · exact h.drop he rfl rfl rfl
    · exact h.drop he rfl rfl rfl
  | bpin p b =>
    obtain ⟨hp, hl⟩ := he
    cases hn
    refine h.setPins (p := p) rfl rfl rfl rfl ?_ fun _ q r v hq => ?_
    · rw [toNat_add_one hw]
      omega
    · -- a process at the second increment would hold the buffer
      have hlq := h.locked q b (by simp [hq, Pc.filling])
      rw [hl] at hlq
      rw [← Option.some.inj hlq, hp] at hq
      cases hq
  | bunpin p b =>
    obtain ⟨-, hpins⟩ := he
    cases hn
    have hpos := share_le_count 0 s p b
    have hle := h.le b
    refine h.setPins (p := p) rfl rfl rfl rfl ?_ fun hlt => ?_
    · rw [toNat_sub_one (by omega)]
      omega
    · omega

end Refs

/-! ## Who uses a buffer -/

section Control

variable {P : Type} {s s' : State P}

theorem control_init (disk : UInt32 → Block) : Control (init P disk) := by
  refine ⟨fun p b r h => ?_, fun b h => ?_, fun p b h => ?_, fun b h => ?_⟩
  · cases h
  · exact absurd rfl h
  · cases h
  · cases h

theorem Control.move (h : Control s) (p : P) (hpc : ∀ q, q ≠ p → s'.pc q = s.pc q)
    (hkey : ∀ b, (s'.buf b).key = (s.buf b).key)
    (hvalid : ∀ b, (s.buf b).valid = true → (s'.buf b).valid = true)
    (hlock : ∀ q b, q ≠ p → (s'.buf b).lock = some q → (s.buf b).lock = some q)
    (htarget : ∀ b r, (s'.pc p).target = some (b, r) → (s.buf b).key = r ∧ r.OnRoot)
    (hp : ∀ b, (s'.buf b).lock = some p → (s.buf b).key.OnRoot ∧
      ((s'.buf b).valid = true ∨ (s'.pc p).filling b = true))
    (hkept : ∀ b, s'.dirty b = true → (s'.buf b).lock ≠ none ∨ 0 < s'.pins b) : Control s' := by
  refine ⟨fun q b r hq => ?_, fun b hb => ?_, fun q b hq => ?_, hkept⟩
  · rw [hkey]
    by_cases hqp : q = p
    · subst hqp
      exact htarget b r hq
    · rw [hpc q hqp] at hq
      exact h.target q b r hq
  · obtain ⟨q, hq⟩ := Option.ne_none_iff_exists'.mp hb
    rw [hkey]
    by_cases hqp : q = p
    · subst hqp
      exact (hp b hq).1
    · exact h.held b (by rw [hlock q b hqp hq]; simp)
  · by_cases hqp : q = p
    · subst hqp
      exact (hp b hq).2
    · rw [hpc q hqp]
      exact (h.filled q b (hlock q b hqp hq)).imp_left (hvalid b)

theorem Control.valid_of_lock (h : Control s) {p : P} {b : BufId} (hb : (s.buf b).lock = some p)
    (hp : (s.pc p).filling b = false) : (s.buf b).key.OnRoot ∧ (s.buf b).valid = true := by
  refine ⟨h.held b (by rw [hb]; simp), (h.filled p b hb).resolve_right ?_⟩
  rw [hp]
  simp

theorem valid_update {f : BufId → Buf P} {b : BufId} {c : Buf P} (hc : c.valid = (f b).valid)
    (b' : BufId) : (update f b c b').valid = (f b').valid := by
  by_cases hb : b' = b
  · rw [hb, update_self, hc]
  · rw [update_of_ne hb]

/-- A step of a process outside `bread` on one buffer, which does not acquire its lock. -/
theorem Control.outside (h : Control s) {p : P} {b : BufId} {c : Buf P}
    (hbuf : s'.buf = update s.buf b c) (hkey : c.key = (s.buf b).key)
    (hvalid : c.valid = (s.buf b).valid) (hlock : c.lock = (s.buf b).lock ∨ c.lock = none)
    (hpc : ∀ q, q ≠ p → s'.pc q = s.pc q) (hp : (s.pc p).target = none)
    (htarget : (s'.pc p).target = none)
    (hdirty : ∀ b', b' ≠ b → s'.dirty b' = s.dirty b')
    (hpins : ∀ b', b' ≠ b → s'.pins b' = s.pins b')
    (hkept : s'.dirty b = true → c.lock ≠ none ∨ 0 < s'.pins b) : Control s' := by
  have hfill : ∀ b', (s.pc p).filling b' = false := fun b' => by
    cases hc : s.pc p <;> simp [hc, Pc.target] at hp <;> rfl
  have hvalid' : ∀ b', (s'.buf b').valid = (s.buf b').valid := by
    rw [hbuf]
    exact valid_update hvalid
  have hlock' : ∀ q b', (s'.buf b').lock = some q → (s.buf b').lock = some q :=
    fun q b' hq => by
      by_cases hb : b' = b
      · subst hb
        rw [hbuf, update_self] at hq
        rcases hlock with hl | hl
        · rw [← hl, hq]
        · rw [hl] at hq
          cases hq
      · rwa [hbuf, update_of_ne hb] at hq
  refine h.move p hpc (by rw [hbuf]; exact key_update hkey) (fun b' hv => by rw [hvalid', hv])
    (fun q b' _ => hlock' q b') (fun b' r ht => ?_) (fun b' hb' => ?_) (fun b' hd => ?_)
  · rw [htarget] at ht
    cases ht
  · obtain ⟨hon, hv⟩ := h.valid_of_lock (hlock' p b' hb') (hfill b')
    exact ⟨hon, Or.inl (by rw [hvalid', hv])⟩
  · by_cases hb : b' = b
    · subst hb
      rw [hbuf, update_self]
      exact hkept hd
    · rw [hdirty b' hb] at hd
      rw [hbuf, update_of_ne hb, hpins b' hb]
      exact h.dirty_kept b' hd

variable [DecidableEq P]

/-- Recycling a buffer that nobody uses. -/
theorem Control.recycle [Fintype P] (h : Control s) (hrefs : Refs s) {p : P} {b : BufId} {r : Req}
    (hp : s.pc p = .idle) (h0 : (s.buf b).refcnt = 0) (hr : r.OnRoot) :
    Control (s.recycle p b r) := by
  obtain ⟨hfree, -, hno⟩ := hrefs.unused h0
  have hlock : ∀ b', ((s.recycle p b r).buf b').lock = (s.buf b').lock := lock_update rfl
  have hne : ∀ b', b' ≠ b → (s.recycle p b r).buf b' = s.buf b' := fun b' hb =>
    update_of_ne hb _ _
  have hoff : ∀ q, q ≠ p → (s.recycle p b r).pc q = s.pc q := fun q hq =>
    update_of_ne hq _ _
  have hself : ((s.recycle p b r).buf b).key = r := by
    simp [State.recycle, State.setBuf, State.setPc, Buf.key]
  have hheld : ∀ {b' : BufId}, (s.buf b').lock ≠ none → b' ≠ b := by
    rintro b' hl rfl
    exact hl hfree
  refine ⟨fun q b' r' hq => ?_, fun b' hb' => ?_, fun q b' hq => ?_, fun b' hd => ?_⟩
  · by_cases hqp : q = p
    · subst hqp
      obtain ⟨rfl, rfl⟩ : b = b' ∧ r = r' := by
        simpa [State.recycle, State.setPc, Pc.target] using hq
      exact ⟨hself, hr⟩
    · have hq' : (s.pc q).target = some (b', r') := by
        rwa [hoff q hqp] at hq
      have hb : b' ≠ b := by
        rintro rfl
        exact hno q r' hq'
      rw [hne b' hb]
      exact h.target q b' r' hq'
  · rw [hlock] at hb'
    rw [hne b' (hheld hb')]
    exact h.held b' hb'
  · rw [hlock] at hq
    have hb : b' ≠ b := hheld (by rw [hq]; simp)
    rw [hne b' hb]
    rcases h.filled q b' hq with hv | hf
    · exact Or.inl hv
    · have hqp : q ≠ p := by
        rintro rfl
        rw [hp] at hf
        cases hf
      rw [hoff q hqp]
      exact Or.inr hf
  · have hb : b' ≠ b := by
      rintro rfl
      simp [State.recycle] at hd
    rw [hlock]
    exact h.dirty_kept b' (by simpa [State.recycle, update_of_ne hb] using hd)

theorem Control.acquiresleep (h : Control s) {p : P} {b : BufId} {r : Req} {hit : Bool}
    (hp : s.pc p = .wait b r hit) :
    Control ((s.setBuf b { s.buf b with lock := some p }).setPc p
      (if hit then .load b r else .fill b r)) := by
  obtain ⟨hkey, hon⟩ := h.target p b r (by rw [hp]; rfl)
  set s' := (s.setBuf b { s.buf b with lock := some p }).setPc p
    (if hit then .load b r else .fill b r)
  have hvalid : ∀ b', (s'.buf b').valid = (s.buf b').valid := valid_update rfl
  have hself : (s'.buf b).lock = some p := by simp [s', State.setBuf, State.setPc]
  have hne : ∀ b', b' ≠ b → (s'.buf b').lock = (s.buf b').lock := fun b' hb => by
    simp [s', State.setBuf, State.setPc, update_of_ne hb]
  have hpc : s'.pc p = if hit then .load b r else .fill b r := update_self ..
  refine h.move p (fun q hq => update_of_ne hq _ _) (key_update rfl)
    (fun b' hv => by rw [hvalid, hv]) (fun q b' hqp hq => ?_) (fun b' r' ht => ?_)
    (fun b' hb' => ?_) (fun b' hd => ?_)
  · by_cases hb : b' = b
    · rw [hb, hself] at hq
      exact absurd (Option.some.inj hq).symm hqp
    · rwa [hne b' hb] at hq
  · refine h.target p b' r' ?_
    rw [hp, ← ht, hpc]
    cases hit <;> rfl
  · by_cases hb : b' = b
    · subst hb
      refine ⟨hkey ▸ hon, Or.inr ?_⟩
      cases hit <;> simp [hpc, Pc.filling]
    · rw [hne b' hb] at hb'
      obtain ⟨hon', hv⟩ := h.valid_of_lock hb' (by rw [hp]; rfl)
      exact ⟨hon', Or.inl (by rw [hvalid, hv])⟩
  · by_cases hb : b' = b
    · rw [hb, hself]
      exact Or.inl (by simp)
    · rw [hne b' hb]
      exact h.dirty_kept b' hd

/-- A step of a process on one buffer that leaves its lock alone. -/
theorem Control.refill (h : Control s) {p : P} {b : BufId} {c : Buf P} {pc' : Pc}
    (hbuf : s'.buf = update s.buf b c) (hkey : c.key = (s.buf b).key)
    (hlock : c.lock = (s.buf b).lock) (hvalid : (s.buf b).valid = true → c.valid = true)
    (hpc : s'.pc = update s.pc p pc')
    (htarget : ∀ b' r, pc'.target = some (b', r) → (s.buf b').key = r ∧ r.OnRoot)
    (hfill : ∀ b', (s.pc p).filling b' = true →
      pc'.filling b' = true ∨ b = b' ∧ c.valid = true)
    (hdirty : s'.dirty = s.dirty) (hpins : s'.pins = s.pins) : Control s' := by
  have hlock' : ∀ b', (s'.buf b').lock = (s.buf b').lock := by
    rw [hbuf]
    exact lock_update hlock
  have hvalid' : ∀ b', (s.buf b').valid = true → (s'.buf b').valid = true := fun b' hv => by
    by_cases hb : b' = b
    · rw [hb] at hv
      rw [hbuf, hb, update_self, hvalid hv]
    · rw [hbuf, update_of_ne hb, hv]
  have hself : s'.pc p = pc' := by rw [hpc, update_self]
  refine h.move p (fun q hq => by rw [hpc, update_of_ne hq])
    (by rw [hbuf]; exact key_update hkey) hvalid' (fun q b' _ hq => by rwa [hlock'] at hq)
    (by rwa [hself]) (fun b' hb' => ?_) (fun b' hd => ?_)
  · rw [hlock'] at hb'
    refine ⟨h.held b' (by rw [hb']; simp), ?_⟩
    rcases h.filled p b' hb' with hv | hf
    · exact Or.inl (hvalid' b' hv)
    · rcases hfill b' hf with hf' | ⟨rfl, hv⟩
      · exact Or.inr (by rw [hself, hf'])
      · exact Or.inl (by rw [hbuf, update_self, hv])
  · rw [hdirty] at hd
    rw [hlock', hpins]
    exact h.dirty_kept b' hd

/-- **Every disciplined step keeps the use of the buffers in order.** -/
theorem Control.step [Fintype P] {e : Event P} (hrep : Rep s) (hrefs : Refs s) (h : Control s)
    (he : Enabled s e) (hd : Disciplined s e) (hr : RootOnly e) (hn : next s e = .ok s') :
    Control s' := by
  have hoff : ∀ {α : Type} (f : BufId → α) (b : BufId) (v : α),
      ∀ b', b' ≠ b → update f b v b' = f b' := fun f b v b' hb =>
    update_of_ne hb _ _
  cases e with
  | bget p r =>
    rcases bget_cases hrep hn with ⟨b, hb, rfl⟩ | ⟨b, -, h0, rfl⟩
    · have hp : s.pc p = .idle := he
      refine h.refill rfl rfl rfl id rfl (fun b' r' ht => ?_) (fun b' hf => ?_) rfl rfl
      · obtain ⟨rfl, rfl⟩ : b = b' ∧ r = r' := by simpa [Pc.target] using ht
        exact ⟨hb, hr⟩
      · rw [hp] at hf
        cases hf
    · exact h.recycle hrefs he h0 hr
  | acquiresleep p b r hit =>
    cases hn
    exact h.acquiresleep he.1
  | load p b r =>
    have hp : s.pc p = .load b r := he
    cases hn
    exact h.refill (update_eq_self b s.buf).symm rfl rfl id rfl
      (fun b' r' ht => h.target p b' r' (by rw [hp, ← ht]; rfl))
      (fun b' hf => Or.inl (by rw [hp] at hf; exact hf)) rfl rfl
  | inc p b r v =>
    have hp : s.pc p = .inc b r v := he
    cases hn
    exact h.refill rfl rfl rfl id rfl (fun b' r' ht => h.target p b' r' (by rw [hp, ← ht]; rfl))
      (fun b' hf => Or.inl (by rw [hp] at hf; exact hf)) rfl rfl
  | fill p b r =>
    have hp : s.pc p = .fill b r := he
    have hfill : ∀ b', (s.pc p).filling b' = true → b = b' := fun b' hf => by
      simpa [hp, Pc.filling] using hf
    rw [next] at hn
    split_ifs at hn with hv <;> cases hn
    · exact h.refill (update_eq_self b s.buf).symm rfl rfl id rfl
        (fun b' r' ht => by cases ht) (fun b' hf => Or.inr ⟨hfill b' hf, hv⟩) rfl rfl
    · exact h.refill rfl rfl rfl (fun _ => rfl) rfl
        (fun b' r' ht => by cases ht) (fun b' hf => Or.inr ⟨hfill b' hf, rfl⟩) rfl rfl
  | store p b data =>
    obtain ⟨hp, hl⟩ := he
    have ht : (s.pc p).target = none := by rw [hp]; rfl
    cases hn
    exact h.outside rfl rfl rfl (Or.inl rfl) (fun _ _ => rfl) ht ht (hoff _ _ _) (fun _ _ => rfl)
      fun _ => Or.inl (by simp [hl])
  | bwrite p b =>
    have ht : (s.pc p).target = none := by rw [he.1]; rfl
    rw [next] at hn
    split_ifs at hn
    cases hn
    exact h.outside (update_eq_self b s.buf).symm rfl rfl (Or.inl rfl) (fun _ _ => rfl) ht
      ht (hoff _ _ _) (fun _ _ => rfl) fun hd' => by simp at hd'
  | brelse p b =>
    have ht : (s.pc p).target = none := by rw [he.1]; rfl
    rw [next] at hn
    split_ifs at hn
    cases hn
    exact h.outside rfl rfl rfl (Or.inr rfl) (fun q hq => update_of_ne hq _ _) ht
      (by simp [State.setPc, Pc.target]) (fun _ _ => rfl) (fun _ _ => rfl)
      fun hd' => Or.inr (hd hd')
  | drop p b =>
    have ht : (s.pc p).target = none := by rw [show s.pc p = .release b from he]; rfl
    rw [next] at hn
    split_ifs at hn <;> cases hn
    · exact h.outside rfl rfl rfl (Or.inl rfl) (fun q hq => update_of_ne hq _ _) ht
        (by simp [State.setPc, Pc.target]) (fun _ _ => rfl) (fun _ _ => rfl) (h.dirty_kept b)
    · exact h.outside rfl rfl rfl (Or.inl rfl) (fun q hq => update_of_ne hq _ _) ht
        (by simp [State.setPc, Pc.target]) (fun _ _ => rfl) (fun _ _ => rfl) (h.dirty_kept b)
  | bpin p b =>
    have ht : (s.pc p).target = none := by rw [he.1]; rfl
    cases hn
    exact h.outside rfl rfl rfl (Or.inl rfl) (fun _ _ => rfl) ht ht (fun _ _ => rfl) (hoff _ _ _)
      fun _ => Or.inr (by simp)
  | bunpin p b =>
    have ht : (s.pc p).target = none := by rw [he.1]; rfl
    cases hn
    refine h.outside rfl rfl rfl (Or.inl rfl) (fun _ _ => rfl) ht ht (fun _ _ => rfl) (hoff _ _ _)
      fun hd' => Or.inr ?_
    have := hd hd'
    simp only [update_self]
    omega

end Control

/-! ## What the buffers contain -/

section Data

variable {P : Type} {s s' : State P}

theorem data_init (disk : UInt32 → Block) : Data (init P disk) := by
  refine ⟨fun b h => ?_, fun b h => ?_, fun r _ _ => rfl⟩
  · cases h
  · cases h

theorem Req.OnRoot.dev_ne_zero {r : Req} (h : r.OnRoot) : r.dev ≠ 0 := by
  intro h0
  have := h.1
  rw [h0] at this
  cases this

theorem Req.OnRoot.eq_of_sector_eq {r r' : Req} (h : r.OnRoot) (h' : r'.OnRoot)
    (hs : sector r.blockno = sector r'.blockno) : r = r' := by
  have hdev : r.dev = r'.dev := UInt32.toNat_inj.mp (h.1.trans h'.1.symm)
  have hb : r.blockno = r'.blockno := by
    have := congrArg UInt32.toNat hs
    have h1 := h.2
    have h2 := h'.2
    simp only [sector, UInt32.toNat_mul, UInt32.reduceToNat] at this
    exact UInt32.toNat_inj.mp (by omega)
  cases r
  cases r'
  simp_all

theorem Data.congr (h : Data s) {b : BufId} {c : Buf P}
    (hbuf : s'.buf = update s.buf b c) (hkey : c.key = (s.buf b).key)
    (hvalid : c.valid = (s.buf b).valid) (hdata : c.data = (s.buf b).data)
    (hdirty : s'.dirty = s.dirty) (hdisk : s'.disk = s.disk) (hlatest : s'.latest = s.latest) :
    Data s' := by
  have hk : ∀ b', (s'.buf b').key = (s.buf b').key := by
    rw [hbuf]
    exact key_update hkey
  have hv : ∀ b', (s'.buf b').valid = (s.buf b').valid := by
    rw [hbuf]
    exact valid_update hvalid
  have hd : ∀ b', (s'.buf b').data = (s.buf b').data := fun b' => by
    by_cases hb : b' = b
    · rw [hb, hbuf, update_self, hdata]
    · rw [hbuf, update_of_ne hb]
  refine ⟨fun b' => ?_, fun b' => ?_, fun r => ?_⟩
  · rw [hdirty, hv, hk]
    exact h.dirty_valid b'
  · rw [hv, hk, hd, hlatest]
    exact h.data_eq b'
  · simp only [hk, hdirty, hdisk, hlatest]
    exact h.clean r

/-- The holder changes the data: it is the latest, and it is not on the disk. -/
theorem Data.store (h : Data s) (hrep : Rep s) {b : BufId} {data : Block}
    (hon : (s.buf b).key.OnRoot) (hv : (s.buf b).valid = true) :
    Data { s.setBuf b { s.buf b with data := data } with
      dirty := update s.dirty b true
      latest := update s.latest (s.buf b).key data } := by
  have hkey : ∀ b', (update s.buf b { s.buf b with data := data } b').key =
      (s.buf b').key := key_update rfl
  have hvalid : ∀ b', (update s.buf b { s.buf b with data := data } b').valid =
      (s.buf b').valid := valid_update rfl
  refine ⟨fun b' hd => ?_, fun b' hv' hon' => ?_, fun r hr hno => ?_⟩
  · simp only [State.setBuf, hkey, hvalid] at hd ⊢
    by_cases hb : b' = b
    · rw [hb]
      exact ⟨hv, hon⟩
    · rw [update_of_ne hb] at hd
      exact h.dirty_valid b' hd
  · simp only [State.setBuf, hkey, hvalid] at hv' hon' ⊢
    by_cases hb : b' = b
    · rw [hb, update_self, update_self]
    · have hne : (s.buf b').key ≠ (s.buf b).key := fun he =>
        hb (hrep.unique b' b he hon'.dev_ne_zero)
      rw [update_of_ne hb, update_of_ne hne]
      exact h.data_eq b' hv' hon'
  · simp only [State.setBuf, hkey] at hno ⊢
    have hne : r ≠ (s.buf b).key := by
      rintro rfl
      have := hno b rfl
      rw [update_self] at this
      cases this
    rw [update_of_ne hne]
    refine h.clean r hr fun b' hb' => ?_
    have hb : b' ≠ b := by
      rintro rfl
      exact hne hb'.symm
    have := hno b' hb'
    rwa [update_of_ne hb] at this

theorem Data.bwrite (h : Data s) {b : BufId} (hon : (s.buf b).key.OnRoot)
    (hv : (s.buf b).valid = true) :
    Data { s with
      disk := update s.disk (sector (s.buf b).blockno) (s.buf b).data
      dirty := update s.dirty b false } := by
  refine ⟨fun b' hd => ?_, h.data_eq, fun r hr hno => ?_⟩
  · have hb : b' ≠ b := by
      rintro rfl
      simp at hd
    exact h.dirty_valid b' (by simpa [update_of_ne hb] using hd)
  · by_cases hrb : r = (s.buf b).key
    · subst hrb
      exact (update_self ..).trans (h.data_eq b hv hon)
    · have hne : sector r.blockno ≠ sector (s.buf b).blockno := fun he =>
        hrb (hr.eq_of_sector_eq hon he)
      refine (update_of_ne hne _ _).trans (h.clean r hr fun b' hb' => ?_)
      have hb : b' ≠ b := by
        rintro rfl
        exact hrb hb'.symm
      simpa [update_of_ne hb] using hno b' hb'

/-- `bread` fills a buffer from the disk, which has the latest data of a block that is not
valid in the cache. -/
theorem Data.fill (h : Data s) (hrep : Rep s) {b : BufId} (hon : (s.buf b).key.OnRoot)
    (hv : (s.buf b).valid = false)
    (hbuf : s'.buf = update s.buf b { s.buf b with
      data := s.disk (sector (s.buf b).blockno), valid := true })
    (hdirty : s'.dirty = s.dirty) (hdisk : s'.disk = s.disk) (hlatest : s'.latest = s.latest) :
    Data s' := by
  have hkey : ∀ b', (s'.buf b').key = (s.buf b').key := by
    rw [hbuf]
    exact key_update rfl
  have hclean : s.dirty b = false := by
    by_contra hd
    have := (h.dirty_valid b (by simpa using hd)).1
    rw [hv] at this
    cases this
  have hcur : s.disk (sector (s.buf b).blockno) = s.latest (s.buf b).key := by
    refine h.clean (s.buf b).key hon fun b' hb' => ?_
    rw [hrep.unique b' b hb' (by rw [show (s.buf b').dev = _ from congrArg Req.dev hb']; exact
      hon.dev_ne_zero), hclean]
  refine ⟨fun b' hd => ?_, fun b' hv' hon' => ?_, fun r => ?_⟩
  · rw [hdirty] at hd
    have hb : b' ≠ b := by
      rintro rfl
      rw [hclean] at hd
      cases hd
    rw [hbuf, update_of_ne hb]
    exact h.dirty_valid b' hd
  · rw [hkey] at hon'
    rw [hkey, hlatest]
    by_cases hb : b' = b
    · rw [hb, hbuf, update_self, hcur]
    · rw [hbuf, update_of_ne hb] at hv' ⊢
      exact h.data_eq b' hv' hon'
  · simp only [hkey, hdirty, hdisk, hlatest]
    exact h.clean r

variable [DecidableEq P]

theorem Data.recycle (h : Data s) {p : P} {b : BufId} {r : Req} (hd : s.dirty b = false) :
    Data (s.recycle p b r) := by
  have hne : ∀ b', b' ≠ b → (s.recycle p b r).buf b' = s.buf b' := fun b' hb =>
    update_of_ne hb _ _
  have hdirty : (s.recycle p b r).dirty = s.dirty := by
    funext b'
    by_cases hb : b' = b
    · simp [State.recycle, hb, hd]
    · simp [State.recycle, update_of_ne hb]
  refine ⟨fun b' hd' => ?_, fun b' hv hon => ?_, fun r' hr' hno => ?_⟩
  · rw [hdirty] at hd'
    have hb : b' ≠ b := by
      rintro rfl
      rw [hd] at hd'
      cases hd'
    rw [hne b' hb]
    exact h.dirty_valid b' hd'
  · have hb : b' ≠ b := by
      rintro rfl
      simp [State.recycle, State.setBuf, State.setPc] at hv
    rw [hne b' hb] at hv hon ⊢
    exact h.data_eq b' hv hon
  · rw [hdirty] at hno
    refine h.clean r' hr' fun b' hb' => ?_
    by_cases hb : b' = b
    · rw [hb, hd]
    · exact hno b' (by rw [hne b' hb, hb'])

/-- **Every step keeps the contents coherent.** -/
theorem Data.step [Fintype P] {e : Event P} (hrep : Rep s) (hrefs : Refs s) (hctl : Control s)
    (h : Data s) (he : Enabled s e) (hn : next s e = .ok s') : Data s' := by
  cases e with
  | bget p r =>
    rcases bget_cases hrep hn with ⟨b, -, rfl⟩ | ⟨b, -, h0, rfl⟩
    · exact h.congr rfl rfl rfl rfl rfl rfl rfl
    · -- a buffer that is neither held nor pinned has no update to lose
      obtain ⟨hl, hpins, -⟩ := hrefs.unused h0
      refine h.recycle ?_
      by_contra hd
      rcases hctl.dirty_kept b (by simpa using hd) with hl' | hp
      · exact hl' hl
      · omega
  | acquiresleep p b r hit =>
    cases hn
    exact h.congr rfl rfl rfl rfl rfl rfl rfl
  | load p b r =>
    cases hn
    exact h.congr (update_eq_self b s.buf).symm rfl rfl rfl rfl rfl rfl
  | inc p b r v =>
    cases hn
    exact h.congr rfl rfl rfl rfl rfl rfl rfl
  | fill p b r =>
    obtain ⟨hkey, hon⟩ := hctl.target p b r (by rw [show s.pc p = .fill b r from he]; rfl)
    rw [next] at hn
    split_ifs at hn with hv <;> cases hn
    · exact h.congr (update_eq_self b s.buf).symm rfl rfl rfl rfl rfl rfl
    · exact h.fill hrep (hkey ▸ hon) (by simpa using hv) rfl rfl rfl rfl
  | store p b data =>
    obtain ⟨hp, hl⟩ := he
    obtain ⟨hon, hv⟩ := hctl.valid_of_lock hl (by rw [hp]; rfl)
    cases hn
    exact h.store hrep hon hv
  | bwrite p b =>
    obtain ⟨hp, hl⟩ := he
    obtain ⟨hon, hv⟩ := hctl.valid_of_lock hl (by rw [hp]; rfl)
    rw [next] at hn
    split_ifs at hn
    cases hn
    exact h.bwrite hon hv
  | brelse p b =>
    rw [next] at hn
    split_ifs at hn
    cases hn
    exact h.congr rfl rfl rfl rfl rfl rfl rfl
  | drop p b =>
    rw [next] at hn
    split_ifs at hn <;> cases hn
    · exact h.congr rfl rfl rfl rfl rfl rfl rfl
    · exact h.congr rfl rfl rfl rfl rfl rfl rfl
  | bpin p b =>
    cases hn
    exact h.congr rfl rfl rfl rfl rfl rfl rfl
  | bunpin p b =>
    cases hn
    exact h.congr rfl rfl rfl rfl rfl rfl rfl

end Data

/-! ## Coherence -/

/-- The cache represents the blocks of the disk: the list has every buffer exactly once, no
block is assigned to two buffers, and `bread` returns the data stored last. -/
structure Represents {P : Type} [DecidableEq P] (s : State P) : Prop where
  ring : ∃ l, Ring.IsRing s.links l ∧ ∀ b, b ∈ l
  unique : ∀ b b', (s.buf b).key = (s.buf b').key → (s.buf b).dev ≠ 0 → b = b'
  /-- The last step of `bread` gives its process a buffer with the latest data of the block. -/
  bread_latest : ∀ p b r, s.pc p = .fill b r → ∃ s', next s (.fill p b r) = .ok s' ∧
    s'.pc p = .idle ∧ (s'.buf b).lock = some p ∧ (s'.buf b).key = r ∧
      (s'.buf b).data = s'.latest r
  /-- A process that holds a buffer sees the latest data in it. -/
  held_latest : ∀ p b, s.pc p = .idle → (s.buf b).lock = some p →
    (s.buf b).data = s.latest (s.buf b).key

section Coherence

variable {P : Type} [DecidableEq P] [Fintype P]

/-- The whole invariant. -/
structure Inv (s : State P) : Prop where
  rep : Rep s
  refs : Refs s
  control : Control s
  data : Data s

theorem inv_init (disk : UInt32 → Block) : Inv (init P disk) :=
  ⟨rep_init P disk, refs_init disk, control_init disk, data_init disk⟩

theorem Inv.step {s s' : State P} {e : Event P} (h : Inv s) (hl : LegalNoWrap s e)
    (hn : next s e = .ok s') : Inv s' :=
  ⟨h.rep.step hn, h.refs.step h.rep hl.enabled hl.noWrap hn,
    h.control.step h.rep h.refs hl.enabled hl.disciplined hl.rootOnly hn,
    h.data.step h.rep h.refs h.control hl.enabled hn⟩

omit [Fintype P] in
theorem next_fill (s : State P) (p : P) (b : BufId) (r : Req) :
    ∃ s', next s (.fill p b r) = .ok s' ∧ s'.pc p = .idle ∧
      (s'.buf b).lock = (s.buf b).lock ∧ (s'.buf b).key = (s.buf b).key ∧
      (s'.buf b).valid = true := by
  rw [next]
  split_ifs with hv
  · exact ⟨_, rfl, update_self .., rfl, rfl, hv⟩
  · refine ⟨_, rfl, update_self .., ?_, ?_, ?_⟩ <;>
      simp [State.setBuf, State.setPc, Buf.key]

/-- **The cache is coherent in every run without an overflow**: for any number of processes and
any interleaving of `bread`, `brelse`, `bwrite`, `bpin` and `bunpin` in which updates are
written or pinned, no counter is incremented at its largest value, and the blocks read are
those of the root device, the list keeps its shape, no block is in two buffers and `bread`
returns the data stored last.

**Proof sketch.** `Refs` bounds every counter from below in spite of the racing second
increment, so a buffer with `refcnt == 0` is not in use; `Control` then says that it has no
update that is not on the disk, and `Data` that recycling it loses nothing. -/
theorem represents_of_reach {disk : UInt32 → Block} {s : State P}
    (hr : Reach next LegalNoWrap (init P disk) s) : Represents s := by
  have h : Inv s := hr.invariant (inv_init disk) Inv.step
  refine ⟨h.rep.ring, h.rep.unique, fun p b r hp => ?_, fun p b hp hl => ?_⟩
  · obtain ⟨hkey, hon⟩ := h.control.target p b r (by rw [hp]; rfl)
    obtain ⟨s', hn, hidle, hlock', hkey', hv⟩ := next_fill s p b r
    have hdata := h.data.step h.rep h.refs h.control (show Enabled s (.fill p b r) from hp) hn
    rw [hkey] at hkey'
    refine ⟨s', hn, hidle, ?_, hkey', ?_⟩
    · rw [hlock', h.refs.locked p b (by simp [hp, Pc.filling])]
    · rw [hdata.data_eq b hv (by rwa [hkey']), hkey']
  · obtain ⟨hon, hv⟩ := h.control.valid_of_lock hl (by rw [hp]; rfl)
    exact h.data.data_eq b hv hon

end Coherence

section Decidable

variable {P : Type}

instance (s : State P) (e : Event P) : Decidable (Disciplined s e) := by
  rcases e <;> unfold Disciplined <;> infer_instance

instance (e : Event P) : Decidable (RootOnly e) := by
  rcases e <;> unfold RootOnly <;> infer_instance

instance [DecidableEq P] (s : State P) (e : Event P) : Decidable (LegalNoWrap s e) :=
  decidable_of_iff' _ (legalNoWrap_iff s e)

end Decidable

/-- A block of ones. -/
def ones : Block := fun _ => 1

/-- A process changes a block, pins and releases it, and reads it again, up to the last step of
the second `bread`. -/
def rereadRun : List (Event Bool) :=
  [.bget true block5, .acquiresleep true front block5 false, .fill true front block5,
    .store true front ones, .bpin true front, .brelse true front, .drop true front,
    .bget true block5, .acquiresleep true front block5 true, .load true front block5,
    .inc true front block5 2]

theorem represents_rereadRun :
    (after next (init Bool zeroSectors) rereadRun).pc true = .fill front block5 ∧
      Represents (after next (init Bool zeroSectors) rereadRun) := by
  have hl : Along next LegalNoWrap (init Bool zeroSectors) rereadRun := by
    decide +kernel
  exact ⟨by decide +kernel,
    represents_of_reach (reach_of_exec hl (exec_eq_after (by decide +kernel)))⟩

end RiscvOs.Bio
