import RiscvOs.Disk.Log
import RiscvOs.Disk.BioWrap
import RiscvOs.Lib.Loop

set_option autoImplicit false

/-!
# A commit through the buffer cache (`kernel/disk/log.c`)

`commit()` of one process that no other process interrupts, on the buffer cache of `bio.c`.
`write_log` copies the pinned home blocks to the log slots and `install_trans` copies them back,
with two buffers held at a time.

A pinned buffer is not recycled as long as its `refcnt` is not `0`. The hit of `write_log` leaves
the counter one higher, so the two values of the counter that lose the buffer are `0` and
`2 ^ 32 - 1`.

## Main results

* `bread_shows`, `writeLogRound_shows`, `installRound_shows` — the effect of
  each part of the code.
* `commit_installs` — `commit()` installs the transaction, unless a counter is
  at `0` or at `2 ^ 32 - 1`.
* `wrapped_pin_loses_block` — with a counter at `0` the update is lost.
-/

namespace RiscvOs.Commit

open Function Bio Log

/-! ## The code -/

/-- Why a run stops: a panic, or it would have to wait for the holder of a buffer. -/
inductive Stop where
  | panic (x : Panic)
  | sleeps (b : BufId)
  deriving DecidableEq

/-- The buffer cache, and the steps made so far. -/
structure Cfg (P : Type) where
  bio : State P
  trace : List (Event P)

/-- The step takes a reference away from buffer `b`, in `bunpin`. -/
def unpins {P : Type} (b : BufId) : Event P → Bool
  | .bunpin _ b' => b' == b
  | _ => false

section Code

variable {P : Type} [DecidableEq P]

/-- One step; `acquiresleep` of a locked buffer does not return. -/
def act (e : Event P) (c : Cfg P) : Except Stop (Cfg P) :=
  match next c.bio e with
  | .ok s => .ok ⟨s, c.trace ++ [e]⟩
  | .error x => .error (.panic x)

/-- `acquiresleep(&b->lock)` in `bget`. -/
def acquiresleep (p : P) (b : BufId) (r : Req) (hit : Bool) (c : Cfg P) : Except Stop (Cfg P) :=
  if (c.bio.buf b).lock = none then act (.acquiresleep p b r hit) c else .error (.sleeps b)

/-- The second `b->refcnt++` of a hit. -/
def countAgain (p : P) (b : BufId) (r : Req) (c : Cfg P) : Except Stop (Cfg P) := do
  let c ← act (.load p b r) c
  act (.inc p b r (c.bio.buf b).refcnt) c

/-- `bget` after the search: wait for the buffer, and on a hit count it a second time. -/
def bgetLock (p : P) (r : Req) (c : Cfg P) : Pc → Except Stop (BufId × Cfg P)
  | .wait b _ true => do
    let c ← acquiresleep p b r true c
    let c ← countAgain p b r c
    pure (b, c)
  | .wait b _ false => do
    let c ← acquiresleep p b r false c
    pure (b, c)
  | _ => .error (.panic .loops)

/-- `bread`. -/
def bread (p : P) (r : Req) (c : Cfg P) : Except Stop (BufId × Cfg P) := do
  let c ← act (.bget p r) c
  let (b, c) ← bgetLock p r c (c.bio.pc p)
  let c ← act (.fill p b r) c
  pure (b, c)

/-- `brelse`. -/
def brelse (p : P) (b : BufId) (c : Cfg P) : Except Stop (Cfg P) := do
  let c ← act (.brelse p b) c
  act (.drop p b) c

/-- `memmove(b->data, data, BSIZE)` on a buffer that is held. -/
def memmove (p : P) (b : BufId) (data : Block) (c : Cfg P) : Except Stop (Cfg P) :=
  act (.store p b data) c

/-- `bwrite`. -/
def bwrite (p : P) (b : BufId) (c : Cfg P) : Except Stop (Cfg P) := act (.bwrite p b) c

/-- `bunpin`. -/
def bunpin (p : P) (b : BufId) (c : Cfg P) : Except Stop (Cfg P) := act (.bunpin p b) c

variable (p : P) (dev : UInt32) (start : ℕ)

/-- The log slot `log.start + tail + 1`. -/
def slot (start tail : ℕ) : UInt32 := UInt32.ofNat (start + tail + 1)

/-- `log.lh.block[i]`. -/
def lhBlock (lh : List UInt32) (i : ℕ) : UInt32 := lh.getD i 0

/-- One round of `write_log`, for the home block `h`. -/
def writeLogRound (h : UInt32) (tail : ℕ) (c : Cfg P) : Except Stop (Cfg P) := do
  let (dst, c) ← bread p ⟨dev, slot start tail⟩ c
  let (src, c) ← bread p ⟨dev, h⟩ c
  let c ← memmove p dst (c.bio.buf src).data c
  let c ← bwrite p dst c
  let c ← brelse p src c
  brelse p dst c

/-- `write_log`. -/
def writeLog (lh : List UInt32) (c : Cfg P) : Except Stop (Cfg P) :=
  (List.range lh.length).foldlM
    (fun c tail => writeLogRound p dev start (lhBlock lh tail) tail c) c

/-- `write_head`: the block numbers of `lh` are stored, the count is not. -/
def writeHead (lh : List UInt32) (c : Cfg P) : Except Stop (Cfg P) := do
  let (b, c) ← bread p ⟨dev, UInt32.ofNat start⟩ c
  let c ← memmove p b (setBlocks (c.bio.buf b).data 0 lh) c
  let c ← bwrite p b c
  brelse p b c

/-- One round of `install_trans(0)`, for the home block `h`. -/
def installRound (h : UInt32) (tail : ℕ) (c : Cfg P) : Except Stop (Cfg P) := do
  let (lbuf, c) ← bread p ⟨dev, slot start tail⟩ c
  let (dbuf, c) ← bread p ⟨dev, h⟩ c
  let c ← memmove p dbuf (c.bio.buf lbuf).data c
  let c ← bwrite p dbuf c
  let c ← bunpin p dbuf c
  let c ← brelse p lbuf c
  brelse p dbuf c

/-- `install_trans(0)`. -/
def installTrans (lh : List UInt32) (c : Cfg P) : Except Stop (Cfg P) :=
  (List.range lh.length).foldlM
    (fun c tail => installRound p dev start (lhBlock lh tail) tail c) c

/-- `commit`, with `log.lh` as it leaves it. -/
def commit (lh : List UInt32) (c : Cfg P) : Except Stop (List UInt32 × Cfg P) :=
  if lh.length > 0 then do
    let c ← writeLog p dev start lh c
    let c ← writeHead p dev start lh c
    let c ← installTrans p dev start lh c
    let c ← writeHead p dev start [] c
    pure ([], c)
  else pure (lh, c)

end Code

/-! ## What the parts of the code do -/

section Parts

variable {P : Type}

/-- The configuration shows the buffers `B`, the disk `D`, the pins `N` and the numbers `U` of
calls of `bunpin`; the list of the buffers is in order and `p` is at `pc`. -/
structure Shows (p : P) (pc : Pc) (B : BufId → Buf P) (D : UInt32 → Block) (N U : BufId → ℕ)
    (c : Cfg P) : Prop where
  buf : c.bio.buf = B
  disk : c.bio.disk = D
  pins : c.bio.pins = N
  count : ∀ b, c.trace.countP (unpins b) = U b
  rep : Rep c.bio
  pc_eq : c.bio.pc p = pc

/-- The errors other than `bget` not finding a buffer. -/
def Unexpected (x : Stop) : Prop := x ≠ .panic .noBuffers

/-- The buffer `bget` may choose for the block `r`. -/
def Found (B : BufId → Buf P) (r : Req) (b : BufId) : Prop :=
  (B b).key = r ∨ (∀ b', (B b').key ≠ r) ∧ (B b).refcnt = 0

/-- The buffer after `bread` of the block `r` has chosen it. -/
def taken (B : BufId → Buf P) (D : UInt32 → Block) (p : P) (r : Req) (b : BufId) : Buf P where
  valid := true
  dev := r.dev
  blockno := r.blockno
  lock := some p
  refcnt := if (B b).key = r then (B b).refcnt + 2 else 1
  data := if (B b).key = r ∧ (B b).valid = true then (B b).data else D (sector r.blockno)

variable [DecidableEq P] {p : P} {pc : Pc} {c : Cfg P} {B : BufId → Buf P} {D : UInt32 → Block}
  {N U : BufId → ℕ}

theorem act_shows {s' : State P} {pc' : Pc} {B' : BufId → Buf P} {D' : UInt32 → Block}
    {N' U' : BufId → ℕ} (h : Shows p pc B D N U c) (e : Event P) (hn : next c.bio e = .ok s')
    (hU : ∀ b, U' b = U b + if unpins b e then 1 else 0) (hB : s'.buf = B') (hD : s'.disk = D')
    (hN : s'.pins = N') (hpc : s'.pc p = pc') :
    Loop.Safe Unexpected (Shows p pc' B' D' N' U') (act e c) := by
  rw [act, hn]
  refine ⟨hB, hD, hN, fun b => ?_, h.rep.step hn, hpc⟩
  rw [List.countP_append, h.count, hU]
  simp [List.countP_cons]

theorem act_shows_quiet {s' : State P} {pc' : Pc} {B' : BufId → Buf P} {D' : UInt32 → Block}
    {N' : BufId → ℕ} (h : Shows p pc B D N U c) (e : Event P) (hn : next c.bio e = .ok s')
    (he : ∀ b, unpins b e = false) (hB : s'.buf = B') (hD : s'.disk = D') (hN : s'.pins = N')
    (hpc : s'.pc p = pc') : Loop.Safe Unexpected (Shows p pc' B' D' N' U) (act e c) :=
  act_shows h e hn (fun b => by simp [he b]) hB hD hN hpc

theorem acquiresleep_shows {b : BufId} {r : Req} {hit : Bool}
    (h : Shows p (.wait b r hit) B D N U c) (hl : (B b).lock = none) :
    Loop.Safe Unexpected (Shows p (if hit then .load b r else .fill b r)
      (update B b { B b with lock := some p }) D N U) (acquiresleep p b r hit c) := by
  obtain ⟨rfl, rfl, rfl, -, -, -⟩ := id h
  rw [acquiresleep, if_pos hl]
  exact act_shows_quiet h _ rfl (fun _ => rfl) rfl rfl rfl (by simp [State.setPc])

theorem countAgain_shows {b : BufId} {r : Req} (h : Shows p (.load b r) B D N U c) :
    Loop.Safe Unexpected (Shows p (.fill b r)
      (update B b { B b with refcnt := (B b).refcnt + 1 }) D N U)
      (countAgain p b r c) := by
  obtain ⟨rfl, rfl, rfl, -, -, -⟩ := id h
  have h₁ : Loop.Safe Unexpected (Shows p (.inc b r (c.bio.buf b).refcnt) c.bio.buf c.bio.disk
      c.bio.pins U) (act (.load p b r) c) :=
    act_shows_quiet h _ rfl (fun _ => rfl) rfl rfl rfl (by simp [State.setPc])
  refine h₁.bind fun c₁ h₁ => act_shows_quiet h₁ _ rfl (fun _ => rfl) ?_ h₁.disk h₁.pins ?_
  · simp [State.setPc, State.setBuf, h₁.buf]
  · simp [State.setPc]

theorem fill_shows {b : BufId} {r : Req} (h : Shows p (.fill b r) B D N U c) :
    Loop.Safe Unexpected (Shows p .idle (update B b { B b with
      valid := true
      data := if (B b).valid then (B b).data else D (sector (B b).blockno) }) D N U)
      (act (.fill p b r) c) := by
  obtain ⟨rfl, rfl, rfl, -, -, -⟩ := id h
  cases hv : (c.bio.buf b).valid with
  | true =>
    have hn : next c.bio (.fill p b r) = .ok (c.bio.setPc p .idle) := by rw [next, if_pos hv]
    refine act_shows_quiet h _ hn (fun _ => rfl) ?_ rfl rfl (by simp [State.setPc])
    have : { c.bio.buf b with valid := true, data := (c.bio.buf b).data } = c.bio.buf b := by
      rw [← hv]
    simp [State.setPc, this]
  | false =>
    have hn : next c.bio (.fill p b r) = .ok ((c.bio.setBuf b { c.bio.buf b with
        data := c.bio.disk (sector (c.bio.buf b).blockno), valid := true }).setPc p .idle) := by
      rw [next, if_neg (by simp [hv])]
    refine act_shows_quiet h _ hn (fun _ => rfl) ?_ rfl rfl (by simp [State.setPc])
    simp [State.setPc, State.setBuf]

theorem bgetLock_shows {b : BufId} {r : Req} {hit : Bool}
    (h : Shows p (.wait b r hit) B D N U c) (hl : (B b).lock = none) :
    Loop.Safe Unexpected (fun x => x.1 = b ∧ Shows p (.fill b r) (update B b { B b with
      lock := some p
      refcnt := if hit then (B b).refcnt + 1 else (B b).refcnt }) D N U x.2)
      (bgetLock p r c (.wait b r hit)) := by
  cases hit with
  | true =>
    refine (acquiresleep_shows h hl).bind fun c₁ h₁ => (countAgain_shows h₁).bind fun c₂ h₂ => ?_
    exact ⟨rfl, by simpa using h₂⟩
  | false => exact (acquiresleep_shows h hl).bind fun c₁ h₁ => ⟨rfl, by simpa using h₁⟩

/-- **What `bread` does**: it chooses a buffer and takes it; it fails only if `bget` does not
find a buffer. -/
theorem bread_shows {r : Req} (h : Shows p .idle B D N U c)
    (hfree : ∀ b, Found B r b → (B b).lock = none) :
    Loop.Safe Unexpected (fun x => Found B r x.1 ∧
      Shows p .idle (update B x.1 (taken B D p r x.1)) D N U x.2) (bread p r c) := by
  obtain ⟨rfl, rfl, rfl, -, -, -⟩ := id h
  cases hn : next c.bio (.bget p r) with
  | error x =>
    rw [bread, act, hn, (bget_error h.rep hn).1]
    simp [Loop.Safe, Unexpected, bind, Except.bind]
  | ok s' =>
    rcases bget_cases h.rep hn with ⟨b, hb, rfl⟩ | ⟨b, hno, h0, rfl⟩
    · have hf : Found c.bio.buf r b := Or.inl hb
      have h₁ : Loop.Safe Unexpected (Shows p (.wait b r true) (update c.bio.buf b
          { c.bio.buf b with refcnt := (c.bio.buf b).refcnt + 1 }) c.bio.disk c.bio.pins U)
          (act (.bget p r) c) :=
        act_shows_quiet h _ hn (fun _ => rfl) rfl rfl rfl (by simp [State.hit, State.setPc])
      refine h₁.bind fun c₁ h₁ => ?_
      rw [h₁.pc_eq]
      refine (bgetLock_shows h₁ (by simpa using hfree b hf)).bind fun x hx => ?_
      obtain ⟨rfl, h₂⟩ := hx
      refine (fill_shows h₂).bind fun c₃ h₃ => ⟨hf, ?_⟩
      subst hb
      simpa [taken, Buf.key, UInt32.add_assoc] using h₃
    · have hf : Found c.bio.buf r b := Or.inr ⟨hno, h0⟩
      have h₁ : Loop.Safe Unexpected (Shows p (.wait b r false) (update c.bio.buf b
          { c.bio.buf b with dev := r.dev, blockno := r.blockno, valid := false, refcnt := 1 })
          c.bio.disk c.bio.pins U) (act (.bget p r) c) :=
        act_shows_quiet h _ hn (fun _ => rfl) rfl rfl rfl (by simp [State.recycle, State.setPc])
      refine h₁.bind fun c₁ h₁ => ?_
      rw [h₁.pc_eq]
      refine (bgetLock_shows h₁ (by simpa using hfree b hf)).bind fun x hx => ?_
      obtain ⟨rfl, h₂⟩ := hx
      refine (fill_shows h₂).bind fun c₃ h₃ => ⟨hf, ?_⟩
      simpa [taken, hno] using h₃

theorem memmove_shows (h : Shows p .idle B D N U c) (b : BufId) (data : Block) :
    Loop.Safe Unexpected (Shows p .idle (update B b { B b with data := data }) D N U)
      (memmove p b data c) := by
  obtain ⟨rfl, rfl, rfl, -, -, hpc⟩ := id h
  exact act_shows_quiet h _ rfl (fun _ => rfl) rfl rfl rfl hpc

theorem bwrite_shows (h : Shows p .idle B D N U c) {b : BufId} (hl : (B b).lock = some p) :
    Loop.Safe Unexpected
      (Shows p .idle B (update D (sector (B b).blockno) (B b).data) N U)
      (bwrite p b c) := by
  obtain ⟨rfl, rfl, rfl, -, -, hpc⟩ := id h
  have hn : next c.bio (.bwrite p b) = .ok { c.bio with
      disk := update c.bio.disk (sector (c.bio.buf b).blockno) (c.bio.buf b).data
      dirty := update c.bio.dirty b false } := by
    rw [next, if_neg (by simp [hl])]
  exact act_shows_quiet h _ hn (fun _ => rfl) rfl rfl rfl hpc

theorem brelse_shows (h : Shows p .idle B D N U c) {b : BufId} (hl : (B b).lock = some p) :
    Loop.Safe Unexpected (Shows p .idle (update B b { B b with
      lock := none, refcnt := (B b).refcnt - 1 }) D N U) (brelse p b c) := by
  obtain ⟨rfl, rfl, rfl, -, -, -⟩ := id h
  have hn : next c.bio (.brelse p b) =
      .ok ((c.bio.setBuf b { c.bio.buf b with lock := none }).setPc p (.release b)) := by
    rw [next, if_neg (by simp [hl])]
  have h₁ : Loop.Safe Unexpected (Shows p (.release b) (update c.bio.buf b
      { c.bio.buf b with lock := none }) c.bio.disk c.bio.pins U) (act (.brelse p b) c) :=
    act_shows_quiet h _ hn (fun _ => rfl) rfl rfl rfl (by simp [State.setPc])
  refine h₁.bind fun c₁ h₁ => ?_
  -- The list changes if the counter has reached `0`; the buffers are the same in both cases.
  obtain ⟨s₂, hs₂, hbuf, hdisk, hpins, hpc⟩ : ∃ s₂, next c₁.bio (.drop p b) = .ok s₂ ∧
      s₂.buf = update c₁.bio.buf b
        { c₁.bio.buf b with refcnt := (c₁.bio.buf b).refcnt - 1 } ∧
      s₂.disk = c₁.bio.disk ∧ s₂.pins = c₁.bio.pins ∧ s₂.pc p = .idle := by
    rw [next]
    split_ifs
    · exact ⟨_, rfl, rfl, rfl, rfl, by simp [State.setPc]⟩
    · exact ⟨_, rfl, rfl, rfl, rfl, by simp [State.setPc]⟩
  refine act_shows_quiet h₁ _ hs₂ (fun _ => rfl) ?_ (hdisk.trans h₁.disk) (hpins.trans h₁.pins) hpc
  simp [hbuf, h₁.buf]

theorem bunpin_shows (h : Shows p .idle B D N U c) (b : BufId) :
    Loop.Safe Unexpected (Shows p .idle (update B b { B b with
      refcnt := (B b).refcnt - 1 }) D (update N b (N b - 1))
      (update U b (U b + 1))) (bunpin p b c) := by
  obtain ⟨rfl, rfl, rfl, -, -, hpc⟩ := id h
  refine act_shows h _ rfl (fun b' => ?_) rfl rfl rfl hpc
  by_cases hb : b' = b
  · simp [hb, unpins]
  · simp [hb, unpins, Ne.symm hb]

/-! ## The rounds -/

variable {dev : UInt32} {start : ℕ}

omit [DecidableEq P] in
theorem Found.eq_of_key {r : Req} {b o : BufId} (hrep : Rep c.bio) (hB : c.bio.buf = B)
    (hdev : r.dev ≠ 0) (ho : (B o).key = r) (h : Found B r b) : b = o := by
  rcases h with hb | ⟨hno, -⟩
  · subst hB
    refine hrep.unique b o (hb.trans ho.symm) ?_
    rw [← hb] at hdev
    exact hdev
  · exact absurd ho (hno o)

theorem bread_cached_shows {r : Req} {o : BufId} (hS : Shows p .idle B D N U c)
    (hdev : r.dev ≠ 0) (ho : (B o).key = r) (hv : (B o).valid = true) (hl : (B o).lock = none) :
    Loop.Safe Unexpected (fun x => x.1 = o ∧ Shows p .idle (update B o
      { B o with lock := some p, refcnt := (B o).refcnt + 2 }) D N U x.2) (bread p r c) := by
  have hfound : ∀ b, Found B r b → b = o := fun b hb => hb.eq_of_key hS.rep hS.buf hdev ho
  refine (bread_shows hS fun b hb => hfound b hb ▸ hl).mono fun x hx => ?_
  obtain ⟨hb, h⟩ := hx
  rw [hfound _ hb] at h
  refine ⟨hfound _ hb, ?_⟩
  subst ho
  simpa [taken, hv, Buf.key] using h

/-- The buffers while `b` and `o` are held. -/
def held (B : BufId → Buf P) (b o : BufId) (X Y : Buf P) : BufId → Buf P :=
  update (update B b X) o Y

section Held

variable {b o : BufId} {X Y : Buf P}

omit [DecidableEq P] in
theorem held_left (hne : b ≠ o) : held B b o X Y b = X := by simp [held, hne]

omit [DecidableEq P] in
theorem held_right : held B b o X Y o = Y := by simp [held]

omit [DecidableEq P] in
theorem update_held_left (hne : b ≠ o) (X' : Buf P) :
    update (held B b o X Y) b X' = held B b o X' Y := by
  rw [held, update_comm hne.symm, update_idem, held]

omit [DecidableEq P] in
theorem update_held_right (Y' : Buf P) :
    update (held B b o X Y) o Y' = held B b o X Y' := by
  rw [held, update_idem, held]

end Held

theorem bread_home_shows {h : UInt32} {b o : BufId} {X : Buf P}
    (hS : Shows p .idle (update B b X) D N U c) (hne : b ≠ o) (hdev : dev ≠ 0)
    (ho : (B o).key = ⟨dev, h⟩) (hv : (B o).valid = true) (hl : (B o).lock = none) :
    Loop.Safe Unexpected (fun x => x.1 = o ∧ Shows p .idle (held B b o X
      { B o with lock := some p, refcnt := (B o).refcnt + 2 }) D N U x.2)
      (bread p ⟨dev, h⟩ c) := by
  have hBo : update B b X o = B o := update_of_ne hne.symm _ _
  refine (bread_cached_shows (o := o) hS hdev ?_ ?_ ?_).mono fun x hx => ?_
  · rw [hBo, ho]
  · rw [hBo, hv]
  · rw [hBo, hl]
  · rw [hBo] at hx
    exact hx

theorem writeLogRound_shows {h : UInt32} {tail : ℕ} {o : BufId} (hS : Shows p .idle B D N U c)
    (hdev : dev ≠ 0) (ho : (B o).key = ⟨dev, h⟩) (hv : (B o).valid = true)
    (hl : (B o).lock = none)
    (hfree : ∀ b, Found B ⟨dev, slot start tail⟩ b → (B b).lock = none ∧ b ≠ o) :
    Loop.Safe Unexpected (fun c' => ∃ b v, Found B ⟨dev, slot start tail⟩ b ∧ b ≠ o ∧
      Shows p .idle (held B b o ⟨true, dev, slot start tail, none, v, (B o).data⟩
          { B o with refcnt := (B o).refcnt + 1 })
        (update D (sector (slot start tail)) (B o).data) N U c')
      (writeLogRound p dev start h tail c) := by
  refine (bread_shows hS fun b hb => (hfree b hb).1).bind ?_
  rintro ⟨b, c₁⟩ ⟨hb, h₁⟩
  have hne : b ≠ o := (hfree b hb).2
  refine (bread_home_shows h₁ hne hdev ho hv hl).bind ?_
  rintro ⟨o', c₂⟩ ⟨ho', h₂⟩
  obtain rfl : o = o' := ho'.symm
  refine (memmove_shows h₂ b _).bind fun c₃ h₃ => ?_
  rw [update_held_left hne, held_left hne, h₂.buf, held_right] at h₃
  refine (bwrite_shows h₃ (by rw [held_left hne]; rfl)).bind fun c₄ h₄ => ?_
  rw [held_left hne] at h₄
  refine (brelse_shows h₄ (by rw [held_right])).bind fun c₅ h₅ => ?_
  rw [update_held_right, held_right] at h₅
  refine (brelse_shows h₅ (by rw [held_left hne]; rfl)).mono fun c₆ h₆ => ?_
  rw [update_held_left hne, held_left hne] at h₆
  have hcnt : (B o).refcnt + 2 - 1 = (B o).refcnt + 1 := by grind
  refine ⟨b, (taken B D p ⟨dev, slot start tail⟩ b).refcnt - 1, hb, hne, ?_⟩
  simpa only [hcnt, hl, taken] using h₆

theorem writeHead_shows {lh : List UInt32} (hS : Shows p .idle B D N U c)
    (hfree : ∀ b, Found B ⟨dev, UInt32.ofNat start⟩ b → (B b).lock = none) :
    Loop.Safe Unexpected (fun c' => ∃ b v x, Found B ⟨dev, UInt32.ofNat start⟩ b ∧
      Shows p .idle (update B b ⟨true, dev, UInt32.ofNat start, none, v, x⟩)
        (update D (sector (UInt32.ofNat start)) x) N U c')
      (writeHead p dev start lh c) := by
  refine (bread_shows hS hfree).bind ?_
  rintro ⟨b, c₁⟩ ⟨hb, h₁⟩
  refine (memmove_shows h₁ b _).bind fun c₂ h₂ => ?_
  rw [update_idem, update_self] at h₂
  refine (bwrite_shows h₂ (by rw [update_self]; rfl)).bind fun c₃ h₃ => ?_
  rw [update_self] at h₃
  refine (brelse_shows h₃ (by rw [update_self]; rfl)).mono fun c₄ h₄ => ?_
  rw [update_idem, update_self] at h₄
  exact ⟨b, _, _, hb, h₄⟩

theorem installRound_shows {h : UInt32} {tail : ℕ} {o : BufId} (hS : Shows p .idle B D N U c)
    (hdev : dev ≠ 0) (ho : (B o).key = ⟨dev, h⟩) (hv : (B o).valid = true)
    (hl : (B o).lock = none)
    (hfree : ∀ b, Found B ⟨dev, slot start tail⟩ b → (B b).lock = none ∧ b ≠ o) :
    Loop.Safe Unexpected (fun c' => ∃ b v x, Found B ⟨dev, slot start tail⟩ b ∧ b ≠ o ∧
      x = (taken B D p ⟨dev, slot start tail⟩ b).data ∧
      Shows p .idle (held B b o ⟨true, dev, slot start tail, none, v, x⟩ { B o with data := x })
        (update D (sector h) x) (update N o (N o - 1))
        (update U o (U o + 1)) c')
      (installRound p dev start h tail c) := by
  refine (bread_shows hS fun b hb => (hfree b hb).1).bind ?_
  rintro ⟨b, c₁⟩ ⟨hb, h₁⟩
  have hne : b ≠ o := (hfree b hb).2
  refine (bread_home_shows h₁ hne hdev ho hv hl).bind ?_
  rintro ⟨o', c₂⟩ ⟨ho', h₂⟩
  obtain rfl : o = o' := ho'.symm
  refine (memmove_shows h₂ o _).bind fun c₃ h₃ => ?_
  rw [update_held_right, held_right, h₂.buf, held_left hne] at h₃
  refine (bwrite_shows h₃ (by rw [held_right])).bind fun c₄ h₄ => ?_
  rw [held_right] at h₄
  refine (bunpin_shows h₄ o).bind fun c₅ h₅ => ?_
  rw [update_held_right, held_right] at h₅
  refine (brelse_shows h₅ (by rw [held_left hne]; rfl)).bind fun c₆ h₆ => ?_
  rw [update_held_left hne, held_left hne] at h₆
  refine (brelse_shows h₆ (by rw [held_right])).mono fun c₇ h₇ => ?_
  rw [update_held_right, held_right] at h₇
  have hcnt : (B o).refcnt + 2 - 1 - 1 = (B o).refcnt := by grind
  have hblk : (B o).blockno = h := congrArg Req.blockno ho
  refine ⟨b, (taken B D p ⟨dev, slot start tail⟩ b).refcnt - 1, _, hb, hne, rfl, ?_⟩
  simpa only [hcnt, hl, hblk, taken] using h₇

end Parts

/-! ## The commit -/

/-- A block that `commit()` reads: a home block, or a block of the log area. -/
def Used (dev : UInt32) (start : ℕ) (lh : List UInt32) (r : Req) : Prop :=
  r.dev = dev ∧ (r.blockno ∈ lh ∨ InLog start r.blockno.toNat)

/-- The start of `commit()`: `lh` lists distinct home blocks outside the log area, and the block
`h` is pinned once in the buffer `own h`. Nobody holds a buffer that `commit()` may choose. -/
structure Ready {P : Type} (p : P) (dev : UInt32) (start : ℕ) (lh : List UInt32)
    (own : UInt32 → BufId) (s : State P) : Prop where
  rep : Rep s
  idle : s.pc p = .idle
  dev_eq : dev.toNat = ROOTDEV
  area : start + LOGBLOCKS < 2 ^ 31
  nodup : lh.Nodup
  length_le : lh.length ≤ LOGBLOCKS
  home : ∀ h ∈ lh, h.toNat < 2 ^ 31 ∧ ¬ InLog start h.toNat
  key : ∀ h ∈ lh, (s.buf (own h)).key = ⟨dev, h⟩
  valid : ∀ h ∈ lh, (s.buf (own h)).valid = true
  pins : ∀ h ∈ lh, s.pins (own h) = 1
  free : ∀ b, (s.buf b).lock ≠ none → (s.buf b).refcnt ≠ 0 ∧ ¬ Used dev start lh (s.buf b).key

/-- **The transaction is installed, and nothing else**, when `commit()` has returned: every home
block has on the disk the contents its buffer had, every other block outside the log area is
unchanged, the log is empty, every pin is released exactly once and nothing else is unpinned, and
the buffers of the home blocks agree with the disk. -/
structure Installed {P : Type} (dev : UInt32) (start : ℕ) (lh : List UInt32)
    (own : UInt32 → BufId) (s : State P) (lh' : List UInt32) (c : Cfg P) : Prop where
  home : ∀ h ∈ lh, c.bio.disk (sector h) = (s.buf (own h)).data
  other : ∀ b : UInt32, b.toNat < 2 ^ 31 → ¬ InLog start b.toNat → b ∉ lh →
    c.bio.disk (sector b) = s.disk (sector b)
  empty : lh' = []
  pins : ∀ h ∈ lh, c.bio.pins (own h) = 0
  unpinned : ∀ h ∈ lh, c.trace.countP (unpins (own h)) = 1
  unpinned_other : ∀ b, (∀ h ∈ lh, own h ≠ b) → c.trace.countP (unpins b) = 0
  clean : ∀ h ∈ lh, ∀ b, (c.bio.buf b).key = ⟨dev, h⟩ → (c.bio.buf b).valid = true →
    (c.bio.buf b).data = c.bio.disk (sector h)

/-- The outcome of `commit()`: it returns, with the transaction installed. The only way to stop is
that `bget` does not find a buffer. -/
def Installs {P : Type} (dev : UInt32) (start : ℕ) (lh : List UInt32) (own : UInt32 → BufId)
    (s : State P) (r : Except Stop (List UInt32 × Cfg P)) : Prop :=
  (∀ x, r = .error x → x = .panic .noBuffers) ∧
    ∀ lh' c, r = .ok (lh', c) → Installed dev start lh own s lh' c

theorem sector_ne {a b : UInt32} (ha : a.toNat < 2 ^ 31) (hb : b.toNat < 2 ^ 31) (hne : a ≠ b) :
    sector a ≠ sector b := by
  intro h
  have ha' : Req.OnRoot ⟨1, a⟩ := ⟨rfl, ha⟩
  have hb' : Req.OnRoot ⟨1, b⟩ := ⟨rfl, hb⟩
  exact hne (congrArg Req.blockno (ha'.eq_of_sector_eq hb' h))

section Commit

variable {P : Type}

/-- The contents of the home block number `i` at the start. -/
def contents (lh : List UInt32) (own : UInt32 → BufId) (s : State P) (i : ℕ) : Block :=
  (s.buf (own (lhBlock lh i))).data

/-- **The invariant of `commit()`**, when `w` slots are written and `k` blocks installed: the home
blocks are in their buffers as at the start, one higher in `refcnt` once they were copied, and
the slots have their contents. -/
structure Inv (dev : UInt32) (start : ℕ) (lh : List UInt32) (own : UInt32 → BufId) (s : State P)
    (w k : ℕ) (B : BufId → Buf P) (D : UInt32 → Block) (N U : BufId → ℕ) : Prop where
  written_le : w ≤ lh.length
  installed_le : k ≤ lh.length
  free : ∀ b, (B b).lock ≠ none → (B b).refcnt ≠ 0 ∧ ¬ Used dev start lh (B b).key
  home : ∀ i < lh.length, B (own (lhBlock lh i)) = { s.buf (own (lhBlock lh i)) with
    refcnt := (s.buf (own (lhBlock lh i))).refcnt + if i < w then 1 else 0 }
  slot_disk : ∀ i < w, D (sector (slot start i)) = contents lh own s i
  slot_buf : ∀ i < w, ∀ b, (B b).key = ⟨dev, slot start i⟩ → (B b).valid = true →
    (B b).data = contents lh own s i
  done : ∀ i < k, D (sector (lhBlock lh i)) = contents lh own s i
  other : ∀ b : UInt32, b.toNat < 2 ^ 31 → ¬ InLog start b.toNat → b ∉ lh →
    D (sector b) = s.disk (sector b)
  pins : ∀ i < lh.length, N (own (lhBlock lh i)) = if i < k then 0 else 1
  count : ∀ i < lh.length, U (own (lhBlock lh i)) = if i < k then 1 else 0
  count_other : ∀ b, (∀ h ∈ lh, own h ≠ b) → U b = 0

variable {p : P} {dev : UInt32} {start : ℕ} {lh : List UInt32} {own : UInt32 → BufId}
  {s : State P} {w k i j : ℕ} {B : BufId → Buf P} {D : UInt32 → Block} {N U : BufId → ℕ}

theorem lhBlock_mem (hi : i < lh.length) : lhBlock lh i ∈ lh := by
  rw [lhBlock, List.getD_eq_getElem _ _ hi]
  exact List.getElem_mem hi

theorem exists_lhBlock {h : UInt32} (hh : h ∈ lh) : ∃ i < lh.length, lhBlock lh i = h := by
  obtain ⟨i, hi, rfl⟩ := List.getElem_of_mem hh
  exact ⟨i, hi, List.getD_eq_getElem _ _ hi⟩

namespace Ready

variable (hs : Ready p dev start lh own s)
include hs

theorem dev_ne : dev ≠ 0 := by
  rintro rfl
  exact absurd hs.dev_eq (by decide)

theorem lhBlock_inj (hi : i < lh.length) (hj : j < lh.length) (h : lhBlock lh i = lhBlock lh j) :
    i = j := by
  rw [lhBlock, lhBlock, List.getD_eq_getElem _ _ hi, List.getD_eq_getElem _ _ hj] at h
  exact (hs.nodup.getElem_inj_iff).mp h

theorem own_inj {h h' : UInt32} (hh : h ∈ lh) (hh' : h' ∈ lh) (e : own h = own h') : h = h' := by
  have := hs.key h hh
  rw [e, hs.key h' hh'] at this
  exact (congrArg Req.blockno this).symm

theorem own_ne (hi : i < lh.length) (hj : j < lh.length) (hne : i ≠ j) :
    own (lhBlock lh i) ≠ own (lhBlock lh j) :=
  fun h => hne (hs.lhBlock_inj hi hj (hs.own_inj (lhBlock_mem hi) (lhBlock_mem hj) h))

theorem lhBlock_ne_log (hi : i < lh.length) {l : UInt32} (hl : InLog start l.toNat) :
    lhBlock lh i ≠ l := by
  rintro rfl
  exact (hs.home _ (lhBlock_mem hi)).2 hl

theorem slot_toNat (hi : i < LOGBLOCKS) : (slot start i).toNat = start + i + 1 := by
  have := hs.area
  rw [slot, UInt32.toNat_ofNat']
  omega

theorem start_toNat : (UInt32.ofNat start).toNat = start := by
  have := hs.area
  rw [UInt32.toNat_ofNat']
  omega

theorem inLog_slot (hi : i < LOGBLOCKS) : InLog start (slot start i).toNat := by
  rw [hs.slot_toNat hi, InLog]
  omega

theorem inLog_start : InLog start (UInt32.ofNat start).toNat := by
  rw [hs.start_toNat, InLog]
  omega

theorem slot_inj (hi : i < LOGBLOCKS) (hj : j < LOGBLOCKS) (h : slot start i = slot start j) :
    i = j := by
  have := congrArg UInt32.toNat h
  rw [hs.slot_toNat hi, hs.slot_toNat hj] at this
  omega

theorem slot_ne_start (hi : i < LOGBLOCKS) : slot start i ≠ UInt32.ofNat start := by
  intro h
  have := congrArg UInt32.toNat h
  rw [hs.slot_toNat hi, hs.start_toNat] at this
  omega

theorem lt_of_inLog {l : UInt32} (hl : InLog start l.toNat) : l.toNat < 2 ^ 31 := by
  have := hs.area
  rw [InLog] at hl
  omega

theorem sector_ne_log {l b : UInt32} (hl : InLog start l.toNat) (hb : b.toNat < 2 ^ 31)
    (hnb : ¬ InLog start b.toNat) : sector b ≠ sector l := by
  refine sector_ne hb (hs.lt_of_inLog hl) ?_
  rintro rfl
  exact hnb hl

end Ready

/-- No counter of a home block is at a value from which it reaches `0` while it is pinned. -/
def NoWrap (lh : List UInt32) (own : UInt32 → BufId) (s : State P) : Prop :=
  ∀ h ∈ lh, (s.buf (own h)).refcnt ≠ 0 ∧ (s.buf (own h)).refcnt + 1 ≠ 0

theorem Ready.inv (hs : Ready p dev start lh own s) :
    Inv dev start lh own s 0 0 s.buf s.disk s.pins fun _ => 0 where
  written_le := Nat.zero_le _
  installed_le := Nat.zero_le _
  free := hs.free
  home i _ := by simp
  slot_disk i hi := absurd hi (Nat.not_lt_zero i)
  slot_buf i hi := absurd hi (Nat.not_lt_zero i)
  done i hi := absurd hi (Nat.not_lt_zero i)
  other _ _ _ _ := rfl
  pins i hi := by simp [hs.pins _ (lhBlock_mem hi)]
  count i _ := by simp
  count_other _ _ := rfl

namespace Inv

variable (hI : Inv dev start lh own s w k B D N U) (hs : Ready p dev start lh own s)
include hI hs

theorem key_home (hi : i < lh.length) :
    (B (own (lhBlock lh i))).key = ⟨dev, lhBlock lh i⟩ := by
  rw [hI.home i hi]
  exact hs.key _ (lhBlock_mem hi)

theorem valid_home (hi : i < lh.length) : (B (own (lhBlock lh i))).valid = true := by
  rw [hI.home i hi]
  exact hs.valid _ (lhBlock_mem hi)

theorem lock_home (hi : i < lh.length) : (B (own (lhBlock lh i))).lock = none := by
  by_contra h
  refine (hI.free _ h).2 ?_
  rw [hI.key_home hs hi]
  exact ⟨rfl, Or.inl (lhBlock_mem hi)⟩

omit hs in
/-- **A pinned buffer is not recycled**, unless its counter wraps around. -/
theorem refcnt_home (hc : NoWrap lh own s) (hi : i < lh.length) :
    (B (own (lhBlock lh i))).refcnt ≠ 0 := by
  rw [hI.home i hi]
  have := hc _ (lhBlock_mem hi)
  by_cases hw : i < w
  · simpa [hw] using this.2
  · simpa [hw] using this.1

theorem found_log (hc : NoWrap lh own s) {l : UInt32} (hl : InLog start l.toNat) {b : BufId}
    (hb : Found B ⟨dev, l⟩ b) : (B b).lock = none ∧ ∀ i < lh.length, b ≠ own (lhBlock lh i) := by
  rcases hb with hb | ⟨-, h0⟩
  · constructor
    · by_contra h
      refine (hI.free b h).2 ?_
      rw [hb]
      exact ⟨rfl, Or.inr hl⟩
    · rintro i hi rfl
      rw [hI.key_home hs hi] at hb
      exact hs.lhBlock_ne_log hi hl (congrArg Req.blockno hb)
  · constructor
    · by_contra h
      exact (hI.free b h).1 h0
    · rintro i hi rfl
      exact hI.refcnt_home hc hi h0

/-- Writing a block of the log area keeps the invariant, if a slot that has its contents gets
them again. -/
theorem setLog {l : UInt32} (hl : InLog start l.toNat) {b : BufId}
    (hb : ∀ i < lh.length, b ≠ own (lhBlock lh i)) {v : UInt32} {x : Block}
    (hx : ∀ i < w, slot start i = l → x = contents lh own s i) :
    Inv dev start lh own s w k (update B b ⟨true, dev, l, none, v, x⟩)
      (update D (sector l) x) N U where
  written_le := hI.written_le
  installed_le := hI.installed_le
  free b' h := by
    by_cases hb' : b' = b
    · rw [hb', update_self] at h
      exact absurd rfl h
    · rw [update_of_ne hb'] at h ⊢
      exact hI.free b' h
  home i hi := by rw [update_of_ne (hb i hi).symm, hI.home i hi]
  slot_disk i hi := by
    by_cases he : slot start i = l
    · rw [he, update_self, hx i hi he]
    · have hi' : i < LOGBLOCKS := lt_of_lt_of_le hi (hI.written_le.trans hs.length_le)
      rw [update_of_ne (sector_ne (hs.lt_of_inLog (hs.inLog_slot hi')) (hs.lt_of_inLog hl) he),
        hI.slot_disk i hi]
  slot_buf i hi b' hk hv := by
    by_cases hb' : b' = b
    · rw [hb', update_self] at hk ⊢
      exact hx i hi (congrArg Req.blockno hk).symm
    · rw [update_of_ne hb'] at hk hv ⊢
      exact hI.slot_buf i hi b' hk hv
  done i hi := by
    have hh := hs.home _ (lhBlock_mem (lt_of_lt_of_le hi hI.installed_le))
    rw [update_of_ne (hs.sector_ne_log hl hh.1 hh.2), hI.done i hi]
  other b' h31 hnl hn := by
    rw [update_of_ne (hs.sector_ne_log hl h31 hnl), hI.other b' h31 hnl hn]
  pins := hI.pins
  count := hI.count
  count_other := hI.count_other

/-- A round of `write_log` is complete: the slot has its contents, and the home block is counted
once more. -/
theorem wrote (hw : w < lh.length) (hD : D (sector (slot start w)) = contents lh own s w)
    (hB : ∀ b, (B b).key = ⟨dev, slot start w⟩ → (B b).valid = true →
      (B b).data = contents lh own s w) :
    Inv dev start lh own s (w + 1) k (update B (own (lhBlock lh w))
      { B (own (lhBlock lh w)) with refcnt := (B (own (lhBlock lh w))).refcnt + 1 }) D N U where
  written_le := hw
  installed_le := hI.installed_le
  free b h := by
    by_cases hb : b = own (lhBlock lh w)
    · rw [hb, update_self] at h
      exact absurd (hI.lock_home hs hw) h
    · rw [update_of_ne hb] at h ⊢
      exact hI.free b h
  home i hi := by
    by_cases he : i = w
    · subst he
      rw [update_self, hI.home i hi]
      simp
    · have : i < w + 1 ↔ i < w := by omega
      rw [update_of_ne (hs.own_ne hi hw he), hI.home i hi]
      simp only [this]
  slot_disk i hi := by
    rcases Nat.lt_succ_iff_lt_or_eq.mp hi with hi | rfl
    · exact hI.slot_disk i hi
    · exact hD
  slot_buf i hi b hk hv := by
    have hi' : i < LOGBLOCKS := lt_of_lt_of_le hi (Nat.succ_le_of_lt hw |>.trans hs.length_le)
    have hb : b ≠ own (lhBlock lh w) := by
      rintro rfl
      rw [update_self] at hk
      exact hs.lhBlock_ne_log hw (hs.inLog_slot hi')
        (congrArg Req.blockno ((hI.key_home hs hw).symm.trans hk))
    rw [update_of_ne hb] at hk hv ⊢
    rcases Nat.lt_succ_iff_lt_or_eq.mp hi with hi | rfl
    · exact hI.slot_buf i hi b hk hv
    · exact hB b hk hv
  done := hI.done
  other := hI.other
  pins := hI.pins
  count := hI.count
  count_other := hI.count_other

/-- A round of `install_trans` is complete: the home block is on the disk, and not pinned any
more. -/
theorem installed (hk : k < lh.length) : Inv dev start lh own s w (k + 1) B
    (update D (sector (lhBlock lh k)) (contents lh own s k))
    (update N (own (lhBlock lh k)) (N (own (lhBlock lh k)) - 1))
    (update U (own (lhBlock lh k)) (U (own (lhBlock lh k)) + 1)) where
  written_le := hI.written_le
  installed_le := hk
  free := hI.free
  home := hI.home
  slot_disk i hi := by
    have hh := hs.home _ (lhBlock_mem hk)
    have hi' : i < LOGBLOCKS := lt_of_lt_of_le hi (hI.written_le.trans hs.length_le)
    rw [update_of_ne (hs.sector_ne_log (hs.inLog_slot hi') hh.1 hh.2).symm,
      hI.slot_disk i hi]
  slot_buf := hI.slot_buf
  done i hi := by
    have hi' : i < lh.length := lt_of_lt_of_le hi (Nat.succ_le_of_lt hk)
    by_cases he : i = k
    · rw [he, update_self]
    · have hne : lhBlock lh i ≠ lhBlock lh k := fun h => he (hs.lhBlock_inj hi' hk h)
      rw [update_of_ne (sector_ne (hs.home _ (lhBlock_mem hi')).1
        (hs.home _ (lhBlock_mem hk)).1 hne), hI.done i (by omega)]
  other b h31 hnl hn := by
    have hne : b ≠ lhBlock lh k := by
      rintro rfl
      exact hn (lhBlock_mem hk)
    rw [update_of_ne (sector_ne h31 (hs.home _ (lhBlock_mem hk)).1 hne),
      hI.other b h31 hnl hn]
  pins i hi := by
    by_cases he : i = k
    · subst he
      rw [update_self, hI.pins i hi]
      simp
    · have : i < k + 1 ↔ i < k := by omega
      rw [update_of_ne (hs.own_ne hi hk he), hI.pins i hi]
      simp only [this]
  count i hi := by
    by_cases he : i = k
    · subst he
      rw [update_self, hI.count i hi]
      simp
    · have : i < k + 1 ↔ i < k := by omega
      rw [update_of_ne (hs.own_ne hi hk he), hI.count i hi]
      simp only [this]
  count_other b hb := by
    rw [update_of_ne (hb _ (lhBlock_mem hk)).symm, hI.count_other b hb]

end Inv

/-- The invariant, of a configuration. -/
def Holds (p : P) (dev : UInt32) (start : ℕ) (lh : List UInt32) (own : UInt32 → BufId)
    (s : State P) (w k : ℕ) (c : Cfg P) : Prop :=
  ∃ B D N U, Shows p .idle B D N U c ∧ Inv dev start lh own s w k B D N U

variable [DecidableEq P] {c : Cfg P} (hs : Ready p dev start lh own s) (hc : NoWrap lh own s)
include hs hc

theorem Holds.writeLogRound (hw : w < lh.length) (h : Holds p dev start lh own s w k c) :
    Loop.Safe Unexpected (Holds p dev start lh own s (w + 1) k)
      (writeLogRound p dev start (lhBlock lh w) w c) := by
  obtain ⟨B, D, N, U, hS, hI⟩ := h
  have hl := hs.inLog_slot (lt_of_lt_of_le hw hs.length_le)
  have hfound := fun b hb => hI.found_log hs hc hl (b := b) hb
  refine (writeLogRound_shows hS hs.dev_ne (hI.key_home hs hw) (hI.valid_home hs hw)
    (hI.lock_home hs hw) fun b hb => ⟨(hfound b hb).1, (hfound b hb).2 w hw⟩).mono ?_
  rintro c' ⟨b, v, hb, hne, hS'⟩
  have hx : (B (own (lhBlock lh w))).data = contents lh own s w := by rw [hI.home w hw, contents]
  rw [hx] at hS'
  refine ⟨_, _, _, _, hS', ?_⟩
  have h₁ : Inv dev start lh own s w k _ _ N U :=
    hI.setLog hs hl (hfound b hb).2 (v := v) (x := contents lh own s w) fun i hi he => by
      rw [hs.slot_inj (hi.trans (lt_of_lt_of_le hw hs.length_le))
        (lt_of_lt_of_le hw hs.length_le) he]
  have h₂ := h₁.wrote hs hw (update_self _ _ _) fun b' hk _ => ?_
  · rwa [update_of_ne hne.symm] at h₂
  · -- The slot has only one buffer, the one that was written.
    by_cases hb' : b' = b
    · rw [hb', update_self]
    · rw [update_of_ne hb'] at hk
      exact absurd (hb.eq_of_key hS.rep hS.buf hs.dev_ne hk).symm hb'

theorem Holds.writeLog (h : Holds p dev start lh own s 0 k c) :
    Loop.Safe Unexpected (Holds p dev start lh own s lh.length k) (writeLog p dev start lh c) :=
  Loop.Safe.foldlM_range (fun w c => Holds p dev start lh own s w k c) h
    fun _ hw _ h => h.writeLogRound hs hc hw

theorem Holds.writeHead {l : List UInt32} (h : Holds p dev start lh own s w k c) :
    Loop.Safe Unexpected (Holds p dev start lh own s w k) (writeHead p dev start l c) := by
  obtain ⟨B, D, N, U, hS, hI⟩ := h
  have hl := hs.inLog_start
  refine (writeHead_shows hS fun b hb => (hI.found_log hs hc hl hb).1).mono ?_
  rintro c' ⟨b, v, x, hb, hS'⟩
  refine ⟨_, _, _, _, hS', hI.setLog hs hl (hI.found_log hs hc hl hb).2 fun i hi he => ?_⟩
  have hi' : i < LOGBLOCKS := lt_of_lt_of_le hi (hI.written_le.trans hs.length_le)
  exact absurd he (hs.slot_ne_start hi')

theorem Holds.installRound (hk : k < lh.length)
    (h : Holds p dev start lh own s lh.length k c) :
    Loop.Safe Unexpected (Holds p dev start lh own s lh.length (k + 1))
      (installRound p dev start (lhBlock lh k) k c) := by
  obtain ⟨B, D, N, U, hS, hI⟩ := h
  have hl := hs.inLog_slot (lt_of_lt_of_le hk hs.length_le)
  have hfound := fun b hb => hI.found_log hs hc hl (b := b) hb
  refine (installRound_shows hS hs.dev_ne (hI.key_home hs hk) (hI.valid_home hs hk)
    (hI.lock_home hs hk) fun b hb => ⟨(hfound b hb).1, (hfound b hb).2 k hk⟩).mono ?_
  rintro c' ⟨b, v, x, hb, hne, hx, hS'⟩
  -- What is read from the slot is what was copied there, from the buffer or from the disk.
  have hx' : x = contents lh own s k := by
    rw [hx]
    change (if _ then _ else _) = _
    split_ifs with hb'
    · exact hI.slot_buf k hk b hb'.1 hb'.2
    · exact hI.slot_disk k hk
  rw [hx'] at hS'
  refine ⟨_, _, _, _, hS', ?_⟩
  have h₁ : Inv dev start lh own s lh.length k _ _ N U :=
    hI.setLog hs hl (hfound b hb).2 (v := v) (x := contents lh own s k) fun i hi he => by
      rw [hs.slot_inj (lt_of_lt_of_le hi hs.length_le) (lt_of_lt_of_le hk hs.length_le) he]
  have hD : update D (sector (slot start k)) (contents lh own s k) = D :=
    update_eq_self_iff.mpr (hI.slot_disk k hk).symm
  have hB : ∀ X, held B b (own (lhBlock lh k)) X
      { B (own (lhBlock lh k)) with data := contents lh own s k } = update B b X := by
    intro X
    refine update_eq_self_iff.mpr ?_
    rw [update_of_ne hne.symm, hI.home k hk, contents]
  rw [hB]
  rw [hD] at h₁
  exact h₁.installed hs hk

theorem Holds.installTrans (h : Holds p dev start lh own s lh.length 0 c) :
    Loop.Safe Unexpected (Holds p dev start lh own s lh.length lh.length)
      (installTrans p dev start lh c) :=
  Loop.Safe.foldlM_range (fun k c => Holds p dev start lh own s lh.length k c) h
    fun _ hk _ h => h.installRound hs hc hk

omit hc [DecidableEq P] in
theorem Holds.installed (h : Holds p dev start lh own s lh.length lh.length c) :
    Installed dev start lh own s [] c := by
  obtain ⟨B, D, N, U, hS, hI⟩ := h
  have hdisk : ∀ h ∈ lh, c.bio.disk (sector h) = (s.buf (own h)).data := by
    intro h hh
    obtain ⟨i, hi, rfl⟩ := exists_lhBlock hh
    rw [hS.disk]
    exact hI.done i hi
  refine ⟨hdisk, fun b h31 hnl hn => ?_, rfl, fun h hh => ?_, fun h hh => ?_, fun b hb => ?_,
    fun h hh b hk _ => ?_⟩
  · rw [hS.disk]
    exact hI.other b h31 hnl hn
  · obtain ⟨i, hi, rfl⟩ := exists_lhBlock hh
    rw [hS.pins, hI.pins i hi, if_pos hi]
  · obtain ⟨i, hi, rfl⟩ := exists_lhBlock hh
    rw [hS.count, hI.count i hi, if_pos hi]
  · rw [hS.count]
    exact hI.count_other b hb
  · rw [hdisk h hh]
    obtain ⟨i, hi, rfl⟩ := exists_lhBlock hh
    have hb : b = own (lhBlock lh i) := by
      refine hS.rep.unique _ _ ?_ ?_
      · rw [hk, hS.buf, hI.key_home hs hi]
      · exact (congrArg Req.dev hk).trans_ne hs.dev_ne
    rw [hb, hS.buf, hI.home i hi]

theorem commit_safe : Loop.Safe Unexpected (fun x => Installed dev start lh own s x.1 x.2)
    (commit p dev start lh ⟨s, []⟩) := by
  have h₀ : Holds p dev start lh own s 0 0 ⟨s, []⟩ :=
    ⟨_, _, _, _, ⟨rfl, rfl, rfl, fun _ => rfl, hs.rep, hs.idle⟩, hs.inv⟩
  rw [commit]
  split_ifs with hn
  · refine Loop.Safe.bind (h₀.writeLog hs hc) fun c₁ h₁ => ?_
    refine Loop.Safe.bind (h₁.writeHead hs hc) fun c₂ h₂ => ?_
    refine Loop.Safe.bind (h₂.installTrans hs hc) fun c₃ h₃ => ?_
    refine Loop.Safe.bind (h₃.writeHead hs hc) fun c₄ h₄ => ?_
    exact h₄.installed hs
  · obtain rfl : lh = [] := by simpa using hn
    exact h₀.installed hs

/-- **A commit that is not interrupted installs the transaction and nothing else**, unless the
counter of a pinned buffer is at `0` or one below the end of its range. -/
theorem commit_installs : Installs dev start lh own s (commit p dev start lh ⟨s, []⟩) := by
  have h := commit_safe hs hc
  refine ⟨fun x hx => ?_, fun lh' c hr => h.of_eq_ok hr⟩
  by_contra hne
  exact h.ne_error hne hx

end Commit

/-! ## A counter that has wrapped around -/

theorem ready_pinned {L : Ring.Links BufId} {v : UInt32} (hrep : Rep (Bio.pinned L v)) :
    Ready () 1 10 [5] (fun _ => front) (Bio.pinned L v) where
  rep := hrep
  idle := rfl
  dev_eq := rfl
  area := by decide
  nodup := by decide
  length_le := by decide
  home h hh := by
    obtain rfl : h = 5 := by simpa using hh
    exact ⟨by decide, by decide⟩
  key h hh := by
    obtain rfl : h = 5 := by simpa using hh
    rw [Bio.pinned, oneBuf_buf]
    rfl
  valid _ _ := by
    rw [Bio.pinned, oneBuf_buf]
    rfl
  pins _ _ := by simp [Bio.pinned, oneBuf]
  free b hb := by
    refine absurd ?_ hb
    by_cases h : b = front
    · rw [h, Bio.pinned, oneBuf_buf]
      rfl
    · rw [Bio.pinned, oneBuf_buf_of_ne _ _ _ _ _ _ h]
      rfl

theorem commit_installs_pinned :
    Installs 1 10 [5] (fun _ => front) (Bio.pinned binitLinks 1)
      (commit () 1 10 [5] ⟨Bio.pinned binitLinks 1, []⟩) := by
  have hs := ready_pinned (rep_of_runs runs_pinned)
  have hc : NoWrap [5] (fun _ => front) (Bio.pinned binitLinks 1) := by
    intro h hh
    rw [Bio.pinned, oneBuf_buf]
    exact ⟨by decide, by decide⟩
  exact commit_installs hs hc

/-- A byte of block `5` on the disk after `commit()`, or `1` if it stops. -/
def committedByte (x : Except Stop (List UInt32 × Cfg Unit)) : UInt8 :=
  match x with
  | .ok (_, c) => c.bio.disk (sector 5) ⟨0, by decide⟩
  | .error _ => 1

theorem not_installs_of_committedByte {s : State Unit} {x : Except Stop (List UInt32 × Cfg Unit)}
    (hs : (s.buf front).data = ones) (hx : committedByte x = 0) :
    ¬ Installs 1 10 [5] (fun _ => front) s x := by
  intro h
  cases x with
  | error e => cases hx
  | ok r =>
    have h5 : r.2.bio.disk (sector 5) = ones := ((h.2 r.1 r.2 rfl).home 5 (by simp)).trans hs
    rw [committedByte, h5] at hx
    exact absurd hx (by decide)

theorem committedByte_wrapped :
    committedByte (commit () 1 10 [5] ⟨Bio.pinned (relinked binitLinks 0) 0, []⟩) = 0 := by
  decide +kernel

/-- **A pinned block is lost**: the counter of the buffer has been brought round to `0`, so the
first `bread` of `write_log` recycles it, and the old contents of the block are read from the
disk, logged and installed. -/
theorem wrapped_pin_loses_block : ∃ es s,
    Machine.Runs next LegalRoot (init Unit zeroSectors) es s ∧
      Ready () 1 10 [5] (fun _ => front) s ∧
      ¬ Installs 1 10 [5] (fun _ => front) s (commit () 1 10 [5] ⟨s, []⟩) := by
  have hones : ((Bio.pinned (relinked binitLinks 0) 0).buf front).data = ones := by
    rw [Bio.pinned, oneBuf_buf]
    rfl
  exact ⟨_, _, runs_wrapped, ready_pinned (rep_of_runs runs_wrapped),
    not_installs_of_committedByte hones committedByte_wrapped⟩

end RiscvOs.Commit
