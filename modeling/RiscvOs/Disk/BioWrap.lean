import RiscvOs.Disk.BioCoherence

set_option autoImplicit false

/-!
# A lost update in the buffer cache

Every hit leaves `refcnt` one higher than before, so reading a cached block `2 ^ 32 - 1` times
brings the counter of a pinned buffer from `1` round to `0`. The buffer is then recycled
although it is pinned, and the update in it is lost.

## Main results

* `runs_hitRound` — one round of reading and releasing the block.
* `wrapRun_loses_update` — the last `bread` of the run returns old data.
-/

namespace RiscvOs.Bio

open Function Machine

/-- A legal, disciplined step on the root device. -/
structure LegalRoot {P : Type} (s : State P) (e : Event P) : Prop where
  enabled : Enabled s e
  disciplined : Disciplined s e
  rootOnly : RootOnly e

section Front

variable {P : Type} [DecidableEq P] {s : State P} {p : P} {b : BufId} {r : Req}

theorem next_bget_hit (hb : s.links.next none = some b) (hk : (s.buf b).key = r) :
    next s (.bget p r) = .ok (s.hit p b r) := by
  have hs : s.links.scan (holdsBlock s r) NBUF (s.links.next none) = some (some b) := by
    rw [hb, show NBUF = 89 + 1 from rfl, Ring.Links.scan, if_pos (holdsBlock_iff.mpr hk)]
  rw [next, hs]

theorem next_bget_miss (h : Rep s) (hb : s.links.next none = some b)
    (hno : ∀ b', (s.buf b').key ≠ r) (h0 : (s.buf b).refcnt = 0) :
    next s (.bget p r) = .ok (s.recycle p b r) := by
  have hs : s.links.scan (holdsBlock s r) NBUF (s.links.next none) = some none := by
    rcases scan_cases h (holdsBlock s r) with ⟨b', hb', -⟩ | ⟨-, hs⟩
    · exact absurd (holdsBlock_iff.mp hb') (hno b')
    · exact hs
  have hs' : s.links.scan (unreferenced s) NBUF (s.links.next none) = some (some b) := by
    rw [hb, show NBUF = 89 + 1 from rfl, Ring.Links.scan, if_pos (by simp [unreferenced, h0])]
  rw [next, hs]
  simp only [hs']

end Front

/-- The cache of one process in which only the buffer `front` has been used, for one block that
was last given the data `last`. -/
def oneBuf (L : Ring.Links BufId) (c : Buf Unit) (pc : Pc) (pins : ℕ) (dirty : Bool)
    (last : Block) : State Unit where
  buf := update (init Unit zeroSectors).buf front c
  links := L
  disk := zeroSectors
  pc := fun _ => pc
  pins := update (fun _ => 0) front pins
  dirty := update (fun _ => false) front dirty
  latest := update (init Unit zeroSectors).latest block5 last

/-- The buffer with the update, released, with a given counter. -/
def cached (v : UInt32) : Buf Unit where
  valid := true
  dev := 1
  blockno := 5
  lock := none
  refcnt := v
  data := ones

/-- The updated block, pinned, with a given counter. -/
def pinned (L : Ring.Links BufId) (v : UInt32) : State Unit := oneBuf L (cached v) .idle 1 true ones

section OneBuf

variable (L : Ring.Links BufId) (c c' : Buf Unit) (pc pc' : Pc) (n : ℕ) (d : Bool) (v : Block)

@[simp] theorem oneBuf_buf : (oneBuf L c pc n d v).buf front = c := by simp [oneBuf]

theorem oneBuf_buf_of_ne {b : BufId} (hb : b ≠ front) :
    (oneBuf L c pc n d v).buf b = (init Unit zeroSectors).buf b := by
  simp [oneBuf, update_of_ne hb]

@[simp] theorem oneBuf_setBuf : (oneBuf L c pc n d v).setBuf front c' = oneBuf L c' pc n d v := by
  simp [oneBuf, State.setBuf]

@[simp] theorem oneBuf_setPc : (oneBuf L c pc n d v).setPc () pc' = oneBuf L c pc' n d v := by
  have : update (fun _ : Unit => pc) () pc' = fun _ => pc' := by
    funext u
    simp
  simp [oneBuf, State.setPc, this]

theorem oneBuf_recycle (r : Req) : (oneBuf L c pc n d v).recycle () front r =
    oneBuf L { c with dev := r.dev, blockno := r.blockno, valid := false, refcnt := 1 }
      (.wait front r false) n false v := by
  rw [State.recycle, oneBuf_setBuf, oneBuf_setPc, oneBuf_buf]
  simp [oneBuf]

end OneBuf

/-- Reading the cached block and releasing it; `v` is the counter after the first increment. -/
def hitRound (v : UInt32) : List (Event Unit) :=
  [.bget () block5, .acquiresleep () front block5 true, .load () front block5,
    .inc () front block5 v, .fill () front block5, .brelse () front, .drop () front]

/-- Where `brelse` leaves the list. -/
def relinked (L : Ring.Links BufId) (v : UInt32) : Ring.Links BufId :=
  if v = 0 then (L.unlink front).pushFront front else L

/-- **One round of reading and releasing** leaves the counter one higher. -/
theorem runs_hitRound {L : Ring.Links BufId} (hL : L.next none = some front) (v : UInt32) :
    Runs next LegalRoot (pinned L v) (hitRound (v + 1))
      (pinned (relinked L (v + 1)) (v + 1)) := by
  set held : UInt32 → Buf Unit := fun v => { cached v with lock := some () } with hheld
  set st : Buf Unit → Pc → State Unit := fun c pc => oneBuf L c pc 1 true ones with hst
  have h1 : next (pinned L v) (.bget () block5) =
      .ok (st (cached (v + 1)) (.wait front block5 true)) := by
    rw [next_bget_hit (b := front) hL (by simp [pinned, cached, Buf.key, block5])]
    simp [State.hit, pinned, cached, hst]
  have h2 : next (st (cached (v + 1)) (.wait front block5 true))
      (.acquiresleep () front block5 true) = .ok (st (held (v + 1)) (.load front block5)) := by
    simp [next, hst, hheld]
  have h3 : next (st (held (v + 1)) (.load front block5)) (.load () front block5) =
      .ok (st (held (v + 1)) (.inc front block5 (v + 1))) := by
    simp [next, cached, hst, hheld]
  have h4 : next (st (held (v + 1)) (.inc front block5 (v + 1))) (.inc () front block5 (v + 1)) =
      .ok (st (held (v + 1 + 1)) (.fill front block5)) := by
    simp [next, cached, hst, hheld]
  have h5 : next (st (held (v + 1 + 1)) (.fill front block5)) (.fill () front block5) =
      .ok (st (held (v + 1 + 1)) .idle) := by
    simp [next, cached, hst, hheld]
  have h6 : next (st (held (v + 1 + 1)) .idle) (.brelse () front) =
      .ok (st (cached (v + 1 + 1)) (.release front)) := by
    simp [next, cached, hst, hheld]
  have h7 : next (st (cached (v + 1 + 1)) (.release front)) (.drop () front) =
      .ok (pinned (relinked L (v + 1)) (v + 1)) := by
    simp only [next, hst, oneBuf_buf, oneBuf_setBuf, oneBuf_setPc, cached, UInt32.add_sub_cancel,
      relinked, pinned]
    split_ifs <;> rfl
  exact .cons ⟨rfl, trivial, by decide⟩ h1 <|
    .cons ⟨⟨rfl, by simp [hst, cached]⟩, trivial, trivial⟩ h2 <|
    .cons ⟨rfl, trivial, trivial⟩ h3 <| .cons ⟨rfl, trivial, trivial⟩ h4 <|
    .cons ⟨rfl, trivial, trivial⟩ h5 <|
    .cons ⟨⟨rfl, by simp [hst, hheld]⟩, fun _ => by simp [hst, oneBuf], trivial⟩ h6 <|
    .cons ⟨rfl, trivial, trivial⟩ h7 (.nil _)

/-- Reading a block that is not cached. -/
def missRead (r : Req) : List (Event Unit) :=
  [.bget () r, .acquiresleep () front r false, .fill () front r]

/-- The buffer of a block that was just read from the zeroed disk. -/
def freshBuf (r : Req) : Buf Unit where
  valid := true
  dev := r.dev
  blockno := r.blockno
  lock := some ()
  refcnt := 1
  data := fun _ => 0

theorem runs_missRead {L : Ring.Links BufId} (hL : L.next none = some front) {c : Buf Unit}
    {n : ℕ} {d : Bool} {v : Block} (hrep : Rep (oneBuf L c .idle n d v)) {r : Req}
    (hr : r.OnRoot) (hc : c.key ≠ r) (h0 : c.refcnt = 0) (hl : c.lock = none) :
    Runs next LegalRoot (oneBuf L c .idle n d v) (missRead r)
      (oneBuf L (freshBuf r) .idle n false v) := by
  set c₁ : Buf Unit := { c with dev := r.dev, blockno := r.blockno, valid := false, refcnt := 1 }
    with hc₁
  have h1 : next (oneBuf L c .idle n d v) (.bget () r) =
      .ok (oneBuf L c₁ (.wait front r false) n false v) := by
    rw [next_bget_miss (b := front) hrep hL (fun b' => ?_) (by simpa using h0), oneBuf_recycle]
    by_cases hb : b' = front
    · rw [hb, oneBuf_buf]
      exact hc
    · -- the other buffers are still as `binit` left them
      rw [oneBuf_buf_of_ne _ _ _ _ _ _ hb]
      exact fun he => hr.dev_ne_zero (congrArg Req.dev he).symm
  have h2 : next (oneBuf L c₁ (.wait front r false) n false v) (.acquiresleep () front r false) =
      .ok (oneBuf L { c₁ with lock := some () } (.fill front r) n false v) := by
    simp [next]
  have h3 : next (oneBuf L { c₁ with lock := some () } (.fill front r) n false v)
      (.fill () front r) = .ok (oneBuf L (freshBuf r) .idle n false v) := by
    simp only [next, oneBuf_buf, oneBuf_setBuf, oneBuf_setPc, hc₁, Bool.false_eq_true, if_false]
    rfl
  exact .cons ⟨rfl, trivial, hr⟩ h1 <|
    .cons ⟨⟨rfl, by simpa [hc₁] using hl⟩, trivial, trivial⟩ h2 <|
    .cons ⟨rfl, trivial, trivial⟩ h3 (.nil _)

theorem runs_release (L : Ring.Links BufId) (r : Req) (n : ℕ) (v : Block) :
    Runs next LegalRoot (oneBuf L (freshBuf r) .idle n false v)
      [.brelse () front, .drop () front]
      (oneBuf (relinked L 0) { freshBuf r with lock := none, refcnt := 0 } .idle n false v) := by
  have h1 : next (oneBuf L (freshBuf r) .idle n false v) (.brelse () front) =
      .ok (oneBuf L { freshBuf r with lock := none } (.release front) n false v) := by
    simp [next, freshBuf]
  have h2 : next (oneBuf L { freshBuf r with lock := none } (.release front) n false v)
      (.drop () front) =
      .ok (oneBuf (relinked L 0) { freshBuf r with lock := none, refcnt := 0 } .idle n false v) := by
    simp only [next, oneBuf_buf, oneBuf_setBuf, oneBuf_setPc, freshBuf]
    rfl
  exact .cons ⟨⟨rfl, by simp [freshBuf]⟩, fun hd => by simp [oneBuf] at hd, trivial⟩ h1 <|
    .cons ⟨rfl, trivial, trivial⟩ h2 (.nil _)

theorem runs_pin (L : Ring.Links BufId) :
    Runs next LegalRoot (oneBuf L (freshBuf block5) .idle 0 false fun _ => 0)
      [.store () front ones, .bpin () front, .brelse () front, .drop () front] (pinned L 1) := by
  have h1 : next (oneBuf L (freshBuf block5) .idle 0 false fun _ => 0) (.store () front ones) =
      .ok (oneBuf L { freshBuf block5 with data := ones } .idle 0 true ones) := by
    simp [next, oneBuf, freshBuf, Buf.key, State.setBuf, block5]
  have h2 : next (oneBuf L { freshBuf block5 with data := ones } .idle 0 true ones)
      (.bpin () front) =
      .ok (oneBuf L { freshBuf block5 with data := ones, refcnt := 2 } .idle 1 true ones) := by
    simp [next, oneBuf, freshBuf, State.setBuf]
  have h3 : next (oneBuf L { freshBuf block5 with data := ones, refcnt := 2 } .idle 1 true ones)
      (.brelse () front) = .ok (oneBuf L (cached 2) (.release front) 1 true ones) := by
    simp [next, freshBuf, cached, block5]
  have h4 : next (oneBuf L (cached 2) (.release front) 1 true ones) (.drop () front) =
      .ok (pinned L 1) := by
    simp only [next, oneBuf_buf, oneBuf_setBuf, oneBuf_setPc, cached]
    rfl
  exact .cons ⟨⟨rfl, by simp [freshBuf]⟩, trivial, trivial⟩ h1 <|
    .cons ⟨⟨rfl, by simp [freshBuf]⟩, trivial, trivial⟩ h2 <|
    .cons ⟨⟨rfl, by simp [freshBuf]⟩, fun _ => by simp [oneBuf], trivial⟩ h3 <|
    .cons ⟨rfl, trivial, trivial⟩ h4 (.nil _)

/-- A process stores ones in block `5`, pins and releases it, and reads it again `2 ^ 32 - 1`
times. Then it reads block `6`, and block `5` once more. -/
def wrapRun : List (Event Unit) :=
  missRead block5 ++ [.store () front ones, .bpin () front, .brelse () front, .drop () front] ++
    (List.range (2 ^ 32 - 2)).flatMap (fun i => hitRound (UInt32.ofNat (i + 1) + 1)) ++
    hitRound 0 ++ missRead block6 ++ [.brelse () front, .drop () front] ++ missRead block5

theorem binitLinks_next : binitLinks.next none = some front := by decide

theorem relinked_next (L : Ring.Links BufId) : (relinked L 0).next none = some front := by
  simp [relinked, Ring.Links.pushFront, Ring.Links.setNext]

theorem init_eq_oneBuf : init Unit zeroSectors =
    oneBuf binitLinks ((init Unit zeroSectors).buf front) .idle 0 false fun _ => 0 := by
  have hl : update (init Unit zeroSectors).latest block5 (fun _ => 0) =
      (init Unit zeroSectors).latest := update_eq_self ..
  rw [oneBuf, update_eq_self, hl, update_eq_self front (fun _ => 0),
    update_eq_self front (fun _ => false)]
  rfl

theorem runs_hitRounds :
    Runs next LegalRoot (pinned binitLinks 1)
      ((List.range (2 ^ 32 - 2)).flatMap fun i => hitRound (UInt32.ofNat (i + 1) + 1))
      (pinned binitLinks (UInt32.ofNat (2 ^ 32 - 2 + 1))) := by
  refine Runs.iterate (fun i => pinned binitLinks (UInt32.ofNat (i + 1)))
    (fun i => hitRound (UInt32.ofNat (i + 1) + 1)) (2 ^ 32 - 2) fun i hi => ?_
  have h := runs_hitRound binitLinks_next (UInt32.ofNat (i + 1))
  have hsucc : UInt32.ofNat (i + 1) + 1 = UInt32.ofNat (i + 1 + 1) := by
    rw [UInt32.ofNat_add (i + 1) 1]
    rfl
  have hne : UInt32.ofNat (i + 1) + 1 ≠ 0 := by
    intro h0
    have := congrArg UInt32.toNat h0
    rw [hsucc, UInt32.toNat_ofNat', UInt32.toNat_zero] at this
    omega
  rw [relinked, if_neg hne] at h
  rw [← hsucc]
  exact h

theorem rep_of_runs {s : State Unit} {es : List (Event Unit)}
    (h : Runs next LegalRoot (init Unit zeroSectors) es s) : Rep s :=
  h.reach.invariant (rep_init Unit zeroSectors) fun hI _ hn => hI.step hn

theorem runs_pinned :
    Runs next LegalRoot (init Unit zeroSectors)
      (missRead block5 ++ [.store () front ones, .bpin () front, .brelse () front, .drop () front])
      (pinned binitLinks 1) := by
  have h1 : Runs next LegalRoot (init Unit zeroSectors) (missRead block5)
      (oneBuf binitLinks (freshBuf block5) .idle 0 false fun _ => 0) := by
    have h0 := rep_init Unit zeroSectors
    rw [init_eq_oneBuf] at h0 ⊢
    exact runs_missRead binitLinks_next h0 (by decide) (by decide) rfl rfl
  exact h1.append (runs_pin binitLinks)

theorem runs_wrapped :
    Runs next LegalRoot (init Unit zeroSectors)
      (missRead block5 ++ [.store () front ones, .bpin () front, .brelse () front, .drop () front] ++
        (List.range (2 ^ 32 - 2)).flatMap (fun i => hitRound (UInt32.ofNat (i + 1) + 1)) ++
        hitRound 0) (pinned (relinked binitLinks 0) 0) :=
  (runs_pinned.append runs_hitRounds).append
    (runs_hitRound binitLinks_next (UInt32.ofNat (2 ^ 32 - 2 + 1)))

/-- **A lost update**: in `wrapRun` every update is pinned before it is released, and the last
`bread` of block `5` returns the zeros of the disk, not the ones stored last. -/
theorem wrapRun_loses_update :
    ∃ s, Runs next LegalRoot (init Unit zeroSectors) wrapRun s ∧
      s.pc () = .idle ∧ (s.buf front).lock = some () ∧ (s.buf front).key = block5 ∧
      (s.buf front).data ≠ s.latest block5 := by
  have h1 := runs_wrapped
  have h2 := h1.append (runs_missRead (relinked_next _) (rep_of_runs h1) (r := block6) (by decide)
    (by decide) rfl rfl)
  have h3 := h2.append (runs_release _ _ _ _)
  have h4 := h3.append (runs_missRead (relinked_next _) (rep_of_runs h3) (r := block5) (by decide)
    (by decide) rfl rfl)
  refine ⟨_, h4, rfl, by simp [freshBuf], by simp [freshBuf, Buf.key, block5], ?_⟩
  intro h
  have := congrFun h ⟨0, by decide⟩
  simp [oneBuf, freshBuf, ones] at this

end RiscvOs.Bio
