import RiscvOs.Param
import RiscvOs.Lib.Machine
import RiscvOs.Lib.Ring

set_option autoImplicit false

/-!
# The buffer cache (`kernel/disk/bio.c`)

The cache as a machine with any number of processes. A step is a section of the code that runs
under `bcache.lock`, or that only its process can see: it holds the sleep lock of the buffer.
`bread` is `bget`, the wait for the sleep lock, and the test of `valid`; `brelse` gives up the
sleep lock first and then counts down under `bcache.lock`.

On a hit `bget` increments `refcnt` twice, the second time after the wait and without
`bcache.lock`. That increment is two steps, a load and a store, between which other processes
may change the counter.

## Main results

* `bget_cases` — what a successful `bget` has found.
* `Rep.step` — every step keeps the shape of the list and the identities.

## Implementation notes

The field `disk` of `struct buf` is owned by the driver during a transfer, and a transfer is
one step here, so it is left out. `virtio_disk_rw` addresses the disk by sector, as a 32-bit
product, and does not look at `dev`. The last three fields of the state are history and do not
influence any step.

The steps are taken one after the other, as on one hart: a step sees all that the earlier ones have stored.
The second increment of a hit is the only access without a lock, and its two halves are steps of their own.
-/

namespace RiscvOs.Bio

open Function

/-- The buffers of `bcache.buf`. -/
abbrev BufId : Type := Fin NBUF

/-- The arguments of `bread`: a device and a block number. -/
structure Req where
  dev : UInt32
  blockno : UInt32
  deriving DecidableEq

/-- The fields of `struct buf`, without its links; `lock` is the process that holds the sleep
lock. -/
structure Buf (P : Type) where
  valid : Bool
  dev : UInt32
  blockno : UInt32
  lock : Option P
  refcnt : UInt32
  data : Block

/-- The block a buffer is assigned to. -/
def Buf.key {P : Type} (c : Buf P) : Req := ⟨c.dev, c.blockno⟩

/-- Where a process is.

* `wait`: in `acquiresleep` of `bget`, after a hit or a miss;
* `load`, `inc`: at the load and at the store of the second `b->refcnt++` of a hit;
* `fill`: in `bread` at the test of `b->valid`;
* `release`: in `brelse`, between `releasesleep` and `acquire(&bcache.lock)`. -/
inductive Pc where
  | idle
  | wait (b : BufId) (r : Req) (hit : Bool)
  | load (b : BufId) (r : Req)
  | inc (b : BufId) (r : Req) (v : UInt32)
  | fill (b : BufId) (r : Req)
  | release (b : BufId)
  deriving DecidableEq

/-- The panics of `bget`, `brelse` and `bwrite`. `loops` stands for a traversal of the list
that does not come back to its head. -/
inductive Panic where
  | noBuffers | brelse | bwrite | loops
  deriving DecidableEq

/-- The cache, the disk by first sector, and the processes. History: how often each buffer is
pinned, whether its data was changed since it was last written to the disk, and the data stored
last for each block. -/
structure State (P : Type) where
  buf : BufId → Buf P
  links : Ring.Links BufId
  disk : UInt32 → Block
  pc : P → Pc
  pins : BufId → ℕ
  dirty : BufId → Bool
  latest : Req → Block

/-- The steps of a process; `store` is a change of `b->data` by the holder of the buffer. -/
inductive Event (P : Type) where
  | bget (p : P) (r : Req)
  | acquiresleep (p : P) (b : BufId) (r : Req) (hit : Bool)
  | load (p : P) (b : BufId) (r : Req)
  | inc (p : P) (b : BufId) (r : Req) (v : UInt32)
  | fill (p : P) (b : BufId) (r : Req)
  | store (p : P) (b : BufId) (data : Block)
  | bwrite (p : P) (b : BufId)
  | brelse (p : P) (b : BufId)
  | drop (p : P) (b : BufId)
  | bpin (p : P) (b : BufId)
  | bunpin (p : P) (b : BufId)

/-- The first sector of a block, `b->blockno * (BSIZE / 512)` in 32-bit arithmetic. -/
def sector (blockno : UInt32) : UInt32 := blockno * 2

section Code

variable {P : Type}

/-- The test of the first loop of `bget`. -/
def holdsBlock (s : State P) (r : Req) (b : BufId) : Bool :=
  (s.buf b).dev == r.dev && (s.buf b).blockno == r.blockno

/-- The test of the second loop of `bget`. -/
def unreferenced (s : State P) (b : BufId) : Bool := (s.buf b).refcnt == 0

variable [DecidableEq P]

/-- Change one buffer. -/
def State.setBuf (s : State P) (b : BufId) (c : Buf P) : State P :=
  { s with buf := update s.buf b c }

/-- Move one process. -/
def State.setPc (s : State P) (p : P) (c : Pc) : State P :=
  { s with pc := update s.pc p c }

/-- `bget` has found the block in buffer `b`. -/
def State.hit (s : State P) (p : P) (b : BufId) (r : Req) : State P :=
  (s.setBuf b { s.buf b with refcnt := (s.buf b).refcnt + 1 }).setPc p (.wait b r true)

/-- `bget` has recycled buffer `b`. -/
def State.recycle (s : State P) (p : P) (b : BufId) (r : Req) : State P :=
  { (s.setBuf b { s.buf b with
      dev := r.dev, blockno := r.blockno, valid := false, refcnt := 1 }).setPc p
        (.wait b r false) with
    dirty := update s.dirty b false }

/-- One step of a process. -/
def next (s : State P) : Event P → Except Panic (State P)
  | .bget p r =>
    match s.links.scan (holdsBlock s r) NBUF (s.links.next none) with
    | none => .error .loops
    | some (some b) => .ok (s.hit p b r)
    | some none =>
      match s.links.scan (unreferenced s) NBUF (s.links.next none) with
      | none => .error .loops
      | some (some b) => .ok (s.recycle p b r)
      | some none => .error .noBuffers
  | .acquiresleep p b r hit =>
    .ok ((s.setBuf b { s.buf b with lock := some p }).setPc p
      (if hit then .load b r else .fill b r))
  | .load p b r => .ok (s.setPc p (.inc b r (s.buf b).refcnt))
  | .inc p b r v => .ok ((s.setBuf b { s.buf b with refcnt := v + 1 }).setPc p (.fill b r))
  | .fill p b _ =>
    if (s.buf b).valid then .ok (s.setPc p .idle)
    else
      .ok ((s.setBuf b { s.buf b with
        data := s.disk (sector (s.buf b).blockno), valid := true }).setPc p .idle)
  | .store _ b data =>
    .ok { s.setBuf b { s.buf b with data := data } with
      dirty := update s.dirty b true
      latest := update s.latest (s.buf b).key data }
  | .bwrite p b =>
    if (s.buf b).lock ≠ some p then .error .bwrite
    else
      .ok { s with
        disk := update s.disk (sector (s.buf b).blockno) (s.buf b).data
        dirty := update s.dirty b false }
  | .brelse p b =>
    if (s.buf b).lock ≠ some p then .error .brelse
    else .ok ((s.setBuf b { s.buf b with lock := none }).setPc p (.release b))
  | .drop p b =>
    let s' := (s.setBuf b { s.buf b with refcnt := (s.buf b).refcnt - 1 }).setPc p .idle
    if (s.buf b).refcnt - 1 = 0 then
      .ok { s' with links := (s.links.unlink b).pushFront b }
    else .ok s'
  | .bpin _ b =>
    .ok { s.setBuf b { s.buf b with refcnt := (s.buf b).refcnt + 1 } with
      pins := update s.pins b (s.pins b + 1) }
  | .bunpin _ b =>
    .ok { s.setBuf b { s.buf b with refcnt := (s.buf b).refcnt - 1 } with
      pins := update s.pins b (s.pins b - 1) }

/-- The step a process is about to make. Between `bread` and `brelse` it holds the buffer, and
may change, write and pin it; a process releases what it holds and unpins what is pinned. -/
def Enabled (s : State P) : Event P → Prop
  | .bget p _ => s.pc p = .idle
  | .acquiresleep p b r hit => s.pc p = .wait b r hit ∧ (s.buf b).lock = none
  | .load p b r => s.pc p = .load b r
  | .inc p b r v => s.pc p = .inc b r v
  | .fill p b r => s.pc p = .fill b r
  | .store p b _ | .bwrite p b | .brelse p b | .bpin p b =>
    s.pc p = .idle ∧ (s.buf b).lock = some p
  | .drop p b => s.pc p = .release b
  | .bunpin p b => s.pc p = .idle ∧ 0 < s.pins b

instance (s : State P) (e : Event P) : Decidable (Enabled s e) := by
  cases e <;> unfold Enabled <;> infer_instance

/-- The loop of `binit`: every buffer is put in front of the list. -/
def binitLinks : Ring.Links BufId :=
  (List.finRange NBUF).foldl (fun L b => L.pushFront b) Ring.Links.empty

/-- After `binit`: a zeroed array of buffers, all in the list. -/
def init (P : Type) (disk : UInt32 → Block) : State P where
  buf := fun _ =>
    { valid := false, dev := 0, blockno := 0, lock := none, refcnt := 0, data := fun _ => 0 }
  links := binitLinks
  disk := disk
  pc := fun _ => .idle
  pins := fun _ => 0
  dirty := fun _ => false
  latest := fun r => disk (sector r.blockno)

end Code

/-! ## The list of buffers -/

/-- The list contains every buffer exactly once, and no two buffers are assigned the same
block of a device other than `0`. -/
structure Rep {P : Type} (s : State P) : Prop where
  ring : ∃ l, Ring.IsRing s.links l ∧ ∀ b, b ∈ l
  unique : ∀ b b', (s.buf b).key = (s.buf b').key → (s.buf b).dev ≠ 0 → b = b'

theorem holdsBlock_iff {P : Type} {s : State P} {r : Req} {b : BufId} :
    holdsBlock s r b = true ↔ (s.buf b).key = r := by
  rw [holdsBlock, Bool.and_eq_true, beq_iff_eq, beq_iff_eq, Buf.key, Req.mk.injEq]

theorem length_le_NBUF {l : List BufId} (h : l.Nodup) : l.length ≤ NBUF := by
  simpa using h.length_le_card

theorem scan_cases {P : Type} {s : State P} (h : Rep s) (t : BufId → Bool) :
    (∃ b, t b = true ∧ s.links.scan t NBUF (s.links.next none) = some (some b)) ∨
      ((∀ b, t b = false) ∧ s.links.scan t NBUF (s.links.next none) = some none) := by
  obtain ⟨l, hl, hall⟩ := h.ring
  rw [hl.scan t (length_le_NBUF hl.nodup)]
  cases hf : l.find? t with
  | some b => exact Or.inl ⟨b, List.find?_some hf, rfl⟩
  | none =>
    refine Or.inr ⟨fun b => ?_, rfl⟩
    simpa using List.find?_eq_none.mp hf b (hall b)

section Steps

variable {P : Type} {s s' : State P}

theorem Rep.of_key_eq (h : Rep s) (hl : s'.links = s.links)
    (hk : ∀ b, (s'.buf b).key = (s.buf b).key) : Rep s' := by
  refine ⟨by rw [hl]; exact h.ring, fun b b' hb hd => h.unique b b' ?_ ?_⟩
  · rw [← hk, ← hk, hb]
  · exact (congrArg Req.dev (hk b)).symm.trans_ne hd

theorem key_update {f : BufId → Buf P} {b : BufId} {c : Buf P} (hc : c.key = (f b).key)
    (b' : BufId) : (update f b c b').key = (f b').key := by
  by_cases hb : b' = b
  · rw [hb, update_self, hc]
  · rw [update_of_ne hb]

theorem Rep.moveToFront (h : Rep s) (b : BufId) :
    Rep { s with links := (s.links.unlink b).pushFront b } := by
  obtain ⟨l, hl, hall⟩ := h.ring
  obtain ⟨l₁, l₂, rfl⟩ := List.append_of_mem (hall b)
  refine ⟨⟨b :: (l₁ ++ l₂), hl.moveToFront, fun b' => ?_⟩, h.unique⟩
  have := hall b'
  simp only [List.mem_append, List.mem_cons] at this ⊢
  tauto

variable [DecidableEq P]

/-- **What a successful `bget` has found**: the buffer of the block, or, if no buffer has the
block, one with `refcnt == 0`. -/
theorem bget_cases (h : Rep s) {p : P} {r : Req} (hn : next s (.bget p r) = .ok s') :
    (∃ b, (s.buf b).key = r ∧ s' = s.hit p b r) ∨
      ∃ b, (∀ b', (s.buf b').key ≠ r) ∧ (s.buf b).refcnt = 0 ∧ s' = s.recycle p b r := by
  rw [next] at hn
  rcases scan_cases h (holdsBlock s r) with ⟨b, hb, hs⟩ | ⟨hno, hs⟩
  · rw [hs] at hn
    cases hn
    exact Or.inl ⟨b, holdsBlock_iff.mp hb, rfl⟩
  · rw [hs] at hn
    rcases scan_cases h (unreferenced s) with ⟨b, hb, hs'⟩ | ⟨-, hs'⟩
    · rw [hs'] at hn
      cases hn
      refine Or.inr ⟨b, fun b' hb' => ?_, by simpa [unreferenced] using hb, rfl⟩
      rw [← holdsBlock_iff, hno b'] at hb'
      cases hb'
    · rw [hs'] at hn
      cases hn

theorem bget_error (h : Rep s) {p : P} {r : Req} {x : Panic}
    (hn : next s (.bget p r) = .error x) :
    x = .noBuffers ∧ ∀ b, (s.buf b).refcnt ≠ 0 := by
  rw [next] at hn
  rcases scan_cases h (holdsBlock s r) with ⟨b, -, hs⟩ | ⟨-, hs⟩
  · rw [hs] at hn
    cases hn
  · rw [hs] at hn
    rcases scan_cases h (unreferenced s) with ⟨b, -, hs'⟩ | ⟨hno, hs'⟩
    · rw [hs'] at hn
      cases hn
    · rw [hs'] at hn
      cases hn
      exact ⟨rfl, fun b => by simpa [unreferenced] using hno b⟩

theorem Rep.recycle (h : Rep s) {p : P} {b : BufId} {r : Req}
    (hno : ∀ b', (s.buf b').key ≠ r) : Rep (s.recycle p b r) := by
  refine ⟨h.ring, fun b₁ b₂ hb hd => ?_⟩
  simp only [State.recycle, State.setBuf, State.setPc] at hb hd
  by_cases h₁ : b₁ = b <;> by_cases h₂ : b₂ = b
  · rw [h₁, h₂]
  · rw [h₁, update_self, update_of_ne h₂] at hb
    exact absurd hb.symm (hno b₂)
  · rw [h₂, update_self, update_of_ne h₁] at hb
    exact absurd hb (hno b₁)
  · rw [update_of_ne h₁] at hb hd
    rw [update_of_ne h₂] at hb
    exact h.unique b₁ b₂ hb hd

/-- **Every step keeps the list and the identities of the buffers**, whoever makes it. -/
theorem Rep.step {e : Event P} (h : Rep s) (hn : next s e = .ok s') : Rep s' := by
  cases e with
  | bget p r =>
    rcases bget_cases h hn with ⟨b, -, rfl⟩ | ⟨b, hno, -, rfl⟩
    · exact h.of_key_eq rfl (key_update rfl)
    · exact h.recycle hno
  | acquiresleep p b r hit =>
    cases hn
    exact h.of_key_eq rfl (key_update rfl)
  | load p b r =>
    cases hn
    exact h.of_key_eq rfl fun _ => rfl
  | inc p b r v =>
    cases hn
    exact h.of_key_eq rfl (key_update rfl)
  | fill p b r =>
    rw [next] at hn
    split_ifs at hn <;> cases hn
    · exact h.of_key_eq rfl fun _ => rfl
    · exact h.of_key_eq rfl (key_update rfl)
  | store p b data =>
    cases hn
    exact h.of_key_eq rfl (key_update rfl)
  | bwrite p b =>
    rw [next] at hn
    split_ifs at hn
    cases hn
    exact h.of_key_eq rfl fun _ => rfl
  | brelse p b =>
    rw [next] at hn
    split_ifs at hn
    cases hn
    exact h.of_key_eq rfl (key_update rfl)
  | drop p b =>
    have h' : Rep ((s.setBuf b { s.buf b with refcnt := (s.buf b).refcnt - 1 }).setPc p .idle) :=
      h.of_key_eq rfl (key_update rfl)
    rw [next] at hn
    split_ifs at hn <;> cases hn
    · exact h'.moveToFront b
    · exact h'
  | bpin p b =>
    cases hn
    exact h.of_key_eq rfl (key_update rfl)
  | bunpin p b =>
    cases hn
    exact h.of_key_eq rfl (key_update rfl)

end Steps

theorem isRing_foldl_pushFront {l l' : List BufId} {L : Ring.Links BufId}
    (h : Ring.IsRing L l') (hnd : (l.reverse ++ l').Nodup) :
    Ring.IsRing (l.foldl (fun L b => L.pushFront b) L) (l.reverse ++ l') := by
  induction l generalizing L l' with
  | nil => exact h
  | cons b l ih =>
    rw [List.reverse_cons, List.append_assoc, List.singleton_append] at hnd ⊢
    have hb : b ∉ l' := (List.nodup_cons.mp (List.nodup_append.mp hnd).2.1).1
    exact ih (h.pushFront hb) hnd

theorem isRing_binitLinks : Ring.IsRing binitLinks (List.finRange NBUF).reverse := by
  have := isRing_foldl_pushFront (l := List.finRange NBUF) Ring.isRing_empty
    (by simpa using List.nodup_finRange NBUF)
  rwa [List.append_nil] at this

theorem rep_init (P : Type) (disk : UInt32 → Block) : Rep (init P disk) := by
  refine ⟨⟨_, isRing_binitLinks, fun b => by simp⟩, fun b b' _ hd => ?_⟩
  exact absurd rfl hd

end RiscvOs.Bio
