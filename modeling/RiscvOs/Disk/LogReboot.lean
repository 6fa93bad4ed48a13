import RiscvOs.Disk.LogCrash

set_option autoImplicit false

/-!
# Commits and reboots

What reboots do to committed writes. `write_head` never changes the count in the header block,
so the count `n` that the first recovery finds stays on disk for ever: every later reboot
replays `n` slots again. A commit of `k` blocks refreshes the first `k` slots and leaves slots
`k, …, n - 1` as an older commit, or the log pending at the first boot, had filled them. As long
as no commit changes a block that one of those stale slots names, a slot and the block it names
hold the same contents, and a reboot changes nothing. A commit that does change such a block is
undone by the next reboot.

## Main results

* `SlotsCurrent.commit`, `reboot_eq_self` — what one step preserves.
* `reboot_after_commit_of_stale` — a commit over a stale slot is undone.
* `commitsSurvive_iff` — reboots keep the commits of a run if and only if every
  commit spares the stale slots.
-/

namespace RiscvOs.Log

open Function ByteBlock

variable {start : ℕ}

/-- A complete operation: a `commit()` that is not interrupted, or a reboot. -/
inductive Op (start : ℕ) where
  | commit (t : Transaction start)
  | reboot

/-- The disk after a complete operation. It starts with a cache that agrees with the disk, the pinned
buffers apart. -/
def step (d : Disk) : Op start → Disk
  | .commit t => (commit start (pinned d t)).disk
  | .reboot => (initlog start d).disk

/-- The disk after a history of operations, the most recent one first. -/
def run (d : Disk) : List (Op start) → Disk
  | [] => d
  | op :: hist => step (run d hist) op

/-- The contents of block `b` in the last commit that logged it, or in `base` if none did. -/
def lastCommitted (base : Disk) : List (Op start) → ℕ → Block
  | [], b => base b
  | .reboot :: hist, b => lastCommitted base hist b
  | .commit t :: hist, b =>
    if b ∈ t.blocks.map UInt32.toNat then t.data (UInt32.ofNat b) else lastCommitted base hist b

/-- The commit of `t` on the disk `d` changes no block that a slot it does not refill names. -/
def SparesStale (d : Disk) (t : Transaction start) : Prop :=
  ∀ i, t.blocks.length ≤ i → i < headCount (d start) → headBlock (d start) i ∈ t.blocks →
    t.data (headBlock (d start) i) = d (headBlock (d start) i).toNat

/-- Every commit of the history spares the stale slots of the disk it starts from. -/
def AllSpareStale (d : Disk) : List (Op start) → Prop
  | [] => True
  | .reboot :: hist => AllSpareStale d hist
  | .commit t :: hist => AllSpareStale d hist ∧ SparesStale (run d hist) t

/-- At every point of the history, and after any number of further reboots, every home block
holds the contents of the last commit that logged it, or those of `d` if none did. -/
def CommitsSurvive (d : Disk) (hist : List (Op start)) : Prop :=
  ∀ h, h <:+ hist → ∀ m b, ¬ InLog start b →
    run d (List.replicate m .reboot ++ h) b = lastCommitted d h b

/-! ## The disk after a commit -/

section Commit

variable (d : Disk) (t : Transaction start)

theorem commit_start (hne : t.blocks ≠ []) : step d (.commit t) start = commitHead d t := by
  rw [step, (commit_writes d t hne).2.1, commitWrites, replay_append, replay_cons,
    replay_append, replay_cons, replay_nil, update_self]

theorem headCount_commit : headCount (step d (.commit t) start) = headCount (d start) := by
  by_cases hne : t.blocks = []
  · simp [step, commit, pinned, hne]
  rw [commit_start d t hne, commitHead, headCount_setBlocks]

theorem headBlock_commit (i : ℕ) : headBlock (step d (.commit t) start) i =
    t.blocks.getD i (headBlock (d start) i) := by
  by_cases hne : t.blocks = []
  · simp [step, commit, pinned, hne]
  have hlen := t.length_le
  rw [commit_start d t hne, commitHead, headBlock_setBlocks _ _ _ (by simp [LOGBLOCKS, MAXOPBLOCKS] at hlen; omega)]
  simp

theorem commit_home_of_mem {b : UInt32} (hb : b ∈ t.blocks) :
    step d (.commit t) b.toNat = t.data b := by
  have hne : t.blocks ≠ [] := List.ne_nil_of_mem hb
  have hbs : b.toNat ∉ [(start, commitHead d t)].map Prod.fst := by
    intro h
    have : b.toNat = start := by simpa using h
    exact t.home b hb ⟨by omega, by omega⟩
  rw [step, (commit_writes d t hne).2.1, commitWrites, replay_append, replay_cons, replay_append,
    replay_of_not_mem _ hbs, replay_map_of_mem _ t.nodup_toNat hb]

theorem commit_home_of_not_mem {b : ℕ} (hb : ¬ InLog start b)
    (hm : b ∉ t.blocks.map UInt32.toNat) : step d (.commit t) b = d b := by
  by_cases hne : t.blocks = []
  · simp [step, commit, pinned, hne]
  have hlen := t.length_le
  rw [step, (commit_writes d t hne).2.1]
  refine replay_of_not_mem d fun h => ?_
  obtain ⟨w, hw, rfl⟩ := List.mem_map.mp h
  rw [commitWrites] at hw
  simp only [List.mem_append, List.mem_cons, List.mem_map, List.not_mem_nil, or_false] at hw
  rcases hw with ⟨p, hp, rfl⟩ | rfl | ⟨c, hc, rfl⟩ | rfl
  · obtain ⟨-, h2, -⟩ := List.mem_zipIdx hp
    exact hb ⟨by simp only; omega, by simp only; omega⟩
  · exact hb ⟨le_rfl, Nat.le_add_right _ _⟩
  · exact hm (List.mem_map_of_mem hc)
  · exact hb ⟨le_rfl, Nat.le_add_right _ _⟩

theorem commit_slot {i : ℕ} (hi : i < LOGBLOCKS) : step d (.commit t) (start + i + 1) =
    (t.blocks.map t.data).getD i (d (start + i + 1)) := by
  by_cases hne : t.blocks = []
  · simp [step, commit, pinned, hne]
  have hhead : start + i + 1 ∉ [(start, commitHead d t)].map Prod.fst := by
    simp only [List.map_cons, List.map_nil, List.mem_singleton]
    omega
  have hhome : start + i + 1 ∉ (t.blocks.map fun b => (b.toNat, t.data b)).map Prod.fst := by
    rw [List.map_map]
    intro h
    obtain ⟨b, hb, he⟩ := List.mem_map.mp h
    simp only [comp_apply] at he
    exact t.home b hb ⟨by omega, by omega⟩
  rw [step, (commit_writes d t hne).2.1, commitWrites, replay_append, replay_cons, replay_append,
    replay_of_not_mem _ hhead, replay_of_not_mem _ hhome, update_of_ne (by omega)]
  rcases Nat.lt_or_ge i t.blocks.length with hlt | hge
  · have hmem : (t.blocks[i], i) ∈ t.blocks.zipIdx := by
      simp [List.mem_zipIdx_iff_getElem?, hlt]
    have h := replay_map_of_mem (g := fun p : UInt32 × ℕ => t.data p.1) d
      (nodup_slots start t.blocks) hmem
    rw [h]
    simp [List.getD, hlt]
  · rw [replay_of_not_mem]
    · simp [List.getD, hge]
    · rw [List.map_map]
      intro h
      obtain ⟨p, hp, he⟩ := List.mem_map.mp h
      obtain ⟨-, h2, -⟩ := List.mem_zipIdx hp
      simp only [comp_apply] at he
      omega

end Commit

/-! ## The invariant -/

/-- Every slot that a reboot would replay holds what the block it names holds. -/
structure SlotsCurrent (start : ℕ) (d : Disk) : Prop where
  count_le : headCount (d start) ≤ LOGBLOCKS
  home : ∀ i < headCount (d start), ¬ InLog start (headBlock (d start) i).toNat
  current : ∀ i < headCount (d start),
    d (headBlock (d start) i).toNat = d (start + i + 1)

theorem mem_pending_iff {d : Disk} {p : UInt32 × ℕ} :
    p ∈ (pending start d).zipIdx ↔ p.2 < headCount (d start) ∧ p.1 = headBlock (d start) p.2 := by
  rw [List.mem_zipIdx_iff_getElem?, pending]
  by_cases h : p.2 < headCount (d start)
  · simp [h, eq_comm]
  · simp [h]

theorem length_pending (d : Disk) : (pending start d).length = headCount (d start) := by
  simp [pending]

theorem home_of_mem_pending {d : Disk}
    (h : ∀ i < headCount (d start), ¬ InLog start (headBlock (d start) i).toNat) :
    ∀ b ∈ pending start d, ¬ InLog start b.toNat := by
  intro b hb
  obtain ⟨i, hi, rfl⟩ := List.mem_map.mp hb
  exact h i (List.mem_range.mp hi)

/-- **A reboot changes nothing** while every replayed slot is current. -/
theorem reboot_eq_self {d : Disk} (h : SlotsCurrent start d) :
    step d (.reboot : Op start) = d := by
  have hlen : (pending start d).length ≤ LOGBLOCKS := by
    rw [length_pending]
    exact h.count_le
  have hd := (recoverFromLog_writes d (home_of_mem_pending h.home) hlen).2
  have hself : replay d ((pending start d).zipIdx.map fun p =>
      (p.1.toNat, d (start + p.2 + 1))) = d := by
    refine replay_map_self d fun p hp => ?_
    obtain ⟨h1, h2⟩ := mem_pending_iff.mp hp
    rw [h2]
    exact h.current p.2 h1
  rw [step, initlog, hd, recoverWrites, replay_append, hself, replay_cons, replay_nil]
  exact update_eq_self start d

/-- **A commit that spares the stale slots keeps every slot current.**

**Proof sketch.** A refilled slot holds the new contents of the block it now names, which the
commit has installed. A stale slot is untouched, and the block it names does not change. -/
theorem SlotsCurrent.commit {d : Disk} (h : SlotsCurrent start d) {t : Transaction start}
    (hs : SparesStale d t) : SlotsCurrent start (step d (.commit t)) := by
  have hcase : ∀ i < headCount (d start),
      ¬ InLog start (headBlock (step d (.commit t) start) i).toNat ∧
        step d (.commit t) (headBlock (step d (.commit t) start) i).toNat =
          step d (.commit t) (start + i + 1) := by
    intro i hi
    have hiL : i < LOGBLOCKS := lt_of_lt_of_le hi h.count_le
    rw [headBlock_commit, commit_slot d t hiL]
    rcases Nat.lt_or_ge i t.blocks.length with hlt | hge
    · have hmem : t.blocks[i] ∈ t.blocks := List.getElem_mem hlt
      have hget : t.blocks.getD i (headBlock (d start) i) = t.blocks[i] := by simp [hlt]
      rw [hget, commit_home_of_mem d t hmem]
      refine ⟨t.home _ hmem, ?_⟩
      simp [hlt]
    · have hget : t.blocks.getD i (headBlock (d start) i) = headBlock (d start) i := by
        simp [hge]
      have hkeep : step d (.commit t) (headBlock (d start) i).toNat =
          d (headBlock (d start) i).toNat := by
        by_cases hm : headBlock (d start) i ∈ t.blocks
        · rw [commit_home_of_mem d t hm, hs i hge hi hm]
        · refine commit_home_of_not_mem d t (h.home i hi) fun hm' => hm ?_
          obtain ⟨c, hc, he⟩ := List.mem_map.mp hm'
          exact UInt32.toNat_inj.mp he ▸ hc
      rw [hget, hkeep]
      refine ⟨h.home i hi, ?_⟩
      rw [h.current i hi]
      simp [hge]
  refine ⟨?_, ?_, ?_⟩
  · rw [headCount_commit]
    exact h.count_le
  · rw [headCount_commit]
    exact fun i hi => (hcase i hi).1
  · rw [headCount_commit]
    exact fun i hi => (hcase i hi).2

theorem initlog_disk {d : Disk} (hcount : headCount (d start) ≤ LOGBLOCKS)
    (hhome : ∀ b ∈ pending start d, ¬ InLog start b.toNat) :
    (initlog start d).disk = replay d ((pending start d).zipIdx.map fun p =>
        (p.1.toNat, d (start + p.2 + 1))) ∧
      ∀ b, InLog start b → (initlog start d).disk b = d b := by
  have hlen : (pending start d).length ≤ LOGBLOCKS := by
    rw [length_pending]
    exact hcount
  set W := (pending start d).zipIdx.map fun p => (p.1.toNat, d (start + p.2 + 1)) with hW
  have hlog : ∀ b, InLog start b → b ∉ W.map Prod.fst := by
    intro b hb hm
    rw [hW, List.map_map] at hm
    obtain ⟨p, hp, rfl⟩ := List.mem_map.mp hm
    obtain ⟨-, -, h3⟩ := List.mem_zipIdx hp
    exact hhome p.1 (h3 ▸ List.getElem_mem _) hb
  have hself : (initlog start d).disk = replay d W := by
    rw [initlog, (recoverFromLog_writes d hhome hlen).2, recoverWrites, replay_append,
      replay_cons, replay_nil, ← hW,
      ← replay_of_not_mem d (hlog start ⟨le_rfl, Nat.le_add_right _ _⟩)]
    exact update_eq_self _ _
  refine ⟨hself, fun b hb => ?_⟩
  rw [hself, replay_of_not_mem d (hlog b hb)]

theorem slotsCurrent_initlog {d : Disk} (hcount : headCount (d start) ≤ LOGBLOCKS)
    (hnd : (pending start d).Nodup) (hhome : ∀ b ∈ pending start d, ¬ InLog start b.toNat) :
    SlotsCurrent start (initlog start d).disk := by
  obtain ⟨hself, hlog⟩ := initlog_disk hcount hhome
  have hstart : (initlog start d).disk start = d start :=
    hlog start ⟨le_rfl, Nat.le_add_right _ _⟩
  have hmem : ∀ i < headCount (d start), headBlock (d start) i ∈ pending start d := fun i hi =>
    List.mem_map.mpr ⟨i, List.mem_range.mpr hi, rfl⟩
  have hndW : ((pending start d).zipIdx.map fun p => p.1.toNat).Nodup := by
    have : ((pending start d).zipIdx.map fun p => p.1.toNat) =
        (pending start d).map UInt32.toNat := by
      conv_rhs => rw [← List.zipIdx_map_fst 0 (pending start d), List.map_map]
      rfl
    rw [this]
    exact hnd.map fun _ _ h => UInt32.toNat_inj.mp h
  refine ⟨?_, ?_, ?_⟩
  · rwa [hstart]
  · rw [hstart]
    exact fun i hi => hhome _ (hmem i hi)
  · rw [hstart]
    intro i hi
    have hz : (headBlock (d start) i, i) ∈ (pending start d).zipIdx :=
      mem_pending_iff.mpr ⟨hi, rfl⟩
    rw [hlog (start + i + 1) ⟨by omega, by omega⟩, hself]
    exact replay_map_of_mem (g := fun p : UInt32 × ℕ => d (start + p.2 + 1)) d hndW hz

/-- **A commit over a stale slot is undone by the next reboot**: the block that the slot names
goes back to what it held before the commit.

**Proof sketch.** The reboot replays the slots in order, so the block gets the contents of the
last slot that names it. That slot is at or above the stale one, hence stale itself, and it
holds what the block held before the commit. -/
theorem reboot_after_commit_of_stale {d : Disk} (h : SlotsCurrent start d)
    {t : Transaction start} {i : ℕ} (hi : t.blocks.length ≤ i) (hic : i < headCount (d start)) :
    step (step d (.commit t)) (.reboot : Op start) (headBlock (d start) i).toNat =
      d (headBlock (d start) i).toNat := by
  set e := step d (.commit t) with he
  have hcount : headCount (e start) = headCount (d start) := headCount_commit d t
  have hstale : ∀ j, i ≤ j → headBlock (e start) j = headBlock (d start) j := by
    intro j hj
    rw [he, headBlock_commit]
    simp [show t.blocks.length ≤ j by omega]
  have hslot : ∀ j, i ≤ j → j < headCount (d start) → e (start + j + 1) = d (start + j + 1) := by
    intro j hj hjc
    rw [he, commit_slot d t (lt_of_lt_of_le hjc h.count_le)]
    simp [show t.blocks.length ≤ j by omega]
  have hhome : ∀ b ∈ pending start e, ¬ InLog start b.toNat := by
    refine home_of_mem_pending fun j hj => ?_
    rw [hcount] at hj
    rw [he, headBlock_commit]
    rcases Nat.lt_or_ge j t.blocks.length with hlt | hge
    · simpa [hlt] using t.home _ (List.getElem_mem hlt)
    · simpa [hge] using h.home j hj
  have hlen : (pending start e).length ≤ LOGBLOCKS := by
    rw [length_pending, hcount]
    exact h.count_le
  have hi' : i < (pending start e).zipIdx.length := by
    rw [List.length_zipIdx, length_pending, hcount]
    exact hic
  have hith : (pending start e).zipIdx[i] = (headBlock (d start) i, i) := by
    have hip : i < (pending start e).length := by
      rw [length_pending, hcount]
      exact hic
    have : (pending start e)[i] = headBlock (e start) i := by simp [pending]
    rw [List.getElem_zipIdx, this, hstale i le_rfl, Nat.zero_add]
  -- cut the replayed list at slot `i`
  have hsplit : ((pending start e).zipIdx.map fun p => (p.1.toNat, e (start + p.2 + 1))) =
      (((pending start e).zipIdx.take i).map fun p => (p.1.toNat, e (start + p.2 + 1))) ++
        ((headBlock (d start) i).toNat, d (headBlock (d start) i).toNat) ::
          ((pending start e).zipIdx.drop (i + 1)).map
            fun p => (p.1.toNat, e (start + p.2 + 1)) := by
    conv_lhs => rw [← List.take_append_drop i (pending start e).zipIdx,
      List.drop_eq_getElem_cons hi', hith]
    simp only [List.map_append, List.map_cons]
    rw [hslot i le_rfl hic, h.current i hic]
  have hbs : (headBlock (d start) i).toNat ∉ [(start, e start)].map Prod.fst := by
    intro hm
    have : (headBlock (d start) i).toNat = start := by simpa using hm
    exact h.home i hic ⟨by omega, by omega⟩
  rw [step, initlog, (recoverFromLog_writes e hhome hlen).2, recoverWrites, replay_append,
    replay_of_not_mem _ hbs, hsplit]
  refine replay_append_cons_of_forall _ _ fun w hw hwb => ?_
  obtain ⟨p, hp, rfl⟩ := List.mem_map.mp hw
  obtain ⟨j, hj, hpj⟩ := List.mem_iff_getElem.mp hp
  rw [List.getElem_drop, List.getElem_zipIdx, Nat.zero_add] at hpj
  have hpm := mem_pending_iff.mp (List.mem_of_mem_drop hp)
  have hp2 : p.2 = i + 1 + j := by rw [← hpj]
  have hpc : p.2 < headCount (d start) := hcount ▸ hpm.1
  simp only at hwb ⊢
  rw [hpm.2, hstale p.2 (by omega)] at hwb
  rw [hslot p.2 (by omega) hpc, ← h.current p.2 hpc, hwb]

/-! ## Runs -/

theorem slotsCurrent_run {d : Disk} (h : SlotsCurrent start d) (hist : List (Op start))
    (hok : AllSpareStale d hist) : SlotsCurrent start (run d hist) := by
  induction hist with
  | nil => exact h
  | cons op hist ih =>
    cases op with
    | commit t => exact (ih hok.1).commit hok.2
    | reboot =>
      rw [run, reboot_eq_self (ih hok)]
      exact ih hok

/-- As long as every commit spares the stale slots, every home block holds the contents of the
last commit that logged it.

**Proof sketch.** Induction on the history. A commit installs its own blocks and leaves the
others (`commit_home_of_mem`, `commit_home_of_not_mem`); a reboot is the identity because
every slot it replays is current (`slotsCurrent_run`, `reboot_eq_self`). -/
theorem run_eq_lastCommitted {d : Disk} (h : SlotsCurrent start d) (hist : List (Op start))
    (hok : AllSpareStale d hist) {b : ℕ} (hb : ¬ InLog start b) :
    run d hist b = lastCommitted d hist b := by
  induction hist with
  | nil => rfl
  | cons op hist ih =>
    cases op with
    | commit t =>
      rw [run, lastCommitted]
      split_ifs with hm
      · obtain ⟨c, hc, rfl⟩ := List.mem_map.mp hm
        rw [commit_home_of_mem _ t hc, UInt32.ofNat_toNat]
      · rw [commit_home_of_not_mem _ t hb hm, ih hok.1]
    | reboot =>
      rw [run, lastCommitted, reboot_eq_self (slotsCurrent_run h hist hok), ih hok]

theorem allSpareStale_replicate (d : Disk) (m : ℕ) (hist : List (Op start)) :
    AllSpareStale d (List.replicate m .reboot ++ hist) ↔ AllSpareStale d hist := by
  induction m with
  | zero => rfl
  | succ m ih => rw [List.replicate_succ, List.cons_append, AllSpareStale, ih]

theorem lastCommitted_replicate (d : Disk) (m : ℕ) (hist : List (Op start)) (b : ℕ) :
    lastCommitted d (List.replicate m .reboot ++ hist) b = lastCommitted d hist b := by
  induction m with
  | zero => rfl
  | succ m ih => rw [List.replicate_succ, List.cons_append, lastCommitted, ih]

theorem AllSpareStale.of_suffix {d : Disk} {h hist : List (Op start)} (hok : AllSpareStale d hist)
    (hs : h <:+ hist) : AllSpareStale d h := by
  induction hist with
  | nil => rwa [List.suffix_nil.mp hs]
  | cons op hist ih =>
    rcases List.suffix_cons_iff.mp hs with rfl | hs'
    · exact hok
    · cases op with
      | commit t => exact ih hok.1 hs'
      | reboot => exact ih hok hs'

/-- **Reboots keep committed writes if and only if every commit spares the stale slots.** The
disk may hold any pending log; after its recovery come complete commits and reboots in any
order, and at every point any number of further reboots.

**Proof sketch.** If all commits spare the stale slots, a run agrees with the last commits
(`run_eq_lastCommitted`). Conversely, take the first commit that changes a block named by a
stale slot: a reboot right after it undoes that change (`reboot_after_commit_of_stale`). -/
theorem commitsSurvive_iff (d : Disk) (hcount : headCount (d start) ≤ LOGBLOCKS)
    (hnd : (pending start d).Nodup) (hhome : ∀ b ∈ pending start d, ¬ InLog start b.toNat)
    (hist : List (Op start)) :
    CommitsSurvive (initlog start d).disk hist ↔ AllSpareStale (initlog start d).disk hist := by
  have h0 := slotsCurrent_initlog hcount hnd hhome
  set e := (initlog start d).disk
  constructor
  · intro hs
    induction hist with
    | nil => trivial
    | cons op hist ih =>
      have hrest : AllSpareStale e hist := ih fun h hh =>
        hs h (hh.trans (List.suffix_cons op hist))
      cases op with
      | reboot => exact hrest
      | commit t =>
        refine ⟨hrest, fun i hi hic hm => ?_⟩
        have hcur := slotsCurrent_run h0 hist hrest
        have hundo := reboot_after_commit_of_stale hcur hi hic
        have hsurv := hs (.commit t :: hist) List.suffix_rfl 1 _ (hcur.home i hic)
        have hlast : lastCommitted e (.commit t :: hist) (headBlock (run e hist start) i).toNat =
            t.data (headBlock (run e hist start) i) := by
          rw [lastCommitted, if_pos (List.mem_map_of_mem hm), UInt32.ofNat_toNat]
        rw [← hlast, ← hsurv]
        exact hundo
  · intro hok h hh m b hb
    have hokm := (allSpareStale_replicate e m h).mpr (hok.of_suffix hh)
    rw [run_eq_lastCommitted h0 _ hokm hb, lastCommitted_replicate]

/-- A zeroed disk except for the header, which says that blocks `200` and `201` are pending. -/
def pendingDisk : Disk :=
  update zeroDisk 2 (setU32 (setU32 (setU32 (zeroDisk 2) 0 2) 4 200) 8 201)

theorem headCount_pendingDisk : headCount (pendingDisk 2) = 2 := by decide

theorem pending_pendingDisk : pending 2 pendingDisk = [200, 201] := by
  decide

theorem pendingDisk_ok : headCount (pendingDisk 2) ≤ LOGBLOCKS ∧ (pending 2 pendingDisk).Nodup ∧
    ∀ b ∈ pending 2 pendingDisk, ¬ InLog 2 b.toNat := by
  rw [headCount_pendingDisk, pending_pendingDisk]
  simp [InLog, LOGBLOCKS, MAXOPBLOCKS]

theorem commitsSurvive_twoBlocks :
    CommitsSurvive (initlog 2 pendingDisk).disk [.reboot, .commit twoBlocks] := by
  obtain ⟨hcount, hnd, hhome⟩ := pendingDisk_ok
  refine (commitsSurvive_iff pendingDisk hcount hnd hhome _).mpr ⟨trivial, fun i hi hic _ => ?_⟩
  have hs : (initlog 2 pendingDisk).disk 2 = pendingDisk 2 :=
    (initlog_disk hcount hhome).2 2 (by decide)
  rw [run, hs, headCount_pendingDisk] at hic
  simp only [twoBlocks, List.length_cons, List.length_nil] at hi
  omega

/-- A transaction that fills block `201` with ones. -/
def overStale : Transaction 2 where
  blocks := [201]
  data := fun _ _ => 1
  nodup := by decide
  length_le := by decide
  home := by simp [InLog, LOGBLOCKS, MAXOPBLOCKS]

/-- **A committed write that a reboot undoes**: with blocks `200` and `201` pending at the first
boot, a commit of block `201` refills slot `0` only; the next reboot replays slot `1`, which
still holds the old contents of block `201`. -/
theorem reboot_undoes_commit :
    headCount (pendingDisk 2) ≤ LOGBLOCKS ∧ (pending 2 pendingDisk).Nodup ∧
      (∀ b ∈ pending 2 pendingDisk, ¬ InLog 2 b.toNat) ∧
      ¬ CommitsSurvive (initlog 2 pendingDisk).disk [.commit overStale] := by
  obtain ⟨hcount, hnd, hhome⟩ := pendingDisk_ok
  refine ⟨hcount, hnd, hhome, fun hs => ?_⟩
  have hlog := (initlog_disk hcount hhome).2
  have hcur := slotsCurrent_initlog hcount hnd hhome
  have h2 : (initlog 2 pendingDisk).disk 2 = pendingDisk 2 := hlog 2 (by decide)
  have hb : headBlock (pendingDisk 2) 1 = 201 := by decide
  have hundo := reboot_after_commit_of_stale (t := overStale) (i := 1) hcur (by decide)
    (by rw [h2, headCount_pendingDisk]; decide)
  have hold := hcur.current 1 (by rw [h2, headCount_pendingDisk]; decide)
  rw [h2, hb] at hundo hold
  have hsurv := hs [.commit overStale] List.suffix_rfl 1 (201 : UInt32).toNat (by decide)
  have hnew : lastCommitted (initlog 2 pendingDisk).disk [.commit overStale] (201 : UInt32).toNat =
      overStale.data 201 := by
    rw [lastCommitted, if_pos (by decide), UInt32.ofNat_toNat]
  have hrun : run (initlog 2 pendingDisk).disk (List.replicate 1 .reboot ++ [.commit overStale]) =
      step (step (initlog 2 pendingDisk).disk (.commit overStale)) (.reboot : Op 2) := rfl
  rw [hrun, hundo, hold, hlog _ (by decide), hnew] at hsurv
  have h0 := congrFun hsurv ⟨0, by decide⟩
  simp [pendingDisk, zeroDisk, overStale] at h0

end RiscvOs.Log
