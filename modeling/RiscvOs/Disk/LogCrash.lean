import RiscvOs.Disk.Log

set_option autoImplicit false

/-!
# Crashes during `commit()`

What a machine that stops between two single-block writes of `commit()`, and again any number
of times inside `recover_from_log()`, finds on its disk after a complete recovery.

Since `write_head` never stores the count, the header on disk still says `n = 0` after the
first header write, recovery replays nothing, and the home blocks are left exactly as far
installed as they were at the crash. The transaction is atomic if and only if the crash does
not fall between two home blocks that it changes.

## Main results

* `afterCrash_home` — which home blocks are new after a crash.
* `atomicAfterCrash_iff` — when a crash is atomic.
* `crash_between_home_blocks` — a crash that is not.
-/

namespace RiscvOs.Log

open Function ByteBlock

variable {start : ℕ}

/-- The disk when the machine stops after the first `k` writes of `commit()`. -/
def crashCommit (d : Disk) (t : Transaction start) (k : ℕ) : Disk :=
  replay d ((commit start (pinned d t)).writes.take k)

/-- The disk after the machine has stopped inside `recover_from_log()` once for each entry of
`ks`, after that many writes. -/
def crashRecover (start : ℕ) (d : Disk) : List ℕ → Disk
  | [] => d
  | k :: ks => crashRecover start (replay d ((initlog start d).writes.take k)) ks

/-- The disk after a crash of `commit()` at `k`, crashes of the recovery at `ks`, and a final
complete recovery. -/
def afterCrash (d : Disk) (t : Transaction start) (k : ℕ) (ks : List ℕ) : Disk :=
  (initlog start (crashRecover start (crashCommit d t k) ks)).disk

/-- The home blocks are all as before the transaction or all as it wrote them, and every other
block outside the log is unchanged. -/
def AtomicAfterCrash (d : Disk) (t : Transaction start) (k : ℕ) (ks : List ℕ) : Prop :=
  ((∀ b ∈ t.blocks, afterCrash d t k ks b.toNat = d b.toNat) ∨
      (∀ b ∈ t.blocks, afterCrash d t k ks b.toNat = t.data b)) ∧
    ∀ b, ¬ InLog start b → b ∉ t.blocks.map UInt32.toNat → afterCrash d t k ks b = d b

/-! ## Recovery of an empty log -/

theorem pending_of_headCount_eq_zero {d : Disk} (h : headCount (d start) = 0) :
    pending start d = [] := by
  rw [pending, h]
  rfl

theorem initlog_of_headCount_eq_zero {d : Disk} (h : headCount (d start) = 0) :
    (initlog start d).writes = [(start, d start)] ∧ (initlog start d).disk = d := by
  have hp := pending_of_headCount_eq_zero h
  have hb : ∀ b ∈ pending start d, ¬ InLog start b.toNat := by simp [hp]
  obtain ⟨hw, hd⟩ := recoverFromLog_writes d hb (by simp [hp])
  have hr : recoverWrites start d = [(start, d start)] := by
    rw [recoverWrites, hp]
    rfl
  rw [hr] at hw hd
  refine ⟨hw, ?_⟩
  rw [initlog, hd, replay_cons, replay_nil]
  exact update_eq_self start d

theorem crashRecover_of_headCount_eq_zero {d : Disk} (h : headCount (d start) = 0)
    (ks : List ℕ) : crashRecover start d ks = d := by
  induction ks with
  | nil => rfl
  | cons k ks ih =>
    have hk : replay d ((initlog start d).writes.take k) = d := by
      rw [(initlog_of_headCount_eq_zero h).1]
      cases k with
      | zero => rfl
      | succ k => simp
    rw [crashRecover, hk, ih]

/-! ## The disk at the crash -/

theorem headCount_replay_eq_zero {d : Disk} (h : headCount (d start) = 0)
    {ws : List (ℕ × Block)} (hws : ∀ w ∈ ws, w.1 = start → headCount w.2 = 0) :
    headCount (replay d ws start) = 0 := by
  induction ws generalizing d with
  | nil => exact h
  | cons w ws ih =>
    rw [replay_cons]
    refine ih ?_ fun v hv => hws v (List.mem_cons_of_mem w hv)
    by_cases hw : w.1 = start
    · rw [← hw, update_self]
      exact hws w List.mem_cons_self hw
    · rwa [update_of_ne (Ne.symm hw)]

/-- **The header on disk still says `n = 0` at every crash point of `commit()`.** -/
theorem headCount_crashCommit {d : Disk} (h : headCount (d start) = 0) (t : Transaction start)
    (k : ℕ) : headCount (crashCommit d t k start) = 0 := by
  have hhead : headCount (commitHead d t) = 0 := by rw [commitHead, headCount_setBlocks, h]
  refine headCount_replay_eq_zero h fun w hw hws => ?_
  by_cases hne : t.blocks = []
  · simp [commit, pinned, hne] at hw
  rw [(commit_writes d t hne).1] at hw
  have hw := List.mem_of_mem_take hw
  rw [commitWrites] at hw
  simp only [List.mem_append, List.mem_cons, List.mem_map, List.not_mem_nil, or_false] at hw
  rcases hw with ⟨p, -, rfl⟩ | rfl | ⟨b, hb, rfl⟩ | rfl
  · simp only at hws
    omega
  · exact hhead
  · exact absurd (List.mem_map.mpr ⟨b, hb, hws⟩) t.start_not_mem
  · exact hhead

/-- Outside the log area the disk at the crash shows the installed home blocks only: the log
slots and the header do not count, and `k` writes install `k - (n + 1)` home blocks. -/
theorem crashCommit_home (d : Disk) (t : Transaction start) (k : ℕ) {b : ℕ}
    (hb : ¬ InLog start b) :
    crashCommit d t k b = replay d ((t.blocks.take (k - (t.blocks.length + 1))).map
      fun c => (c.toNat, t.data c)) b := by
  by_cases hne : t.blocks = []
  · simp [crashCommit, commit, pinned, hne]
  have hlen := t.length_le
  rw [crashCommit, (commit_writes d t hne).1, commitWrites, List.take_append, List.length_map,
    List.length_zipIdx, replay_append]
  set W := t.blocks.zipIdx.map fun p => (start + p.2 + 1, t.data p.1)
  -- none of the slots is `b`
  have hW : b ∉ (W.take k).map Prod.fst := by
    intro h
    obtain ⟨w, hw, rfl⟩ := List.mem_map.mp h
    obtain ⟨p, hp, rfl⟩ := List.mem_map.mp (List.mem_of_mem_take hw)
    obtain ⟨-, h2, -⟩ := List.mem_zipIdx hp
    exact hb ⟨by simp only; omega, by simp only; omega⟩
  have hbs : b ≠ start := fun h => hb (h ▸ ⟨le_rfl, Nat.le_add_right _ _⟩)
  have hd : replay d (W.take k) b = d b := replay_of_not_mem d hW
  rcases Nat.lt_or_ge t.blocks.length k with hk | hk
  · obtain ⟨j, rfl⟩ : ∃ j, k = t.blocks.length + 1 + j := ⟨k - (t.blocks.length + 1), by omega⟩
    rw [show t.blocks.length + 1 + j - t.blocks.length = j + 1 by omega,
      show t.blocks.length + 1 + j - (t.blocks.length + 1) = j by omega, List.take_succ_cons,
      replay_cons, List.take_append, replay_append, replay_of_not_mem, List.map_take]
    · refine replay_congr ?_ _
      rw [update_of_ne hbs, hd]
    · intro h
      obtain ⟨w, hw, he⟩ := List.mem_map.mp h
      have hw := List.mem_of_mem_take hw
      simp only [List.mem_singleton] at hw
      exact hbs (by rw [← he, hw])
  · rw [show k - t.blocks.length = 0 by omega, show k - (t.blocks.length + 1) = 0 by omega]
    simpa using hd

theorem afterCrash_home {d : Disk} (h : headCount (d start) = 0) (t : Transaction start)
    (k : ℕ) (ks : List ℕ) {b : ℕ} (hb : ¬ InLog start b) :
    afterCrash d t k ks b = replay d ((t.blocks.take (k - (t.blocks.length + 1))).map
      fun c => (c.toNat, t.data c)) b := by
  have hc := headCount_crashCommit h t k
  rw [afterCrash, crashRecover_of_headCount_eq_zero hc, (initlog_of_headCount_eq_zero hc).2,
    crashCommit_home d t k hb]

theorem afterCrash_block {d : Disk} (h : headCount (d start) = 0) (t : Transaction start)
    (k : ℕ) (ks : List ℕ) {b : UInt32} (hb : b ∈ t.blocks) :
    afterCrash d t k ks b.toNat =
      if b ∈ t.blocks.take (k - (t.blocks.length + 1)) then t.data b else d b.toNat := by
  rw [afterCrash_home h t k ks (t.home b hb)]
  set j := k - (t.blocks.length + 1)
  have hnd : ((t.blocks.take j).map UInt32.toNat).Nodup := by
    rw [List.map_take]
    exact t.nodup_toNat.sublist (List.take_sublist _ _)
  split_ifs with hbj
  · exact replay_map_of_mem d hnd hbj
  · refine replay_of_not_mem d ?_
    rw [List.map_map]
    intro hm
    obtain ⟨c, hc, he⟩ := List.mem_map.mp hm
    exact hbj (UInt32.toNat_inj.mp he ▸ hc)

/-! ## When a crash is atomic -/

/-- **A crash is atomic if and only if it does not separate two changed home blocks**: of the
`k - (n + 1)` home blocks installed at the crash none differs from its old contents, or none of
the others does.

**Proof sketch.** By `afterCrash_block` the installed home blocks are new and the others are
old. "All old" then says that the installed ones did not change, and "all new" that the others
did not. -/
theorem atomicAfterCrash_iff {d : Disk} (h : headCount (d start) = 0) (t : Transaction start)
    (k : ℕ) (ks : List ℕ) :
    AtomicAfterCrash d t k ks ↔
      (∀ b ∈ t.blocks.take (k - (t.blocks.length + 1)), t.data b = d b.toNat) ∨
        (∀ b ∈ t.blocks.drop (k - (t.blocks.length + 1)), t.data b = d b.toNat) := by
  set j := k - (t.blocks.length + 1) with hj
  have hframe : ∀ b, ¬ InLog start b → b ∉ t.blocks.map UInt32.toNat →
      afterCrash d t k ks b = d b := by
    intro b hb hnb
    rw [afterCrash_home h t k ks hb]
    refine replay_of_not_mem d ?_
    rw [List.map_map]
    intro hm
    obtain ⟨c, hc, he⟩ := List.mem_map.mp hm
    exact hnb (List.mem_map.mpr ⟨c, List.mem_of_mem_take hc, he⟩)
  have hold : (∀ b ∈ t.blocks, afterCrash d t k ks b.toNat = d b.toNat) ↔
      ∀ b ∈ t.blocks.take j, t.data b = d b.toNat := by
    constructor
    · intro ha b hb
      have := ha b (List.mem_of_mem_take hb)
      rwa [afterCrash_block h t k ks (List.mem_of_mem_take hb), if_pos hb] at this
    · intro ha b hb
      rw [afterCrash_block h t k ks hb]
      split_ifs with hbj
      · exact ha b hbj
      · rfl
  have hnew : (∀ b ∈ t.blocks, afterCrash d t k ks b.toNat = t.data b) ↔
      ∀ b ∈ t.blocks.drop j, t.data b = d b.toNat := by
    constructor
    · intro ha b hb
      have hmem := List.mem_of_mem_drop hb
      have hnt : b ∉ t.blocks.take j := fun ht =>
        (List.disjoint_take_drop t.nodup le_rfl) ht hb
      have := ha b hmem
      rw [afterCrash_block h t k ks hmem, if_neg hnt] at this
      exact this.symm
    · intro ha b hb
      rw [afterCrash_block h t k ks hb]
      split_ifs with hbj
      · rfl
      · have hbd : b ∈ t.blocks.drop j := by
          rw [← List.take_append_drop j t.blocks, List.mem_append] at hb
          exact hb.resolve_left hbj
        exact (ha b hbd).symm
  rw [AtomicAfterCrash, hold, hnew]
  exact ⟨fun ha => ha.1, fun ha => ⟨ha, hframe⟩⟩

/-- A disk of zeroes. -/
def zeroDisk : Disk := fun _ _ => 0

/-- A transaction that fills blocks `100` and `101` with ones. -/
def twoBlocks : Transaction 2 where
  blocks := [100, 101]
  data := fun _ _ => 1
  nodup := by decide
  length_le := by decide
  home := by simp [InLog, LOGBLOCKS, MAXOPBLOCKS]

theorem atomicAfterCrash_iff_twoBlocks :
    headCount (zeroDisk 2) = 0 ∧ AtomicAfterCrash zeroDisk twoBlocks 3 [1] := by
  have h : headCount (zeroDisk 2) = 0 := by decide
  exact ⟨h, (atomicAfterCrash_iff h twoBlocks 3 [1]).mpr (Or.inl (by simp [twoBlocks]))⟩

/-- **A crash that is not atomic**: on a zeroed disk, the transaction `twoBlocks` has written
its two slots, the header and block `100` when the machine stops. After recovery block `100` is
new and block `101` is old. -/
theorem crash_between_home_blocks :
    headCount (zeroDisk 2) = 0 ∧ ¬ AtomicAfterCrash zeroDisk twoBlocks 4 [] := by
  have h : headCount (zeroDisk 2) = 0 := by decide
  refine ⟨h, fun ha => ?_⟩
  have h100 := afterCrash_block h twoBlocks 4 [] (b := 100) (by decide)
  have h101 := afterCrash_block h twoBlocks 4 [] (b := 101) (by decide)
  rw [if_neg (by decide)] at h101
  have hne : ∀ b c, twoBlocks.data b ≠ zeroDisk c := by
    intro b c hbc
    have h0 := congrFun hbc ⟨0, by decide⟩
    simp [twoBlocks, zeroDisk] at h0
  rcases ha.1 with hold | hnew
  · exact hne _ _ (h100.symm.trans (hold 100 (by decide)))
  · exact hne _ _ ((h101.symm.trans (hnew 101 (by decide))).symm)

end RiscvOs.Log
