import RiscvOs.Param
import RiscvOs.Lib.Replay

set_option autoImplicit false

/-!
# The redo log on disk (`kernel/disk/log.c`)

The functions of `log.c` that move blocks between the log area and their home locations:
`read_head`, `write_head`, `install_trans`, `recover_from_log`, `write_log`, `commit` and
`initlog`. Every one of them reads blocks through the buffer cache and issues single-block
writes with `bwrite`; the model records those writes in program order, so that a crash is a
prefix of the list.

The log area is the header block `start` followed by `LOGBLOCKS` slots. The header block holds
`struct logheader`: the count `n` at byte `0` and `block[i]` at byte `4 + 4 i`.

## Main results

* `commit_writes` — the writes of `commit()`, in order.
* `recoverFromLog_writes` — the writes of `recover_from_log()`, in order.

## Implementation notes

`write_head` stores the block numbers but never the count: the statement `hb->n = log.lh.n` of
the design notes is missing from the code. The model follows the code, and
`headCount_setBlocks` states the consequence.

The in-memory array `lh.block[0..n)` is the list `lh`, and `lh.n` is its length; nothing reads
the array at or above `n`. Pins and sleep locks do not change what is written and are modelled
with the buffer cache.
-/

namespace RiscvOs.Log

open Function ByteBlock

/-- The state of the log code: the disk, the contents `bread` returns for each block, the
in-memory header `lh.block[0..n)`, and the single-block writes issued so far. -/
structure State where
  disk : Disk
  buf : Disk
  lh : List UInt32
  writes : List (ℕ × Block)

/-- Fill the buffer of block `b` with `data` and `bwrite` it. -/
def bwrite (s : State) (b : ℕ) (data : Block) : State :=
  { s with
    disk := update s.disk b data
    buf := update s.buf b data
    writes := s.writes ++ [(b, data)] }

/-- `lh->n` of a header block, as the number of iterations of `for (i = 0; i < n; i++)`: the
field is a signed `int`, so a negative count runs no iteration. -/
def headCount (hb : Block) : ℕ := if (u32 hb 0).toNat < 2 ^ 31 then (u32 hb 0).toNat else 0

/-- `lh->block[i]` of a header block. -/
def headBlock (hb : Block) (i : ℕ) : UInt32 := u32 hb (4 + 4 * i)

/-- The loop of `write_head`: store `bs` in `hb->block[i..]`. -/
def setBlocks (hb : Block) (i : ℕ) : List UInt32 → Block
  | [] => hb
  | b :: bs => setBlocks (setU32 hb (4 + 4 * i) b) (i + 1) bs

section Code

variable (start : ℕ)

/-- `read_head`: load the header block into `lh`. -/
def readHead (s : State) : State :=
  { s with lh := (List.range (headCount (s.buf start))).map (headBlock (s.buf start)) }

/-- `write_head`: store `lh.block[0..n)` in the header block and write it. The count of the
header block is left as it is. -/
def writeHead (s : State) : State := bwrite s start (setBlocks (s.buf start) 0 s.lh)

/-- The loop of `install_trans` from `tail` on: copy the log slots to the home blocks `bs`. -/
def installTransFrom (tail : ℕ) (s : State) : List UInt32 → State
  | [] => s
  | b :: bs => installTransFrom (tail + 1) (bwrite s b.toNat (s.buf (start + tail + 1))) bs

/-- `install_trans`: copy the committed blocks from the log to their home locations. -/
def installTrans (s : State) : State := installTransFrom start 0 s s.lh

/-- `recover_from_log`: replay the log that the header on disk describes, then clear it. -/
def recoverFromLog (s : State) : State :=
  writeHead start { installTrans start (readHead start s) with lh := [] }

/-- The loop of `write_log` from `tail` on: copy the cached blocks `bs` to the log slots. -/
def writeLogFrom (tail : ℕ) (s : State) : List UInt32 → State
  | [] => s
  | b :: bs => writeLogFrom (tail + 1) (bwrite s (start + tail + 1) (s.buf b.toNat)) bs

/-- `write_log`: copy the modified blocks from the cache to the log. -/
def writeLog (s : State) : State := writeLogFrom start 0 s s.lh

/-- `commit`: write the log, write the header, install the blocks, write the header again with
an empty list. -/
def commit (s : State) : State :=
  if s.lh.length > 0 then
    writeHead start { installTrans start (writeHead start (writeLog start s)) with lh := [] }
  else s

end Code

/-- The state after a reset: the cache holds nothing, so `bread` returns what is on disk. -/
def boot (d : Disk) : State := { disk := d, buf := d, lh := [], writes := [] }

/-- `initlog`, from a freshly booted machine: `sizeof(struct logheader)` is below `BSIZE`, so
the size check passes, and the log is recovered. -/
def initlog (start : ℕ) (d : Disk) : State := recoverFromLog start (boot d)

/-- `b` lies in the log area: the header block or one of its `LOGBLOCKS` slots. -/
def InLog (start b : ℕ) : Prop := start ≤ b ∧ b ≤ start + LOGBLOCKS

instance (start b : ℕ) : Decidable (InLog start b) := inferInstanceAs (Decidable (_ ∧ _))

/-- A transaction: at most `LOGBLOCKS` distinct home blocks outside the log area, with the
contents that their pinned buffers hold. -/
structure Transaction (start : ℕ) where
  blocks : List UInt32
  data : UInt32 → Block
  nodup : blocks.Nodup
  length_le : blocks.length ≤ LOGBLOCKS
  home : ∀ b ∈ blocks, ¬ InLog start b.toNat

/-- The state in which `end_op` calls `commit`: the blocks of `t` are listed in `lh` and their
pinned buffers hold the new contents; every other block reads as on disk. -/
def pinned {start : ℕ} (d : Disk) (t : Transaction start) : State :=
  { disk := d
    buf := replay d (t.blocks.map fun b => (b.toNat, t.data b))
    lh := t.blocks
    writes := [] }

/-! ## The header block -/

theorem get_setBlocks (hb : Block) (i : ℕ) (bs : List UInt32) {j : ℕ} (hj : j < 4 + 4 * i) :
    get (setBlocks hb i bs) j = get hb j := by
  induction bs generalizing hb i with
  | nil => rfl
  | cons b bs ih =>
    rw [setBlocks, ih _ _ (by omega), setU32, get_splice_of_not_mem _ _ (by omega)]

/-- **`write_head` never changes the count of the header block.** -/
theorem headCount_setBlocks (hb : Block) (bs : List UInt32) :
    headCount (setBlocks hb 0 bs) = headCount hb := by
  have h : u32 (setBlocks hb 0 bs) 0 = u32 hb 0 :=
    u32_congr fun i hi => get_setBlocks hb 0 bs (by omega)
  rw [headCount, headCount, h]

theorem headBlock_setBlocks (hb : Block) (i : ℕ) (bs : List UInt32)
    (hlen : i + bs.length ≤ 255) (j : ℕ) :
    headBlock (setBlocks hb i bs) j =
      if i ≤ j then bs.getD (j - i) (headBlock hb j) else headBlock hb j := by
  induction bs generalizing hb i with
  | nil => simp [setBlocks]
  | cons b bs ih =>
    rw [List.length_cons] at hlen
    rw [setBlocks, ih _ _ (by omega)]
    rcases lt_trichotomy j i with h | rfl | h
    · rw [if_neg (by omega), if_neg (by omega), headBlock, headBlock,
        u32_setU32_of_disjoint _ _ (by omega)]
    · rw [if_neg (by omega), if_pos le_rfl, headBlock, u32_setU32 _ _ (by simp [BSIZE]; omega)]
      simp
    · obtain ⟨k, rfl⟩ : ∃ k, j = i + 1 + k := ⟨j - (i + 1), by omega⟩
      have hd : headBlock (setU32 hb (4 + 4 * i) b) (i + 1 + k) = headBlock hb (i + 1 + k) := by
        rw [headBlock, headBlock, u32_setU32_of_disjoint _ _ (by omega)]
      rw [if_pos (by omega), if_pos (by omega), hd, show i + 1 + k - (i + 1) = k by omega,
        show i + 1 + k - i = k + 1 by omega, List.getD_cons_succ]

/-! ## The writes of each function -/

section Writes

variable {start : ℕ}

theorem installTransFrom_eq (tail : ℕ) (s : State) (bs : List UInt32)
    (hb : ∀ b ∈ bs, ¬ InLog start b.toNat) (hlen : tail + bs.length ≤ LOGBLOCKS) :
    installTransFrom start tail s bs =
      { s with
        disk := replay s.disk ((bs.zipIdx tail).map fun p => (p.1.toNat, s.buf (start + p.2 + 1)))
        buf := replay s.buf ((bs.zipIdx tail).map fun p => (p.1.toNat, s.buf (start + p.2 + 1)))
        writes := s.writes ++
          (bs.zipIdx tail).map fun p => (p.1.toNat, s.buf (start + p.2 + 1)) } := by
  induction bs generalizing tail s with
  | nil => simp [installTransFrom]
  | cons b bs ih =>
    rw [List.length_cons] at hlen
    have hkeep : ∀ p ∈ bs.zipIdx (tail + 1),
        (bwrite s b.toNat (s.buf (start + tail + 1))).buf (start + p.2 + 1) =
          s.buf (start + p.2 + 1) := by
      intro p hp
      obtain ⟨h1, h2, -⟩ := List.mem_zipIdx hp
      have hne : start + p.2 + 1 ≠ b.toNat := by
        have := hb b List.mem_cons_self
        rw [InLog] at this
        omega
      exact update_of_ne hne _ _
    rw [installTransFrom, ih _ _ (fun c hc => hb c (List.mem_cons_of_mem b hc)) (by omega),
      List.map_congr_left (fun p hp => by rw [hkeep p hp])]
    simp [bwrite, List.zipIdx_cons]

theorem writeLogFrom_eq (tail : ℕ) (s : State) (bs : List UInt32)
    (hb : ∀ b ∈ bs, ¬ InLog start b.toNat) (hlen : tail + bs.length ≤ LOGBLOCKS) :
    writeLogFrom start tail s bs =
      { s with
        disk := replay s.disk ((bs.zipIdx tail).map fun p => (start + p.2 + 1, s.buf p.1.toNat))
        buf := replay s.buf ((bs.zipIdx tail).map fun p => (start + p.2 + 1, s.buf p.1.toNat))
        writes := s.writes ++
          (bs.zipIdx tail).map fun p => (start + p.2 + 1, s.buf p.1.toNat) } := by
  induction bs generalizing tail s with
  | nil => simp [writeLogFrom]
  | cons b bs ih =>
    rw [List.length_cons] at hlen
    have hkeep : ∀ p ∈ bs.zipIdx (tail + 1),
        (bwrite s (start + tail + 1) (s.buf b.toNat)).buf p.1.toNat = s.buf p.1.toNat := by
      intro p hp
      have hmem : p.1 ∈ bs := by
        obtain ⟨-, -, h3⟩ := List.mem_zipIdx hp
        exact h3 ▸ List.getElem_mem _
      have hne : p.1.toNat ≠ start + tail + 1 := by
        have := hb p.1 (List.mem_cons_of_mem b hmem)
        rw [InLog] at this
        omega
      exact update_of_ne hne _ _
    rw [writeLogFrom, ih _ _ (fun c hc => hb c (List.mem_cons_of_mem b hc)) (by omega),
      List.map_congr_left (fun p hp => by rw [hkeep p hp])]
    simp [bwrite, List.zipIdx_cons]

/-- The header block that `commit` leaves: the block numbers of `t` over the old contents. -/
def commitHead (d : Disk) (t : Transaction start) : Block := setBlocks (d start) 0 t.blocks

/-- The writes of `commit()` for the transaction `t`: the log slots, the header, the home
blocks, the header again. -/
def commitWrites (d : Disk) (t : Transaction start) : List (ℕ × Block) :=
  (t.blocks.zipIdx.map fun p => (start + p.2 + 1, t.data p.1)) ++
    (start, commitHead d t) ::
      ((t.blocks.map fun b => (b.toNat, t.data b)) ++ [(start, commitHead d t)])

theorem Transaction.nodup_toNat (t : Transaction start) : (t.blocks.map UInt32.toNat).Nodup :=
  t.nodup.map fun _ _ h => UInt32.toNat_inj.mp h

theorem Transaction.start_not_mem (t : Transaction start) :
    start ∉ t.blocks.map UInt32.toNat := by
  intro h
  obtain ⟨b, hb, he⟩ := List.mem_map.mp h
  exact t.home b hb ⟨by omega, by omega⟩

theorem nodup_slots (start : ℕ) (bs : List UInt32) : (bs.zipIdx.map fun p => start + p.2 + 1).Nodup := by
  have h : (bs.zipIdx.map fun p => start + p.2 + 1) =
      (List.range' 0 bs.length).map fun i => start + i + 1 := by
    rw [← List.zipIdx_map_snd, List.map_map]
    rfl
  rw [h]
  exact List.Nodup.map (fun a b hab => by omega) List.nodup_range'

theorem zipIdx_map_home (bs : List UInt32) (data : UInt32 → Block) :
    (bs.zipIdx.map fun p => (p.1.toNat, data p.1)) = bs.map fun b => (b.toNat, data b) := by
  conv_rhs => rw [← List.zipIdx_map_fst 0 bs, List.map_map]
  rfl

/-- **The writes of `commit()`**, and the disk and cache they leave.

**Proof sketch.** `write_log` reads the pinned buffers, which hold the new contents, and
writes the slots; the header block is read from the cache, where no slot has touched it;
`install_trans` reads the slots back. Slots, header and home blocks are pairwise apart, so no
write disturbs a later read. -/
theorem commit_writes (d : Disk) (t : Transaction start) (hne : t.blocks ≠ []) :
    (commit start (pinned d t)).writes = commitWrites d t ∧
      (commit start (pinned d t)).disk = replay d (commitWrites d t) ∧
      (commit start (pinned d t)).buf = replay (pinned d t).buf (commitWrites d t) := by
  have hlen := t.length_le
  have hpos : (pinned d t).lh.length > 0 := List.length_pos_iff.mpr hne
  -- `write_log` finds the new contents in the pinned buffers
  have hpin : ∀ b ∈ t.blocks, (pinned d t).buf b.toNat = t.data b := fun b hb =>
    replay_map_of_mem d t.nodup_toNat hb
  have hslot : ((t.blocks.zipIdx).map fun p => (start + p.2 + 1, (pinned d t).buf p.1.toNat)) =
      t.blocks.zipIdx.map fun p => (start + p.2 + 1, t.data p.1) := by
    refine List.map_congr_left fun p hp => ?_
    obtain ⟨-, -, h3⟩ := List.mem_zipIdx hp
    rw [hpin p.1 (h3 ▸ List.getElem_mem _)]
  set W := t.blocks.zipIdx.map fun p => (start + p.2 + 1, t.data p.1) with hW
  have hstartW : start ∉ W.map Prod.fst := by
    rw [hW, List.map_map]
    intro h
    obtain ⟨p, -, he⟩ := List.mem_map.mp h
    simp only [comp_apply] at he
    omega
  have hstart : (pinned d t).buf start = d start := by
    refine replay_of_not_mem d ?_
    rw [List.map_map]
    exact t.start_not_mem
  have hwl : writeLog start (pinned d t) =
      { pinned d t with
        disk := replay d W, buf := replay (pinned d t).buf W, writes := W } := by
    have h := writeLogFrom_eq 0 (pinned d t) t.blocks t.home (by omega)
    rw [hslot] at h
    exact h
  have hwh : writeHead start (writeLog start (pinned d t)) =
      { disk := update (replay d W) start (commitHead d t)
        buf := update (replay (pinned d t).buf W) start (commitHead d t)
        lh := t.blocks
        writes := W ++ [(start, commitHead d t)] } := by
    have hb : replay (pinned d t).buf W start = d start := by
      rw [replay_of_not_mem _ hstartW, hstart]
    rw [hwl]
    simp only [writeHead, bwrite, pinned, hb, commitHead] at hb ⊢
  -- `install_trans` reads the slots back
  have hread : ((t.blocks.zipIdx).map fun p =>
        (p.1.toNat, update (replay (pinned d t).buf W) start (commitHead d t)
          (start + p.2 + 1))) = t.blocks.map fun b => (b.toNat, t.data b) := by
    rw [← zipIdx_map_home]
    refine List.map_congr_left fun p hp => ?_
    rw [update_of_ne (by omega), hW, replay_map_of_mem _ (nodup_slots start t.blocks) hp]
  have hit := installTransFrom_eq 0 (writeHead start (writeLog start (pinned d t))) t.blocks
    t.home (by omega)
  rw [hwh] at hit
  simp only [hread] at hit
  have hhome : start ∉ (t.blocks.map fun b => (b.toNat, t.data b)).map Prod.fst := by
    rw [List.map_map]
    exact t.start_not_mem
  have hfin : commit start (pinned d t) = writeHead start
      { installTransFrom start 0 (writeHead start (writeLog start (pinned d t))) t.blocks with
        lh := [] } := by
    rw [commit, if_pos hpos, installTrans, hwh]
  rw [hfin, hwh, hit]
  simp only [writeHead, bwrite, setBlocks]
  rw [replay_of_not_mem _ hhome, update_self]
  refine ⟨by simp [commitWrites, ← hW], ?_, ?_⟩ <;>
    · rw [commitWrites, replay_append, replay_cons, replay_append, ← hW]
      rfl

/-- The blocks that `recover_from_log()` finds in the header on disk, with their slots. -/
def pending (start : ℕ) (d : Disk) : List UInt32 :=
  (List.range (headCount (d start))).map (headBlock (d start))

/-- The writes of `recover_from_log()` on the disk `d`: every slot to its home block, then the
header as it was. -/
def recoverWrites (start : ℕ) (d : Disk) : List (ℕ × Block) :=
  ((pending start d).zipIdx.map fun p => (p.1.toNat, d (start + p.2 + 1))) ++ [(start, d start)]

/-- **The writes of `recover_from_log()`**, and the disk they leave. -/
theorem recoverFromLog_writes (d : Disk) (hb : ∀ b ∈ pending start d, ¬ InLog start b.toNat)
    (hlen : (pending start d).length ≤ LOGBLOCKS) :
    (recoverFromLog start (boot d)).writes = recoverWrites start d ∧
      (recoverFromLog start (boot d)).disk = replay d (recoverWrites start d) := by
  have hit := installTransFrom_eq 0 (readHead start (boot d)) (pending start d)
    hb (by omega)
  have hhome : start ∉ (((pending start d).zipIdx.map fun p =>
      (p.1.toNat, d (start + p.2 + 1))).map Prod.fst) := by
    rw [List.map_map]
    intro h
    obtain ⟨p, hp, he⟩ := List.mem_map.mp h
    obtain ⟨-, -, h3⟩ := List.mem_zipIdx hp
    exact hb p.1 (h3 ▸ List.getElem_mem _) ⟨by simp only [comp_apply] at he; omega,
      by simp only [comp_apply] at he; omega⟩
  have hfin : recoverFromLog start (boot d) = writeHead start
      { installTransFrom start 0 (readHead start (boot d)) (pending start d) with lh := [] } :=
    rfl
  rw [hfin, hit]
  simp only [writeHead, bwrite, setBlocks, readHead, boot]
  rw [replay_of_not_mem _ hhome]
  refine ⟨by simp [recoverWrites], ?_⟩
  rw [recoverWrites, replay_append]
  rfl

end Writes

end RiscvOs.Log
