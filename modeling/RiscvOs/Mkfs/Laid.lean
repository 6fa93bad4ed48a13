import RiscvOs.Mkfs.Program
import RiscvOs.Fs.Ownership

set_option autoImplicit false

/-!
# Blocks and bytes of the image

While `mkfs` runs, the blocks below `freeblock` have been handed out, each to one place of one
inode, and the blocks of an inode contain the bytes that were appended to it. The record of the
inode that is being appended to is ahead of the image, so the records are a parameter.

## Main results

* `Laid.setAddr`, `Laid.setIndirect`, `Laid.setEntry` — the
  next block is handed out.
* `Laid.store` — bytes are written to a block.
-/

namespace RiscvOs.Mkfs

open Function Fs Ownership

/-- The superblock with as many inodes as the inode blocks have records. -/
def wide : Superblock := { sb with ninodes := ninodeblocks * IPB }

/-- The image with block `b` replaced. -/
def Image.put (m : Image) (b : ℕ) (blk : Block) : Image :=
  { m with disk := update m.disk b blk }

/-- The block `fbn` of a file, `0` if there is none. -/
def blockNo (d : Disk) (din : Dinode) (fbn : ℕ) : ℕ :=
  if fbn < NDIRECT then din.addr fbn
  else if din.addr NDIRECT = 0 then 0
  else (ByteBlock.u32 (d (din.addr NDIRECT)) (4 * (fbn - NDIRECT))).toNat

/-- Where the number of block `fbn` of inode `i` is stored. -/
def place (i fbn : ℕ) : Place := if fbn < NDIRECT then .addr i fbn else .entry i (fbn - NDIRECT)

/-- The number of blocks that a file of `n` blocks takes. -/
def cost (n : ℕ) : ℕ := if n ≤ NDIRECT then n else n + 1

/-- Inode `i` is allocated. -/
def Live (recs : ℕ → Dinode) (i : ℕ) : Prop := i < wide.ninodes ∧ (recs i).type ≠ 0

/-- A file has its first `n` blocks, and they start with the bytes `l`. -/
structure FileLaid (d : Disk) (din : Dinode) (n : ℕ) (l : List UInt8) : Prop where
  mapped : ∀ fbn < MAXFILE, (blockNo d din fbn = 0 ↔ n ≤ fbn)
  indirect : din.addr NDIRECT = 0 ↔ n ≤ NDIRECT
  bytes : ∀ k < l.length, k / BSIZE < n ∧
    l[k]? = some (ByteBlock.get (d (blockNo d din (k / BSIZE))) (k % BSIZE))
  le : n ≤ MAXFILE

/-- The blocks below `freeblock` are handed out; inode `i` has its first `w i` blocks, and they
start with the bytes `c i`. -/
structure Laid (m : Image) (recs : ℕ → Dinode) (w : ℕ → ℕ) (c : ℕ → List UInt8) : Prop where
  hi : m.freeblock ≤ FSSIZE
  owns : Owns nmeta FSSIZE (· < m.freeblock) (holds wide m.disk recs)
  fresh : ∀ b, m.freeblock ≤ b → m.disk b = fun _ => 0
  file : ∀ i, Live recs i → FileLaid m.disk (recs i) (w i) (c i)
  count : m.freeblock = nmeta + ∑ i ∈ Finset.range wide.ninodes, cost (w i)

section Places

variable {s : Superblock} {d : Disk} {recs : ℕ → Dinode} {i j k fbn : ℕ}

theorem place_inj (h : place i fbn = place j k) : i = j ∧ fbn = k := by
  unfold place at h
  split_ifs at h with h1 h2 h2
  · exact Place.addr.inj h
  · obtain ⟨rfl, hk⟩ := Place.entry.inj h
    exact ⟨rfl, by omega⟩

theorem place_ne_indirect : place i fbn ≠ .addr j NDIRECT := by
  intro h
  unfold place at h
  split_ifs at h with h1
  have := (Place.addr.inj h).2
  omega

theorem holds_live (d : Disk) (h : Live recs i) :
    holds wide d recs (.addr i k) = (recs i).addr k := holds_addr h.1 h.2

theorem holds_place (h : Live recs i) (hf : fbn < MAXFILE) :
    holds wide d recs (place i fbn) = blockNo d (recs i) fbn := by
  unfold place blockNo
  split_ifs with h1 h2
  · exact holds_addr h.1 h.2
  · exact if_neg fun hx => hx.2.1 h2
  · refine holds_entry h.1 h.2 h2 ?_
    rw [MAXFILE] at hf
    omega

theorem holds_setIndirect (hi : i < s.ninodes) (ht : (recs i).type ≠ 0)
    (h0 : (recs i).addr NDIRECT = 0) {b : ℕ} (hb : b < 2 ^ 32) (hzero : d b = fun _ => 0) :
    holds s d (update recs i ((recs i).setAddr NDIRECT b)) =
      update (holds s d recs) (.addr i NDIRECT) b := by
  refine holds_setAddr_of_entry hi ht (Nat.lt_succ_self _) hb fun k => ?_
  have hn := Dinode.addr_setAddr (recs i) (Nat.lt_succ_self NDIRECT) hb NDIRECT
  -- the new block contains zeros
  have hu : ByteBlock.u32 (d b) (4 * k) = 0 := by
    rw [hzero]
    simp [ByteBlock.u32, ByteBlock.get]
  simp [holds, hn, hu, h0]

/-- An entry of the indirect block of an inode is set. -/
theorem holds_setEntry (hi : i < s.ninodes) (ht : (recs i).type ≠ 0)
    (ha : (recs i).addr NDIRECT ≠ 0) (hj : j < NINDIRECT)
    (hown : ∀ i', holds s d recs (.addr i' NDIRECT) = (recs i).addr NDIRECT → i' = i)
    (v : UInt32) :
    holds s (update d ((recs i).addr NDIRECT)
        (ByteBlock.setU32 (d ((recs i).addr NDIRECT)) (4 * j) v)) recs =
      update (holds s d recs) (.entry i j) v.toNat := by
  have hB : 4 * j + 4 ≤ BSIZE := by
    rw [NINDIRECT, BSIZE] at hj
    rw [BSIZE]
    omega
  funext x
  cases x with
  | addr i' k =>
    rfl
  | entry i' k =>
    by_cases hi' : i' = i
    · subst hi'
      by_cases hk : k = j
      · subst hk
        rw [update_self, holds_entry hi ht ha hj, update_self,
          ByteBlock.u32_setU32 _ _ hB]
      · have hne : Place.entry i' k ≠ .entry i' j := fun he => hk (Place.entry.inj he).2
        rw [update_of_ne hne]
        simp only [holds, update_self]
        rw [ByteBlock.u32_setU32_of_disjoint _ _ (by omega)]
    · have hne : Place.entry i' k ≠ .entry i j := fun he => hi' (Place.entry.inj he).1
      rw [update_of_ne hne, holds, holds]
      split_ifs with hc
      · have hb : (recs i').addr NDIRECT ≠ (recs i).addr NDIRECT := by
          intro hb
          refine hi' (hown i' ?_)
          rw [holds_addr hc.1.1 hc.1.2, hb]
        rw [update_of_ne hb]
      · rfl

end Places

section BlockNo

variable {d d' : Disk} {din : Dinode} {k fbn a : ℕ}

theorem blockNo_setAddr (hk : k < NDIRECT) (ha : a < 2 ^ 32) :
    blockNo d (din.setAddr k a) fbn = if fbn = k then a else blockNo d din fbn := by
  have hn : ∀ j, (din.setAddr k a).addr j = if j = k then a else din.addr j :=
    Dinode.addr_setAddr din (by omega) ha
  have hk' : NDIRECT ≠ k := by omega
  unfold blockNo
  simp only [hn, hk', if_false]
  split_ifs <;> first | rfl | omega

theorem blockNo_setIndirect (h0 : din.addr NDIRECT = 0) (ha : a < 2 ^ 32)
    (hzero : d a = fun _ => 0) :
    blockNo d (din.setAddr NDIRECT a) fbn = blockNo d din fbn := by
  have hn : ∀ j, (din.setAddr NDIRECT a).addr j = if j = NDIRECT then a else din.addr j :=
    Dinode.addr_setAddr din (Nat.lt_succ_self _) ha
  have hu : ∀ j, ByteBlock.u32 (d a) j = 0 := fun j => by
    rw [hzero]
    simp [ByteBlock.u32, ByteBlock.get]
  unfold blockNo
  simp only [hn, if_true, h0, hu]
  split_ifs with h1 h2 <;> first | rfl | omega

theorem blockNo_setEntry (ha : din.addr NDIRECT ≠ 0) (hk : NDIRECT ≤ k) (hk' : k < MAXFILE)
    (v : UInt32) (hf : fbn < MAXFILE) :
    blockNo (update d (din.addr NDIRECT)
        (ByteBlock.setU32 (d (din.addr NDIRECT)) (4 * (k - NDIRECT)) v)) din fbn =
      if fbn = k then v.toNat else blockNo d din fbn := by
  have hM : MAXFILE = NDIRECT + 256 := rfl
  have hB : 4 * (k - NDIRECT) + 4 ≤ BSIZE := by
    rw [BSIZE]
    omega
  unfold blockNo
  simp only [ha, if_false, update_self]
  by_cases h1 : fbn < NDIRECT
  · rw [if_pos h1, if_pos h1, if_neg (by omega)]
  · rw [if_neg h1, if_neg h1]
    by_cases h2 : fbn = k
    · rw [if_pos h2, h2, ByteBlock.u32_setU32 _ _ hB]
    · rw [if_neg h2, ByteBlock.u32_setU32_of_disjoint _ _ (by omega)]

theorem blockNo_congr (h : din.addr NDIRECT ≠ 0 → d' (din.addr NDIRECT) = d (din.addr NDIRECT)) :
    blockNo d' din fbn = blockNo d din fbn := by
  unfold blockNo
  by_cases h0 : din.addr NDIRECT = 0
  · simp [h0]
  · rw [h h0]

end BlockNo

section Cost

theorem cost_mono {n n' : ℕ} (h : n ≤ n') : cost n ≤ cost n' := by
  unfold cost
  split_ifs <;> omega

theorem sum_cost_update {N i : ℕ} (hi : i < N) (w : ℕ → ℕ) (v : ℕ) :
    ∑ j ∈ Finset.range N, cost (update w i v j) + cost (w i) =
      ∑ j ∈ Finset.range N, cost (w j) + cost v := by
  have hmem := Finset.mem_range.mpr hi
  rw [← Finset.add_sum_erase _ _ hmem, ← Finset.add_sum_erase _ (fun j => cost (w j)) hmem,
    update_self]
  have : ∑ j ∈ (Finset.range N).erase i, cost (update w i v j) =
      ∑ j ∈ (Finset.range N).erase i, cost (w j) :=
    Finset.sum_congr rfl fun j hj => by rw [update_of_ne (Finset.ne_of_mem_erase hj)]
  omega

end Cost

section File

variable {d e : Disk} {din : Dinode} {n k : ℕ} {l l' : List UInt8}

theorem FileLaid.congr (h : FileLaid d din n l)
    (hi : din.addr NDIRECT ≠ 0 → e (din.addr NDIRECT) = d (din.addr NDIRECT))
    (hb : ∀ fbn < n, e (blockNo d din fbn) = d (blockNo d din fbn)) : FileLaid e din n l := by
  refine ⟨fun fbn hf => ?_, h.indirect, fun k hk => ?_, h.le⟩
  · rw [blockNo_congr hi]
    exact h.mapped fbn hf
  · obtain ⟨h1, h2⟩ := h.bytes k hk
    rw [blockNo_congr hi, hb _ h1]
    exact ⟨h1, h2⟩

theorem FileLaid.setAddr (h : FileLaid d din n l) (hn : n < NDIRECT) {a : ℕ} (ha : a < 2 ^ 32)
    (ha0 : a ≠ 0) : FileLaid d (din.setAddr n a) (n + 1) l := by
  refine ⟨fun fbn hf => ?_, ?_, fun k hk => ?_, ?_⟩
  · rw [blockNo_setAddr hn ha]
    have := h.mapped fbn hf
    split_ifs with hfk
    · simp [ha0, hfk]
    · omega
  · rw [Dinode.addr_setAddr _ (by omega) ha, if_neg (by omega), h.indirect]
    omega
  · obtain ⟨h1, h2⟩ := h.bytes k hk
    rw [blockNo_setAddr hn ha, if_neg (by omega)]
    exact ⟨by omega, h2⟩
  · rw [MAXFILE]
    omega

theorem FileLaid.setEntry (h : FileLaid d din n l) (hn : NDIRECT ≤ n) (hM : n < MAXFILE) {b : ℕ}
    {din' : Dinode} (hb : din'.addr NDIRECT = b) (hb0 : b ≠ 0)
    (hsame : ∀ fbn < MAXFILE, blockNo d din' fbn = blockNo d din fbn)
    (hne : ∀ fbn < n, blockNo d din fbn ≠ b) {v : UInt32} (hv : v ≠ 0) :
    FileLaid (update d b (ByteBlock.setU32 (d b) (4 * (n - NDIRECT)) v)) din' (n + 1) l := by
  subst hb
  have hno : ∀ fbn < MAXFILE, blockNo (update d (din'.addr NDIRECT)
      (ByteBlock.setU32 (d (din'.addr NDIRECT)) (4 * (n - NDIRECT)) v)) din' fbn =
      if fbn = n then v.toNat else blockNo d din fbn := fun fbn hf => by
    rw [blockNo_setEntry hb0 hn hM v hf, hsame fbn hf]
  have hv0 : v.toNat ≠ 0 := fun h0 => hv (UInt32.toNat_inj.mp h0)
  refine ⟨fun fbn hf => ?_, ?_, fun k hk => ?_, hM⟩
  · rw [hno fbn hf]
    have := h.mapped fbn hf
    split_ifs with hfk
    · simp [hv0, hfk]
    · omega
  · exact iff_of_false hb0 (by omega)
  · obtain ⟨h1, h2⟩ := h.bytes k hk
    rw [hno _ (by omega), if_neg (by omega), update_of_ne (hne _ h1)]
    exact ⟨by omega, h2⟩

/-- **Bytes are written to a block of the file.** -/
theorem FileLaid.store (h : FileLaid d din n l) {fbn : ℕ} (blk : Block)
    (hi : din.addr NDIRECT ≠ 0 → din.addr NDIRECT ≠ blockNo d din fbn)
    (hinj : ∀ f < n, blockNo d din f = blockNo d din fbn → f = fbn)
    (hl : ∀ k < l'.length, k / BSIZE < n ∧ l'[k]? = some (if k / BSIZE = fbn then
      ByteBlock.get blk (k % BSIZE) else ByteBlock.get (d (blockNo d din (k / BSIZE))) (k % BSIZE))) :
    FileLaid (update d (blockNo d din fbn) blk) din n l' := by
  have hcongr : ∀ f, blockNo (update d (blockNo d din fbn) blk) din f = blockNo d din f :=
    fun f => blockNo_congr fun h0 => update_of_ne (hi h0) _ _
  refine ⟨fun f hfM => ?_, h.indirect, fun k hk => ?_, h.le⟩
  · rw [hcongr]
    exact h.mapped f hfM
  · obtain ⟨h1, h2⟩ := hl k hk
    refine ⟨h1, ?_⟩
    rw [h2, hcongr]
    by_cases hk' : k / BSIZE = fbn
    · rw [if_pos hk', hk', update_self]
    · rw [if_neg hk', update_of_ne fun he => hk' (hinj _ h1 he)]

end File

section Laid

variable {m t : Image} {recs : ℕ → Dinode} {w : ℕ → ℕ} {c : ℕ → List UInt8} {i j k fbn : ℕ}

theorem live_update (din : Dinode) (ht : din.type = (recs i).type) :
    Live (update recs i din) j ↔ Live recs j := by
  unfold Live
  by_cases hj : j = i
  · subst hj
    rw [update_self, ht]
  · rw [update_of_ne hj]

theorem Laid.lo (h : Laid m recs w c) : nmeta ≤ m.freeblock := h.count ▸ Nat.le_add_right _ _

theorem Laid.range (h : Laid m recs w c) (hi : Live recs i) (hf : fbn < w i) :
    blockNo m.disk (recs i) fbn ≠ 0 ∧ nmeta ≤ blockNo m.disk (recs i) fbn ∧
      blockNo m.disk (recs i) fbn < m.freeblock := by
  have hM := hf.trans_le (h.file i hi).le
  have h0 : blockNo m.disk (recs i) fbn ≠ 0 := fun h0 =>
    absurd (((h.file i hi).mapped fbn hM).mp h0) (by omega)
  rw [← holds_place (d := m.disk) hi hM] at h0 ⊢
  exact ⟨h0, (h.owns.range _ h0).1, h.owns.used_of_ne_zero h0⟩

theorem Laid.unshared (h : Laid m recs w c) (hi : Live recs i) (hf : fbn < w i) (hj : Live recs j)
    (hk : k < w j) (he : blockNo m.disk (recs i) fbn = blockNo m.disk (recs j) k) :
    i = j ∧ fbn = k := by
  have h0 := (h.range hi hf).1
  rw [← holds_place hi (hf.trans_le (h.file i hi).le)] at h0 he
  rw [← holds_place hj (hk.trans_le (h.file j hj).le)] at he
  exact place_inj (h.owns.inj _ _ h0 he)

theorem Laid.ne_indirect (h : Laid m recs w c) (hi : Live recs i) (hf : fbn < w i)
    (hj : Live recs j) (ha : (recs j).addr NDIRECT ≠ 0) :
    (recs j).addr NDIRECT ≠ blockNo m.disk (recs i) fbn := by
  intro he
  rw [← holds_live m.disk hj] at ha he
  rw [← holds_place hi (hf.trans_le (h.file i hi).le)] at he
  exact place_ne_indirect (h.owns.inj _ _ ha he).symm

theorem Laid.indirect_inj (h : Laid m recs w c) (hi : Live recs i) (ha : (recs i).addr NDIRECT ≠ 0)
    (he : holds wide m.disk recs (.addr j NDIRECT) = (recs i).addr NDIRECT) : j = i := by
  rw [← holds_live m.disk hi] at ha he
  exact (Place.addr.inj (h.owns.inj _ _ (he.trans_ne ha) he)).1

theorem Laid.indirect_lt (h : Laid m recs w c) (hi : Live recs i)
    (ha : (recs i).addr NDIRECT ≠ 0) : (recs i).addr NDIRECT < m.freeblock := by
  rw [← holds_live m.disk hi] at ha ⊢
  exact h.owns.used_of_ne_zero ha

theorem Image.put_same (m : Image) (b : ℕ) (blk : Block) : (m.put b blk).disk b = blk :=
  update_self ..

theorem Image.put_of_ne (m : Image) {b b' : ℕ} (blk : Block) (h : b' ≠ b) :
    (m.put b blk).disk b' = m.disk b' := update_of_ne h _ _

theorem owns_bump {f : ℕ} {a : Place → ℕ} (h : Owns nmeta FSSIZE (· < f) a) (hf : f < FSSIZE)
    {x : Place} (hx : a x = 0) : Owns nmeta FSSIZE (· < f + 1) (update a x f) := by
  refine (h.alloc (by decide) hx (lt_irrefl _) hf).congr_used (by decide) fun b _ => ?_
  omega

theorem Laid.replace (h : Laid m recs w c) (hi : Live recs i) (din : Dinode) (v : ℕ)
    (l : List UInt8) (ht : din.type = (recs i).type) (hhi : t.freeblock ≤ FSSIZE)
    (howns : Owns nmeta FSSIZE (· < t.freeblock)
      (holds wide t.disk (update recs i din)))
    (hfresh : ∀ b, t.freeblock ≤ b → t.disk b = fun _ => 0)
    (hself : FileLaid t.disk din v l)
    (hother : ∀ j, j ≠ i → Live recs j → FileLaid t.disk (recs j) (w j) (c j))
    (hcount : t.freeblock + cost (w i) = m.freeblock + cost v) :
    Laid t (update recs i din) (update w i v) (update c i l) := by
  refine ⟨hhi, howns, hfresh, fun j hj => ?_, ?_⟩
  · rw [live_update din ht] at hj
    by_cases hji : j = i
    · subst hji
      rw [update_self, update_self, update_self]
      exact hself
    · rw [update_of_ne hji, update_of_ne hji, update_of_ne hji]
      exact hother j hji hj
  · have hs := sum_cost_update hi.1 w v
    have := h.count
    omega

/-- **A direct block is handed out.** -/
theorem Laid.setAddr (h : Laid m recs w c) (hi : Live recs i) (hk : w i < NDIRECT)
    (hroom : m.freeblock < FSSIZE) :
    Laid m.bump (update recs i ((recs i).setAddr (w i) m.freeblock))
      (update w i (w i + 1)) c := by
  have h32 : m.freeblock < 2 ^ 32 := hroom.trans (by decide)
  have hfree : m.freeblock ≠ 0 := (Nat.lt_of_lt_of_le (by decide : 0 < nmeta) h.lo).ne'
  have hx : holds wide m.disk recs (.addr i (w i)) = 0 := by
    have h0 := ((h.file i hi).mapped (w i) (by rw [MAXFILE]; omega)).mpr le_rfl
    rw [holds_addr hi.1 hi.2]
    rwa [blockNo, if_pos hk] at h0
  have howns := owns_bump h.owns hroom hx
  rw [← holds_setAddr m.disk hi.1 hi.2 hk h32] at howns
  have := h.replace (t := m.bump) hi ((recs i).setAddr (w i) m.freeblock) _ (c i) rfl hroom howns
    (fun b hb => h.fresh b (Nat.le_of_succ_le hb)) ((h.file i hi).setAddr hk h32 hfree)
    (fun j _ hj => h.file j hj) ?_
  · rwa [update_eq_self] at this
  · change m.freeblock + 1 + _ = _
    unfold cost
    split_ifs <;> omega

theorem toNat_ofNat_of_lt_FSSIZE {b : ℕ} (h : b < FSSIZE) : (UInt32.ofNat b).toNat = b :=
  UInt32.toNat_ofNat_of_lt (h.trans (by decide))

theorem ofNat_ne_zero {b : ℕ} (h : b < FSSIZE) (hb : nmeta ≤ b) : UInt32.ofNat b ≠ 0 := by
  intro h0
  have := congrArg UInt32.toNat h0
  rw [toNat_ofNat_of_lt_FSSIZE h] at this
  exact absurd this (Nat.lt_of_lt_of_le (by decide : 0 < nmeta) hb).ne'

/-- **A block is handed out through the indirect block.** -/
theorem Laid.setEntry (h : Laid m recs w c) (hi : Live recs i) (hn : NDIRECT < w i)
    (hM : w i < MAXFILE) (hroom : m.freeblock < FSSIZE) :
    Laid (m.bump.put ((recs i).addr NDIRECT)
        (ByteBlock.setU32 (m.disk ((recs i).addr NDIRECT)) (4 * (w i - NDIRECT))
          (UInt32.ofNat m.freeblock)))
      recs (update w i (w i + 1)) c := by
  have hf := h.file i hi
  have ha : (recs i).addr NDIRECT ≠ 0 := fun h0 => absurd (hf.indirect.mp h0) (by omega)
  have hlt := h.indirect_lt hi ha
  have hx : holds wide m.disk recs (.entry i (w i - NDIRECT)) = 0 := by
    have h0 := holds_place (d := m.disk) hi hM
    rw [(hf.mapped _ hM).mpr le_rfl, place, if_neg (by omega)] at h0
    exact h0
  have howns := owns_bump h.owns hroom hx
  have hj : w i - NDIRECT < NINDIRECT := by
    rw [MAXFILE] at hM
    omega
  have hset := holds_setEntry (d := m.disk) hi.1 hi.2 ha hj
    (fun j he => h.indirect_inj hi ha he) (UInt32.ofNat m.freeblock)
  rw [toNat_ofNat_of_lt_FSSIZE hroom] at hset
  rw [← hset] at howns
  have hrec : update recs i (recs i) = recs := update_eq_self i recs
  have := h.replace (t := m.bump.put ((recs i).addr NDIRECT)
      (ByteBlock.setU32 (m.disk ((recs i).addr NDIRECT)) (4 * (w i - NDIRECT))
        (UInt32.ofNat m.freeblock))) hi (recs i) (w i + 1) (c i) rfl hroom (by rwa [hrec])
    (fun b hb => ?_) ?_ (fun j hji hj => ?_) ?_
  · rwa [update_eq_self, update_eq_self] at this
  · have hb' : m.freeblock + 1 ≤ b := hb
    rw [Image.put_of_ne _ _ (by omega)]
    exact h.fresh b (by omega)
  · exact hf.setEntry (by omega) hM rfl ha (fun _ _ => rfl)
      (fun fbn hfbn => (h.ne_indirect hi hfbn hi ha).symm) (ofNat_ne_zero hroom h.lo)
  · refine (h.file j hj).congr (fun h0 => update_of_ne (fun he => hji ?_) _ _)
      fun fbn hfbn => update_of_ne (h.ne_indirect hj hfbn hi ha).symm _ _
    exact h.indirect_inj hi ha ((holds_addr hj.1 hj.2).trans he)
  · change m.freeblock + 1 + _ = _
    unfold cost
    split_ifs <;> omega

/-- **An indirect block is handed out, and a block through it.** -/
theorem Laid.setIndirect (h : Laid m recs w c) (hi : Live recs i) (hn : w i = NDIRECT)
    (hroom : m.freeblock + 1 < FSSIZE) :
    Laid (m.bump.bump.put m.freeblock
        (ByteBlock.setU32 (m.disk m.freeblock) 0 (UInt32.ofNat (m.freeblock + 1))))
      (update recs i ((recs i).setAddr NDIRECT m.freeblock))
      (update w i (w i + 1)) c := by
  have hf := h.file i hi
  have h32 : m.freeblock < 2 ^ 32 := (Nat.lt_of_succ_lt hroom).trans (by decide)
  have hfree : m.freeblock ≠ 0 := (Nat.lt_of_lt_of_le (by decide : 0 < nmeta) h.lo).ne'
  have ha : (recs i).addr NDIRECT = 0 := hf.indirect.mpr hn.le
  have hzero := h.fresh m.freeblock le_rfl
  have hNM : NDIRECT < MAXFILE := by decide
  -- first the indirect block
  have hx : holds wide m.disk recs (.addr i NDIRECT) = 0 := by rw [holds_addr hi.1 hi.2, ha]
  have howns := owns_bump h.owns (Nat.lt_of_succ_lt hroom) hx
  rw [← holds_setIndirect hi.1 hi.2 ha h32 hzero] at howns
  -- then its first entry
  have hlive : Live (update recs i ((recs i).setAddr NDIRECT m.freeblock)) i := by
    rw [Live, update_self]
    exact hi
  have hnew : ((recs i).setAddr NDIRECT m.freeblock).addr NDIRECT = m.freeblock := by
    rw [Dinode.addr_setAddr _ (Nat.lt_succ_self _) h32, if_pos rfl]
  have haddr : (update recs i ((recs i).setAddr NDIRECT m.freeblock) i).addr NDIRECT =
      m.freeblock := by rw [update_self, hnew]
  have hy : holds wide m.disk (update recs i ((recs i).setAddr NDIRECT m.freeblock))
      (.entry i 0) = 0 := by
    have h0 := holds_place (d := m.disk) hlive hNM
    rw [update_self, blockNo_setIndirect ha h32 hzero, (hf.mapped _ hNM).mpr hn.le, place,
      if_neg (lt_irrefl _), Nat.sub_self] at h0
    exact h0
  have howns' := owns_bump howns hroom hy
  have hset := holds_setEntry (d := m.disk) hlive.1 hlive.2 (haddr.trans_ne hfree)
    (by decide : 0 < NINDIRECT) (fun j he => ?_) (UInt32.ofNat (m.freeblock + 1))
  swap
  · have hne : holds wide m.disk (update recs i ((recs i).setAddr NDIRECT m.freeblock))
        (.addr j NDIRECT) ≠ 0 := he.trans_ne (haddr.trans_ne hfree)
    rw [← holds_live m.disk hlive] at he
    exact (Place.addr.inj (howns.inj _ _ hne he)).1
  rw [toNat_ofNat_of_lt_FSSIZE hroom, haddr, Nat.mul_zero] at hset
  rw [← hset] at howns'
  have := h.replace (t := m.bump.bump.put m.freeblock
      (ByteBlock.setU32 (m.disk m.freeblock) 0 (UInt32.ofNat (m.freeblock + 1)))) hi
    ((recs i).setAddr NDIRECT m.freeblock) (w i + 1) (c i) rfl hroom howns'
    (fun b hb => ?_) ?_ (fun j hji hj => ?_) ?_
  · rwa [update_eq_self] at this
  · have hb' : m.freeblock + 1 + 1 ≤ b := hb
    rw [Image.put_of_ne _ _ (by omega)]
    exact h.fresh b (by omega)
  · have := hf.setEntry (b := m.freeblock) (v := UInt32.ofNat (m.freeblock + 1)) hn.ge
      (hn ▸ hNM) hnew hfree
      (fun fbn _ => blockNo_setIndirect ha h32 hzero)
      (fun fbn hfbn => (h.range hi hfbn).2.2.ne) (ofNat_ne_zero hroom (h.lo.trans (Nat.le_succ _)))
    have hz : 4 * (w i - NDIRECT) = 0 := by omega
    rwa [hz] at this
  · exact (h.file j hj).congr
      (fun h0 => update_of_ne (h.indirect_lt hj h0).ne _ _)
      fun fbn hfbn => update_of_ne (h.range hj hfbn).2.2.ne _ _
  · change m.freeblock + 1 + 1 + _ = _
    unfold cost
    split_ifs <;> omega

/-- **Bytes are written to a block of a file.** -/
theorem Laid.store (h : Laid m recs w c) (hi : Live recs i) (hf : fbn < w i) (blk : Block)
    {l : List UInt8} (hl : ∀ k < l.length, k / BSIZE < w i ∧ l[k]? = some (if k / BSIZE = fbn then
      ByteBlock.get blk (k % BSIZE)
      else ByteBlock.get (m.disk (blockNo m.disk (recs i) (k / BSIZE))) (k % BSIZE))) :
    Laid (m.put (blockNo m.disk (recs i) fbn) blk) recs w
      (update c i l) := by
  have hrec : update recs i (recs i) = recs := update_eq_self i recs
  have hne : ∀ j, Live recs j → (recs j).addr NDIRECT ≠ 0 →
      (recs j).addr NDIRECT ≠ blockNo m.disk (recs i) fbn := fun j hj h0 => h.ne_indirect hi hf hj h0
  have hlt := (h.range hi hf).2.2
  have := h.replace (t := m.put (blockNo m.disk (recs i) fbn) blk) hi (recs i) (w i) l rfl h.hi ?_
    (fun b hb => ?_) ?_ (fun j hji hj => ?_) rfl
  · rwa [hrec, update_eq_self] at this
  · rw [hrec, holds_congr (fun _ _ => rfl) fun j hj => ?_]
    · exact h.owns
    · refine update_of_ne ?_ _ _
      by_cases hlive : Live recs j
      · rw [holds_addr hlive.1 hlive.2] at hj ⊢
        exact hne j hlive hj
      · exact absurd (if_neg hlive) hj
  · have hb' : m.freeblock ≤ b := hb
    rw [Image.put_of_ne _ _ (by omega)]
    exact h.fresh b hb'
  · exact (h.file i hi).store blk (hne i hi) (fun f hf' he => (h.unshared hi hf' hi hf he).2) hl
  · refine (h.file j hj).congr (fun h0 => update_of_ne (hne j hj h0) _ _)
      fun f hf' => update_of_ne (fun he => hji ?_) _ _
    exact (h.unshared hj hf' hi hf he).1

end Laid

end RiscvOs.Mkfs
