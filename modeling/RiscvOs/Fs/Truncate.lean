import RiscvOs.Fs.Balloc
import RiscvOs.Fs.Consistent

set_option autoImplicit false

/-!
# `itrunc` on a disk of any size (`kernel/disk/fs.c`)

`Fs/Inode` has `itrunc` and `iput` for disks of fewer than `2 ^ 31` blocks. The argument of `bfree` is an `int`:
from `2 ^ 31` on a block number becomes negative, and `BBLOCK` is then a block before the bitmap. Here `bfree` is
modelled with this conversion, and the functions that call it take it as a parameter.

## Main results

* `Freeing.erase` — the record is written, with type 0.
* `Keeps.drop` — the bits of the blocks from `2 ^ 31` on are never cleared.
-/

namespace RiscvOs.Fs.Reclaim

open Function CInt Balloc Loop

/-! ## The code -/

/-- Free a block. The argument is an `int`: from `2 ^ 31` on a block number becomes negative, and the block that
is read lies before the bitmap. If the bit number is negative as well, the code shifts by a negative amount, or
looks at a byte in front of `bp->data`; the model stops there. -/
def bfree (b : ℕ) (s : FS) : Except Panic FS :=
  if (int b).tmod BPB < 0 then .error (.bfree s.quirks)
  else if ByteBlock.isSet (s.buf (bblock (int b) s.sb)) ((int b).tmod BPB).toNat then
    .ok ((s.setBuf (bblock (int b) s.sb)
      (ByteBlock.clearBit (s.buf (bblock (int b) s.sb)) ((int b).tmod BPB).toNat)).logWrite
        (bblock (int b) s.sb))
  else .error (.bfree s.quirks)

section By

variable (free : ℕ → FS → Except Panic FS)

/-- The part of `iput` that frees the inode, where blocks are freed by `free`. -/
def destroyBy (ip : Slot) (s : FS) : Except Panic FS :=
  if (s.itable ip).lock ≠ none then .error .blocked
  else do
    let s ← itruncBy free ip (s.setInode ip { s.itable ip with lock := some s.pid })
    let s ← iupdate ip (s.setInode ip { s.itable ip with type := 0 })
    .ok (s.setInode ip { s.itable ip with valid := false, lock := none })

/-- `iput`, where blocks are freed by `free`. -/
def iputBy (ip : Slot) (s : FS) : Except Panic FS :=
  if (s.itable ip).ref = 1 ∧ (s.itable ip).nlink = 0 then do
    let s ← destroyBy free ip (if (s.itable ip).valid then s else s.note .stale)
    .ok (s.setInode ip { s.itable ip with ref := (s.itable ip).ref - 1 })
  else .ok (s.setInode ip { s.itable ip with ref := (s.itable ip).ref - 1 })

end By

theorem iputBy_bfree : iputBy Fs.bfree = Fs.iput := rfl

/-! ## The disk -/

/-- The areas of the disk follow each other, as `mkfs` lays them out: the bitmap starts right behind the inode
blocks. The numbers in the superblock have 32 bits. -/
structure Areas (sb : Superblock) : Prop where
  size_lt : sb.size < 2 ^ 32
  size_pos : 0 < sb.size
  ninodes_lt : sb.ninodes < 2 ^ 32
  log_start : 2 ≤ sb.logstart
  log_end : sb.logstart + sb.nlog ≤ sb.inodestart
  inodes : ∀ i, i < sb.ninodes → IBLOCK i sb < sb.bmapstart
  inodes_end : sb.bmapstart ≤ sb.inodestart + sb.ninodes / IPB + 1
  bitmap : ∀ b, b < sb.size → BBLOCK b sb < sb.dataStart

/-- The block number at a place. -/
def held (s : FS) (x : Place) : ℕ := holds s.sb s.buf s.dinode x

/-- The inode `i` refers to block `b`: directly, through its indirect block, or as the indirect block. -/
def Refers (s : FS) (i b : ℕ) : Prop := b ≠ 0 ∧ ∃ x, inumOf x = i ∧ held s x = b

section Numbers

variable {s : FS} {sb : Superblock} {b : ℕ}

theorem Areas.bmapstart_lt (h : Areas sb) (hb : b < sb.size) : sb.bmapstart + b / BPB < 2 ^ 32 := by
  have h1 := h.bitmap b hb
  have h2 := dataStart_le sb
  have h3 := h.size_lt
  rw [BBLOCK] at h1
  omega

theorem bfree_eq (hb : b < 2 ^ 31) (hmap : s.sb.bmapstart + b / BPB < 2 ^ 32) : bfree b s = Fs.bfree b s := by
  have hint : int b = b := int_eq (by omega) (by omega)
  have hblock : bblock (int b) s.sb = BBLOCK b s.sb := by
    rw [bblock, hint, ← Int.ofNat_tdiv, BBLOCK]
    generalize b / BPB = q at hmap ⊢
    rw [uint_of_nonneg (by omega) (by omega)]
    omega
  have hbit : (int b).tmod BPB = (b % BPB : ℕ) := by
    rw [hint, ← Int.ofNat_tmod]
  rw [bfree, if_neg (by rw [hbit]; omega), hblock, hbit, Int.toNat_natCast]
  rfl

theorem Areas.data_outside {sb : Superblock} (hA : Areas sb) {B : ℕ} (h₁ : sb.dataStart ≤ B) (h₂ : B < sb.size) :
    (∀ j, j < sb.ninodes → B ≠ IBLOCK j sb) ∧ ∀ b, b < sb.size → B ≠ BBLOCK b sb := by
  refine ⟨fun j hj => ?_, fun b hb => ((hA.bitmap b hb).trans_le h₁).ne'⟩
  exact (((hA.inodes j hj).trans_le (bmapstart_le B sb)).trans ((hA.bitmap B h₂).trans_le h₁)).ne'

end Numbers

/-! ## `itrunc` -/

section Itrunc

variable {s t u : FS} {ip : Slot} {i k : ℕ} {P : Place → Prop}

/-- The slot `ip` is locked and holds the record of the inode `i`, whose blocks are all in use, and below
`2 ^ 31`. -/
structure Doomed (ip : Slot) (i : ℕ) (s : FS) : Prop where
  areas : Areas s.sb
  range : i < s.sb.ninodes
  slot : s.itable ip = ⟨s.dinode i, ROOTDEV, i, 1, some s.pid, true⟩
  type : (s.dinode i).type ≠ 0
  used : ∀ x, inumOf x = i → held s x ≠ 0 → s.used (held s x) = true
  data : ∀ x, inumOf x = i → held s x ≠ 0 → s.sb.dataStart ≤ held s x ∧ held s x < s.sb.size
  small : ∀ x, inumOf x = i → held s x ≠ 0 → held s x < 2 ^ 31
  inj : ∀ x y, inumOf x = i → inumOf y = i → held s x ≠ 0 → held s x = held s y → x = y

theorem Doomed.freeable (hd : Doomed ip i s) : Freeable bfree ip i (held s) s := by
  refine ⟨fun k => ?_, fun j => ?_, hd.used, fun x hx h0 => (hd.data x hx h0).2,
    fun x hx h0 b hb => ((hd.areas.bitmap b hb).trans_le (hd.data x hx h0).1).ne', hd.inj,
    fun x hx h0 t hsb hu => ?_⟩
  · rw [held, holds_addr hd.range hd.type, hd.slot]
  · rw [held, holds, hd.slot]
    exact if_congr (and_iff_right ⟨hd.range, hd.type⟩) rfl rfl
  · rw [bfree_eq (hd.small x hx h0) ?_, bfree_of_used hu]
    rw [hsb]
    exact hd.areas.bmapstart_lt (hd.data x hx h0).2

theorem iupdate_ok (ip : Slot) (hA : Areas s.sb) (hi : (s.itable ip).inum < s.sb.ninodes)
    (hlock : (s.itable ip).lock = some s.pid) :
    ∃ t, iupdate ip s = .ok t ∧ Updated ip s t ∧ (∀ b, t.used b = s.used b) ∧
      ∀ B, B ≠ IBLOCK (s.itable ip).inum s.sb → t.buf B = s.buf B := by
  have hok := iupdate_eq_ok.mpr ⟨hlock, rfl⟩
  refine ⟨_, hok, updated_of_iupdate hok, fun b => ?_, fun B hB => update_of_ne hB _ _⟩
  exact blockUsed_update_of_ne _ _ _ ((hA.inodes _ hi).trans_le (bmapstart_le b s.sb)).ne'

/-- The state in which `itrunc` and the two calls of `iupdate` leave the slot and the disk. -/
structure Erased (ip : Slot) (i : ℕ) (s u : FS) : Prop where
  sb : u.sb = s.sb
  other : ∀ jp, jp ≠ ip → u.itable jp = s.itable jp
  ref : (u.itable ip).ref = (s.itable ip).ref
  type : (u.dinode i).type = 0
  record : ∀ j, j < s.sb.ninodes → j ≠ i → u.dinode j = s.dinode j
  bits : ∀ b, u.used b = true ↔ s.used b = true ∧ ¬ Refers s i b
  rest : ∀ B, (∀ j, j < s.sb.ninodes → B ≠ IBLOCK j s.sb) → (∀ b, b < s.sb.size → B ≠ BBLOCK b s.sb) →
    u.buf B = s.buf B

theorem Freeing.bits_refers (h : Freeing ip (held s) (fun x => inumOf x = i) s t) (b : ℕ) :
    t.used b = true ↔ s.used b = true ∧ ¬ Refers s i b := by
  rw [h.bits b]
  refine and_congr_right fun _ => ⟨?_, fun hno x hx he => ?_⟩
  · rintro hno ⟨hb, x, hx, he⟩
    exact hb (hno x hx he)
  · by_contra hb
    exact hno ⟨hb, x, hx, he⟩

/-- The record is written twice, the second time with type 0. -/
theorem Freeing.erase (h : Freeing ip (held s) (fun x => inumOf x = i) s t) (hd : Doomed ip i s) :
    ∃ v u, iupdate ip (t.setInode ip { t.itable ip with size := 0 }) = .ok v ∧
      iupdate ip (v.setInode ip { v.itable ip with type := 0 }) = .ok u ∧ Erased ip i s u := by
  have hslot : t.itable ip = { s.itable ip with addrs := (t.itable ip).addrs } := h.self
  rw [hd.slot] at hslot
  have hinum : (t.itable ip).inum = i := by rw [hslot]
  have hlock : (t.itable ip).lock = some t.pid := by rw [hslot, h.pid]
  have hA : Areas t.sb := h.sb ▸ hd.areas
  have hi : i < t.sb.ninodes := h.sb ▸ hd.range
  obtain ⟨v, hv, hup, hbit, hrest⟩ :=
    iupdate_ok (s := t.setInode ip { t.itable ip with size := 0 }) ip hA
      (by rw [FS.setInode_same]; exact hinum ▸ hi) (by rw [FS.setInode_same]; exact hlock)
  have hslotv : v.itable ip = { t.itable ip with size := 0 } := by rw [hup.itable, FS.setInode_same]
  obtain ⟨u, hu, hup', hbit', hrest'⟩ :=
    iupdate_ok (s := v.setInode ip { v.itable ip with type := 0 }) ip (hup.sb ▸ hA)
      (by rw [FS.setInode_same, FS.setInode_sb, hup.sb, hslotv]; exact hinum ▸ hi)
      (by rw [FS.setInode_same, FS.setInode_pid, hup.pid, hslotv]; exact hlock)
  simp only [FS.setInode_same, FS.setInode_sb, hslotv, hinum] at hrest hrest'
  have hdin := hup.dinode
  have hdin' := hup'.dinode
  simp only [FS.setInode_same, FS.setInode_dinode, hslotv, hinum] at hdin hdin'
  refine ⟨v, u, hv, hu, ?_, fun jp hj => ?_, ?_, ?_, fun j hj hne => ?_, fun b => ?_, fun B h₁ h₂ => ?_⟩
  · rw [hup'.sb, FS.setInode_sb, hup.sb, FS.setInode_sb, h.sb]
  · rw [hup'.itable, FS.setInode_of_ne _ _ _ hj, hup.itable, FS.setInode_of_ne _ _ _ hj, h.other jp hj]
  · rw [hup'.itable, FS.setInode_same, hslotv, h.self]
  · rw [hdin', if_pos rfl]
  · rw [hdin', if_neg hne, hdin, if_neg hne, h.dinode (hd.areas.inodes j hj)]
  · rw [hbit' b, ← h.bits_refers b]
    exact Bool.coe_iff_coe.mpr (hbit b)
  · have hB : B ≠ IBLOCK i s.sb := h₁ i hd.range
    rw [hrest' B ?_]
    · exact (hrest B (h.sb ▸ hB)).trans (h.rest B h₂)
    · rw [hup.sb, FS.setInode_sb, h.sb]
      exact hB

end Itrunc

/-! ## Blocks from `2 ^ 31` on -/

section Wide

variable {s t : FS} {ip : Slot} {b B : ℕ}

theorem bblock_int_ne {sb : Superblock} (hA : Areas sb) {c : ℕ} (hc : 2 ^ 31 ≤ c) (hc' : c < sb.size)
    (hb : b < 2 ^ 32) (hbit : 0 ≤ (int b).tmod BPB) : bblock (int b) sb ≠ BBLOCK c sb := by
  have hmap := hA.bmapstart_lt hc'
  have hsize := hA.size_lt
  have hBPB : (BPB : ℤ) = 8192 := rfl
  rw [hBPB] at hbit
  rw [bblock, BBLOCK, hBPB]
  rw [show BPB = 8192 from rfl] at hmap ⊢
  by_cases hlt : b < 2 ^ 31
  · rw [int_eq (by omega) (by omega), Int.tdiv_eq_ediv_of_nonneg (by omega),
      uint_of_nonneg (by omega) (by omega)]
    omega
  · have hint : int b = b - 2 ^ 32 := int_of_ge (by omega) (by omega)
    -- the remainder has the sign of the number, so it is zero
    have hdiv := Int.mul_tdiv_add_tmod (int b) 8192
    have hle : (int b).tmod 8192 ≤ 0 := by
      have hneg : 0 ≤ (-int b).tmod 8192 := Int.tmod_nonneg 8192 (by omega)
      rw [Int.neg_tmod] at hneg
      omega
    generalize (int b).tdiv 8192 = q at hdiv ⊢
    unfold uint
    omega

/-- Neither the block `B` nor the inode number of the slot has changed. -/
structure Keeps (ip : Slot) (B : ℕ) (s t : FS) : Prop where
  sb : t.sb = s.sb
  inum : (t.itable ip).inum = (s.itable ip).inum
  block : t.buf B = s.buf B

theorem Keeps.refl (ip : Slot) (B : ℕ) (s : FS) : Keeps ip B s s := ⟨rfl, rfl, rfl⟩

theorem Keeps.setInode (h : Keeps ip B s t) {v : Inode} (hv : v.inum = (t.itable ip).inum) :
    Keeps ip B s (t.setInode ip v) := by
  refine ⟨h.sb, ?_, h.block⟩
  rw [FS.setInode_same, hv, h.inum]

/-- `B` is a block of the bitmap with bits of blocks from `2 ^ 31` on. -/
def High (sb : Superblock) (B : ℕ) : Prop := ∃ c, 2 ^ 31 ≤ c ∧ c < sb.size ∧ B = BBLOCK c sb

theorem Keeps.free (h : Keeps ip B s t) (hA : Areas s.sb) (hB : High s.sb B) (hb : b < 2 ^ 32) :
    Post (Keeps ip B s) (bfree b t) := by
  obtain ⟨c, hc, hc', rfl⟩ := hB
  rw [bfree]
  split_ifs with h1 h2
  · exact .error _
  · refine .ok ⟨h.sb, h.inum, ?_⟩
    have hne := bblock_int_ne hA hc hc' hb (not_lt.mp h1)
    exact (update_of_ne (h.sb ▸ hne.symm) _ _).trans h.block
  · exact .error _

theorem Keeps.change (hA : Areas s.sb) (hB : High s.sb B) (hi : (s.itable ip).inum < s.sb.ninodes)
    (h : Keeps ip B s t) : Post (Keeps ip B s) (iupdate ip t) := by
  intro u hu
  obtain ⟨-, rfl⟩ := iupdate_eq_ok.mp hu
  refine ⟨h.sb, h.inum, ?_⟩
  obtain ⟨c, -, -, rfl⟩ := hB
  have hne : BBLOCK c s.sb ≠ IBLOCK (t.itable ip).inum t.sb := by
    rw [h.sb, h.inum]
    exact ((hA.inodes _ hi).trans_le (bmapstart_le c s.sb)).ne'
  exact (update_of_ne hne _ _).trans h.block

theorem Keeps.truncate (hA : Areas s.sb) (hB : High s.sb B) (hi : (s.itable ip).inum < s.sb.ninodes)
    (h : Keeps ip B s t) : Post (Keeps ip B s) (itruncBy bfree ip t) := by
  have hset : ∀ u k, Keeps ip B s u → Keeps ip B s (u.setAddr ip k 0) := fun u k hu => hu.setInode rfl
  refine Post.bind (P := Keeps ip B s) ?_ fun u hu => Post.bind (P := Keeps ip B s) ?_
    fun w hw => ?_
  · refine Post.foldlM (fun _ => Keeps ip B s) (fun k l u hu => ?_) h
    rw [freeDirectBy]
    split_ifs
    · exact .ok hu
    · exact (hu.free hA hB (Dinode.addr_lt _ _)).bind fun w hw => .ok (hset w k hw)
  · rw [freeIndirectBy]
    split_ifs
    · exact .ok hu
    · refine Post.bind (P := Keeps ip B s) ?_ fun w hw => ?_
      · refine Post.foldlM (fun _ => Keeps ip B s) (fun k l w hw => ?_) hu
        rw [freeEntryBy]
        split_ifs
        · exact .ok hw
        · exact hw.free hA hB (UInt32.toNat_lt _)
      · exact (hw.free hA hB (Dinode.addr_lt _ _)).bind fun v hv => .ok (hset v _ hv)
  · apply Keeps.change hA hB hi
    exact hw.setInode rfl

theorem Keeps.destroy (hA : Areas s.sb) (hB : High s.sb B) (hi : (s.itable ip).inum < s.sb.ninodes)
    (h : Keeps ip B s t) : Post (Keeps ip B s) (destroyBy bfree ip t) := by
  rw [destroyBy]
  split_ifs
  · exact .error _
  · refine Post.bind (P := Keeps ip B s) ?_ fun u hu => Post.bind (P := Keeps ip B s) ?_
      fun w hw => .ok (hw.setInode rfl)
    · apply Keeps.truncate hA hB hi
      exact h.setInode rfl
    · apply Keeps.change hA hB hi
      exact hu.setInode rfl

theorem Keeps.drop (hA : Areas s.sb) (hB : High s.sb B) (hi : (s.itable ip).inum < s.sb.ninodes)
    (h : Keeps ip B s t) : Post (Keeps ip B s) (iputBy bfree ip t) := by
  have hnote : Keeps ip B s (if (t.itable ip).valid then t else t.note .stale) := by
    split_ifs
    · exact h
    · exact ⟨h.sb, h.inum, h.block⟩
  rw [iputBy]
  by_cases hfree : (t.itable ip).ref = 1 ∧ (t.itable ip).nlink = 0
  · rw [if_pos hfree]
    exact (hnote.destroy hA hB hi).bind fun u hu => .ok (hu.setInode rfl)
  · rw [if_neg hfree]
    exact .ok (h.setInode rfl)

end Wide

end RiscvOs.Fs.Reclaim
