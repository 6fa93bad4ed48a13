import RiscvOs.Fs.Table
import RiscvOs.Lib.Ownership

set_option autoImplicit false

/-!
# Ownership of data blocks

A data block is marked as used in the bitmap exactly if one place refers to it: an address of an
allocated inode, or an entry of the indirect block of one. While an inode is being changed its
slot is ahead of its record on the disk, so the records are a parameter here: those of the disk
between operations, and those of the disk with one of them replaced during an operation.

## Main results

* `Owned.alloc` — an address is set to a new block.
* `Owned.congr` — the writes that do not matter.
-/

namespace RiscvOs.Fs

open Function

/-- The places where block numbers are stored: `addrs[k]` of an inode, and the numbers in its
indirect block. -/
inductive Place where
  | addr (inum k : ℕ)
  | entry (inum j : ℕ)
  deriving DecidableEq

/-- The inode of a place. -/
def Reclaim.inumOf : Place → ℕ
  | .addr i _ => i
  | .entry i _ => i

open Reclaim (inumOf)

/-- The block number at a place, `0` if there is none or the inode is not allocated. -/
def holds (sb : Superblock) (buf : Disk) (recs : ℕ → Dinode) : Place → ℕ
  | .addr i k => if i < sb.ninodes ∧ (recs i).type ≠ 0 then (recs i).addr k else 0
  | .entry i j =>
    if (i < sb.ninodes ∧ (recs i).type ≠ 0) ∧ (recs i).addr NDIRECT ≠ 0 ∧ j < NINDIRECT then
      (ByteBlock.u32 (buf ((recs i).addr NDIRECT)) (4 * j)).toNat
    else 0

/-- The bitmap agrees with the places, and no place refers to a block outside the data area. -/
def Owned (sb : Superblock) (buf : Disk) (recs : ℕ → Dinode) : Prop :=
  Ownership.Owns sb.dataStart sb.size (fun b => blockUsed sb buf b = true) (holds sb buf recs)

/-- The records of the disk, with the record of the inode of `ip` replaced by the copy in the
slot. -/
def FS.recs (s : FS) (ip : Slot) : ℕ → Dinode :=
  update s.dinode (s.itable ip).inum (s.itable ip).toDinode

section Places

variable {sb : Superblock} {buf buf' : Disk} {recs recs' : ℕ → Dinode} {i k : ℕ}

theorem holds_addr (hi : i < sb.ninodes) (ht : (recs i).type ≠ 0) :
    holds sb buf recs (.addr i k) = (recs i).addr k := if_pos ⟨hi, ht⟩

theorem holds_entry (hi : i < sb.ninodes) (ht : (recs i).type ≠ 0)
    (ha : (recs i).addr NDIRECT ≠ 0) {j : ℕ} (hj : j < NINDIRECT) :
    holds sb buf recs (.entry i j) =
      (ByteBlock.u32 (buf ((recs i).addr NDIRECT)) (4 * j)).toNat := if_pos ⟨⟨hi, ht⟩, ha, hj⟩

theorem holds_eq {x : Place} (hx : inumOf x = i)
    (hr : i < sb.ninodes → (recs' i).type = (recs i).type ∧ (recs' i).addrs = (recs i).addrs)
    (hb : holds sb buf recs (.addr i NDIRECT) ≠ 0 →
      buf' (holds sb buf recs (.addr i NDIRECT)) = buf (holds sb buf recs (.addr i NDIRECT))) :
    holds sb buf' recs' x = holds sb buf recs x := by
  by_cases hi : i < sb.ninodes
  · obtain ⟨ht, ha⟩ := hr hi
    have haddr : ∀ k, (recs' i).addr k = (recs i).addr k := fun k => by
      rw [Dinode.addr, Dinode.addr, ha]
    cases x with
    | addr j k =>
      obtain rfl : j = i := hx
      simp only [holds, ht, haddr]
    | entry j k =>
      obtain rfl : j = i := hx
      rw [holds, holds, ht, haddr]
      refine if_ctx_congr Iff.rfl (fun hc => ?_) fun _ => rfl
      rw [holds_addr hc.1.1 hc.1.2] at hb
      rw [hb hc.2.1]
  · cases x with
    | addr j k =>
      obtain rfl : j = i := hx
      simp only [holds, hi, false_and, if_false]
    | entry j k =>
      obtain rfl : j = i := hx
      simp only [holds, hi, false_and, if_false]

theorem holds_congr (hr : ∀ i, i < sb.ninodes → recs' i = recs i)
    (hb : ∀ i, holds sb buf recs (.addr i NDIRECT) ≠ 0 →
      buf' (holds sb buf recs (.addr i NDIRECT)) = buf (holds sb buf recs (.addr i NDIRECT))) :
    holds sb buf' recs' = holds sb buf recs :=
  funext fun x => holds_eq rfl (fun hi => by rw [hr _ hi]; exact ⟨rfl, rfl⟩) (hb _)

theorem holds_update_of_ne {x : Place} (hx : inumOf x ≠ i) (d : Dinode) :
    holds sb buf (update recs i d) x = holds sb buf recs x :=
  holds_eq rfl (fun _ => by rw [update_of_ne hx]; exact ⟨rfl, rfl⟩) fun _ => rfl

theorem holds_setAddr_of_entry (hi : i < sb.ninodes) (ht : (recs i).type ≠ 0) (hk : k < NDIRECT + 1) {a : ℕ}
    (ha : a < 2 ^ 32) (hentry : ∀ m, holds sb buf (update recs i ((recs i).setAddr k a)) (.entry i m) =
      holds sb buf recs (.entry i m)) :
    holds sb buf (update recs i ((recs i).setAddr k a)) = update (holds sb buf recs) (.addr i k) a := by
  funext x
  by_cases hx : inumOf x = i
  · cases x with
    | addr j m =>
      obtain rfl : j = i := hx
      have ht' : (update recs j ((recs j).setAddr k a) j).type ≠ 0 := by
        rw [update_self]
        exact ht
      rw [holds_addr hi ht', update_self, Dinode.addr_setAddr _ hk ha]
      by_cases hm : m = k
      · rw [if_pos hm, hm, update_self]
      · have hne : Place.addr j m ≠ .addr j k := fun he => hm (Place.addr.inj he).2
        rw [if_neg hm, update_of_ne hne, holds_addr hi ht]
    | entry j m =>
      obtain rfl : j = i := hx
      have hne : Place.entry j m ≠ .addr j k := fun he => nomatch he
      rw [update_of_ne hne, hentry]
  · have hne : x ≠ .addr i k := by
      rintro rfl
      exact hx rfl
    rw [update_of_ne hne, holds_update_of_ne hx]

theorem holds_setAddr (buf : Disk) (hi : i < sb.ninodes) (ht : (recs i).type ≠ 0) (hk : k < NDIRECT)
    {a : ℕ} (ha : a < 2 ^ 32) :
    holds sb buf (update recs i ((recs i).setAddr k a)) =
      update (holds sb buf recs) (.addr i k) a := by
  have hn : ((recs i).setAddr k a).addr NDIRECT = (recs i).addr NDIRECT := by
    rw [Dinode.addr_setAddr _ (by omega) ha, if_neg (by omega)]
  have htype : ((recs i).setAddr k a).type = (recs i).type := rfl
  refine holds_setAddr_of_entry hi ht (by omega) ha fun m => ?_
  simp only [holds, update_self, hn, htype]

end Places

/-! ## The bitmap and the places -/

section Owned

variable {sb : Superblock} {buf buf' : Disk} {recs recs' : ℕ → Dinode} {i k : ℕ}

theorem Owned.range (h : Owned sb buf recs) {x : Place} (hx : holds sb buf recs x ≠ 0) :
    sb.dataStart ≤ holds sb buf recs x ∧ holds sb buf recs x < sb.size :=
  Ownership.Owns.range h x hx

theorem Owned.used (h : Owned sb buf recs) {x : Place} (hx : holds sb buf recs x ≠ 0) :
    blockUsed sb buf (holds sb buf recs x) = true := Ownership.Owns.used_of_ne_zero h hx

theorem Owned.inj (h : Owned sb buf recs) {x y : Place} (hx : holds sb buf recs x ≠ 0)
    (hxy : holds sb buf recs x = holds sb buf recs y) : x = y := Ownership.Owns.inj h x y hx hxy

theorem Layout.bitmap_lt (hL : Layout sb) {b c : ℕ} (hb : b < sb.size) (hc : sb.dataStart ≤ c) :
    BBLOCK b sb < c := (hL.bitmap b hb).trans_le hc

theorem Owned.dataStart_le (h : Owned sb buf recs) {b : ℕ} (hb : blockUsed sb buf b = false) :
    sb.dataStart ≤ b := by
  by_contra hlt
  have := Ownership.Owns.reserved h b (by omega)
  rw [hb] at this
  cases this

/-- **Writes that do not matter**: the bits of the bitmap, the records of the inodes that exist
and the indirect blocks are the same. -/
theorem Owned.congr (h : Owned sb buf recs)
    (hu : ∀ b, b < sb.size → blockUsed sb buf' b = blockUsed sb buf b)
    (hr : ∀ i, i < sb.ninodes → recs' i = recs i)
    (hb : ∀ i, holds sb buf recs (.addr i NDIRECT) ≠ 0 →
      buf' (holds sb buf recs (.addr i NDIRECT)) = buf (holds sb buf recs (.addr i NDIRECT))) :
    Owned sb buf' recs' := by
  rw [Owned, holds_congr hr hb]
  exact Ownership.Owns.congr_used h (Fs.dataStart_le sb) fun b hb => by rw [hu b hb]

theorem blockUsed_alloc (hL : Layout sb) {b : ℕ} (hb : sb.dataStart ≤ b) (blk : Block) {c : ℕ}
    (hc : c < sb.size) :
    blockUsed sb (update (setUsed sb buf b) b blk) c = true ↔
      c = b ∨ blockUsed sb buf c = true := by
  rw [blockUsed_update_of_ne sb _ blk (hL.bitmap_lt hc hb).ne, blockUsed_setUsed]
  simp

/-- **A direct address is set to a free block**, which is marked and overwritten. -/
theorem Owned.alloc (h : Owned sb buf recs) (hL : Layout sb) {b : ℕ} (hb : b < sb.size)
    (hfree : blockUsed sb buf b = false) (hi : i < sb.ninodes) (ht : (recs i).type ≠ 0)
    (hk : k < NDIRECT) (h0 : (recs i).addr k = 0) (blk : Block)
    (hr : ∀ j, j < sb.ninodes →
      recs' j = update recs i ((recs i).setAddr k b) j) :
    Owned sb (update (setUsed sb buf b) b blk) recs' := by
  have hlo : sb.dataStart ≤ b := h.dataStart_le hfree
  have hpos : 0 < sb.dataStart := (Nat.zero_le _).trans_lt (hL.bitmap b hb)
  have hsize := hL.size_lt
  have hb32 : b < 2 ^ 32 := by omega
  have hnot : ¬ blockUsed sb buf b = true := by
    rw [hfree]
    exact Bool.false_ne_true
  -- no indirect block is touched: it is used, and it is not in the bitmap
  have hind : ∀ j, holds sb buf (update recs i ((recs i).setAddr k b)) (.addr j NDIRECT) ≠ 0 →
      update (setUsed sb buf b) b blk
        (holds sb buf (update recs i ((recs i).setAddr k b)) (.addr j NDIRECT)) =
      buf (holds sb buf (update recs i ((recs i).setAddr k b)) (.addr j NDIRECT)) := by
    intro j hj
    have hne : Place.addr j NDIRECT ≠ .addr i k := fun he => by
      have := (Place.addr.inj he).2
      omega
    rw [holds_setAddr buf hi ht hk hb32, update_of_ne hne] at hj ⊢
    have h1 : holds sb buf recs (.addr j NDIRECT) ≠ b := fun he => by
      have := h.used hj
      rw [he] at this
      exact hnot this
    have h2 : holds sb buf recs (.addr j NDIRECT) ≠ BBLOCK b sb :=
      (hL.bitmap_lt hb (h.range hj).1).ne'
    rw [update_of_ne h1, setUsed, update_of_ne h2]
  rw [Owned, holds_congr hr hind, holds_setAddr buf hi ht hk hb32]
  have h0' : holds sb buf recs (.addr i k) = 0 := by rw [holds_addr hi ht, h0]
  exact (Ownership.Owns.alloc h hpos h0' hnot hb).congr_used (Fs.dataStart_le sb) fun c hc =>
    blockUsed_alloc hL hlo blk hc

end Owned

end RiscvOs.Fs
