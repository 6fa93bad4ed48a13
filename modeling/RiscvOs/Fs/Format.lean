import RiscvOs.Param
import RiscvOs.Lib.Bitmap

set_option autoImplicit false

/-!
# The on-disk format (`include/fs.h`)

The disk is laid out as boot block, superblock, log, inode blocks, free bitmap and data blocks.
An inode record takes `64` bytes of an inode block; the bitmap has one bit for each block of the
disk, the blocks before the data area included.

## Main results

* `readDinode_writeDinode` — a record reads back as it was written.
* `dinodeAt_setDinode`, `blockUsed_setUsed` — writing one record, or one
  bit, changes nothing else.

## Implementation notes

Block and inode numbers are natural numbers here. The code keeps them in 32-bit integers, which
`Layout` takes care of. `balloc` and `bfree` pass them as `int`: for disks of `2 ^ 31` blocks or more
they are modelled in `Fs/Balloc` and `Fs/Truncate`.
-/

namespace RiscvOs.Fs

open Function

/-- Root inode number. -/
def ROOTINO : ℕ := 1

/-- Number of direct block addresses of an inode. -/
def NDIRECT : ℕ := 12

/-- Number of block addresses in an indirect block. -/
def NINDIRECT : ℕ := BSIZE / 4

/-- Number of blocks of the largest file. -/
def MAXFILE : ℕ := NDIRECT + NINDIRECT

/-- Inodes per block. -/
def IPB : ℕ := BSIZE / 64

/-- Bitmap bits per block. -/
def BPB : ℕ := BSIZE * 8

/-- The first word of the superblock. -/
def FSMAGIC : UInt32 := 0x10203040

/-- `T_DIR`, `T_FILE` and `T_DEVICE` of `include/stat.h`. -/
def T_DIR : UInt16 := 1

@[inherit_doc T_DIR] def T_FILE : UInt16 := 2

@[inherit_doc T_DIR] def T_DEVICE : UInt16 := 3

/-- `struct superblock`, without the magic number that only `fsinit` looks at. -/
structure Superblock where
  size : ℕ
  nblocks : ℕ
  ninodes : ℕ
  nlog : ℕ
  logstart : ℕ
  inodestart : ℕ
  bmapstart : ℕ

/-- `struct dinode`. -/
@[ext] structure Dinode where
  type : UInt16
  major : UInt16
  minor : UInt16
  nlink : UInt16
  size : UInt32
  addrs : Fin (NDIRECT + 1) → UInt32

/-- A record of zeros. -/
def Dinode.zero : Dinode := ⟨0, 0, 0, 0, 0, fun _ => 0⟩

/-- `addrs[k]` as a block number. -/
def Dinode.addr (d : Dinode) (k : ℕ) : ℕ :=
  if h : k < NDIRECT + 1 then (d.addrs ⟨k, h⟩).toNat else 0

/-- `addrs[k] = a`. -/
def Dinode.setAddr (d : Dinode) (k a : ℕ) : Dinode :=
  { d with addrs := fun j => if j.val = k then UInt32.ofNat a else d.addrs j }

/-- `IBLOCK(i, sb)`: the block that contains inode `i`. -/
def IBLOCK (i : ℕ) (sb : Superblock) : ℕ := i / IPB + sb.inodestart

/-- `BBLOCK(b, sb)`: the bitmap block that contains the bit of block `b`. -/
def BBLOCK (b : ℕ) (sb : Superblock) : ℕ := b / BPB + sb.bmapstart

/-- The first data block. -/
def Superblock.dataStart (sb : Superblock) : ℕ := sb.size - sb.nblocks

/-! ## `struct dinode` in a block -/

/-- Record `k` of an inode block. -/
def readDinode (b : Block) (k : ℕ) : Dinode where
  type := ByteBlock.u16 b (64 * k)
  major := ByteBlock.u16 b (64 * k + 2)
  minor := ByteBlock.u16 b (64 * k + 4)
  nlink := ByteBlock.u16 b (64 * k + 6)
  size := ByteBlock.u32 b (64 * k + 8)
  addrs := fun j => ByteBlock.u32 b (64 * k + 12 + 4 * j)

/-- The bytes of an address array. -/
def Dinode.addrBytes (d : Dinode) (i : ℕ) : UInt8 := ByteBlock.leByte (d.addr (i / 4)) (i % 4)

/-- Store the fields of a record at position `k` of an inode block. -/
def writeDinode (b : Block) (k : ℕ) (d : Dinode) : Block :=
  let b := ByteBlock.setU16 b (64 * k) d.type
  let b := ByteBlock.setU16 b (64 * k + 2) d.major
  let b := ByteBlock.setU16 b (64 * k + 4) d.minor
  let b := ByteBlock.setU16 b (64 * k + 6) d.nlink
  let b := ByteBlock.setU32 b (64 * k + 8) d.size
  ByteBlock.splice b (64 * k + 12) (4 * (NDIRECT + 1)) d.addrBytes

theorem readDinode_congr {b c : Block} {k : ℕ}
    (h : ∀ i, 64 * k ≤ i → i < 64 * k + 64 → ByteBlock.get b i = ByteBlock.get c i) :
    readDinode b k = readDinode c k := by
  have h16 : ∀ o, o + 2 ≤ 64 → ByteBlock.u16 b (64 * k + o) = ByteBlock.u16 c (64 * k + o) :=
    fun o ho => ByteBlock.u16_congr fun i hi => h _ (by omega) (by omega)
  have h32 : ∀ o, o + 4 ≤ 64 → ByteBlock.u32 b (64 * k + o) = ByteBlock.u32 c (64 * k + o) :=
    fun o ho => ByteBlock.u32_congr fun i hi => h _ (by omega) (by omega)
  have haddr : (fun j : Fin (NDIRECT + 1) => ByteBlock.u32 b (64 * k + 12 + 4 * j)) =
      fun j : Fin (NDIRECT + 1) => ByteBlock.u32 c (64 * k + 12 + 4 * j) := by
    funext j
    have hj : j.val < 13 := j.isLt
    exact ByteBlock.u32_congr fun i hi => h _ (by omega) (by omega)
  simp only [readDinode, Dinode.mk.injEq]
  exact ⟨h16 0 (by omega), h16 2 (by omega), h16 4 (by omega), h16 6 (by omega), h32 8 (by omega),
    haddr⟩

theorem get_writeDinode_of_not_mem (b : Block) {k i : ℕ} (d : Dinode)
    (h : i < 64 * k ∨ 64 * k + 64 ≤ i) :
    ByteBlock.get (writeDinode b k d) i = ByteBlock.get b i := by
  simp only [writeDinode, ByteBlock.setU16, ByteBlock.setU32, NDIRECT]
  rw [ByteBlock.get_splice_of_not_mem _ _ (by omega), ByteBlock.get_splice_of_not_mem _ _ (by omega),
    ByteBlock.get_splice_of_not_mem _ _ (by omega), ByteBlock.get_splice_of_not_mem _ _ (by omega),
    ByteBlock.get_splice_of_not_mem _ _ (by omega), ByteBlock.get_splice_of_not_mem _ _ (by omega)]

theorem readDinode_writeDinode_of_ne (b : Block) {j k : ℕ} (d : Dinode) (h : j ≠ k) :
    readDinode (writeDinode b k d) j = readDinode b j :=
  readDinode_congr fun _ _ _ => get_writeDinode_of_not_mem b d (by omega)

/-- **A record reads back as it was written.** -/
theorem readDinode_writeDinode (b : Block) {k : ℕ} (d : Dinode) (hk : k < IPB) :
    readDinode (writeDinode b k d) k = d := by
  have hk' : k < 16 := hk
  have hB : ∀ o, o < 64 → 64 * k + o < BSIZE := fun o ho => by
    rw [BSIZE]
    omega
  have haddr : ∀ j : Fin (NDIRECT + 1),
      ByteBlock.u32 (writeDinode b k d) (64 * k + 12 + 4 * j) = d.addrs j := fun j => by
    have hj : j.val < 13 := j.isLt
    refine ByteBlock.u32_eq_of_leByte fun i hi => ?_
    rw [writeDinode, ByteBlock.get_splice_of_mem _ _ (by have := hB (12 + 4 * j + i) (by omega); omega)
      (by omega) (by simp only [NDIRECT]; omega), Dinode.addrBytes,
      show (64 * k + 12 + 4 * j.val + i - (64 * k + 12)) / 4 = j.val by omega,
      show (64 * k + 12 + 4 * j.val + i - (64 * k + 12)) % 4 = i by omega, Dinode.addr,
      dif_pos j.isLt]
  -- each field is the last store to its bytes
  have hsize : ByteBlock.u32 (writeDinode b k d) (64 * k + 8) = d.size := by
    rw [writeDinode, ByteBlock.u32_splice _ _ (by omega),
      ByteBlock.u32_setU32 _ _ (by have := hB 11 (by omega); omega)]
  have hnlink : ByteBlock.u16 (writeDinode b k d) (64 * k + 6) = d.nlink := by
    rw [writeDinode, ByteBlock.u16_splice _ _ (by omega),
      ByteBlock.u16_setU32_of_disjoint _ _ (by omega),
      ByteBlock.u16_setU16 _ _ (by have := hB 7 (by omega); omega)]
  have hminor : ByteBlock.u16 (writeDinode b k d) (64 * k + 4) = d.minor := by
    rw [writeDinode, ByteBlock.u16_splice _ _ (by omega),
      ByteBlock.u16_setU32_of_disjoint _ _ (by omega),
      ByteBlock.u16_setU16_of_disjoint _ _ (by omega),
      ByteBlock.u16_setU16 _ _ (by have := hB 5 (by omega); omega)]
  have hmajor : ByteBlock.u16 (writeDinode b k d) (64 * k + 2) = d.major := by
    rw [writeDinode, ByteBlock.u16_splice _ _ (by omega),
      ByteBlock.u16_setU32_of_disjoint _ _ (by omega),
      ByteBlock.u16_setU16_of_disjoint _ _ (by omega), ByteBlock.u16_setU16_of_disjoint _ _ (by omega),
      ByteBlock.u16_setU16 _ _ (by have := hB 3 (by omega); omega)]
  have htype : ByteBlock.u16 (writeDinode b k d) (64 * k) = d.type := by
    rw [writeDinode, ByteBlock.u16_splice _ _ (by omega),
      ByteBlock.u16_setU32_of_disjoint _ _ (by omega),
      ByteBlock.u16_setU16_of_disjoint _ _ (by omega), ByteBlock.u16_setU16_of_disjoint _ _ (by omega),
      ByteBlock.u16_setU16_of_disjoint _ _ (by omega),
      ByteBlock.u16_setU16 _ _ (by have := hB 1 (by omega); omega)]
  ext j
  · exact congrArg UInt16.toNat htype
  · exact congrArg UInt16.toNat hmajor
  · exact congrArg UInt16.toNat hminor
  · exact congrArg UInt16.toNat hnlink
  · exact congrArg UInt32.toNat hsize
  · exact congrArg UInt32.toNat (haddr j)

theorem Dinode.addr_lt (d : Dinode) (k : ℕ) : d.addr k < 2 ^ 32 := by
  rw [Dinode.addr]
  split_ifs
  · exact UInt32.toNat_lt _
  · omega

theorem Dinode.addr_setAddr (d : Dinode) {k a : ℕ} (hk : k < NDIRECT + 1) (ha : a < 2 ^ 32)
    (j : ℕ) : (d.setAddr k a).addr j = if j = k then a else d.addr j := by
  by_cases hj : j < NDIRECT + 1
  · rw [Dinode.addr, dif_pos hj, Dinode.setAddr, Dinode.addr, dif_pos hj]
    by_cases hjk : j = k
    · simp only [hjk, if_true]
      exact UInt32.toNat_ofNat_of_lt ha
    · simp only [hjk, if_false]
  · have hjk : j ≠ k := by omega
    rw [Dinode.addr, dif_neg hj, if_neg hjk, Dinode.addr, dif_neg hj]

theorem Dinode.addr_zero (k : ℕ) : Dinode.zero.addr k = 0 := by
  rw [Dinode.addr]
  split_ifs <;> rfl

/-! ## The disk -/

/-- The inode record number `inum` of a disk. -/
def dinodeAt (sb : Superblock) (d : Disk) (inum : ℕ) : Dinode :=
  readDinode (d (IBLOCK inum sb)) (inum % IPB)

/-- Replace the inode record number `inum` of a disk. -/
def setDinode (sb : Superblock) (d : Disk) (inum : ℕ) (x : Dinode) : Disk :=
  update d (IBLOCK inum sb) (writeDinode (d (IBLOCK inum sb)) (inum % IPB) x)

/-- The bit of block `b` in the free bitmap of a disk. -/
def blockUsed (sb : Superblock) (d : Disk) (b : ℕ) : Bool :=
  ByteBlock.isSet (d (BBLOCK b sb)) (b % BPB)

/-- Set the bit of block `b`. -/
def setUsed (sb : Superblock) (d : Disk) (b : ℕ) : Disk :=
  update d (BBLOCK b sb) (ByteBlock.setBit (d (BBLOCK b sb)) (b % BPB))

/-- Clear the bit of block `b`. -/
def clearUsed (sb : Superblock) (d : Disk) (b : ℕ) : Disk :=
  update d (BBLOCK b sb) (ByteBlock.clearBit (d (BBLOCK b sb)) (b % BPB))

/-- The number of records in the inode area. Only `ialloc` and `ireclaim` stop at `ninodes`; `mkfs` also
uses the records that follow in the last block. -/
def Superblock.records (sb : Superblock) : ℕ := (sb.bmapstart - sb.inodestart) * IPB

/-- The superblock that counts all records of the inode area. -/
def Superblock.wide (sb : Superblock) : Superblock := { sb with ninodes := sb.records }

/-- The areas of the disk follow each other, and the inode area and the bitmap are large enough
for `ninodes` records and `size` bits. -/
@[mk_iff] structure Layout (sb : Superblock) : Prop where
  size_lt : sb.size < 2 ^ 32
  log_start : 2 ≤ sb.logstart
  log_end : sb.logstart + sb.nlog ≤ sb.inodestart
  inodes : ∀ i, i < sb.ninodes → IBLOCK i sb < sb.bmapstart
  bitmap : ∀ b, b < sb.size → BBLOCK b sb < sb.dataStart

instance (sb : Superblock) : Decidable (Layout sb) := decidable_of_iff' _ (layout_iff sb)

section Layout

variable {sb : Superblock}

theorem dataStart_le (sb : Superblock) : sb.dataStart ≤ sb.size := Nat.sub_le _ _

theorem bmapstart_le (b : ℕ) (sb : Superblock) : sb.bmapstart ≤ BBLOCK b sb :=
  Nat.le_add_left _ _

theorem record_lt {i : ℕ} (hi : i < sb.records) : IBLOCK i sb < sb.bmapstart := by
  have hdiv : i / IPB < sb.bmapstart - sb.inodestart := Nat.div_lt_of_lt_mul (by rwa [Nat.mul_comm])
  rw [IBLOCK]
  generalize i / IPB = q at hdiv ⊢
  omega

theorem Layout.ninodes_le (h : Layout sb) : sb.ninodes ≤ sb.records := by
  by_contra hlt
  have hlast := h.inodes (sb.ninodes - 1) (by omega)
  have hdiv := Nat.lt_mul_div_succ (sb.ninodes - 1) (show 0 < IPB by decide)
  have hle : IPB * ((sb.ninodes - 1) / IPB + 1) ≤ (sb.bmapstart - sb.inodestart) * IPB := by
    rw [Nat.mul_comm]
    refine Nat.mul_le_mul_right _ ?_
    rw [IBLOCK] at hlast
    generalize (sb.ninodes - 1) / IPB = q at hlast ⊢
    omega
  rw [Superblock.records] at hlt
  omega

theorem Layout.wide (h : Layout sb) : Layout sb.wide := { h with inodes := fun _ hi => record_lt hi }

end Layout

/-- A disk of 100 blocks: log from 2, inodes from 32, the bitmap in 34, data from 40. -/
def smallSb : Superblock := ⟨100, 60, 32, 30, 2, 32, 34⟩

theorem layout_smallSb : Layout smallSb := by decide +kernel

section Frame

variable (sb : Superblock) (d : Disk)

theorem dinodeAt_update_of_ne {B inum : ℕ} (blk : Block) (h : IBLOCK inum sb ≠ B) :
    dinodeAt sb (update d B blk) inum = dinodeAt sb d inum := by
  rw [dinodeAt, update_of_ne h, dinodeAt]

theorem blockUsed_update_of_ne {B b : ℕ} (blk : Block) (h : BBLOCK b sb ≠ B) :
    blockUsed sb (update d B blk) b = blockUsed sb d b := by
  rw [blockUsed, update_of_ne h, blockUsed]

/-- **Writing one record** changes that record only. -/
theorem dinodeAt_setDinode (inum : ℕ) (x : Dinode) (j : ℕ) :
    dinodeAt sb (setDinode sb d inum x) j = if j = inum then x else dinodeAt sb d j := by
  have hpos : 0 < IPB := by decide
  by_cases hb : IBLOCK j sb = IBLOCK inum sb
  · rw [dinodeAt, setDinode, hb, update_self]
    by_cases hj : j = inum
    · rw [if_pos hj, hj, readDinode_writeDinode _ _ (Nat.mod_lt inum hpos)]
    · have hmod : j % IPB ≠ inum % IPB := by
        intro hm
        exact hj (by rw [← Nat.div_add_mod j IPB, ← Nat.div_add_mod inum IPB, hm,
          Nat.add_right_cancel hb])
      rw [if_neg hj, readDinode_writeDinode_of_ne _ _ hmod, dinodeAt, hb]
  · have hj : j ≠ inum := by
      rintro rfl
      exact hb rfl
    rw [setDinode, dinodeAt_update_of_ne sb d _ hb, if_neg hj]

theorem bit_div_lt (b : ℕ) : b % BPB / 8 < BSIZE := by
  have : b % BPB < BPB := Nat.mod_lt b (by decide)
  simp only [BPB, BSIZE] at this ⊢
  omega

theorem eq_of_bit_eq {b c : ℕ} (hB : BBLOCK b sb = BBLOCK c sb) (hm : b % BPB = c % BPB) :
    b = c := by
  rw [← Nat.div_add_mod b BPB, ← Nat.div_add_mod c BPB, hm, Nat.add_right_cancel hB]

/-- **Setting one bit** changes that bit only. -/
theorem blockUsed_setUsed (b c : ℕ) :
    blockUsed sb (setUsed sb d b) c = (decide (c = b) || blockUsed sb d c) := by
  by_cases hB : BBLOCK c sb = BBLOCK b sb
  · have hcb : (c % BPB = b % BPB) ↔ (c = b) :=
      ⟨fun hm => eq_of_bit_eq sb hB hm, fun h => by rw [h]⟩
    rw [blockUsed, setUsed, hB, update_self, ByteBlock.isSet_setBit _ (bit_div_lt b),
      decide_eq_decide.mpr hcb, blockUsed, hB]
  · have hcb : c ≠ b := by
      rintro rfl
      exact hB rfl
    rw [setUsed, blockUsed_update_of_ne sb d _ hB, decide_eq_false hcb, Bool.false_or]

/-- **Clearing one bit** changes that bit only. -/
theorem blockUsed_clearUsed (b c : ℕ) :
    blockUsed sb (clearUsed sb d b) c = (!decide (c = b) && blockUsed sb d c) := by
  by_cases hB : BBLOCK c sb = BBLOCK b sb
  · have hcb : (c % BPB = b % BPB) ↔ (c = b) :=
      ⟨fun hm => eq_of_bit_eq sb hB hm, fun h => by rw [h]⟩
    rw [blockUsed, clearUsed, hB, update_self, ByteBlock.isSet_clearBit _ (bit_div_lt b),
      decide_eq_decide.mpr hcb, blockUsed, hB]
  · have hcb : c ≠ b := by
      rintro rfl
      exact hB rfl
    rw [clearUsed, blockUsed_update_of_ne sb d _ hB, decide_eq_false hcb, Bool.not_false,
      Bool.true_and]

end Frame

end RiscvOs.Fs
