import RiscvOs.Fs.Format

set_option autoImplicit false

/-!
# The file system in memory and its block allocator (`kernel/disk/fs.c`)

The state of the file system, and the functions that work on single blocks: `bfree`, `bzero`
and `balloc`. A function that can panic returns an `Except`; a function that cannot is total.

`bread` and `brelse` are a transparent cache here: `buf` gives the current contents of every
block, whether they are in a buffer or on the disk, and `log_write` only records the number of
the block.

## Main results

* `balloc_cases` — `balloc` takes the first free block, or finds none.

## Implementation notes

Four branches of the code do not do what their callers rely on. They are modelled as they are,
and the history field `quirks` records when one is taken, so that a theorem can be about the
runs that avoid them.
-/

namespace RiscvOs.Fs

open Function

/-- `struct inode`: a slot of the inode table. `lock` is the process that holds the sleep lock;
`ref` counts the pointers to the slot. The fields of `Dinode` are the copy of the record. -/
@[ext] structure Inode extends Dinode where
  dev : ℕ
  inum : ℕ
  ref : ℕ
  lock : Option ℕ
  valid : Bool

/-- A slot of `itable`. The array has `NBUF` slots, `iget` uses the first `NINODE`. -/
abbrev Slot : Type := Fin NINODE

/-- The slot that a call takes in an empty table. -/
def firstSlot : Slot := ⟨0, by decide⟩

/-- The slot after it. -/
def secondSlot : Slot := ⟨1, by decide⟩

/-- The branches that are recorded.

* `indirect`: `bmap` has the indirect block of a file, and lays the array of block numbers over the
  buffer instead of over its data;
* `hole`: `readi` meets a block that is not mapped, and `bmap` tries to allocate it;
* `stale`: `iput` frees the inode of a slot whose fields were not read from the disk;
* `range`: `dirlookup` finds an inode number that the disk does not have. -/
inductive Quirk where
  | indirect | hole | stale | range
  deriving DecidableEq

/-- Why a call does not return: the calls of `panic`, and `blocked` for a sleep lock that is
held, which `acquiresleep` waits for.

* `bfree`: "bfree: freeing free block", with the branches recorded before;
* `bmap`: "bmap: out of range"; `iget`: "iget: no inodes";
* `ilock`: "ilock"; `noType`: "ilock: no type"; `iunlock`: "iunlock"; `iupdate`: "iupdate";
* `notDir`: "dirlookup not DIR"; `lookupRead`: "dirlookup read"; `linkRead`: "dirlink read";
* `emptyRead`: "isdirempty: readi"; `unlinkNlink`: "unlink: nlink < 1";
  `unlinkWrite`: "unlink: writei". -/
inductive Panic where
  | bfree (quirks : List Quirk)
  | bmap | iget | ilock | noType | iunlock | iupdate
  | notDir | lookupRead | linkRead | emptyRead | unlinkNlink | unlinkWrite | blocked
  deriving DecidableEq

/-- The file system: the superblock in memory, the current contents of the blocks, the words
before `data` in the buffer of each block, the inode table, the calling process, the blocks
passed to `log_write`, and the recorded branches. -/
structure FS where
  sb : Superblock
  buf : Disk
  hdr : ℕ → ℕ → UInt32
  itable : Slot → Inode
  pid : ℕ
  logged : List ℕ
  quirks : List Quirk

/-- `log_write(bp)` for the buffer of block `b`. -/
def FS.logWrite (s : FS) (b : ℕ) : FS := { s with logged := b :: s.logged }

/-- Change the contents of a block. -/
def FS.setBuf (s : FS) (b : ℕ) (c : Block) : FS := { s with buf := update s.buf b c }

/-- Change a slot of the inode table. -/
def FS.setInode (s : FS) (ip : Slot) (v : Inode) : FS :=
  { s with itable := update s.itable ip v }

/-- Record a branch. -/
def FS.note (s : FS) (q : Quirk) : FS := { s with quirks := q :: s.quirks }

/-- The inode record number `inum` as it is on the disk. -/
def FS.dinode (s : FS) (inum : ℕ) : Dinode := dinodeAt s.sb s.buf inum

/-- The bit of block `b` in the bitmap. -/
def FS.used (s : FS) (b : ℕ) : Bool := blockUsed s.sb s.buf b

section Setters

variable (s : FS) (ip : Slot) (v : Inode)

@[simp] theorem FS.setInode_same : (s.setInode ip v).itable ip = v := update_self ..

theorem FS.setInode_of_ne {jp : Slot} (h : jp ≠ ip) :
    (s.setInode ip v).itable jp = s.itable jp := update_of_ne h _ _

@[simp] theorem FS.setInode_sb : (s.setInode ip v).sb = s.sb := rfl

@[simp] theorem FS.setInode_buf : (s.setInode ip v).buf = s.buf := rfl

@[simp] theorem FS.setInode_pid : (s.setInode ip v).pid = s.pid := rfl

@[simp] theorem FS.setInode_dinode (i : ℕ) : (s.setInode ip v).dinode i = s.dinode i := rfl

end Setters

/-- A slot of zeros, as in the table after boot. -/
def Inode.empty : Inode := ⟨Dinode.zero, 0, 0, 0, none, false⟩

/-- The file system after boot, on a small disk with an empty root directory: the blocks before
the data area are marked as used, the inode table is zeroed. -/
def smallFS : FS where
  sb := smallSb
  buf := fun b =>
    if b = 32 then writeDinode (fun _ => 0) ROOTINO { Dinode.zero with type := T_DIR, nlink := 1 }
    else if b = 34 then fun i => if i.val < 5 then 255 else 0
    else fun _ => 0
  hdr := fun _ _ => 0
  itable := fun _ => Inode.empty
  pid := 1
  logged := []
  quirks := []

/-! ## `bfree`, `bzero`, `balloc` -/

/-- Free a block. -/
def bfree (b : ℕ) (s : FS) : Except Panic FS :=
  if s.used b then
    .ok ({ s with buf := clearUsed s.sb s.buf b }.logWrite (BBLOCK b s.sb))
  else .error (.bfree s.quirks)

/-- Zero a block. -/
def bzero (b : ℕ) (s : FS) : FS := (s.setBuf b fun _ => 0).logWrite b

/-- The inner loop of `balloc`: the first clear bit of a bitmap block, among the bits of blocks
below `size`. -/
def ballocScan (c : Block) (b size : ℕ) : Option ℕ :=
  (List.range (min BPB (size - b))).find? fun bi => !ByteBlock.isSet c bi

/-- The loops of `balloc`: the first free block. -/
def ballocFind (sb : Superblock) (d : Disk) : Option ℕ :=
  (List.range ((sb.size + BPB - 1) / BPB)).findSome? fun i =>
    (ballocScan (d (BBLOCK (i * BPB) sb)) (i * BPB) sb.size).map fun bi => i * BPB + bi

/-- The state after block `b` has been marked as used and zeroed. -/
def FS.take (s : FS) (b : ℕ) : FS :=
  bzero b ({ s with buf := setUsed s.sb s.buf b }.logWrite (BBLOCK b s.sb))

/-- Allocate a zeroed block; `0` if there is none. -/
def balloc (s : FS) : ℕ × FS :=
  match ballocFind s.sb s.buf with
  | some b => (b, s.take b)
  | none => (0, s)

theorem BBLOCK_add (sb : Superblock) {i bi : ℕ} (h : bi < BPB) :
    BBLOCK (i * BPB + bi) sb = BBLOCK (i * BPB) sb := by
  have hpos : 0 < BPB := by decide
  rw [BBLOCK, BBLOCK, Nat.mul_comm, Nat.mul_add_div hpos, Nat.div_eq_of_lt h,
    Nat.mul_div_cancel_left i hpos, Nat.add_zero]

theorem isSet_eq_blockUsed (sb : Superblock) (d : Disk) {i bi : ℕ} (h : bi < BPB) :
    ByteBlock.isSet (d (BBLOCK (i * BPB) sb)) bi = blockUsed sb d (i * BPB + bi) := by
  rw [blockUsed, BBLOCK_add sb h, Nat.add_comm, Nat.add_mul_mod_self_right, Nat.mod_eq_of_lt h]

theorem ballocScan_none {sb : Superblock} {d : Disk} {i : ℕ}
    (h : ballocScan (d (BBLOCK (i * BPB) sb)) (i * BPB) sb.size = none) {bi : ℕ} (hbi : bi < BPB)
    (hlt : i * BPB + bi < sb.size) : blockUsed sb d (i * BPB + bi) = true := by
  rw [ballocScan, List.find?_eq_none] at h
  have := h bi (List.mem_range.mpr (by omega))
  rw [isSet_eq_blockUsed sb d hbi] at this
  simpa using this

theorem ballocScan_some {sb : Superblock} {d : Disk} {i bi : ℕ}
    (h : ballocScan (d (BBLOCK (i * BPB) sb)) (i * BPB) sb.size = some bi) :
    bi < BPB ∧ i * BPB + bi < sb.size ∧ blockUsed sb d (i * BPB + bi) = false ∧
      ∀ c < bi, blockUsed sb d (i * BPB + c) = true := by
  rw [ballocScan, List.find?_range_eq_some] at h
  obtain ⟨h1, h2, h3⟩ := h
  have hlt := List.mem_range.mp h2
  have hbi : bi < BPB := by omega
  refine ⟨hbi, by omega, ?_, fun c hc => ?_⟩
  · rw [isSet_eq_blockUsed sb d hbi] at h1
    simpa using h1
  · have := h3 c hc
    rw [isSet_eq_blockUsed sb d (by omega)] at this
    simpa using this

theorem eq_mul_BPB_add (c : ℕ) : c / BPB * BPB + c % BPB = c := Nat.div_add_mod' c BPB

/-- **The loops of `balloc` find the first free block.** -/
theorem ballocFind_some {sb : Superblock} {d : Disk} {b : ℕ} (h : ballocFind sb d = some b) :
    b < sb.size ∧ blockUsed sb d b = false ∧ ∀ c < b, blockUsed sb d c = true := by
  have hpos : 0 < BPB := by decide
  rw [ballocFind, List.findSome?_eq_some_iff] at h
  obtain ⟨l₁, i, l₂, hl, hf, hno⟩ := h
  obtain ⟨bi, hbi, rfl⟩ := Option.map_eq_some_iff.mp hf
  obtain ⟨hlt, hsz, hfree, hmin⟩ := ballocScan_some hbi
  refine ⟨hsz, hfree, fun c hc => ?_⟩
  have hlen : l₁.length = i := by
    have := congrArg (fun l => l[l₁.length]?) hl
    simp only [List.getElem?_append_right (le_refl _), Nat.sub_self, List.getElem?_cons_zero,
      List.getElem?_eq_some_iff, List.getElem_range] at this
    exact this.2
  -- the bit of a smaller block is in an earlier bitmap block, or before it in the same one
  have hmod : c % BPB < BPB := Nat.mod_lt c hpos
  rw [← eq_mul_BPB_add c] at hc ⊢
  rcases Nat.lt_or_ge (c / BPB) i with hci | hci
  · have hmem : c / BPB ∈ l₁ := by
      have hget : (List.range ((sb.size + BPB - 1) / BPB))[c / BPB]? = some (c / BPB) := by
        have hlt' : c / BPB < (List.range ((sb.size + BPB - 1) / BPB)).length := by
          rw [hl, List.length_append, hlen]
          omega
        rw [List.getElem?_eq_getElem hlt', List.getElem_range]
      rw [hl, List.getElem?_append_left (by omega)] at hget
      exact List.mem_of_getElem? hget
    exact ballocScan_none (Option.map_eq_none_iff.mp (hno _ hmem)) hmod (by omega)
  · have hci' : c / BPB = i := by
      by_contra hne
      have : (i + 1) * BPB ≤ c / BPB * BPB := Nat.mul_le_mul_right BPB (by omega)
      rw [Nat.add_mul] at this
      omega
    rw [hci'] at hc ⊢
    exact hmin _ (by omega)

theorem ballocFind_none {sb : Superblock} {d : Disk} (h : ballocFind sb d = none) {b : ℕ}
    (hb : b < sb.size) : blockUsed sb d b = true := by
  have hpos : 0 < BPB := by decide
  rw [ballocFind, List.findSome?_eq_none_iff] at h
  have hi : b / BPB < (sb.size + BPB - 1) / BPB := by
    rw [show BPB = 8192 from rfl]
    omega
  have := h (b / BPB) (List.mem_range.mpr hi)
  rw [← eq_mul_BPB_add b] at hb ⊢
  exact ballocScan_none (Option.map_eq_none_iff.mp this) (Nat.mod_lt b hpos) hb

/-- **`balloc` takes the first free block, or finds none.** -/
theorem balloc_cases (s : FS) :
    (∃ b, b < s.sb.size ∧ s.used b = false ∧ (∀ c < b, s.used c = true) ∧
        balloc s = (b, s.take b)) ∨
      ((∀ b < s.sb.size, s.used b = true) ∧ balloc s = (0, s)) := by
  cases h : ballocFind s.sb s.buf with
  | some b =>
    obtain ⟨h1, h2, h3⟩ := ballocFind_some h
    exact Or.inl ⟨b, h1, h2, h3, by rw [balloc, h]⟩
  | none => exact Or.inr ⟨fun b hb => ballocFind_none h hb, by rw [balloc, h]⟩

end RiscvOs.Fs
