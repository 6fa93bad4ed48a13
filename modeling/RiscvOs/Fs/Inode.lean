import RiscvOs.Fs.State
import RiscvOs.Lib.Loop

set_option autoImplicit false

/-!
# Inodes (`kernel/disk/fs.c`)

The inode table and the functions that read, write, allocate and free inodes.

## Implementation notes

Behind the direct blocks `bmap` sets `a = (uint*)bp` where `(uint*)bp->data` is meant: the
array starts at the first field of `struct buf`. On a 64-bit machine `data` starts at word `22`
of the structure. `bufWord` and `setBufWord` are the words of the structure: `bread` has set
`valid`, `dev`, `blockno` and `lock.locked` when it returns; the others (the driver's flag, the
rest of the lock, the counter and the list pointers) are whatever `hdr` says.
-/

namespace RiscvOs.Fs

open Function Loop

/-- The number of 32-bit words of `struct buf` before `data`. -/
def BUFHDR : ℕ := 22

/-- Word `k` of the buffer that `bread` has returned for block `b`. -/
def bufWord (s : FS) (b k : ℕ) : UInt32 :=
  if k < BUFHDR then
    match k with
    | 0 => 1
    | 2 => UInt32.ofNat ROOTDEV
    | 3 => UInt32.ofNat b
    | 4 => 1
    | _ => s.hdr b k
  else ByteBlock.u32 (s.buf b) (4 * (k - BUFHDR))

/-- Store word `k` of the buffer of block `b`. -/
def setBufWord (s : FS) (b k : ℕ) (v : UInt32) : FS :=
  if k < BUFHDR then
    { s with hdr := update s.hdr b (update (s.hdr b) k v) }
  else s.setBuf b (ByteBlock.setU32 (s.buf b) (4 * (k - BUFHDR)) v)

/-- Store a block number in the address array of a slot. -/
def FS.setAddr (s : FS) (ip : Slot) (k a : ℕ) : FS :=
  s.setInode ip { s.itable ip with toDinode := (s.itable ip).toDinode.setAddr k a }

/-- The address `k` of the slot; a block is allocated if it is zero. -/
def mapAddr (ip : Slot) (k : ℕ) (s : FS) : ℕ × FS :=
  if (s.itable ip).addr k = 0 then
    match balloc s with
    | (0, s) => (0, s)
    | (a, s) => (a, s.setAddr ip k a)
  else ((s.itable ip).addr k, s)

/-- The block number at index `k` of the array that is laid over the buffer of block `b`; a block
is allocated if it is zero. -/
def mapEntry (b k : ℕ) (s : FS) : ℕ × FS :=
  if bufWord s b k = 0 then
    match balloc s with
    | (0, s) => (0, s)
    | (a, s) => (a, (setBufWord s b k (UInt32.ofNat a)).logWrite b)
  else ((bufWord s b k).toNat, s)

/-- The disk block number of block `bn` of a file. -/
def bmap (ip : Slot) (bn : ℕ) (s : FS) : Except Panic (ℕ × FS) :=
  if bn < NDIRECT then .ok (mapAddr ip bn s)
  else if bn - NDIRECT < NINDIRECT then
    match mapAddr ip NDIRECT s with
    | (0, s) => .ok (0, s)
    | (b, s) => .ok (mapEntry b (bn - NDIRECT) (s.note .indirect))
  else .error .bmap

/-! ## The inode table -/

/-- Find the slot of an inode, or take a free one. The fields of the record are not touched. -/
def iget (dev inum : ℕ) (s : FS) : Except Panic (Slot × FS) :=
  match (List.finRange NINODE).find? fun ip =>
      0 < (s.itable ip).ref && (s.itable ip).dev == dev && (s.itable ip).inum == inum with
  | some ip => .ok (ip, s.setInode ip { s.itable ip with ref := (s.itable ip).ref + 1 })
  | none =>
    match (List.finRange NINODE).find? fun ip => (s.itable ip).ref == 0 with
    | none => .error .iget
    | some ip => .ok (ip, s.setInode ip { s.itable ip with
        dev := dev, inum := inum, ref := 1, valid := false })

/-- Another pointer to the same slot. -/
def idup (ip : Slot) (s : FS) : FS :=
  s.setInode ip { s.itable ip with ref := (s.itable ip).ref + 1 }

/-- Take the sleep lock of a slot and read the record if that was not done yet. -/
def ilock (ip : Slot) (s : FS) : Except Panic FS :=
  if (s.itable ip).ref < 1 then .error .ilock
  else if (s.itable ip).lock ≠ none then .error .blocked
  else if (s.itable ip).valid then
    .ok (s.setInode ip { s.itable ip with lock := some s.pid })
  else if (s.dinode (s.itable ip).inum).type = 0 then .error .noType
  else .ok (s.setInode ip { s.itable ip with
    toDinode := s.dinode (s.itable ip).inum, lock := some s.pid, valid := true })

/-- Release the sleep lock of a slot. -/
def iunlock (ip : Slot) (s : FS) : Except Panic FS :=
  if (s.itable ip).ref < 1 ∨ (s.itable ip).lock ≠ some s.pid then .error .iunlock
  else .ok (s.setInode ip { s.itable ip with lock := none })

/-- Write the fields of a slot to the inode record. -/
def iupdate (ip : Slot) (s : FS) : Except Panic FS :=
  if (s.itable ip).lock ≠ some s.pid then .error .iupdate
  else .ok ({ s with
    buf := setDinode s.sb s.buf (s.itable ip).inum (s.itable ip).toDinode }.logWrite
      (IBLOCK (s.itable ip).inum s.sb))

/-- One round of the first loop of `itrunc`. -/
def freeDirect (ip : Slot) (s : FS) (i : ℕ) : Except Panic FS :=
  if (s.itable ip).addr i = 0 then .ok s
  else do
    let s ← bfree ((s.itable ip).addr i) s
    .ok (s.setAddr ip i 0)

/-- The block number at index `j` of the array in block `b`. -/
def FS.entry (s : FS) (b j : ℕ) : ℕ := (ByteBlock.u32 (s.buf b) (4 * j)).toNat

/-- One round of the second loop of `itrunc`, for the indirect block `b`. -/
def freeEntry (b : ℕ) (s : FS) (j : ℕ) : Except Panic FS :=
  if s.entry b j = 0 then .ok s else bfree (s.entry b j) s

/-- The second half of `itrunc`: the blocks in the indirect block, and the block itself. -/
def freeIndirect (ip : Slot) (s : FS) : Except Panic FS :=
  if (s.itable ip).addr NDIRECT = 0 then .ok s
  else do
    let s ← (List.range NINDIRECT).foldlM (freeEntry ((s.itable ip).addr NDIRECT)) s
    let s ← bfree ((s.itable ip).addr NDIRECT) s
    .ok (s.setAddr ip NDIRECT 0)

/-- Free all blocks of an inode. -/
def itrunc (ip : Slot) (s : FS) : Except Panic FS := do
  let s ← (List.range NDIRECT).foldlM (freeDirect ip) s
  let s ← freeIndirect ip s
  iupdate ip (s.setInode ip { s.itable ip with size := 0 })

/-- The part of `iput` that frees the inode. -/
def destroy (ip : Slot) (s : FS) : Except Panic FS :=
  if (s.itable ip).lock ≠ none then .error .blocked
  else do
    let s ← itrunc ip (s.setInode ip { s.itable ip with lock := some s.pid })
    let s ← iupdate ip (s.setInode ip { s.itable ip with type := 0 })
    .ok (s.setInode ip { s.itable ip with valid := false, lock := none })

/-- Drop a pointer to a slot. The last pointer to an inode without links frees the inode; the
test looks at `nlink` of the slot, whether or not it was read from the disk. -/
def iput (ip : Slot) (s : FS) : Except Panic FS :=
  if (s.itable ip).ref = 1 ∧ (s.itable ip).nlink = 0 then do
    let s ← destroy ip (if (s.itable ip).valid then s else s.note .stale)
    .ok (s.setInode ip { s.itable ip with ref := (s.itable ip).ref - 1 })
  else .ok (s.setInode ip { s.itable ip with ref := (s.itable ip).ref - 1 })

/-- Clear the record of an inode and give it a type, which marks it as allocated. -/
def FS.claimInode (s : FS) (inum : ℕ) (type : UInt16) : FS :=
  { s with buf := setDinode s.sb s.buf inum { Dinode.zero with type := type } }.logWrite
    (IBLOCK inum s.sb)

/-- Find a free inode record, mark it as allocated and return a slot for it. -/
def ialloc (dev : ℕ) (type : UInt16) (s : FS) : Except Panic (Option Slot × FS) :=
  match (List.range' 1 (s.sb.ninodes - 1)).find? fun inum => (s.dinode inum).type == 0 with
  | none => .ok (none, s)
  | some inum => do
    let (ip, s) ← iget dev inum (s.claimInode inum type)
    .ok (some ip, s)

theorem FS.dinode_claimInode (s : FS) (inum : ℕ) (type : UInt16) (i : ℕ) :
    (s.claimInode inum type).dinode i =
      if i = inum then { Dinode.zero with type := type } else s.dinode i :=
  dinodeAt_setDinode _ _ _ _ _

/-! ## What the functions leave alone -/

/-- Between `s` and `s'` only blocks outside the inode area and the address array of the slot
`ip` have changed. -/
structure Frame (ip : Slot) (s s' : FS) : Prop where
  sb : s'.sb = s.sb
  pid : s'.pid = s.pid
  other : ∀ jp, jp ≠ ip → s'.itable jp = s.itable jp
  self : s'.itable ip = { s.itable ip with addrs := (s'.itable ip).addrs }
  dinode : ∀ i, i < s.sb.records → s'.dinode i = s.dinode i

theorem Frame.refl (ip : Slot) (s : FS) : Frame ip s s := ⟨rfl, rfl, fun _ _ => rfl, rfl, fun _ _ => rfl⟩

theorem Frame.trans {ip : Slot} {s₁ s₂ s₃ : FS} (h : Frame ip s₁ s₂) (h' : Frame ip s₂ s₃) :
    Frame ip s₁ s₃ := by
  refine ⟨h'.sb.trans h.sb, h'.pid.trans h.pid, fun jp hj => (h'.other jp hj).trans (h.other jp hj),
    ?_, fun i hi => (h'.dinode i (h.sb ▸ hi)).trans (h.dinode i hi)⟩
  rw [h'.self, h.self]

theorem Frame.inum {ip : Slot} {s s' : FS} (h : Frame ip s s') (jp : Slot) :
    (s'.itable jp).inum = (s.itable jp).inum := by
  by_cases hj : jp = ip
  · rw [hj, h.self]
  · rw [h.other jp hj]

theorem frame_setAddr (ip : Slot) (k a : ℕ) (s : FS) : Frame ip s (s.setAddr ip k a) := by
  refine ⟨rfl, rfl, fun jp hj => update_of_ne hj _ _, ?_, fun _ _ => rfl⟩
  simp [FS.setAddr, FS.setInode, Dinode.setAddr]

theorem bfree_eq_ok {b : ℕ} {s s' : FS} : bfree b s = .ok s' ↔ s.used b = true ∧
    s' = { s with buf := clearUsed s.sb s.buf b }.logWrite (BBLOCK b s.sb) := by
  rw [bfree]
  split_ifs with h
  · simp [h, eq_comm]
  · simp [h]

theorem frame_bfree (ip : Slot) {b : ℕ} {s s' : FS} (h : bfree b s = .ok s') : Frame ip s s' := by
  obtain ⟨-, rfl⟩ := bfree_eq_ok.mp h
  refine ⟨rfl, rfl, fun _ _ => rfl, rfl, fun i hi => dinodeAt_update_of_ne _ _ _ ?_⟩
  exact ((record_lt hi).trans_le (bmapstart_le b s.sb)).ne

theorem frame_freeDirect (ip : Slot) {i : ℕ} {s s' : FS}
    (h : freeDirect ip s i = .ok s') : Frame ip s s' := by
  rw [freeDirect] at h
  split_ifs at h
  · cases h
    exact .refl ip s
  · obtain ⟨s₁, h1, h2⟩ := bind_eq_ok.mp h
    cases h2
    exact (frame_bfree ip h1).trans (frame_setAddr ip _ _ _)

theorem frame_freeEntry (ip : Slot) {b j : ℕ} {s s' : FS}
    (h : freeEntry b s j = .ok s') : Frame ip s s' := by
  rw [freeEntry] at h
  split_ifs at h
  · cases h
    exact .refl ip s
  · exact frame_bfree ip h

theorem iupdate_eq_ok {ip : Slot} {s s' : FS} : iupdate ip s = .ok s' ↔
    (s.itable ip).lock = some s.pid ∧
      s' = { s with buf := setDinode s.sb s.buf (s.itable ip).inum (s.itable ip).toDinode }.logWrite
        (IBLOCK (s.itable ip).inum s.sb) := by
  rw [iupdate]
  split_ifs with h
  · simp [h]
  · rw [not_not] at h
    simp [h, eq_comm]

/-- What `iupdate` does: it makes the record of the slot's inode equal to the slot. -/
structure Updated (ip : Slot) (s s' : FS) : Prop where
  held : (s.itable ip).lock = some s.pid
  sb : s'.sb = s.sb
  itable : s'.itable = s.itable
  pid : s'.pid = s.pid
  dinode : ∀ i, s'.dinode i = if i = (s.itable ip).inum then (s.itable ip).toDinode else s.dinode i

theorem updated_of_iupdate {ip : Slot} {s s' : FS} (h : iupdate ip s = .ok s') :
    Updated ip s s' := by
  obtain ⟨hl, rfl⟩ := iupdate_eq_ok.mp h
  exact ⟨hl, rfl, rfl, rfl, fun i => dinodeAt_setDinode _ _ _ _ _⟩

theorem itrunc_frame {ip : Slot} {s s' : FS} (h : itrunc ip s = .ok s') :
    ∃ s₁, Frame ip s s₁ ∧
      iupdate ip (s₁.setInode ip { s₁.itable ip with size := 0 }) = .ok s' := by
  rw [itrunc] at h
  obtain ⟨s₁, h1, h⟩ := bind_eq_ok.mp h
  obtain ⟨s₂, h2, h⟩ := bind_eq_ok.mp h
  have hf1 : Frame ip s s₁ := foldlM_range_ok (fun _ t => Frame ip s t) h1 (.refl ip s)
    fun k _ t t' ht hs => ht.trans (frame_freeDirect ip hs)
  refine ⟨s₂, hf1.trans ?_, h⟩
  rw [freeIndirect] at h2
  split_ifs at h2
  · cases h2
    exact .refl ip s₁
  · obtain ⟨s₃, h3, h2⟩ := bind_eq_ok.mp h2
    obtain ⟨s₄, h4, h2⟩ := bind_eq_ok.mp h2
    cases h2
    have hf3 : Frame ip s₁ s₃ := foldlM_range_ok (fun _ t => Frame ip s₁ t) h3 (.refl ip s₁)
      fun k _ t t' ht hs => ht.trans (frame_freeEntry ip hs)
    exact (hf3.trans (frame_bfree ip h4)).trans (frame_setAddr ip _ _ _)

/-- What is left of the slot `ip` after `destroy`, and what is not touched. -/
structure Destroyed (ip : Slot) (s s' : FS) : Prop where
  unlocked : (s.itable ip).lock = none
  sb : s'.sb = s.sb
  pid : s'.pid = s.pid
  other : ∀ jp, jp ≠ ip → s'.itable jp = s.itable jp
  ref : (s'.itable ip).ref = (s.itable ip).ref
  dev : (s'.itable ip).dev = (s.itable ip).dev
  inum : (s'.itable ip).inum = (s.itable ip).inum
  valid : (s'.itable ip).valid = false
  lock : (s'.itable ip).lock = none
  dinode : ∀ i, i < s.sb.records → i ≠ (s.itable ip).inum → s'.dinode i = s.dinode i
  record : (s'.dinode (s.itable ip).inum).type = 0 ∧
    (s'.dinode (s.itable ip).inum).nlink = (s.itable ip).nlink

/-- The inode is truncated, then its type is cleared; each of the two writes the record of the
inode, and no other. -/
theorem destroyed_of_destroy {ip : Slot} {s s' : FS} (h : destroy ip s = .ok s') : Destroyed ip s s' := by
  rw [destroy] at h
  split_ifs at h with hlock
  obtain ⟨s₂, h2, h⟩ := bind_eq_ok.mp h
  obtain ⟨s₃, h3, h⟩ := bind_eq_ok.mp h
  cases h
  obtain ⟨s₁, hf, h1⟩ :=
    itrunc_frame (s := s.setInode ip { s.itable ip with lock := some s.pid }) h2
  have hu2 := updated_of_iupdate h1
  have hu3 := updated_of_iupdate h3
  have hself := hf.self
  rw [FS.setInode_same] at hself
  have hinum : (s₁.itable ip).inum = (s.itable ip).inum := by rw [hself]
  have hit : s₃.itable ip =
      { s₁.itable ip with size := 0, type := 0 } := by
    rw [hu3.itable, FS.setInode_same, hu2.itable, FS.setInode_same]
  have hinum2 : (s₂.itable ip).inum = (s.itable ip).inum := by
    rw [hu2.itable, FS.setInode_same]
    exact hinum
  refine ⟨not_not.mp hlock, ?_, ?_, fun jp hj => ?_, ?_, ?_, ?_, ?_, ?_, fun i hi hne => ?_, ?_⟩
  · exact hu3.sb.trans (hu2.sb.trans hf.sb)
  · exact hu3.pid.trans (hu2.pid.trans hf.pid)
  · rw [FS.setInode_of_ne _ _ _ hj, hu3.itable, FS.setInode_of_ne _ _ _ hj, hu2.itable,
      FS.setInode_of_ne _ _ _ hj, hf.other jp hj, FS.setInode_of_ne _ _ _ hj]
  · rw [FS.setInode_same, hit, hself]
  · rw [FS.setInode_same, hit, hself]
  · rw [FS.setInode_same, hit, hself]
  · rw [FS.setInode_same]
  · rw [FS.setInode_same]
  · have hi3 : i ≠ (s₂.itable ip).inum := hinum2 ▸ hne
    have hi2 : i ≠ (s₁.itable ip).inum := hinum ▸ hne
    rw [FS.setInode_dinode, hu3.dinode, FS.setInode_same, if_neg hi3, FS.setInode_dinode,
      hu2.dinode, FS.setInode_same, if_neg hi2, FS.setInode_dinode, hf.dinode i hi,
      FS.setInode_dinode]
  · rw [FS.setInode_dinode, hu3.dinode, FS.setInode_same, if_pos hinum2.symm, hu2.itable,
      FS.setInode_same, hself]
    exact ⟨rfl, rfl⟩

theorem iput_cases {ip : Slot} {s s' : FS} (h : iput ip s = .ok s') :
    (((s.itable ip).ref = 1 ∧ (s.itable ip).nlink = 0) ∧ ∃ u, Destroyed ip s u ∧
        s' = u.setInode ip { u.itable ip with ref := (u.itable ip).ref - 1 }) ∨
      (¬ ((s.itable ip).ref = 1 ∧ (s.itable ip).nlink = 0) ∧
        s' = s.setInode ip { s.itable ip with ref := (s.itable ip).ref - 1 }) := by
  rw [iput] at h
  by_cases hfree : (s.itable ip).ref = 1 ∧ (s.itable ip).nlink = 0
  · rw [if_pos hfree] at h
    obtain ⟨u, hu, h⟩ := bind_eq_ok.mp h
    cases h
    refine Or.inl ⟨hfree, u, ?_, rfl⟩
    by_cases hv : (s.itable ip).valid = true
    · rw [if_pos hv] at hu
      exact destroyed_of_destroy hu
    · rw [if_neg hv] at hu
      have hd := destroyed_of_destroy (s := s.note .stale) hu
      exact { hd with }
  · rw [if_neg hfree] at h
    cases h
    exact Or.inr ⟨hfree, rfl⟩

theorem iget_cases {dev inum : ℕ} {s s' : FS} {ip : Slot} (h : iget dev inum s = .ok (ip, s')) :
    (0 < (s.itable ip).ref ∧ (s.itable ip).dev = dev ∧ (s.itable ip).inum = inum ∧
        s' = s.setInode ip { s.itable ip with ref := (s.itable ip).ref + 1 }) ∨
      ((∀ jp, 0 < (s.itable jp).ref → (s.itable jp).dev = dev → (s.itable jp).inum ≠ inum) ∧
        (s.itable ip).ref = 0 ∧
        s' = s.setInode ip { s.itable ip with
          dev := dev, inum := inum, ref := 1, valid := false }) := by
  rw [iget] at h
  split at h
  · rename_i jp hf
    cases h
    have := List.find?_some hf
    simp only [Bool.and_eq_true, decide_eq_true_eq, beq_iff_eq] at this
    exact Or.inl ⟨this.1.1, this.1.2, this.2, rfl⟩
  · rename_i hf
    split at h
    · cases h
    · rename_i jp hf'
      cases h
      refine Or.inr ⟨fun kp hk hd hi => ?_, by simpa using List.find?_some hf', rfl⟩
      have := List.find?_eq_none.mp hf kp (List.mem_finRange kp)
      simp [hk, hd, hi] at this

theorem iget_of_free {dev inum : ℕ} {s : FS} {kp : Slot}
    (hno : ∀ jp, 0 < (s.itable jp).ref → (s.itable jp).dev = dev → (s.itable jp).inum ≠ inum)
    (hfree : (s.itable kp).ref = 0) :
    ∃ ip, (s.itable ip).ref = 0 ∧ iget dev inum s = .ok (ip, s.setInode ip { s.itable ip with
      dev := dev, inum := inum, ref := 1, valid := false }) := by
  have h1 : (List.finRange NINODE).find? (fun ip => 0 < (s.itable ip).ref &&
      (s.itable ip).dev == dev && (s.itable ip).inum == inum) = none := by
    rw [List.find?_eq_none]
    intro jp _ hjp
    simp only [Bool.and_eq_true, decide_eq_true_eq, beq_iff_eq] at hjp
    exact hno jp hjp.1.1 hjp.1.2 hjp.2
  cases h2 : (List.finRange NINODE).find? fun ip => (s.itable ip).ref == 0 with
  | none =>
    have := List.find?_eq_none.mp h2 kp (List.mem_finRange kp)
    simp [hfree] at this
  | some ip => exact ⟨ip, by simpa using List.find?_some h2, by rw [iget, h1, h2]⟩

theorem ialloc_eq_some {dev : ℕ} {type : UInt16} {s s' : FS} {ip : Slot}
    (h : ialloc dev type s = .ok (some ip, s')) :
    ∃ inum, inum < s.sb.ninodes ∧ (s.dinode inum).type = 0 ∧
      iget dev inum (s.claimInode inum type) = .ok (ip, s') := by
  rw [ialloc] at h
  split at h
  · cases h
  · rename_i inum hf
    obtain ⟨⟨jp, u⟩, hg, h⟩ := bind_eq_ok.mp h
    cases h
    have hmem := List.mem_of_find?_eq_some hf
    have hfree := List.find?_some hf
    rw [List.mem_range'_1] at hmem
    exact ⟨inum, by omega, beq_iff_eq.mp hfree, hg⟩

theorem ialloc_eq_none {dev : ℕ} {type : UInt16} {s s' : FS}
    (h : ialloc dev type s = .ok (none, s')) : s' = s := by
  rw [ialloc] at h
  split at h
  · cases h
    rfl
  · obtain ⟨_, -, h⟩ := bind_eq_ok.mp h
    cases h

end RiscvOs.Fs
