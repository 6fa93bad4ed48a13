import RiscvOs.Fs.Walk
import RiscvOs.Disk.LogCrash

set_option autoImplicit false

/-!
# Mounting the disk (`kernel/disk/fs.c`)

`fsinit` runs in the first process. It reads the superblock, recovers the log, and frees the inodes
that were unlinked but not freed when the machine stopped. After that no slot of the inode table is
in use.

## Main results

* `fsinit_eq` — mounting a disk with an empty log on which every inode has a link.
* `finds_of_walk` — the first lookup after mounting.
-/

namespace RiscvOs.Fs

open Loop
open Walk (Known Along Looks Spares elements entryOf walk unused)

/-- The superblock in a block. -/
def readsb (b : Block) : Superblock where
  size := (ByteBlock.u32 b 4).toNat
  nblocks := (ByteBlock.u32 b 8).toNat
  ninodes := (ByteBlock.u32 b 12).toNat
  nlog := (ByteBlock.u32 b 16).toNat
  logstart := (ByteBlock.u32 b 20).toNat
  inodestart := (ByteBlock.u32 b 24).toNat
  bmapstart := (ByteBlock.u32 b 28).toNat

/-- One round of `ireclaim`: an inode without links is freed. -/
def reclaimInode (s : FS) (inum : ℕ) : Except Panic FS :=
  if (s.dinode inum).type ≠ 0 ∧ (s.dinode inum).nlink = 0 then do
    let (ip, s) ← iget ROOTDEV inum s
    let s ← ilock ip s
    let s ← iunlock ip s
    iput ip s
  else .ok s

/-- Free the inodes without links. -/
def ireclaim (s : FS) : Except Panic FS :=
  (List.range' 1 (s.sb.ninodes - 1)).foldlM reclaimInode s

/-- Why `fsinit` does not return: "invalid file system", or a panic in `ireclaim`. -/
inductive MountPanic where
  | invalid
  | reclaim (e : Panic)

/-- The state before the first call: no slot of the inode table is in use. -/
def freshFS (sb : Superblock) (d : Disk) (hdr : ℕ → ℕ → UInt32) (pid : ℕ) : FS where
  sb := sb
  buf := d
  hdr := hdr
  itable := fun _ => Inode.empty
  pid := pid
  logged := []
  quirks := []

/-- Mount a disk. -/
def fsinit (d : Disk) (hdr : ℕ → ℕ → UInt32) (pid : ℕ) : Except MountPanic FS :=
  if ByteBlock.u32 (d 1) 0 ≠ FSMAGIC then .error .invalid
  else
    (ireclaim (freshFS (readsb (d 1)) (Log.initlog (readsb (d 1)).logstart d).disk hdr pid)).mapError
      .reclaim

theorem ireclaim_eq {s : FS}
    (h : ∀ i, 0 < i → i < s.sb.ninodes → (s.dinode i).type = 0 ∨ (s.dinode i).nlink ≠ 0) :
    ireclaim s = .ok s := by
  have hround : ∀ i ∈ List.range' 1 (s.sb.ninodes - 1), reclaimInode s i = .ok s := by
    intro i hi
    rw [List.mem_range'_1] at hi
    refine if_neg ?_
    rcases h i (by omega) (by omega) with h0 | h0
    · simp [h0]
    · simp [h0]
  unfold ireclaim
  generalize List.range' 1 (s.sb.ninodes - 1) = l at hround
  induction l with
  | nil => rfl
  | cons i l ih =>
    rw [List.foldlM_cons, hround i List.mem_cons_self]
    exact ih fun j hj => hround j (List.mem_cons_of_mem i hj)

/-- **Mounting** changes nothing on a disk whose log is empty and whose inodes all have links. -/
theorem fsinit_eq {d : Disk} (hdr : ℕ → ℕ → UInt32) (pid : ℕ)
    (hmagic : ByteBlock.u32 (d 1) 0 = FSMAGIC)
    (hlog : Log.headCount (d (readsb (d 1)).logstart) = 0)
    (hlink : ∀ i, 0 < i → i < (readsb (d 1)).ninodes →
      (dinodeAt (readsb (d 1)) d i).type = 0 ∨ (dinodeAt (readsb (d 1)) d i).nlink ≠ 0) :
    fsinit d hdr pid = .ok (freshFS (readsb (d 1)) d hdr pid) := by
  rw [fsinit, if_neg (not_not.mpr hmagic), (Log.initlog_of_headCount_eq_zero hlog).2]
  rw [ireclaim_eq hlink]
  rfl

/-! ## The first lookup -/

/-- No slot is in use. -/
def Unused (s : FS) : Prop := ∀ ip, (s.itable ip).ref = 0 ∧ (s.itable ip).lock = none

/-- The path leads to the inode `inum`: `namei` and `ilock` succeed, and the slot has the fields of
its record. Nothing was written. -/
def Finds (s : FS) (path : List UInt8) (cwd : Slot) (inum : ℕ) : Prop :=
  ∃ ip t u, namei path cwd s = .ok (some ip, t) ∧ ilock ip t = .ok u ∧
    (u.itable ip).toDinode = s.dinode inum ∧ u.buf = s.buf

/-- The slot `ip` has been read from the record of `inum` for one pointer. -/
def FS.load (s : FS) (ip : Slot) (inum : ℕ) (lock : Option ℕ) : FS :=
  s.setInode ip ⟨s.dinode inum, ROOTDEV, inum, 1, lock, true⟩

section Lookup

variable {s : FS} {ip : Slot} {inum : ℕ}

theorem FS.setInode_setInode (v w : Inode) : (s.setInode ip v).setInode ip w = s.setInode ip w := by
  simp [FS.setInode]

theorem ilock_taken (hlock : (s.itable ip).lock = none) (htype : (s.dinode inum).type ≠ 0) :
    ilock ip (s.setInode ip { s.itable ip with
      dev := ROOTDEV, inum := inum, ref := 1, valid := false }) =
      .ok (s.load ip inum (some s.pid)) := by
  rw [ilock, FS.setInode_same]
  dsimp only
  rw [if_neg (by decide), if_neg (by simp [hlock]), if_neg (by simp), FS.setInode_dinode,
    if_neg htype, FS.setInode_setInode]
  rfl

theorem table_of_unused (h : Unused s) (hl : Layout s.sb) : Table s := by
  have hnone : ∀ jp, ¬ 0 < (s.itable jp).ref := fun jp => by simp [(h jp).1]
  exact ⟨hl, fun jp hp => absurd hp (hnone jp), fun jp hp => absurd hp (hnone jp),
    fun jp _ hp => absurd hp (hnone jp), fun jp hp => absurd hp (hnone jp),
    fun jp p hp => by simp [(h jp).2] at hp⟩

/-- **A path from the root** leads to the inode that the walk along its elements ends at. -/
theorem finds_of_walk {path : List UInt8} (h : Unused s) (hl : Layout s.sb) (hroot : Known s ROOTINO)
    (hway : Along s (entryOf s) (Looks s (entryOf s)) ROOTINO (elements path))
    (hwalk : walk s (entryOf s) ROOTINO (elements path) = some inum) (hknown : Known s inum) (cwd : Slot) :
    Finds s (slash :: path) cwd inum := by
  have hspares : Spares (fun _ => True) s := by
    have hall : unused s = Finset.univ := Finset.filter_true_of_mem fun jp _ => (h jp).1
    refine ⟨fun hfull => absurd hfull ?_, fun hlock => absurd hlock (by simp [(h _).2])⟩
    rw [hall]
    decide
  rw [← Walk.elements_slash] at hway hwalk
  obtain ⟨⟨ip, t⟩, hstart, hbegin, hinum, -⟩ := (Walk.namexStart_walking hspares (table_of_unused h hl)
    cwd (slash :: path) fun hne => absurd rfl hne).exists_ok
  rw [Walk.start, if_pos List.head?_cons] at hinum
  dsimp only at hbegin hinum
  rw [← hinum] at hroot hway hwalk
  have hrun : Safe _ _ (namexLoop false ((slash :: path).length + 1) ip [] (slash :: path) t) :=
    Walk.namexLoop_resolved hspares hbegin hroot _ _ _ hway (Nat.lt_succ_self _) Bool.noConfusion
  obtain ⟨⟨r, u⟩, hloop, ⟨hres, -⟩, hend⟩ := hrun.exists_ok
  rw [if_neg Bool.false_ne_true, hwalk, Option.map_eq_some_iff] at hres
  obtain ⟨⟨jp, name⟩, rfl, rfl⟩ := hres
  obtain ⟨v, hlock, hlast, hsame⟩ :=
    (hend.ilock hspares (fun _ => List.not_mem_nil) (List.mem_singleton_self jp) hknown).exists_ok
  refine ⟨jp, u, v, ?_, hlock, ?_, hlast.disk.buf⟩
  · rw [namei, namex, hstart]
    dsimp only [bind, Except.bind]
    rw [hloop]
    rfl
  · rw [(hlast.record (List.mem_singleton_self jp)).1, hsame]

end Lookup

end RiscvOs.Fs
