import RiscvOs.Fs.Contents
import RiscvOs.Fs.Quiet

set_option autoImplicit false

/-!
# Every data block has one owner

The calls on inodes and the two operations on directories, issued in any order by any processes,
keep the bitmap and the inodes in agreement: a data block is marked as used exactly if one place
refers to it, and `bfree` is never called for a block that is free. This holds if the files and
directories that are written or searched have direct blocks only, the entries of directories are the
numbers of inodes, and the last pointer to an inode is dropped through a slot with a copy of it; a file that
grows behind its direct blocks is enough to lose a block.

## Main results

* `next_quiet` — an orderly operation takes none of the recorded branches.
* `sound_next` — an orderly operation keeps the file system sound.
* `blocks_have_one_owner` — the bitmap agrees with the inodes in every reachable
  state.
* `block_without_owner` — a block that a long write allocates and nothing refers
  to.
-/

namespace RiscvOs.Fs

/-- The block number at a place of the disk. -/
def FS.held (s : FS) (x : Place) : ℕ := holds s.sb.wide s.buf s.dinode x

namespace Blocks

open Machine Str Walk

/-- The operations: another process continues, the calls on inodes, and the two operations on
directories, with what they find on the stack. -/
inductive Op where
  | switch (pid : ℕ)
  | iget (inum : ℕ)
  | idup (ip : Slot)
  | ilock (ip : Slot)
  | iunlock (ip : Slot)
  | iput (ip : Slot)
  | ialloc (type : UInt16)
  | itrunc (ip : Slot)
  | writei (ip : Slot) (src : Source) (off n : ℕ)
  | create (path : List UInt8) (type major minor : UInt16) (cwd : Slot) (junk : ℕ → Dirent)
  | unlink (path : List UInt8) (cwd : Slot)

/-- What an operation does to the file system. -/
def next (s : FS) : Op → Except Panic FS
  | .switch pid => .ok { s with pid := pid }
  | .iget inum => do
    let (_, s) ← Fs.iget ROOTDEV inum s
    .ok s
  | .idup ip => .ok (Fs.idup ip s)
  | .ilock ip => Fs.ilock ip s
  | .iunlock ip => Fs.iunlock ip s
  | .iput ip => Fs.iput ip s
  | .ialloc type => do
    let (_, s) ← Fs.ialloc ROOTDEV type s
    .ok s
  | .itrunc ip => Fs.itrunc ip s
  | .writei ip src off n => do
    let (_, s) ← Fs.writei ip src off n s
    .ok s
  | .create path type major minor cwd junk => do
    let (_, s) ← Fs.create path type major minor cwd junk s
    .ok s
  | .unlink path cwd => do
    let (_, s) ← sysUnlink path cwd s
    .ok s

/-- What the callers respect: inode numbers exist, pointers are pointers, the last pointer to a
slot is not dropped while the slot is locked, and `itrunc` is called with the lock held. -/
def Legal (s : FS) : Op → Prop
  | .iget inum => inum < s.sb.records
  | .idup ip => 0 < (s.itable ip).ref
  | .iput ip => Droppable ip s
  | .itrunc ip => (s.itable ip).lock = some s.pid
  | .create _ _ _ _ cwd _ => 0 < (s.itable cwd).ref
  | .unlink _ cwd => 0 < (s.itable cwd).ref
  | _ => True

/-- What an operation needs of the state before it. `iput` does not free an inode of which the slot has no copy;
`writei` is refused, or does not get to the indirect block; `create` and `sys_unlink` search directories as `look`
and `scan` say, in which they find the numbers of inodes, and `create` finds room for a new entry. -/
def Orderly (look : FS → ℕ → List UInt8 → Prop) (scan : FS → ℕ → Prop) (s : FS) : Op → Prop
  | .iput ip => Settled ip s
  | .writei ip src off n => Refused s ip off n ∨ ¬ Gets s ip src off n NDIRECT
  | .create path type _ _ cwd _ => Passable (look s) s cwd path ∧ Roomy s cwd path type
  | .unlink path cwd => Passable (look s) s cwd path ∧ Emptyable (scan s) s cwd path
  | _ => True

/-- The searches read direct blocks only, and these blocks are there. -/
def Ordinary (s : FS) (op : Op) : Prop :=
  Orderly (fun s i name => Searchable s (s.dinode i) (cstr name)) (fun s i => Scannable s (s.dinode i)) s op

instance (ip : Slot) (s : FS) : Decidable (Droppable ip s) := by
  unfold Droppable
  infer_instance

instance (ip : Slot) (s : FS) : Decidable (Settled ip s) := by
  unfold Settled
  infer_instance

instance (s : FS) (op : Op) : Decidable (Legal s op) := by
  cases op <;> unfold Legal <;> infer_instance

instance (s : FS) (ip : Slot) (off n : ℕ) : Decidable (Refused s ip off n) := by
  unfold Refused
  infer_instance

instance (s : FS) (ip : Slot) (src : Source) (off n bn : ℕ) : Decidable (Gets s ip src off n bn) := by
  unfold Gets
  infer_instance

instance (look : FS → ℕ → List UInt8 → Prop) (scan : FS → ℕ → Prop) [∀ s i name, Decidable (look s i name)]
    [∀ s i, Decidable (scan s i)] (s : FS) (op : Op) : Decidable (Orderly look scan s op) := by
  cases op <;> unfold Orderly <;> infer_instance

instance (s : FS) (op : Op) : Decidable (Ordinary s op) := by
  unfold Ordinary
  infer_instance

variable {s t : FS} {op : Op}

/-- A property that all operations keep, where no branch is recorded. -/
structure KeptOps (I : FS → Prop) : Prop extends Kept I where
  switch : ∀ {s}, I s → ∀ pid, I { s with pid := pid }
  itrunc : ∀ {s ip}, I s → (s.itable ip).lock = some s.pid →
    Loop.Safe Fatal (fun t => I t ∧ t.quirks = s.quirks) (Fs.itrunc ip s)

/-- **An operation keeps the property**, and does not free a free block, unless a branch is
recorded. -/
theorem KeptOps.next {I : FS → Prop} (hI : KeptOps I) (h : I s) (hl : Legal s op) :
    Loop.Safe Fatal (Clean I) (next s op) := by
  have hstart : Acct I s [] [] s := acct_start h (hI.table h)
  cases op with
  | switch pid => exact fun _ => hI.switch h pid
  | iget inum => exact (iget_acct hI.toKept hstart fun _ => ⟨rfl, hl⟩).bind fun r hr => hr.clean
  | idup ip => exact (idup_acct hI.toKept hstart fun _ => hl).clean
  | ilock ip => exact (ilock_acct hI.toKept hstart).mono fun t ht => ht.clean
  | iunlock ip => exact Acct.of_ok (iunlock_ne_bfree ip s) fun t ht _ => hI.iunlock h ht
  | iput ip => exact hI.iput h hl
  | ialloc type => exact (ialloc_acct hI.toKept hstart fun _ => rfl).bind fun r hr => hr.clean
  | itrunc ip => exact (hI.itrunc h hl).mono fun t ht _ => ht.1
  | writei ip src off n => exact (writei_acct hI.toKept hstart).bind fun r hr => hr.clean
  | create path type major minor cwd junk =>
    exact (create_acct hI.toKept hstart fun _ => hl).bind fun r hr => hr.clean
  | unlink path cwd => exact (sysUnlink_acct hI.toKept hstart fun _ => hl).bind fun r hr => hr.clean

/-- **An orderly operation takes none of the recorded branches.** -/
theorem next_quiet {look : FS → ℕ → List UInt8 → Prop} {scan : FS → ℕ → Prop} (h : Consistent s) (hl : Legal s op)
    (ho : Orderly look scan s op)
    (hlook : ∀ i name, Known s i → (s.dinode i).type = T_DIR → look s i name → Searchable s (s.dinode i) (cstr name))
    (hscan : ∀ i, Known s i → (s.dinode i).type = T_DIR → scan s i → Scannable s (s.dinode i)) :
    Loop.Safe (Shows s.quirks) (fun t => t.quirks = s.quirks) (next s op) := by
  have hbooks := books_start h.table
  cases op with
  | switch pid => exact rfl
  | iget inum => exact (quiet_of_ne (iget_ne_bfree ROOTDEV inum s)).bind fun r hr => (hbooks.iget hr).2
  | idup ip => exact rfl
  | ilock ip => exact (quiet_of_ne (ilock_ne_bfree ip s)).mono fun t ht => (hbooks.ilock ht).2
  | iunlock ip =>
    refine (quiet_of_ne (iunlock_ne_bfree ip s)).mono fun t ht => ?_
    obtain ⟨-, -, rfl⟩ := iunlock_cases ht
    rfl
  | iput ip => exact iput_settled ho
  | ialloc type =>
    refine (quiet_of_ne (ialloc_ne_bfree ROOTDEV type s)).bind fun r hr => ?_
    obtain ⟨new, t⟩ := r
    cases new with
    | none =>
      obtain rfl := ialloc_eq_none hr
      rfl
    | some ip => exact (hbooks.ialloc hr).2
  | itrunc ip => exact itrunc_history ip s
  | writei ip src off n =>
    have hne : ∀ q, writei ip src off n s ≠ .error (.bfree q) := fun q =>
      (writei_stays ip src off n s).ne_error ⟨q, rfl⟩
    exact (quiet_of_ne hne).bind fun r hr => writei_quiet h ho hr
  | create path type major minor cwd junk =>
    exact (create_quiet h hl ho.1 hlook ho.2).bind fun r hr => hr
  | unlink path cwd => exact (sysUnlink_quiet h hl ho.1 hlook hscan ho.2).bind fun r hr => hr

/-- **An orderly operation keeps the property**, and does not free a free block. -/
theorem KeptOps.step {I : FS → Prop} (hI : KeptOps I) (h : I s) (hl : Legal s op) (hq : s.quirks = [])
    (hquiet : Loop.Safe (Shows s.quirks) (fun t => t.quirks = s.quirks) (Blocks.next s op)) :
    (∀ q, Blocks.next s op ≠ .error (.bfree q)) ∧ ∀ t, Blocks.next s op = .ok t → I t ∧ t.quirks = [] := by
  rw [hq] at hquiet
  refine ⟨fun q hcon => ?_, fun t ht => ?_⟩
  · by_cases h0 : q = []
    · exact (hI.next h hl).ne_error (congrArg Panic.bfree h0) hcon
    · exact hquiet.ne_error ⟨q, rfl, h0⟩ hcon
  · have ht0 := hquiet.of_eq_ok ht
    exact ⟨(hI.next h hl).of_eq_ok ht ht0, ht0⟩

theorem KeptOps.itrunc_acct {I : FS → Prop} (hI : KeptOps I) {s₀ : FS} {l k : List Slot} {ip : Slot}
    (h : Acct I s₀ l k s) (hik : ip ∈ k) : Loop.Safe Fatal (Acct I s₀ l k) (Fs.itrunc ip s) := by
  have hkeep : Loop.Safe Fatal (fun t => Clean I t ∧ t.quirks = s.quirks) (Fs.itrunc ip s) := by
    by_cases hq : s.quirks = []
    · have hlock := h.books.lock ip
      rw [if_pos hik, ← h.books.pid] at hlock
      exact (hI.itrunc (h.clean hq) hlock).mono fun t ht => ⟨fun _ => ht.1, ht.2⟩
    · refine (safe_of_shows hq (itrunc_history ip s)).mono fun t ht => ⟨fun hqt => ?_, ht⟩
      exact absurd (ht ▸ hqt) hq
  refine (hkeep.and_of_ok fun t ht => ht).mono fun t ht => ?_
  obtain ⟨⟨hclean, hq⟩, hn⟩ := ht
  obtain ⟨s₁, hf, hup⟩ := itrunc_frame hn
  have hup := updated_of_iupdate hup
  have hslot : ∀ jp, (t.itable jp).ref = (s.itable jp).ref ∧
      (t.itable jp).lock = (s.itable jp).lock := by
    intro jp
    rw [hup.itable]
    by_cases hj : jp = ip
    · subst hj
      rw [FS.setInode_same, hf.self]
      exact ⟨rfl, rfl⟩
    · rw [FS.setInode_of_ne _ _ _ hj, hf.other jp hj]
      exact ⟨rfl, rfl⟩
  refine ⟨h.books.same (hup.sb.trans hf.sb) (hup.pid.trans hf.pid) (hq ▸ List.suffix_refl _)
    (fun jp => (hslot jp).1) (fun jp => (hslot jp).2), hclean⟩

theorem Sound.itrunc {ip : Slot} (h : Sound s) (hlock : (s.itable ip).lock = some s.pid) :
    Loop.Safe Fatal (fun t => Sound t ∧ t.quirks = s.quirks) (Fs.itrunc ip s) := by
  refine ((h.toConsistent.itrunc hlock).and_of_ok fun t ht => itrunc_frame ht).mono fun t ht => ?_
  obtain ⟨⟨hq, hsb, hc⟩, u, hf, hup⟩ := ht
  have hup := updated_of_iupdate hup
  refine ⟨h.of_slots hc hsb fun jp hj => ?_, hq⟩
  rw [hup.itable] at hj ⊢
  by_cases hjp : jp = ip
  · subst hjp
    rw [FS.setInode_same, hf.self] at hj ⊢
    exact ⟨hj, rfl⟩
  · rw [FS.setInode_of_ne _ _ _ hjp, hf.other jp hjp] at hj ⊢
    exact ⟨hj, rfl⟩

theorem keptOps_sound : KeptOps Sound where
  toKept := kept_sound
  switch h _ := ⟨⟨{ h.table with }, h.owned, h.small⟩, h.root, h.known⟩
  itrunc h hlock := Sound.itrunc h hlock

theorem ordinary_quiet (h : Consistent s) (hl : Legal s op) (ho : Ordinary s op) :
    Loop.Safe (Shows s.quirks) (fun t => t.quirks = s.quirks) (next s op) :=
  next_quiet h hl ho (fun _ _ _ _ h => h) fun _ _ _ h => h

theorem sound_next (h : Sound s) (hq : s.quirks = []) (hl : Legal s op) (ho : Ordinary s op) :
    (∀ q, next s op ≠ .error (.bfree q)) ∧ ∀ t, next s op = .ok t → Sound t ∧ t.quirks = [] :=
  keptOps_sound.step h hl hq (ordinary_quiet h.toConsistent hl ho)

theorem sound_reach {s₀ : FS} (h₀ : Sound s₀) (hq₀ : s₀.quirks = [])
    (hr : Reach next (fun s op => Legal s op ∧ Ordinary s op) s₀ s) : Sound s ∧ s.quirks = [] :=
  hr.invariant (I := fun s => Sound s ∧ s.quirks = []) ⟨h₀, hq₀⟩
    fun hs hl hn => (sound_next hs.1 hs.2 hl.1 hl.2).2 _ hn

/-- **Every data block has one owner**: in every state that a run of ordinary operations reaches from a sound file
system, a data block is marked as used exactly if one place refers to it; every place refers to a data
block; and no operation frees a free block. -/
theorem blocks_have_one_owner {s₀ : FS} (h₀ : Sound s₀) (hq₀ : s₀.quirks = [])
    (hr : Reach next (fun s op => Legal s op ∧ Ordinary s op) s₀ s) :
    (∀ b, s.sb.dataStart ≤ b → b < s.sb.size → (s.used b = true ↔ ∃! x, s.held x = b)) ∧
      (∀ x, s.held x ≠ 0 → s.sb.dataStart ≤ s.held x ∧ s.held x < s.sb.size) ∧
      ∀ op, Legal s op → Ordinary s op → ∀ q, next s op ≠ .error (.bfree q) := by
  obtain ⟨h, hq⟩ := sound_reach h₀ hq₀ hr
  refine ⟨fun b hlo hhi => ⟨fun hu => ?_, ?_⟩, fun x hx => h.owned.range hx,
    fun op hl ho => (sound_next h hq hl ho).1⟩
  · obtain ⟨x, hx⟩ := (h.owned.used_iff b hlo hhi).mp hu
    have hb0 : b ≠ 0 := by
      have := h.table.layout.bitmap b hhi
      omega
    refine ⟨x, hx, fun y hy => ?_⟩
    exact (h.owned.inj (hx.trans_ne hb0) (hx.trans hy.symm)).symm
  · rintro ⟨x, hx, -⟩
    exact (h.owned.used_iff b hlo hhi).mpr ⟨x, hx⟩

theorem sound_smallFS : Sound smallFS :=
  ⟨consistent_smallFS, by decide, fun _ h => absurd h (lt_irrefl 0)⟩

/-- A file is made in the root directory, closed and removed. -/
def makeRemove : List Op :=
  [.iget ROOTINO, .create [slash, 97] T_FILE 0 0 firstSlot fun _ _ => 0,
    .iunlock secondSlot, .iput secondSlot, .unlink [slash, 97] firstSlot]

theorem blocks_have_one_owner_makeRemove :
    (after next smallFS makeRemove).used 40 = true ∧
      ∃! x, (after next smallFS makeRemove).held x = 40 := by
  have hrun : errorOf (exec next smallFS makeRemove) = none ∧
      Along next (fun s op => Legal s op ∧ Ordinary s op) smallFS makeRemove := by
    decide +kernel
  have hused : (after next smallFS makeRemove).used 40 = true ∧
      (after next smallFS makeRemove).sb.dataStart ≤ 40 ∧
      40 < (after next smallFS makeRemove).sb.size := by
    decide +kernel
  have hr := reach_of_exec hrun.2 (exec_eq_after hrun.1)
  have h := (blocks_have_one_owner sound_smallFS rfl hr).1 40 hused.2.1 hused.2.2
  exact ⟨hused.1, h.mp hused.1⟩

/-! ## A block that is lost -/

/-- Fourteen blocks are written to a new file. -/
def fourteenBlocks : List Op :=
  [.ilock firstSlot, .writei firstSlot (kernelSrc fun _ => 7) 0 (14 * BSIZE)]

/-- The file system with the long file. -/
def longFS : FS := after next Contents.fileFS fourteenBlocks

theorem longFS_addr : ∀ i < longFS.sb.records, ∀ k < NDIRECT + 1, (longFS.dinode i).addr k ≠ 53 := by
  decide +kernel

theorem longFS_entry : ∀ i < longFS.sb.records, (longFS.dinode i).addr NDIRECT ≠ 0 →
    ∀ j < NINDIRECT, longFS.entry ((longFS.dinode i).addr NDIRECT) j ≠ 53 := by
  decide +kernel

/-- **A block is lost**: a legal run on a consistent file system that returns, after which a data
block is marked as used and no place refers to it. -/
theorem block_without_owner :
    Consistent Contents.fileFS ∧ ROOTINO < Contents.fileFS.sb.ninodes ∧
      Along next Legal Contents.fileFS fourteenBlocks ∧
      errorOf (exec next Contents.fileFS fourteenBlocks) = none ∧
      (longFS.sb.dataStart ≤ 53 ∧ 53 < longFS.sb.size) ∧ longFS.used 53 = true ∧
      ∀ x, longFS.held x ≠ 53 := by
  have hrun : ROOTINO < Contents.fileFS.sb.ninodes ∧
      Along next Legal Contents.fileFS fourteenBlocks ∧
      errorOf (exec next Contents.fileFS fourteenBlocks) = none ∧
      (longFS.sb.dataStart ≤ 53 ∧ 53 < longFS.sb.size) ∧ longFS.used 53 = true := by
    decide +kernel
  refine ⟨Contents.holding_fileFS.consistent, hrun.1, hrun.2.1, hrun.2.2.1, hrun.2.2.2.1,
    hrun.2.2.2.2, fun x => ?_⟩
  cases x with
  | addr i k =>
    rw [FS.held, holds]
    split_ifs with hi
    · by_cases hk : k < NDIRECT + 1
      · exact longFS_addr i hi.1 k hk
      · rw [Dinode.addr, dif_neg hk]
        decide
    · decide
  | entry i j =>
    rw [FS.held, holds]
    split_ifs with hi
    · exact longFS_entry i hi.1.1 hi.2.1 j hi.2.2
    · decide

end Blocks

end RiscvOs.Fs
