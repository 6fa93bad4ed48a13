import RiscvOs.Fs.Making
import RiscvOs.Fs.Walk

set_option autoImplicit false

/-!
# A failed `create` leaves no trace

`create` fails if the parent directory is missing, if the name exists and stands for something else, if there
is no free inode, or if there is no free block for one of the entries. Whatever it has done by then is undone:
the same inodes are allocated, with the same links, the directories have the same entries, and every block in
use belongs to an inode.

There is one exception. A search that comes behind the direct blocks of a directory reads the numbers of the
blocks from the wrong place, and allocates a block that belongs to nobody.

## Main results

* `createAt_failed` — the part of `create` after `nameiparent`.
* `create_no_trace` — a failed `create` leaves no trace if its searches end in the direct blocks.
* `create_loses_block` — a search in a directory of fourteen blocks that does not.
-/

namespace RiscvOs.Fs.Create

open Str Dirs Walk Loop

/-! ## The contents of directories -/

/-- The block with number `n` of the file with inode number `i`, `0` if there is none. -/
def blockOf (s : FS) (i n : ℕ) : ℕ :=
  holds s.sb.wide s.buf s.dinode (if n < NDIRECT then .addr i n else .entry i (n - NDIRECT))

/-- Entry number `k` of the directory with inode number `i`. -/
def direntAt (s : FS) (i k : ℕ) : Dirent := fun x =>
  ByteBlock.get (s.buf (blockOf s i ((direntSize * k + x) / BSIZE))) ((direntSize * k + x) % BSIZE)

/-- The name and the inode number in an entry that is in use. -/
def liveEntry (s : FS) (i k : ℕ) : Option (List UInt8 × ℕ) :=
  if direntSize * k < (s.dinode i).size.toNat then slotOf (direntAt s i k) else none

/-- A file system: every block in use has one owner, the slots in use stand for inodes that are allocated, files
have no holes, and the entries of directories are the numbers of inodes. -/
structure FileSystem (s : FS) : Prop where
  table : Table s
  owned : Owned s.sb.wide s.buf s.dinode
  alive : ∀ ip, 0 < (s.itable ip).ref →
    (s.itable ip).inum < s.sb.records ∧ (s.dinode (s.itable ip).inum).type ≠ 0
  noHole : ∀ i < s.sb.records, (s.dinode i).type ≠ 0 → ∀ k < (s.dinode i).size.toNat, blockOf s i (k / BSIZE) ≠ 0
  whole : ∀ i < s.sb.records, (s.dinode i).type = T_DIR → direntSize ∣ (s.dinode i).size.toNat
  entries : ∀ i < s.sb.records, (s.dinode i).type = T_DIR → ∀ k name j, liveEntry s i k = some (name, j) → Known s j

/-- The same inodes are allocated, with the same links, the directories have the same entries, and every block in
use is referred to by an inode. -/
structure NoTrace (s t : FS) : Prop where
  sb : t.sb = s.sb
  allocated : ∀ i < s.sb.records, (t.dinode i).type ≠ 0 ↔ (s.dinode i).type ≠ 0
  links : ∀ i < s.sb.records, (s.dinode i).type ≠ 0 → (t.dinode i).nlink = (s.dinode i).nlink
  entries : ∀ i < s.sb.records, (s.dinode i).type = T_DIR →
    (t.dinode i).type = T_DIR ∧ ∀ k, liveEntry t i k = liveEntry s i k
  referenced : ∀ B, t.sb.dataStart ≤ B → B < t.sb.size → t.used B = true →
    ∃ x, holds t.sb.wide t.buf t.dinode x = B

/-- The search for a name ends in front of the blocks behind the direct ones. -/
def Near (s : FS) (i : ℕ) (name : List UInt8) : Prop :=
  (s.dinode i).size.toNat ≤ NDIRECT * BSIZE ∨
    ∃ k, direntSize * k + direntSize ≤ NDIRECT * BSIZE ∧ matchesName (cstr name) (Fs.entryAt s (s.dinode i) k) = true

/-- So do all searches along the elements of a path. -/
def NearWay (s : FS) (i : ℕ) (names : List (List UInt8)) : Prop := Along s (entryOf s) (Near s) i names

/-- There is a parent directory, the name is absent, and there is a free inode. -/
def Makes (s : FS) (cwd : Slot) (path : List UInt8) : Prop :=
  (∃ i name, walkParent s (entryOf s) (start s cwd path) (elements path) = some (i, name) ∧
    entryOf s i name = none) ∧ ∃ j, 0 < j ∧ j < s.sb.ninodes ∧ (s.dinode j).type = 0

section Contents

variable {s t : FS} {i k : ℕ} {name : List UInt8}

theorem blockOf_direct (hi : i < s.sb.records) (ht : (s.dinode i).type ≠ 0) {n : ℕ} (hn : n < NDIRECT) :
    blockOf s i n = (s.dinode i).addr n := by
  rw [blockOf, if_pos hn, holds_addr hi ht]

theorem direntAt_direct (hi : i < s.sb.records) (ht : (s.dinode i).type ≠ 0)
    (hk : direntSize * k + direntSize ≤ NDIRECT * BSIZE) : direntAt s i k = Fs.entryAt s (s.dinode i) k := by
  funext x
  have hx : (direntSize * k + x) / BSIZE < NDIRECT := by
    rw [Nat.div_lt_iff_lt_mul (by decide)]
    omega
  rw [direntAt, Fs.entryAt, blockOf_direct hi ht hx]

theorem T_DIR_ne_zero (h : (s.dinode i).type = T_DIR) : (s.dinode i).type ≠ 0 := by
  rw [h]
  decide

theorem FileSystem.entry_le (hs : FileSystem s) (hi : i < s.sb.records) (hdir : (s.dinode i).type = T_DIR)
    (hk : direntSize * k < (s.dinode i).size.toNat) : direntSize * k + direntSize ≤ (s.dinode i).size.toNat := by
  obtain ⟨n, hn⟩ := hs.whole i hi hdir
  rw [hn] at hk ⊢
  have hkn : k < n := Nat.lt_of_mul_lt_mul_left hk
  exact Nat.mul_le_mul_left _ hkn

/-- **Such a search reads direct blocks only.** -/
theorem FileSystem.searchable (hs : FileSystem s) (hi : i < s.sb.records) (hdir : (s.dinode i).type = T_DIR)
    (hnear : Near s i name) : Searchable s (s.dinode i) (cstr name) := by
  refine ⟨hs.whole i hi hdir, fun k hk hfront => ?_⟩
  have hle : direntSize * k + direntSize ≤ NDIRECT * BSIZE := by
    rcases hnear with hsize | ⟨m, hm, hmatch⟩
    · exact (hs.entry_le hi hdir hk).trans hsize
    · have hkm : k ≤ m := by
        by_contra hlt
        rw [hfront m (by omega)] at hmatch
        cases hmatch
      have := Nat.mul_le_mul_left direntSize hkm
      omega
  refine ⟨hle, ?_⟩
  have hblock : direntSize * k / BSIZE < NDIRECT := by
    rw [Nat.div_lt_iff_lt_mul (by decide)]
    have : 0 < direntSize := by decide
    omega
  rw [← blockOf_direct hi (T_DIR_ne_zero hdir) hblock]
  exact hs.noHole i hi (T_DIR_ne_zero hdir) _ hk

theorem FileSystem.known_entryOf (hs : FileSystem s) (hi : i < s.sb.records) (hdir : (s.dinode i).type = T_DIR)
    (hnear : Near s i name) {j : ℕ} (hj : entryOf s i name = some j) : Known s j := by
  obtain ⟨k, hfind, rfl⟩ := Option.map_eq_some_iff.mp hj
  have hmatch := List.find?_some hfind
  have hlt := List.mem_range.mp (List.mem_of_find?_eq_some hfind)
  have hk := (lt_div_direntSize (hs.whole i hi hdir)).mp hlt
  have hfront : ∀ m < k, matchesName (cstr name) (Fs.entryAt s (s.dinode i) m) = false := by
    intro m hm
    rw [List.find?_range_eq_some] at hfind
    simpa using hfind.2.2 m hm
  have hdirect := ((hs.searchable hi hdir hnear).direct k hk hfront).1
  have hlive : liveEntry s i k = some (strn (Fs.entryAt s (s.dinode i) k).name DIRSIZ,
      (Fs.entryAt s (s.dinode i) k).inum.toNat) := by
    rw [liveEntry, if_pos hk, direntAt_direct hi (T_DIR_ne_zero hdir) hdirect, slotOf,
      if_neg (of_decide_eq_true hmatch).1]
  exact hs.entries i hi hdir k _ _ hlive

/-- **The searches along a path find the entries.** -/
theorem FileSystem.along (hs : FileSystem s) {names : List (List UInt8)} (hi : i < s.sb.records)
    (hnear : NearWay s i names) :
    Along s (entryOf s) (fun i name => Looks s (entryOf s) i name ∧ Near s i name) i names := by
  induction names generalizing i with
  | nil => exact trivial
  | cons name names ih =>
    intro hdir
    obtain ⟨hfirst, hrest⟩ := hnear hdir
    have hknown : ∀ j, entryOf s i name = some j → Known s j := fun j hj => hs.known_entryOf hi hdir hfirst hj
    exact ⟨⟨⟨finds_entryOf (hs.searchable hi hdir hfirst) hdir, hknown⟩, hfirst⟩,
      fun j hj => ih (hknown j hj).range (hrest j hj)⟩

end Contents

/-! ## What is left behind -/

section Trace

variable {s t b u : FS} {ip dp : Slot} {i j : ℕ} {name : List UInt8}

theorem dinode_congr (hsb : t.sb = s.sb) (hbuf : t.buf = s.buf) : t.dinode = s.dinode := by
  funext i
  rw [FS.dinode, FS.dinode, hsb, hbuf]

theorem blockOf_congr (hsb : t.sb = s.sb) (hbuf : t.buf = s.buf) : blockOf t = blockOf s := by
  funext i n
  rw [blockOf, blockOf, hsb, hbuf, dinode_congr hsb hbuf]

theorem liveEntry_congr (hsb : t.sb = s.sb) (hbuf : t.buf = s.buf) : liveEntry t = liveEntry s := by
  have hentry : direntAt t = direntAt s := by
    funext i k x
    rw [direntAt, direntAt, hbuf, blockOf_congr hsb hbuf]
  funext i k
  rw [liveEntry, liveEntry, hentry, dinode_congr hsb hbuf]

theorem NoTrace.congr (h : NoTrace s t) (hs : SameDisk b s) (hsb : u.sb = t.sb) (hbuf : u.buf = t.buf) :
    NoTrace b u := by
  have hds := dinode_congr hs.sb hs.buf
  have hdt := dinode_congr hsb hbuf
  have hlt := liveEntry_congr hsb hbuf
  have hls := liveEntry_congr hs.sb hs.buf
  refine ⟨?_, ?_, ?_, ?_, ?_⟩
  · rw [hsb, h.sb, hs.sb]
  · rw [hdt, ← hds, ← hs.sb]
    exact h.allocated
  · rw [hdt, ← hds, ← hs.sb]
    exact h.links
  · rw [hdt, hlt, ← hds, ← hls, ← hs.sb]
    exact h.entries
  · intro B h₁ h₂ hB
    rw [FS.used, hsb, hbuf] at hB
    rw [hsb] at h₁ h₂
    rw [hdt, hsb, hbuf]
    exact h.referenced B h₁ h₂ hB

theorem FileSystem.noTrace (hs : FileSystem s) : NoTrace s s :=
  ⟨rfl, fun _ _ => Iff.rfl, fun _ _ _ => rfl, fun _ _ hdir => ⟨hdir, fun _ => rfl⟩,
    fun B h₁ h₂ hB => (hs.owned.used_iff B h₁ h₂).mp hB⟩

theorem FileSystem.noTrace_of_walking (hs : FileSystem s) {l k : List Slot} (h : Walking s l k t) : NoTrace s t :=
  hs.noTrace.congr (.refl s) h.disk.sb h.disk.buf

/-- **The new inode has been freed again.** -/
theorem Unmade.noTrace (hs : FileSystem s) (hdisk : SameDisk s b) (hb : Base b ip j) (h : Unmade b ip j t) :
    NoTrace s t := by
  have hdin := dinode_congr hdisk.sb hdisk.buf
  have hfree : (s.dinode j).type = 0 := hdin ▸ hb.free
  have hrec : ∀ i < s.sb.records, (s.dinode i).type ≠ 0 → t.dinode i = s.dinode i := by
    intro i hi ht
    have hij : i ≠ j := by
      rintro rfl
      exact ht hfree
    rw [h.record i (hdisk.sb ▸ hi) hij, hdin]
  refine ⟨h.sb.trans hdisk.sb, fun i hi => ?_, fun i hi ht => by rw [hrec i hi ht], fun i hi hdir => ?_,
    fun B h₁ h₂ hB => (h.consistent.owned.used_iff B h₁ h₂).mp hB⟩
  · by_cases hij : i = j
    · subst hij
      exact iff_of_false (not_not.mpr h.free) (not_not.mpr hfree)
    · rw [h.record i (hdisk.sb ▸ hi) hij, hdin]
  · have hsame := hrec i hi (T_DIR_ne_zero hdir)
    refine ⟨by rw [hsame, hdir], fun k => ?_⟩
    rw [liveEntry, liveEntry, hsame]
    split_ifs with hk
    · have hle := hs.entry_le hi hdir hk
      congr 1
      funext x
      -- the block of the entry is held by the directory, before and after
      have hblock := hs.noHole i hi (T_DIR_ne_zero hdir) (direntSize * k + x) (by have := x.isLt; omega)
      rw [← blockOf_congr hdisk.sb hdisk.buf] at hblock
      have hkeep : blockOf t i ((direntSize * k + x) / BSIZE) = blockOf b i ((direntSize * k + x) / BSIZE) :=
        hb.holds_eq h.sb h.record h.data hblock
      rw [direntAt, direntAt, hkeep, ← blockOf_congr hdisk.sb hdisk.buf, ← hdisk.buf]
      exact congrArg (ByteBlock.get · _) (h.data _ hblock)
    · rfl

theorem FileSystem.dirFile (hs : FileSystem s) (hsmall : s.sb.size < 2 ^ 31) (h : Walking s [dp] [dp] b)
    (hdir : (s.dinode (b.itable dp).inum).type = T_DIR) (hnear : Near s (b.itable dp).inum name)
    (hno : entryOf s (b.itable dp).inum name = none) : DirFile dp b := by
  obtain ⟨hrec, hi, hlock⟩ := h.record (List.mem_singleton_self dp)
  have hsize : (s.dinode (b.itable dp).inum).size.toNat ≤ NDIRECT * BSIZE := by
    rcases hnear with hsize | ⟨k, hk, hmatch⟩
    · exact hsize
    · by_contra hlt
      have hnone := List.find?_eq_none.mp (Option.map_eq_none_iff.mp hno) k (List.mem_range.mpr ?_)
      · exact hnone hmatch
      · rw [Nat.lt_div_iff_mul_lt (by decide)]
        rw [show direntSize = 16 from rfl] at hk ⊢
        omega
  have hdin := dinode_congr h.disk.sb h.disk.buf
  refine ⟨⟨h.table, ?_, h.disk.sb ▸ hsmall⟩, hlock, ?_, ?_, ?_, fun k hk => ?_⟩
  · rw [h.disk.sb, h.disk.buf, hdin]
    exact hs.owned
  · rw [hrec, hdir]
  · rw [hrec]
    exact hs.whole _ hi hdir
  · rw [hrec]
    exact hsize
  · rw [hrec] at hk ⊢
    have hblock : k / BSIZE < NDIRECT := by
      rw [Nat.div_lt_iff_lt_mul (by decide)]
      omega
    rw [← blockOf_direct hi (T_DIR_ne_zero hdir) hblock]
    exact hs.noHole _ hi (T_DIR_ne_zero hdir) k hk

theorem iunlockput_parent (h : Walking s [dp] [dp] b) (hknown : Known s (b.itable dp).inum)
    (hslot : t.itable dp = b.itable dp) (hn : iunlockput dp t = .ok u) : u.sb = t.sb ∧ u.buf = t.buf := by
  obtain ⟨v, hun, hput⟩ := bind_eq_ok.mp hn
  obtain ⟨-, -, rfl⟩ := iunlock_cases hun
  have hself : (t.setLock dp none).itable dp = { b.itable dp with lock := none } := by
    rw [FS.setLock, FS.setInode_same, hslot]
  rcases iput_cases (s := t.setLock dp none) hput with ⟨⟨h1, h0⟩, -⟩ | ⟨-, rfl⟩
  · rw [hself] at h1 h0
    have href := h.books.ref dp
    rw [List.count_singleton_self, show (b.itable dp).ref = 1 from h1] at href
    rcases h.kept (List.mem_singleton_self dp) hknown with hne | hpos
    · rw [← (h.record (List.mem_singleton_self dp)).1] at hne
      exact absurd h0 hne
    · omega
  · exact ⟨rfl, rfl⟩

theorem FileSystem.alive_walking (hs : FileSystem s) {l k : List Slot} (h : Walking s l k b)
    (hknown : ∀ jp ∈ l, Known s (b.itable jp).inum) {jp : Slot} (hjp : 0 < (b.itable jp).ref) :
    (b.dinode (b.itable jp).inum).type ≠ 0 := by
  rw [h.disk.dinode]
  by_cases hjl : jp ∈ l
  · exact (hknown jp hjl).allocated
  · have href := h.books.ref jp
    rw [List.count_eq_zero_of_not_mem hjl, Nat.add_zero] at href
    rw [h.inum jp (by omega)]
    exact (hs.alive jp (by omega)).2

/-- **The part of `create` after `nameiparent`**, if it fails. -/
theorem createAt_failed {type major minor : UInt16} {junk : ℕ → Dirent} (hs : FileSystem s)
    (h : Walking s [dp] [] t) (hknown : Known s (t.itable dp).inum)
    (hdir : (s.dinode (t.itable dp).inum).type = T_DIR)
    (hlooks : Looks s (entryOf s) (t.itable dp).inum name) (hnear : Near s (t.itable dp).inum name)
    (hsmall : entryOf s (t.itable dp).inum name = none →
      (∃ j, 0 < j ∧ j < s.sb.ninodes ∧ (s.dinode j).type = 0) → s.sb.size < 2 ^ 31)
    (hn : createAt dp name type major minor junk t = .ok (none, u)) : NoTrace s u := by
  have hmem := List.mem_singleton_self dp
  have hspares : Spares (fun _ => False) s := ⟨fun _ => id, fun _ => id⟩
  rw [createAt] at hn
  obtain ⟨b, hlock, hrest⟩ := bind_eq_ok.mp hn
  obtain ⟨hwalk, hinum⟩ := (h.ilock hspares (fun hcon => hcon.elim) hmem hknown).of_eq_ok hlock
  rw [← hinum dp] at hknown hdir hlooks hnear hsmall
  obtain ⟨⟨r, v⟩, hlook, hrun⟩ := bind_eq_ok.mp hrest
  obtain ⟨hfound, hwalk', hself, hsame⟩ := (hwalk.dirlookup hspares hlooks.1 hlooks.2).of_eq_ok hlook
  dsimp only at hfound hwalk' hself hsame hrun
  cases r with
  | none =>
    -- the name is absent
    have hno := hfound.symm
    obtain rfl := hsame hno
    obtain ⟨⟨r, w⟩, halloc, hend⟩ := bind_eq_ok.mp hrun
    rw [hwalk.table.dev dp (hwalk.books.ref_pos hmem)] at halloc
    cases r with
    | none =>
      obtain rfl := ialloc_eq_none halloc
      obtain ⟨z, hput, hres⟩ := bind_eq_ok.mp hend
      cases hres
      obtain ⟨z', hput', hwalk', -⟩ := hwalk.iunlockput hmem hknown
      cases hput'.symm.trans hput
      exact hs.noTrace_of_walking hwalk'
    | some ip =>
      have hfree : ∃ j, 0 < j ∧ j < s.sb.ninodes ∧ (s.dinode j).type = 0 := by
        obtain ⟨j, hj, hlt, h0⟩ := free_of_ialloc halloc
        rw [hwalk.disk.sb] at hlt
        rw [hwalk.disk.dinode] at h0
        exact ⟨j, hj, hlt, h0⟩
      have hfile := hs.dirFile (hsmall hno hfree) hwalk hdir hnear hno
      have habsent : SlotMap.Absent (slots v dp) (strn (cstr name) DIRSIZ) := by
        obtain ⟨off, hfind⟩ := hlooks.1 v dp hwalk.disk (hwalk.record hmem).1
        rw [hno] at hfind
        rcases findEntry_cases hfile (cstr name) with ⟨m, x, -, hfound⟩ | ⟨habs, -⟩
        · cases hfind.symm.trans hfound
        · exact habs
      have halive : ∀ jp, 0 < (v.itable jp).ref → (v.dinode (v.itable jp).inum).type ≠ 0 := by
        refine fun jp hjp => hs.alive_walking hwalk (fun kp hkp => ?_) hjp
        rw [List.mem_singleton.mp hkp]
        exact hknown
      obtain ⟨j, z, hb, hun, hne, hput⟩ := createNew_failed hfile halive habsent halloc hend
      obtain ⟨hsb, hbuf⟩ := iunlockput_parent hwalk hknown (hun.other dp hne) hput
      exact (Unmade.noTrace hs hwalk.disk hb hun).congr (.refl s) hsb hbuf
  | some x =>
    -- the name stands for something else
    obtain ⟨next, off⟩ := x
    dsimp only [Option.map_some, Option.toList_some, List.cons_append, List.nil_append] at hfound hwalk' hrun
    rw [← hself] at hknown
    obtain ⟨w, hw, hwalk'', hput⟩ := (hwalk'.perm (List.Perm.swap dp next [])).iunlockput hmem hknown
    rw [List.erase_cons_head] at hwalk''
    rw [hw, ok_bind] at hrun
    have hj : entryOf s (b.itable dp).inum name = some (w.itable next).inum := by
      rw [hput]
      exact hfound.symm
    have hknext := hlooks.2 _ hj
    obtain ⟨y, hy, hend⟩ := bind_eq_ok.mp hrun
    have hmem' := List.mem_singleton_self next
    obtain ⟨hwy, hinumy⟩ := (hwalk''.ilock hspares (fun hcon => hcon.elim) hmem' hknext).of_eq_ok hy
    rw [← hinumy next] at hknext
    obtain ⟨z, hz, hwz, -⟩ := hwy.iunlockput hmem' hknext
    split_ifs at hend
    · cases hend
    · rw [hz, ok_bind] at hend
      cases hend
      exact hs.noTrace_of_walking hwz

end Trace

/-! ## The whole call -/

/-- **A failed `create` leaves no trace**, if no search along the path comes behind the direct blocks of a directory.
For every file system without holes, every path, type and place of failure: whenever `create` fails the allocated
inodes, the link counts and the entries of all directories are the same as before, and every block in use belongs
to an inode. If an inode is made, the disk has less than `2 ^ 31` blocks; a process has a pointer to the root
directory. -/
theorem create_no_trace {s t : FS} {cwd : Slot} {path : List UInt8} (hs : FileSystem s)
    (hcwd : 0 < (s.itable cwd).ref) (hroot : ∃ ip, 0 < (s.itable ip).ref ∧ (s.itable ip).inum = ROOTINO)
    (hnear : NearWay s (start s cwd path) (elements path)) (hsmall : Makes s cwd path → s.sb.size < 2 ^ 31)
    {type major minor : UInt16} {junk : ℕ → Dirent}
    (hrun : create path type major minor cwd junk s = .ok (none, t)) : NoTrace s t := by
  have hknown : Known s (start s cwd path) := by
    obtain ⟨ip, hpos, hinum⟩ : ∃ ip, 0 < (s.itable ip).ref ∧ (s.itable ip).inum = start s cwd path := by
      rw [start]
      split_ifs
      · exact hroot
      · exact ⟨cwd, hcwd, rfl⟩
    rw [← hinum]
    exact ⟨(hs.alive ip hpos).1, (hs.alive ip hpos).2, Or.inr ⟨ip, hpos, rfl⟩⟩
  have halong := hs.along hknown.range hnear
  have hspares : Spares (fun _ => False) s := ⟨fun _ => id, fun _ => id⟩
  rw [create] at hrun
  obtain ⟨⟨r, u⟩, hparent, hend⟩ := bind_eq_ok.mp hrun
  obtain ⟨hresult, hwalk⟩ := (nameiparent_walking hspares hs.table hcwd hknown
    (fun _ => not_stale_start hcwd hroot) (halong.mono fun i name h => h.1)).of_eq_ok hparent
  cases r with
  | none =>
    cases hend
    exact hs.noTrace_of_walking hwalk
  | some p =>
    obtain ⟨hkdp, hdir, hlooks, hfar⟩ := halong.walkParent hknown (fun i name j h hj => h.1.2 j hj) hresult.symm
    exact createAt_failed hs hwalk hkdp hdir hlooks hfar
      (fun hno hfree => hsmall ⟨⟨_, _, hresult.symm, hno⟩, hfree⟩) hend

/-! ## A disk without free blocks -/

theorem table_of_tree {s : FS} (hit : s.itable = treeFS.itable) (hL : Layout s.sb) : Table s := by
  refine ⟨hL, ?_, fun ip hip hv => ?_, ?_, fun ip hip hv => ?_, ?_⟩
  · rw [hit]
    exact rest_treeFS.table.dev
  · rw [hit, (slot_treeFS ip).2.2] at hv
    cases hv
  · rw [hit]
    exact rest_treeFS.table.unique
  · rw [hit, (slot_treeFS ip).2.2] at hv
    cases hv
  · rw [hit]
    exact rest_treeFS.table.locked

theorem alive_of_tree {s : FS} (hit : s.itable = treeFS.itable) (hroot : ROOTINO < s.sb.records)
    (htype : (s.dinode ROOTINO).type ≠ 0) (ip : Slot) (hip : 0 < (s.itable ip).ref) :
    (s.itable ip).inum < s.sb.records ∧ (s.dinode (s.itable ip).inum).type ≠ 0 := by
  rw [hit] at hip ⊢
  rw [(itable_treeFS hip).2]
  exact ⟨hroot, htype⟩

/-- The superblock of a disk without data blocks. -/
def fullSb : Superblock := ⟨40, 0, 32, 30, 2, 32, 34⟩

/-- An empty root directory, on a disk without data blocks. -/
def fullFS : FS :=
  { treeFS with
    sb := fullSb
    buf := fun b =>
      if b = 32 then writeDinode (fun _ => 0) ROOTINO { Dinode.zero with type := T_DIR, nlink := 1 }
      else if b = 34 then fun i => if i.val < 5 then 255 else 0
      else fun _ => 0 }

theorem layout_fullSb : Layout fullSb := by decide +kernel

theorem records_fullFS : ∀ i < fullSb.records, (fullFS.dinode i).size = 0 ∧ ∀ k, (fullFS.dinode i).addrs k = 0 := by
  decide

theorem fileSystem_fullFS : FileSystem fullFS := by
  have hsize : ∀ i < fullSb.records, (fullFS.dinode i).size.toNat = 0 := by
    intro i hi
    rw [(records_fullFS i hi).1]
    rfl
  have hbits : ∀ b < 40, blockUsed fullSb fullFS.buf b = true := by decide
  refine ⟨table_of_tree rfl layout_fullSb, ?_, alive_of_tree rfl (by decide) (by decide), fun i hi _ k hk => ?_,
    fun i hi _ => ?_, fun i hi _ k name j hj => ?_⟩
  · refine owned_of_bare (fun i hi => Or.inr fun k => ?_) (fun b hb => hbits b hb)
      (fun b h₁ h₂ => absurd h₂ (Nat.not_lt.mpr h₁)) (show 0 < fullSb.dataStart by decide)
    rw [Dinode.addr]
    split_ifs
    · rw [(records_fullFS i hi).2]
      rfl
    · rfl
  · rw [hsize i hi] at hk
    exact absurd hk (Nat.not_lt_zero k)
  · rw [hsize i hi]
    exact Nat.dvd_zero _
  · rw [liveEntry, hsize i hi, if_neg (Nat.not_lt_zero _)] at hj
    cases hj

/-- The path `/d`. -/
def dPath : List UInt8 := [slash, 100]

theorem eq_ok_of_fst {x : Except Panic (Option Slot × FS)} (h : x.toOption.map Prod.fst = some none) :
    ∃ t, x = .ok (none, t) := by
  cases x with
  | error e => cases h
  | ok p =>
    obtain ⟨r, t⟩ := p
    obtain rfl : r = none := Option.some.inj h
    exact ⟨t, rfl⟩

theorem create_no_trace_fullFS :
    ∃ t, create dPath T_DIR 0 0 firstSlot (fun _ _ => 0) fullFS = .ok (none, t) ∧ NoTrace fullFS t := by
  obtain ⟨t, ht⟩ := eq_ok_of_fst
    (show (create dPath T_DIR 0 0 firstSlot (fun _ _ => 0) fullFS).toOption.map Prod.fst = some none by decide)
  have hsize : (fullFS.dinode ROOTINO).size.toNat ≤ NDIRECT * BSIZE := by decide
  have hnear : NearWay fullFS (start fullFS firstSlot dPath) (elements dPath) :=
    fun _ => ⟨Or.inl hsize, fun _ _ => trivial⟩
  refine ⟨t, ht, create_no_trace fileSystem_fullFS (by decide) ⟨firstSlot, by decide, by decide⟩ hnear
    (fun _ => ?_) ht⟩
  decide

/-! ## A directory of fourteen blocks -/

/-- The superblock of a disk with 30 data blocks and one inode. -/
def longSb : Superblock := ⟨64, 30, 2, 30, 2, 32, 33⟩

/-- A root directory of fourteen blocks in which no entry is in use: twelve direct ones from block 34 on, and
blocks 47 and 48, whose numbers are in the indirect block 46. The superblock is in block 1. -/
def longFS : FS :=
  { treeFS with
    sb := longSb
    buf := fun b =>
      if b = 1 then fun i => [64, 48, 32, 16, 64, 0, 0, 0, 30, 0, 0, 0, 2, 0, 0, 0, 30, 0, 0, 0, 2, 0, 0, 0,
        32, 0, 0, 0, 33].getD i.val 0
      else if b = 32 then writeDinode (fun _ => 0) ROOTINO { Dinode.zero with
        type := T_DIR, nlink := 1, size := 14336, addrs := fun k => UInt32.ofNat (34 + k.val) }
      else if b = 33 then fun i => if i.val < 6 then 255 else if i.val = 6 then 1 else 0
      else if b = 46 then fun i => if i.val = 0 then 47 else if i.val = 4 then 48 else 0
      else fun _ => 0 }

theorem layout_longSb : Layout longSb := by decide +kernel

theorem type_longFS : ∀ i < longSb.records, (longFS.dinode i).type ≠ 0 → i = ROOTINO := by decide

theorem root_longFS : (longFS.dinode ROOTINO).size.toNat = 14336 ∧
    (∀ k < NDIRECT + 1, (longFS.dinode ROOTINO).addr k = 34 + k) ∧
    ∀ j < NINDIRECT, (ByteBlock.u32 (longFS.buf 46) (4 * j)).toNat = if j < 2 then 47 + j else 0 := by
  decide +kernel

/-- The block numbers on this disk. -/
def longPlace : Place → ℕ
  | .addr i k => if i = ROOTINO ∧ k < NDIRECT + 1 then 34 + k else 0
  | .entry i j => if i = ROOTINO ∧ j < 2 then 47 + j else 0

theorem holds_longFS (x : Place) : holds longFS.sb.wide longFS.buf longFS.dinode x = longPlace x := by
  obtain ⟨-, haddr, hentry⟩ := root_longFS
  have hroot : ROOTINO < longFS.sb.wide.ninodes ∧ (longFS.dinode ROOTINO).type ≠ 0 := by decide
  cases x with
  | addr i k =>
    rw [holds, longPlace]
    by_cases hi : i < longFS.sb.wide.ninodes ∧ (longFS.dinode i).type ≠ 0
    · obtain rfl := type_longFS i hi.1 hi.2
      rw [if_pos hi]
      by_cases hk : k < NDIRECT + 1
      · rw [if_pos ⟨rfl, hk⟩, haddr k hk]
      · rw [if_neg fun hcon => hk hcon.2, Dinode.addr, dif_neg hk]
    · rw [if_neg hi, if_neg]
      rintro ⟨rfl, -⟩
      exact hi hroot
  | entry i j =>
    rw [holds, longPlace]
    by_cases hi : i = ROOTINO
    · subst hi
      have h46 : (longFS.dinode ROOTINO).addr NDIRECT = 46 := haddr NDIRECT (by decide)
      rw [h46]
      by_cases hj : j < NINDIRECT
      · rw [if_pos ⟨hroot, by decide, hj⟩, hentry j hj]
        simp
      · have hj2 : ¬ j < 2 := fun hlt => hj (hlt.trans (by decide))
        rw [if_neg fun hcon => hj hcon.2.2, if_neg fun hcon => hj2 hcon.2]
    · rw [if_neg fun hcon => hi (type_longFS i hcon.1.1 hcon.1.2), if_neg fun hcon => hi hcon.1]

theorem owned_longFS : Owned longFS.sb.wide longFS.buf longFS.dinode := by
  have hbits : ∀ b < 64, blockUsed longFS.sb.wide longFS.buf b = decide (b < 49) := by decide
  have hN : NDIRECT = 12 := rfl
  have hdata : longFS.sb.wide.dataStart = 34 ∧ longFS.sb.wide.size = 64 := by decide
  rw [Owned, hdata.1, hdata.2, funext holds_longFS]
  refine ⟨fun x hx => ?_, fun x y hx hxy => ?_, fun b h₁ h₂ => ?_, fun b hb => ?_⟩
  · cases x <;> rw [longPlace] at hx ⊢ <;> split_ifs at hx ⊢ <;> omega
  · cases x <;> cases y <;> rw [longPlace] at hx <;> rw [longPlace, longPlace] at hxy <;>
      split_ifs at hx hxy with hx' hy'
    all_goals first | omega | (simp only [Place.addr.injEq, Place.entry.injEq]; omega)
  · rw [hbits b h₂, decide_eq_true_iff]
    refine ⟨fun hlt => ?_, ?_⟩
    · by_cases hb : b < 47
      · exact ⟨.addr ROOTINO (b - 34), by rw [longPlace, if_pos ⟨rfl, by omega⟩]; omega⟩
      · exact ⟨.entry ROOTINO (b - 47), by rw [longPlace, if_pos ⟨rfl, by omega⟩]; omega⟩
    · rintro ⟨x, hx⟩
      cases x <;> rw [longPlace] at hx <;> split_ifs at hx <;> omega
  · rw [hbits b (by omega)]
    exact decide_eq_true (by omega)

theorem blockOf_longFS {n : ℕ} (hn : n < 14) : blockOf longFS ROOTINO n = if n < 12 then 34 + n else 35 + n := by
  have hN : NDIRECT = 12 := rfl
  rw [blockOf, holds_longFS, hN]
  split_ifs with hlt
  · rw [longPlace, if_pos ⟨rfl, by omega⟩]
  · rw [longPlace, if_pos ⟨rfl, by omega⟩]
    omega

theorem fileSystem_longFS : FileSystem longFS := by
  obtain ⟨hsize, -⟩ := root_longFS
  refine ⟨table_of_tree rfl layout_longSb, owned_longFS, alive_of_tree rfl (by decide) (by decide),
    fun i hi ht k hk => ?_, fun i hi ht => ?_, fun i hi ht k name j hj => ?_⟩
  · obtain rfl := type_longFS i hi ht
    rw [hsize] at hk
    have hn : k / BSIZE < 14 := (Nat.div_lt_iff_lt_mul (by decide)).mpr hk
    rw [blockOf_longFS hn]
    generalize k / BSIZE = n
    split_ifs <;> omega
  · obtain rfl := type_longFS i hi (T_DIR_ne_zero ht)
    rw [hsize]
    decide
  · -- all entries are zero
    obtain rfl := type_longFS i hi (T_DIR_ne_zero ht)
    rw [liveEntry, hsize] at hj
    split_ifs at hj with hk
    have hzero : direntAt longFS ROOTINO k = fun _ => 0 := by
      funext x
      have hx : direntSize * k + x < 14 * BSIZE := by
        have hlt : x.val < 16 := x.isLt
        change 16 * k < 14336 at hk
        change 16 * k + x.val < 14336
        omega
      have hn := (Nat.div_lt_iff_lt_mul (show 0 < BSIZE by decide)).mpr hx
      have hblank : longFS.buf (blockOf longFS ROOTINO ((direntSize * k + x) / BSIZE)) = fun _ => 0 := by
        rw [blockOf_longFS hn]
        generalize (direntSize * k + x) / BSIZE = n at hn
        have hb : ∀ b, b ≠ 1 → b ≠ 32 → b ≠ 33 → b ≠ 46 → longFS.buf b = fun _ => 0 := by
          intro b h1 h2 h3 h4
          exact (if_neg h1).trans ((if_neg h2).trans ((if_neg h3).trans (if_neg h4)))
        apply hb <;> split_ifs <;> omega
      rw [direntAt, hblank, ByteBlock.get]
      split_ifs <;> rfl
    rw [hzero] at hj
    cases hj

/-- Block 49 is in use, and no inode refers to it. -/
def Lost (t : FS) : Prop :=
  t.used 49 = true ∧ (∀ i < longSb.records, ∀ k < NDIRECT + 1, (t.dinode i).addr k ≠ 49) ∧
    ∀ i < longSb.records, (t.dinode i).addr NDIRECT ≠ 0 → ∀ j < NINDIRECT,
      t.entry ((t.dinode i).addr NDIRECT) j ≠ 49

instance (t : FS) : Decidable (Lost t) := by
  unfold Lost
  infer_instance

/-- **A block is lost**: the search for a name in a directory of fourteen blocks allocates block 49, which belongs to
no inode; then there is no free inode, and `create` fails. -/
theorem create_loses_block :
    FileSystem longFS ∧ (∃ ip, 0 < (longFS.itable ip).ref ∧ (longFS.itable ip).inum = ROOTINO) ∧
      ∃ t, create dPath T_DIR 0 0 firstSlot (fun _ _ => 0) longFS = .ok (none, t) ∧ ¬ NoTrace longFS t := by
  refine ⟨fileSystem_longFS, ⟨firstSlot, by decide, by decide⟩, ?_⟩
  have hrun : (create dPath T_DIR 0 0 firstSlot (fun _ _ => 0) longFS).toOption.map
      (fun p => (p.1, decide (Lost p.2))) = some (none, true) := by
    decide +kernel
  cases hx : create dPath T_DIR 0 0 firstSlot (fun _ _ => 0) longFS with
  | error e =>
    rw [hx] at hrun
    cases hrun
  | ok p =>
    rw [hx] at hrun
    obtain ⟨r, t⟩ := p
    obtain ⟨rfl, hlost⟩ := Prod.mk.inj (Option.some.inj hrun)
    obtain ⟨hused, haddr, hentry⟩ := of_decide_eq_true hlost
    refine ⟨t, rfl, fun hcon => ?_⟩
    have hsb : t.sb = longSb := hcon.sb
    obtain ⟨x, hholds⟩ := hcon.referenced 49 (by rw [hsb]; decide) (by rw [hsb]; decide) hused
    rw [hsb] at hholds
    cases x with
    | addr i k =>
      rw [holds] at hholds
      split_ifs at hholds with hi
      by_cases hk : k < NDIRECT + 1
      · exact haddr i hi.1 k hk hholds
      · rw [Dinode.addr, dif_neg hk] at hholds
        cases hholds
    | entry i j =>
      rw [holds] at hholds
      split_ifs at hholds with hi
      exact hentry i hi.1.1 hi.2.1 j hi.2.2 hholds

end RiscvOs.Fs.Create
