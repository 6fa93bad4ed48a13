import RiscvOs.Fs.Read
import RiscvOs.Kernel.String

set_option autoImplicit false

/-!
# Directories (`kernel/disk/fs.c`)

A directory is a file of entries of `16` bytes: an inode number, which is `0` if the entry is
free, and a name that fills `DIRSIZ` bytes or ends in a `NUL` before.

## Main results

* `findEntry_reads`, `linkLoop_reads` — the searches do not change
  anything unless a branch is recorded.
* `findEntry_eq` — the search of `dirlookup` finds the first entry with the name.

## Implementation notes

`dirlink` declares an entry `de` and fills it by reading from the directory; in an empty
directory it is not read, and what `safestrcpy` leaves of it goes to the disk. The parameter
`junk` is what the entry contains before.
-/

namespace RiscvOs.Fs

open Str Loop

/-- Number of characters of a name in a directory. -/
def DIRSIZ : ℕ := 14

/-- `sizeof(struct dirent)`. -/
def direntSize : ℕ := 2 + DIRSIZ

/-- `struct dirent`: its bytes. -/
abbrev Dirent : Type := ByteBlock direntSize

/-- The inode number of an entry, `0` if the entry is free. -/
def Dirent.inum (de : Dirent) : UInt16 := ByteBlock.u16 de 0

/-- The array of characters of an entry. -/
def Dirent.name (de : Dirent) (i : ℕ) : UInt8 := ByteBlock.get de (2 + i)

/-- The entry with the given bytes. -/
def Dirent.ofBytes (l : List UInt8) : Dirent := fun i => l.getD i 0

/-- `safestrcpy(de.name, name, DIRSIZ); de.inum = inum`. -/
def Dirent.fill (de : Dirent) (name : ℕ → UInt8) (inum : ℕ) : Dirent :=
  ByteBlock.setU16 (ByteBlock.splice de 2 DIRSIZ (safestrcpy de.name name DIRSIZ)) 0
    (UInt16.ofNat inum)

/-- Read the entry at offset `off`; the panic `e` if there are not enough bytes. -/
def readEntry (e : Panic) (dp : Slot) (off : ℕ) (s : FS) : Except Panic (Dirent × FS) := do
  let ((r, bytes), s) ← readi dp kernelDst off direntSize s
  if r = some direntSize then .ok (Dirent.ofBytes bytes, s) else .error e

/-- The loop of `dirlookup`: the offset and the inode number of the first entry that is in use
and has the name. -/
def lookupLoop (dp : Slot) (name : ℕ → UInt8) :
    (fuel off : ℕ) → FS → Except Panic (Option (ℕ × ℕ) × FS)
  | 0, _, s => .ok (none, s)
  | fuel + 1, off, s =>
    if off < (s.itable dp).size.toNat then do
      let (de, s) ← readEntry .lookupRead dp off s
      if de.inum ≠ 0 ∧ strncmp name de.name DIRSIZ = 0 then
        .ok (some (off, de.inum.toNat), s)
      else lookupLoop dp name fuel (off + direntSize) s
    else .ok (none, s)

/-- The search of `dirlookup`. -/
def findEntry (dp : Slot) (name : ℕ → UInt8) (s : FS) : Except Panic (Option (ℕ × ℕ) × FS) :=
  if (s.itable dp).type ≠ T_DIR then .error .notDir
  else lookupLoop dp name ((s.itable dp).size.toNat / direntSize + 1) 0 s

/-- Record an inode number behind the inode area. -/
def FS.noteRange (s : FS) (inum : ℕ) : FS := if inum < s.sb.records then s else s.note .range

/-- Look up a name in a directory: the slot of the inode, and the offset of the entry. -/
def dirlookup (dp : Slot) (name : ℕ → UInt8) (s : FS) :
    Except Panic (Option (Slot × ℕ) × FS) := do
  let (r, s) ← findEntry dp name s
  match r with
  | none => .ok (none, s)
  | some (off, inum) => do
    let (ip, s) ← iget (s.itable dp).dev inum (s.noteRange inum)
    .ok (some (ip, off), s)

/-- The loop of `dirlink`: the offset of the first free entry, or of the end of the directory,
and the entry that was read last. -/
def linkLoop (dp : Slot) : (fuel off : ℕ) → Dirent → FS → Except Panic ((ℕ × Dirent) × FS)
  | 0, off, de, s => .ok ((off, de), s)
  | fuel + 1, off, de, s =>
    if off < (s.itable dp).size.toNat then do
      let (de, s) ← readEntry .linkRead dp off s
      if de.inum = 0 then .ok ((off, de), s)
      else linkLoop dp fuel (off + direntSize) de s
    else .ok ((off, de), s)

/-- Write a new entry to a directory; the result is `false` for `-1`. -/
def dirlink (dp : Slot) (name : ℕ → UInt8) (inum : ℕ) (junk : Dirent) (s : FS) :
    Except Panic (Bool × FS) := do
  let (r, s) ← dirlookup dp name s
  match r with
  | some (ip, _) => do
    let s ← iput ip s
    .ok (false, s)
  | none => do
    let ((off, de), s) ← linkLoop dp ((s.itable dp).size.toNat / direntSize + 1) 0 junk s
    let (r, s) ← writei dp (kernelSrc (ByteBlock.get (de.fill name inum))) off direntSize s
    .ok (r == some direntSize, s)

/-! ## The searches do not change anything -/

section Reads

variable {dp : Slot} {name : ℕ → UInt8}

theorem readEntry_reads {e : Panic} (he : ¬ Fatal e) (off : ℕ) (s : FS) :
    Safe Fatal (fun r => Reads dp s r.2) (readEntry e dp off s) := by
  rw [readEntry]
  refine Safe.bind (readi_reads off s) fun r hr => ?_
  dsimp only
  split_ifs
  · exact hr
  · exact he

theorem lookupLoop_reads (fuel off : ℕ) (s : FS) :
    Safe Fatal (fun r => Reads dp s r.2) (lookupLoop dp name fuel off s) := by
  induction fuel generalizing off s with
  | zero => exact .refl dp s
  | succ fuel ih =>
    rw [lookupLoop]
    split_ifs
    · refine Safe.bind (readEntry_reads (by simp [Fatal]) off s) fun r hr => ?_
      dsimp only
      split_ifs
      · exact hr
      · exact (ih _ r.2).mono fun r' hr' => hr.trans hr'
    · exact .refl dp s

/-- **A search in which nothing is recorded changes nothing**, and nothing is recorded if the blocks
of the directory are mapped. -/
theorem findEntry_reads (s : FS) :
    Safe Fatal (fun r => Reads dp s r.2) (findEntry dp name s) := by
  rw [findEntry]
  split_ifs
  · simp [Safe, Fatal]
  · exact lookupLoop_reads _ _ s

theorem linkLoop_reads (fuel off : ℕ) (de : Dirent) (s : FS) :
    Safe Fatal (fun r => Reads dp s r.2) (linkLoop dp fuel off de s) := by
  induction fuel generalizing off de s with
  | zero => exact .refl dp s
  | succ fuel ih =>
    rw [linkLoop]
    split_ifs
    · refine Safe.bind (readEntry_reads (by simp [Fatal]) off s) fun r hr => ?_
      dsimp only
      split_ifs
      · exact hr
      · exact (ih _ _ r.2).mono fun r' hr' => hr.trans hr'
    · exact .refl dp s

end Reads

/-! ## What the searches find -/

/-- Entry number `k` of the directory with the record `d`. -/
def entryAt (s : FS) (d : Dinode) (k : ℕ) : Dirent := fun x =>
  ByteBlock.get (s.buf (d.addr ((direntSize * k + x) / BSIZE))) ((direntSize * k + x) % BSIZE)

/-- The entry is in use and has the name. -/
def matchesName (name : ℕ → UInt8) (de : Dirent) : Bool :=
  decide (de.inum ≠ 0 ∧ strncmp name de.name DIRSIZ = 0)

/-- The search for a name comes to entries of direct blocks only, and these blocks are there. -/
structure Searchable (s : FS) (d : Dinode) (name : ℕ → UInt8) : Prop where
  whole : direntSize ∣ d.size.toNat
  direct : ∀ k, direntSize * k < d.size.toNat → (∀ i < k, matchesName name (entryAt s d i) = false) →
    direntSize * k + direntSize ≤ NDIRECT * BSIZE ∧ d.addr (direntSize * k / BSIZE) ≠ 0

section Find

variable {s t : FS} {dp : Slot} {name : ℕ → UInt8} {i : ℕ}

theorem lt_div_direntSize {n k : ℕ} (h : direntSize ∣ n) : k < n / direntSize ↔ direntSize * k < n := by
  obtain ⟨m, rfl⟩ := h
  rw [Nat.mul_div_cancel_left _ (by decide), Nat.mul_lt_mul_left (by decide)]

instance (s : FS) (d : Dinode) (name : ℕ → UInt8) : Decidable (Searchable s d name) := by
  refine decidable_of_iff (direntSize ∣ d.size.toNat ∧ ∀ k < d.size.toNat / direntSize,
    (∀ i < k, matchesName name (entryAt s d i) = false) →
      direntSize * k + direntSize ≤ NDIRECT * BSIZE ∧ d.addr (direntSize * k / BSIZE) ≠ 0)
    ⟨fun h => ⟨h.1, fun k hk => h.2 k ?_⟩, fun h => ⟨h.whole, fun k hk => h.direct k ?_⟩⟩
  · exact (lt_div_direntSize h.1).mpr hk
  · exact (lt_div_direntSize h.whole).mp hk

theorem matchesName_iff {de : Dirent} :
    matchesName name de = true ↔ de.inum ≠ 0 ∧ strn name DIRSIZ = strn de.name DIRSIZ := by
  rw [matchesName, decide_eq_true_eq, strncmp_eq_zero_iff]

theorem entry_div {k : ℕ} (hk : k < direntSize) :
    (direntSize * i + k) / BSIZE = direntSize * i / BSIZE := by
  rw [show direntSize = 16 from rfl] at hk ⊢
  rw [show BSIZE = 1024 from rfl]
  omega

/-- **An entry in a direct block** is read. -/
theorem readEntry_mapped {e : Panic} (hsize : direntSize * i + direntSize ≤ (s.itable dp).size.toNat)
    (hdir : direntSize * i + direntSize ≤ NDIRECT * BSIZE)
    (ha : (s.itable dp).addr (direntSize * i / BSIZE) ≠ 0) :
    readEntry e dp (direntSize * i) s = .ok (entryAt s (s.itable dp).toDinode i, s) := by
  have hmap : ∀ k, direntSize * i ≤ k → k < direntSize * i + direntSize →
      (s.itable dp).addr (k / BSIZE) ≠ 0 := by
    intro k h1 h2
    obtain ⟨o, rfl⟩ := Nat.exists_eq_add_of_le h1
    rwa [entry_div (by omega)]
  rw [readEntry, readi_inside hsize hdir hmap]
  dsimp only [bind, Except.bind]
  rw [if_pos rfl]
  congr 2
  funext k
  rw [Dirent.ofBytes, List.getD_eq_getElem _ _ (by simp)]
  simp [entryAt, fileByte]

theorem lookupLoop_eq (h : Searchable t (t.itable dp).toDinode name) (n k fuel : ℕ)
    (hfront : ∀ i < k, matchesName name (entryAt t (t.itable dp).toDinode i) = false)
    (hn : direntSize * (k + n) = (t.itable dp).size.toNat) (hfuel : n ≤ fuel) :
    lookupLoop dp name (fuel + 1) (direntSize * k) t =
      .ok (((List.range' k n).find? fun k => matchesName name (entryAt t (t.itable dp).toDinode k)).map fun k =>
        (direntSize * k, (entryAt t (t.itable dp).toDinode k).inum.toNat), t) := by
  induction n generalizing k fuel with
  | zero =>
    rw [lookupLoop, if_neg (by rw [← hn, Nat.add_zero]; exact lt_irrefl _)]
    rfl
  | succ n ih =>
    have hend : direntSize * k + direntSize ≤ (t.itable dp).size.toNat := by
      rw [← hn, ← Nat.mul_succ]
      exact Nat.mul_le_mul_left _ (by omega)
    have hlt : direntSize * k < (t.itable dp).size.toNat := by
      have : 0 < direntSize := by decide
      omega
    obtain ⟨hdirect, haddr⟩ := h.direct k hlt hfront
    rw [lookupLoop, if_pos hlt, readEntry_mapped hend hdirect haddr]
    dsimp only [bind, Except.bind]
    rw [List.range'_succ]
    split_ifs with hm
    · have hpos : matchesName name (entryAt t (t.itable dp).toDinode k) = true := decide_eq_true hm
      rw [List.find?_cons, hpos]
      rfl
    · have hneg : matchesName name (entryAt t (t.itable dp).toDinode k) = false := decide_eq_false hm
      obtain ⟨fuel, rfl⟩ := Nat.exists_eq_succ_of_ne_zero (show fuel ≠ 0 by omega)
      rw [List.find?_cons, hneg, ← Nat.mul_succ]
      refine ih (k + 1) fuel (fun i hi => ?_) (by rw [← hn]; congr 1; omega) (by omega)
      rcases Nat.lt_succ_iff_lt_or_eq.mp hi with hik | rfl
      · exact hfront i hik
      · exact hneg

theorem entryAt_buf (hbuf : t.buf = s.buf) (d : Dinode) (k : ℕ) : entryAt t d k = entryAt s d k := by
  funext x
  rw [entryAt, entryAt, hbuf]

theorem Searchable.congr {d : Dinode} (h : Searchable s d name) (hbuf : t.buf = s.buf) :
    Searchable t d name :=
  ⟨h.whole, fun k hk hfront => h.direct k hk fun i hi => by rw [← entryAt_buf hbuf]; exact hfront i hi⟩

theorem findEntry_eq (h : Searchable t (t.itable dp).toDinode name) (hdir : (t.itable dp).type = T_DIR) :
    findEntry dp name t = .ok (((List.range ((t.itable dp).size.toNat / direntSize)).find? fun k =>
      matchesName name (entryAt t (t.itable dp).toDinode k)).map fun k =>
        (direntSize * k, (entryAt t (t.itable dp).toDinode k).inum.toNat), t) := by
  have hn : direntSize * (0 + (t.itable dp).size.toNat / direntSize) = (t.itable dp).size.toNat := by
    rw [Nat.zero_add]
    exact Nat.mul_div_cancel' h.whole
  have hloop := lookupLoop_eq h _ 0 _ (fun i hi => absurd hi (Nat.not_lt_zero i)) hn (le_refl _)
  rw [Nat.mul_zero] at hloop
  rw [findEntry, if_neg (not_not.mpr hdir), hloop, List.range_eq_range']

/-- **The entry that is found** is in a direct block. -/
theorem Searchable.found {off j : ℕ} (h : Searchable t (t.itable dp).toDinode name)
    (hdir : (t.itable dp).type = T_DIR) {u : FS} (hn : findEntry dp name t = .ok (some (off, j), u)) :
    ∃ k, off = direntSize * k ∧ direntSize * k + direntSize ≤ NDIRECT * BSIZE := by
  rw [findEntry_eq h hdir] at hn
  obtain ⟨hfound, -⟩ := Prod.mk.inj (Except.ok.inj hn)
  obtain ⟨k, hfind, hk⟩ := Option.map_eq_some_iff.mp hfound
  have hlt := List.mem_range.mp (List.mem_of_find?_eq_some hfind)
  rw [List.find?_range_eq_some] at hfind
  refine ⟨k, (Prod.mk.inj hk).1.symm, (h.direct k ?_ fun i hi => by simpa using hfind.2.2 i hi).1⟩
  exact (lt_div_direntSize h.whole).mp hlt

end Find

end RiscvOs.Fs
