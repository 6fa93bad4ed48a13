import RiscvOs.Fs.Books
import RiscvOs.Fs.DirMap

set_option autoImplicit false

/-!
# Looking up a path is walking along its elements

`namex` takes one element after another off a path and exchanges a pointer to an inode for one to the next
inode, with an exit for everything that can go wrong on the way. This module compares it with a fold over the
list of the elements.

## Main results

* `skipelem_cases` — `skipelem` takes the first element off.
* `namexLoop_resolved` — the loop of `namex`.
* `namei_is_walk` — `namei` and `nameiparent`.

## Implementation notes

The calls of one lookup run without those of other processes between them. `iget` panics if all slots of the
inode table are in use; a lookup takes at most two slots at a time.
-/

namespace RiscvOs.Fs.Walk

open Str Loop

/-! ## The elements of a path -/

/-- The elements of a path: the maximal runs of characters other than slashes, of which the first `DIRSIZ`
characters are kept. -/
def elements (path : List UInt8) : List (List UInt8) :=
  ((path.splitOnP (· == slash)).filter (· ≠ [])).map (List.take DIRSIZ)

section Elements

variable {path run rest : List UInt8}

theorem elements_nil : elements [] = [] := rfl

theorem elements_slash (path : List UInt8) : elements (slash :: path) = elements path := by
  have h : (slash :: path).splitOnP (· == slash) = [].splitOnP (· == slash) ++ path.splitOnP (· == slash) :=
    List.splitOnP_append_cons [] path (beq_self_eq_true slash)
  rw [elements, h, List.splitOnP_nil, List.singleton_append, List.filter_cons_of_neg (by simp), elements]

theorem elements_dropWhile (path : List UInt8) : elements (path.dropWhile (· == slash)) = elements path := by
  induction path with
  | nil => rfl
  | cons c path ih =>
    by_cases hc : c = slash
    · rw [List.dropWhile_cons_of_pos (by simp [hc]), ih, hc, elements_slash]
    · rw [List.dropWhile_cons_of_neg (by simp [hc])]

theorem elements_run (hne : run ≠ []) (hrun : ∀ c ∈ run, (c == slash) = false)
    (hrest : rest = [] ∨ rest.head? = some slash) :
    elements (run ++ rest) = run.take DIRSIZ :: elements rest := by
  have hone : elements run = [run.take DIRSIZ] := by
    rw [elements, List.splitOnP_eq_singleton hrun, List.filter_cons_of_pos (by simpa using hne)]
    rfl
  rcases hrest with rfl | hhead
  · rw [List.append_nil, hone, elements_nil]
  · obtain ⟨tail, rfl⟩ : ∃ tail, rest = slash :: tail := by
      cases rest with
      | nil => cases hhead
      | cons c tail => exact ⟨tail, by rw [Option.some.inj hhead]⟩
    have hsplit : (run ++ slash :: tail).splitOnP (· == slash) =
        run.splitOnP (· == slash) ++ tail.splitOnP (· == slash) :=
      List.splitOnP_append_cons run tail (beq_self_eq_true slash)
    have hjoin : elements (run ++ slash :: tail) = elements run ++ elements tail := by
      rw [elements, hsplit, List.filter_append, List.map_append, elements, elements]
    rw [hjoin, hone, elements_slash, List.singleton_append]

theorem head_dropWhile (path : List UInt8) :
    path.dropWhile (· != slash) = [] ∨ (path.dropWhile (· != slash)).head? = some slash := by
  have h := List.head?_dropWhile_not (· != slash) path
  cases hd : path.dropWhile (· != slash) with
  | nil => exact Or.inl rfl
  | cons c tail =>
    rw [hd] at h
    exact Or.inr (by simpa using h)

theorem elements_of_head (hne : path ≠ []) (hhead : path.head? ≠ some slash) :
    elements path = (path.takeWhile (· != slash)).take DIRSIZ :: elements (path.dropWhile (· != slash)) := by
  have hrun : path.takeWhile (· != slash) ≠ [] := by
    cases path with
    | nil => exact absurd rfl hne
    | cons c tail =>
      have hc : (c != slash) = true := by simpa using hhead
      rw [List.takeWhile_cons_of_pos (p := (· != slash)) hc]
      exact List.cons_ne_nil _ _
  have hall : ∀ c ∈ path.takeWhile (· != slash), (c == slash) = false := by
    intro c hc
    simpa using List.mem_takeWhile_imp hc
  have h := elements_run hrun hall (head_dropWhile path)
  rwa [List.takeWhile_append_dropWhile] at h

theorem elements_eq_nil_iff (hhead : path.head? ≠ some slash) : elements path = [] ↔ path = [] := by
  refine ⟨fun h => ?_, fun h => by rw [h, elements_nil]⟩
  by_contra hne
  rw [elements_of_head hne hhead] at h
  cases h

theorem head_dropWhile_slash (path : List UInt8) : (path.dropWhile (· == slash)).head? ≠ some slash := by
  intro hcon
  have h := List.head?_dropWhile_not (· == slash) path
  rw [hcon] at h
  simp at h

/-- **`skipelem` takes the first element off**, and the slashes behind it. -/
theorem skipelem_cases (path : List UInt8) :
    (skipelem path = none ∧ elements path = []) ∨
      ∃ name rest, skipelem path = some (name, rest) ∧ elements path = name :: elements rest ∧
        rest.length < path.length ∧ (rest = [] ↔ elements rest = []) := by
  rw [← elements_dropWhile path]
  by_cases hnil : path.dropWhile (· == slash) = []
  · refine Or.inl ⟨?_, by rw [hnil, elements_nil]⟩
    rw [skipelem, if_pos hnil]
  · have hskip : skipelem path =
        some (((path.dropWhile (· == slash)).takeWhile (· != slash)).take DIRSIZ,
          ((path.dropWhile (· == slash)).dropWhile (· != slash)).dropWhile (· == slash)) := by
      rw [skipelem, if_neg hnil]
    refine Or.inr ⟨_, _, hskip, ?_, skipelem_length hskip, ?_⟩
    · rw [elements_of_head hnil (head_dropWhile_slash path), elements_dropWhile]
    · exact (elements_eq_nil_iff (head_dropWhile_slash _)).symm

end Elements

/-! ## Directory trees -/

/-- What a search in a directory reads is the same: the superblock, the blocks, and their buffers. -/
structure SameDisk (s t : FS) : Prop where
  sb : t.sb = s.sb
  buf : t.buf = s.buf
  hdr : t.hdr = s.hdr

/-- An inode of the disk. If it has no links, somebody has a pointer to it. -/
@[mk_iff] structure Known (s : FS) (i : ℕ) : Prop where
  range : i < s.sb.records
  allocated : (s.dinode i).type ≠ 0
  kept : (s.dinode i).nlink ≠ 0 ∨ ∃ ip, 0 < (s.itable ip).ref ∧ (s.itable ip).inum = i

instance (s : FS) (i : ℕ) : Decidable (Known s i) := decidable_of_iff' _ (known_iff s i)

/-- A directory tree: `entry i name` is the inode number that the search of `dirlookup` finds for a name in the
directory `i`, whatever slot the directory is in. The numbers are those of inodes of the disk. -/
structure Tree (s : FS) (entry : ℕ → List UInt8 → Option ℕ) : Prop where
  root : ROOTINO < s.sb.ninodes ∧ Known s ROOTINO
  search : ∀ i < s.sb.ninodes, (s.dinode i).type = T_DIR → ∀ name t dp, SameDisk s t →
    (t.itable dp).toDinode = s.dinode i →
      ∃ off, findEntry dp (cstr name) t = .ok ((entry i name).map fun j => (off, j), t)
  known : ∀ i < s.sb.ninodes, (s.dinode i).type = T_DIR → ∀ name j, entry i name = some j →
    j < s.sb.ninodes ∧ Known s j

/-- The search of `dirlookup` for a name in the directory `i` gives the inode number `r`, or fails. -/
def Finds (s : FS) (i : ℕ) (name : List UInt8) (r : Option ℕ) : Prop :=
  ∀ t dp, SameDisk s t → (t.itable dp).toDinode = s.dinode i →
    ∃ off, findEntry dp (cstr name) t = .ok (r.map fun j => (off, j), t)

/-- On the way along some elements from the inode `i` on, `P` holds for every search. -/
def Along (s : FS) (entry : ℕ → List UInt8 → Option ℕ) (P : ℕ → List UInt8 → Prop) :
    (i : ℕ) → List (List UInt8) → Prop
  | _, [] => True
  | i, name :: names => (s.dinode i).type = T_DIR →
    P i name ∧ ∀ j, entry i name = some j → Along s entry P j names

instance decidableWay (s : FS) (entry : ℕ → List UInt8 → Option ℕ) (P : ℕ → List UInt8 → Prop)
    [∀ i name, Decidable (P i name)] : ∀ i names, Decidable (Along s entry P i names)
  | _, [] => .isTrue trivial
  | i, name :: names =>
    have := fun j => decidableWay s entry P j names
    decidable_of_iff ((s.dinode i).type = T_DIR → P i name ∧ ∀ j ∈ entry i name, Along s entry P j names) Iff.rfl

/-- A search finds `entry i name`, which is the number of an inode. -/
def Looks (s : FS) (entry : ℕ → List UInt8 → Option ℕ) (i : ℕ) (name : List UInt8) : Prop :=
  Finds s i name (entry i name) ∧ ∀ j, entry i name = some j → Known s j

/-- Walk along some elements from the inode `i` on, through directories only. -/
def walk (s : FS) (entry : ℕ → List UInt8 → Option ℕ) : (i : ℕ) → List (List UInt8) → Option ℕ
  | i, [] => some i
  | i, name :: names =>
    if (s.dinode i).type = T_DIR then (entry i name).bind fun j => walk s entry j names else none

/-- Walk along all elements but the last one, which names an entry of the directory at the end. -/
def walkParent (s : FS) (entry : ℕ → List UInt8 → Option ℕ) (i : ℕ) (names : List (List UInt8)) :
    Option (ℕ × List UInt8) :=
  names.getLast?.bind fun name => (walk s entry i names.dropLast).bind fun j =>
    if (s.dinode j).type = T_DIR then some (j, name) else none

/-- Where a path starts: at the root or in the directory `cwd`. -/
def start (s : FS) (cwd : Slot) (path : List UInt8) : ℕ :=
  if path.head? = some slash then ROOTINO else (s.itable cwd).inum

/-- The inode table between two calls. A slot that is not in use and says that there are no links has no
blocks: `iput` has freed them. -/
structure Rest (s : FS) : Prop where
  table : Table s
  range : ∀ ip, 0 < (s.itable ip).ref → (s.itable ip).inum < s.sb.ninodes
  unlocked : ∀ ip, (s.itable ip).lock = none
  swept : ∀ ip, (s.itable ip).ref = 0 → (s.itable ip).nlink = 0 → ∀ k, (s.itable ip).addr k = 0

/-- The slots that nobody points to. -/
def unused (s : FS) : Finset Slot := Finset.univ.filter fun ip => (s.itable ip).ref = 0

/-- Compared with `s` there is a pointer to the slot `r` more, and the slots in use stand for the same inodes. -/
structure OneMore (s : FS) (r : Option Slot) (t : FS) : Prop where
  ref : ∀ jp, (t.itable jp).ref = (s.itable jp).ref + r.toList.count jp
  inum : ∀ jp, 0 < (s.itable jp).ref → (t.itable jp).inum = (s.itable jp).inum

/-! ## Steps of a walk -/

/-- The errors of a walk that do not count: `iget` may panic if at most one slot is not in use, and a process
may wait for a lock if there are locked slots. -/
structure Spares (bad : Panic → Prop) (s : FS) : Prop where
  iget : (unused s).card ≤ 1 → ¬ bad .iget
  blocked : (∃ ip, (s.itable ip).lock ≠ none) → ¬ bad .blocked

/-- In a walk from `s` on, pointers to the slots of `l` and the locks of the slots of `k` are held, and the
disk is the same. -/
structure Walking (s : FS) (l k : List Slot) (t : FS) : Prop where
  books : Books s l k t
  table : Table t
  disk : SameDisk s t
  quirks : t.quirks = s.quirks
  inum : ∀ jp, 0 < (s.itable jp).ref → (t.itable jp).inum = (s.itable jp).inum

section Steps

variable {bad : Panic → Prop} {s t u : FS} {l k : List Slot} {ip : Slot} {i : ℕ}

theorem SameDisk.refl (s : FS) : SameDisk s s := ⟨rfl, rfl, rfl⟩

theorem SameDisk.dinode (h : SameDisk s t) (i : ℕ) : t.dinode i = s.dinode i := by
  rw [FS.dinode, FS.dinode, h.sb, h.buf]

theorem walking_start (h : Table s) : Walking s [] [] s := ⟨books_start h, h, .refl s, rfl, fun _ _ => rfl⟩

theorem iget_total (dev inum : ℕ) (s : FS) :
    (∃ r, iget dev inum s = .ok r) ∨ (iget dev inum s = .error .iget ∧ ∀ jp, 0 < (s.itable jp).ref) := by
  rw [iget]
  cases (List.finRange NINODE).find? fun ip =>
      0 < (s.itable ip).ref && (s.itable ip).dev == dev && (s.itable ip).inum == inum with
  | some ip => exact Or.inl ⟨_, rfl⟩
  | none =>
    cases hfree : (List.finRange NINODE).find? fun ip => (s.itable ip).ref == 0 with
    | some ip => exact Or.inl ⟨_, rfl⟩
    | none =>
      refine Or.inr ⟨rfl, fun jp => ?_⟩
      have h := List.find?_eq_none.mp hfree jp (List.mem_finRange jp)
      exact Nat.pos_of_ne_zero fun h0 => h (by simp [h0])

theorem Walking.unused_le (h : Walking s l k t) (hfull : ∀ jp, 0 < (t.itable jp).ref) :
    (unused s).card ≤ l.length := by
  have hsub : unused s ⊆ l.toFinset := by
    intro jp hjp
    have h0 := (Finset.mem_filter.mp hjp).2
    have href := h.books.ref jp
    have hpos := hfull jp
    rw [List.mem_toFinset, ← List.count_pos_iff]
    omega
  exact (Finset.card_le_card hsub).trans l.toFinset_card_le

/-- **A pointer to an inode is taken.** -/
theorem Walking.iget (hbad : Spares bad s) (h : Walking s l k t) (hl : l.length ≤ 1) (inum : ℕ) :
    Safe bad (fun r => Walking s (r.1 :: l) k r.2 ∧ (r.2.itable r.1).inum = inum ∧
      ∀ jp, 0 < (t.itable jp).ref → (r.2.itable jp).inum = (t.itable jp).inum) (Fs.iget ROOTDEV inum t) := by
  rcases iget_total ROOTDEV inum t with ⟨⟨ip, u⟩, hn⟩ | ⟨herr, hfull⟩
  · rw [hn]
    obtain ⟨htable, -, hinum⟩ := h.table.iget hn
    obtain ⟨hbooks, hquirks⟩ := h.books.iget hn
    -- a slot in use gets one more pointer, or nothing happens to it
    have hslot : ∀ jp, 0 < (t.itable jp).ref → (u.itable jp).inum = (t.itable jp).inum := by
      intro jp hjp
      rcases iget_cases hn with ⟨-, -, -, rfl⟩ | ⟨-, h0, rfl⟩
      · by_cases hj : jp = ip
        · rw [hj, FS.setInode_same]
        · rw [FS.setInode_of_ne _ _ _ hj]
      · have hj : jp ≠ ip := by
          rintro rfl
          omega
        rw [FS.setInode_of_ne _ _ _ hj]
    have hdisk : SameDisk s u := by
      rcases iget_cases hn with ⟨-, -, -, rfl⟩ | ⟨-, -, rfl⟩ <;> exact ⟨h.disk.sb, h.disk.buf, h.disk.hdr⟩
    refine ⟨⟨hbooks, htable, hdisk, hquirks.trans h.quirks, fun jp hjp => ?_⟩, hinum, hslot⟩
    have href := h.books.ref jp
    rw [hslot jp (by omega)]
    exact h.inum jp hjp
  · rw [herr]
    exact hbad.iget ((h.unused_le hfull).trans hl)

/-- **A locked slot** has the record of the inode. -/
theorem Walking.record (h : Walking s l k t) (hk : ip ∈ k) :
    (t.itable ip).toDinode = s.dinode (t.itable ip).inum ∧ (t.itable ip).inum < s.sb.records ∧
      (t.itable ip).lock = some t.pid := by
  have hlock : (t.itable ip).lock = some t.pid := by
    rw [h.books.lock, if_pos hk, h.books.pid]
  obtain ⟨hpos, hv⟩ := h.table.locked ip _ hlock
  refine ⟨?_, h.disk.sb ▸ h.table.range ip hpos hv, hlock⟩
  rw [← h.disk.dinode]
  exact (h.table.coherent ip hpos hv).1

/-- **The inode is locked and read.** -/
theorem Walking.ilock (hbad : Spares bad s) (h : Walking s l k t) (hk : bad .blocked → ip ∉ k) (hip : ip ∈ l)
    (hknown : Known s (t.itable ip).inum) :
    Safe bad (fun u => Walking s l (ip :: k) u ∧ ∀ jp, (u.itable jp).inum = (t.itable jp).inum)
      (Fs.ilock ip t) := by
  have hpos := h.books.ref_pos hip
  cases hn : Fs.ilock ip t with
  | error e =>
    -- only the lock can be in the way
    rw [Fs.ilock, if_neg (by omega)] at hn
    split_ifs at hn with hlock hv h0
    · cases hn
      intro hb
      refine hbad.blocked ⟨ip, fun hfree => hlock ?_⟩ hb
      rw [h.books.lock, if_neg (hk hb), hfree]
    · rw [h.disk.dinode] at h0
      exact absurd h0 hknown.allocated
  | ok u =>
    obtain ⟨hbooks, hquirks⟩ := h.books.ilock hn
    obtain ⟨hsb, hslot⟩ := ilock_same hn
    have hdisk : SameDisk s u := by
      rcases (ilock_cases hn).2 with ⟨-, rfl⟩ | ⟨-, -, rfl⟩ <;> exact ⟨h.disk.sb, h.disk.buf, h.disk.hdr⟩
    refine ⟨⟨hbooks, h.table.ilock (h.disk.sb ▸ hknown.range) hn, hdisk, hquirks.trans h.quirks,
      fun jp hjp => ?_⟩, fun jp => (hslot jp).2⟩
    rw [(hslot jp).2]
    exact h.inum jp hjp

/-- **The lock is released.** -/
theorem Walking.iunlock (h : Walking s l k t) (hip : ip ∈ l) (hk : ip ∈ k) :
    ∃ u, Fs.iunlock ip t = .ok u ∧ Walking s l (k.erase ip) u ∧ u = t.setLock ip none := by
  have hpos := h.books.ref_pos hip
  have hlock := (h.record hk).2.2
  have hok : Fs.iunlock ip t = .ok (t.setLock ip none) := by
    rw [Fs.iunlock, if_neg]
    · rfl
    · rintro (hr | hl)
      · omega
      · exact hl hlock
  refine ⟨_, hok, ?_, rfl⟩
  obtain ⟨hbooks, hquirks⟩ := h.books.iunlock hk hok
  refine ⟨hbooks, (h.table.iunlock hok).1, ⟨h.disk.sb, h.disk.buf, h.disk.hdr⟩, hquirks.trans h.quirks,
    fun jp hjp => ?_⟩
  obtain ⟨l', hl'⟩ := t.setLock_slot ip none jp
  rw [hl']
  exact h.inum jp hjp

/-- **A pointer is dropped**, and the inode is not freed: it has links, or there is another pointer. -/
theorem Walking.iput (h : Walking s (ip :: l) k t) (hk : ip ∈ k → ip ∈ l)
    (hkept : (t.itable ip).nlink ≠ 0 ∨ 0 < (s.itable ip).ref) :
    ∃ u, Fs.iput ip t = .ok u ∧ Walking s l k u ∧ ∀ jp, (u.itable jp).inum = (t.itable jp).inum := by
  have href := h.books.ref ip
  rw [List.count_cons_self] at href
  have hkeep : ¬ ((t.itable ip).ref = 1 ∧ (t.itable ip).nlink = 0) := by
    rintro ⟨h1, h0⟩
    rcases hkept with hne | hpos
    · exact hne h0
    · omega
  have hok : Fs.iput ip t = .ok (t.setInode ip { t.itable ip with ref := (t.itable ip).ref - 1 }) := by
    rw [Fs.iput, if_neg hkeep]
  have hsame := iput_inum hok
  refine ⟨_, hok, ⟨h.books.iput hok, h.table.iput (h.books.droppable hk) hok,
    ⟨h.disk.sb, h.disk.buf, h.disk.hdr⟩, h.quirks, fun jp hjp => ?_⟩, hsame⟩
  rw [hsame]
  exact h.inum jp hjp

theorem Walking.perm {l' : List Slot} (h : Walking s l k t) (hp : l.Perm l') : Walking s l' k t :=
  { h with books := h.books.perm hp }

theorem Walking.held (h : Walking s l k t) (hip : ip ∈ l)
    (hheld : ∃ jp, 0 < (s.itable jp).ref ∧ (s.itable jp).inum = (t.itable ip).inum) : 0 < (s.itable ip).ref := by
  obtain ⟨jp, hpos, hinum⟩ := hheld
  have hpos' : 0 < (t.itable jp).ref := by
    have href := h.books.ref jp
    omega
  have hsame : (t.itable jp).inum = (t.itable ip).inum := (h.inum jp hpos).trans hinum
  rwa [h.table.unique jp ip hpos' (h.books.ref_pos hip) hsame] at hpos

theorem Walking.kept (h : Walking s l k t) (hip : ip ∈ l) (hknown : Known s (t.itable ip).inum) :
    (s.dinode (t.itable ip).inum).nlink ≠ 0 ∨ 0 < (s.itable ip).ref :=
  hknown.kept.imp_right (h.held hip)

/-- **The inode is unlocked and its pointer dropped.** -/
theorem Walking.iunlockput (h : Walking s (ip :: l) k t) (hk : ip ∈ k) (hknown : Known s (t.itable ip).inum) :
    ∃ u, Fs.iunlockput ip t = .ok u ∧ Walking s l (k.erase ip) u ∧
      ∀ jp, (u.itable jp).inum = (t.itable jp).inum := by
  obtain ⟨v, hv, hwalk, rfl⟩ := h.iunlock List.mem_cons_self hk
  have hself : (t.setLock ip none).itable ip = { t.itable ip with lock := none } := FS.setInode_same _ _ _
  have hinum : ∀ jp, ((t.setLock ip none).itable jp).inum = (t.itable jp).inum := by
    intro jp
    obtain ⟨l', hl'⟩ := t.setLock_slot ip none jp
    rw [hl']
  have hkept : ((t.setLock ip none).itable ip).nlink ≠ 0 ∨ 0 < (s.itable ip).ref := by
    refine (h.kept List.mem_cons_self hknown).imp_left fun hne => ?_
    rw [hself]
    exact (h.record hk).1 ▸ hne
  obtain ⟨u, hu, hwalk', hsame⟩ := hwalk.iput (fun hmem => absurd hmem h.books.nodup.not_mem_erase) hkept
  refine ⟨u, ?_, hwalk', fun jp => (hsame jp).trans (hinum jp)⟩
  rw [Fs.iunlockput, hv]
  exact hu

/-- **A name is looked up** in a directory that is locked. -/
theorem Walking.dirlookup {name : List UInt8} {found : Option ℕ} (hbad : Spares bad s) (h : Walking s [ip] [ip] t)
    (hfinds : Finds s (t.itable ip).inum name found) (hknown : ∀ j, found = some j → Known s j) :
    Safe bad (fun r => (r.1.map fun x => (r.2.itable x.1).inum) = found ∧
      Walking s ((r.1.map Prod.fst).toList ++ [ip]) [ip] r.2 ∧ (r.2.itable ip).inum = (t.itable ip).inum ∧
      (found = none → r.2 = t)) (Fs.dirlookup ip (cstr name) t) := by
  obtain ⟨off, hfind⟩ := hfinds t ip h.disk (h.record (List.mem_singleton_self ip)).1
  rw [Fs.dirlookup, hfind, ok_bind]
  cases found with
  | none => exact ⟨rfl, h, rfl, fun _ => rfl⟩
  | some j =>
    have hpos := h.books.ref_pos (List.mem_singleton_self ip)
    dsimp only [Option.map_some]
    rw [FS.noteRange, if_pos (h.disk.sb ▸ (hknown j rfl).range), h.table.dev ip hpos]
    refine (h.iget hbad (le_refl 1) j).bind fun r hr => ?_
    obtain ⟨hwalk, hinum, hslot⟩ := hr
    exact ⟨congrArg some hinum, hwalk, hslot ip hpos, fun hcon => by cases hcon⟩

end Steps

/-! ## The loop -/

/-- The result of a lookup along `names` from the inode `i` on is right, and the pointers are right. -/
structure Resolved (parent : Bool) (s : FS) (entry : ℕ → List UInt8 → Option ℕ) (i : ℕ)
    (names : List (List UInt8)) (r : Option (Slot × List UInt8)) (t : FS) : Prop where
  result : if parent then (r.map fun x => ((t.itable x.1).inum, x.2)) = walkParent s entry i names
    else (r.map fun x => (t.itable x.1).inum) = walk s entry i names
  pointers : OneMore s (r.map Prod.fst) t

section Loop

variable {bad : Panic → Prop} {s t : FS} {entry : ℕ → List UInt8 → Option ℕ} {i j : ℕ} {name : List UInt8}
  {names : List (List UInt8)} {parent : Bool} {ip : Slot}

theorem walk_cons_of_dir (hdir : (s.dinode i).type = T_DIR) (hj : entry i name = some j) :
    walk s entry i (name :: names) = walk s entry j names := by
  rw [walk, if_pos hdir, hj, Option.bind_some]

theorem walkParent_cons (hne : names ≠ []) (hdir : (s.dinode i).type = T_DIR) (hj : entry i name = some j) :
    walkParent s entry i (name :: names) = walkParent s entry j names := by
  rw [walkParent, walkParent, List.getLast?_cons_of_ne_nil hne, List.dropLast_cons_of_ne_nil hne,
    walk_cons_of_dir hdir hj]

theorem walk_cons_eq_none (h : (s.dinode i).type ≠ T_DIR ∨ entry i name = none) :
    walk s entry i (name :: names) = none := by
  rw [walk]
  split_ifs with hdir
  · rw [h.resolve_left (not_not.mpr hdir), Option.bind_none]
  · rfl

theorem walkParent_cons_eq_none (h : (s.dinode i).type ≠ T_DIR ∨ (names ≠ [] ∧ entry i name = none)) :
    walkParent s entry i (name :: names) = none := by
  rw [walkParent]
  by_cases hnil : names = []
  · subst hnil
    have hdir : (s.dinode i).type ≠ T_DIR := h.resolve_right fun hcon => hcon.1 rfl
    simp [walk, hdir]
  · rw [List.dropLast_cons_of_ne_nil hnil, walk_cons_eq_none (h.imp_right And.right)]
    simp

theorem Walking.oneMore {r : Option Slot} (h : Walking s r.toList [] t) : OneMore s r t := ⟨h.books.ref, h.inum⟩

theorem Walking.resolved_none (h : Walking s [] [] t)
    (hno : (s.dinode i).type ≠ T_DIR ∨ ((parent = true → names ≠ []) ∧ entry i name = none)) :
    Resolved parent s entry i (name :: names) none t := by
  refine ⟨?_, h.oneMore⟩
  split_ifs with hp
  · exact (walkParent_cons_eq_none (hno.imp_right fun hcon => ⟨hcon.1 hp, hcon.2⟩)).symm
  · exact (walk_cons_eq_none (hno.imp_right And.right)).symm

theorem Tree.along (htree : Tree s entry) (hi : i < s.sb.ninodes) (names : List (List UInt8)) :
    Along s entry (Looks s entry) i names := by
  induction names generalizing i with
  | nil => exact trivial
  | cons name names ih =>
    intro hdir
    have hknown := htree.known i hi hdir name
    exact ⟨⟨fun t dp => htree.search i hi hdir name t dp, fun j hj => (hknown j hj).2⟩,
      fun j hj => ih (hknown j hj).1⟩

theorem Along.mono {P Q : ℕ → List UInt8 → Prop} (h : Along s entry P i names) (hPQ : ∀ i name, P i name → Q i name) :
    Along s entry Q i names := by
  induction names generalizing i with
  | nil => exact trivial
  | cons name names ih => exact fun hdir => ⟨hPQ i name (h hdir).1, fun j hj => ih ((h hdir).2 j hj)⟩

/-- **The last element** is looked up in a directory; `Q` holds for the inodes on the way. -/
theorem Along.walkParent {P : ℕ → List UInt8 → Prop} {Q : ℕ → Prop} (h : Along s entry P i names) (hi : Q i)
    (hQ : ∀ i name j, P i name → entry i name = some j → Q j)
    (hp : Walk.walkParent s entry i names = some (j, name)) : Q j ∧ (s.dinode j).type = T_DIR ∧ P j name := by
  induction names generalizing i with
  | nil => cases hp
  | cons first names ih =>
    by_cases hdir : (s.dinode i).type = T_DIR
    · obtain ⟨hfirst, hnext⟩ := h hdir
      by_cases hnil : names = []
      · subst hnil
        have hself : Walk.walkParent s entry i [first] = some (i, first) := by
          simp [Walk.walkParent, walk, hdir]
        rw [hself] at hp
        cases hp
        exact ⟨hi, hdir, hfirst⟩
      · cases hj : entry i first with
        | none =>
          rw [walkParent_cons_eq_none (Or.inr ⟨hnil, hj⟩)] at hp
          cases hp
        | some m =>
          rw [walkParent_cons hnil hdir hj] at hp
          exact ih (hnext m hj) (hQ i first m hfirst hj) hp
    · rw [walkParent_cons_eq_none (Or.inl hdir)] at hp
      cases hp

/-- **The loop of `namex`** walks along the elements of the path. -/
theorem namexLoop_resolved (hbad : Spares bad s) (h : Walking s [ip] [] t) (hknown : Known s (t.itable ip).inum)
    (fuel : ℕ) (name path : List UInt8)
    (hway : Along s entry (Looks s entry) (t.itable ip).inum (elements path)) (hfuel : path.length < fuel)
    (hsome : parent = true → elements path ≠ []) :
    Safe bad (fun r => Resolved parent s entry (t.itable ip).inum (elements path) r.1 r.2 ∧
      Walking s (r.1.map Prod.fst).toList [] r.2) (namexLoop parent fuel ip name path t) := by
  induction fuel generalizing ip t name path with
  | zero => exact absurd hfuel (Nat.not_lt_zero _)
  | succ fuel ih =>
    rw [namexLoop]
    rcases skipelem_cases path with ⟨hskip, hnil⟩ | ⟨name', rest, hskip, hcons, hlen, hrest⟩
    · have hnot : ¬ parent = true := fun hp => hsome hp hnil
      rw [hskip]
      rw [if_neg hnot]
      refine ⟨⟨?_, Walking.oneMore h⟩, h⟩
      rw [if_neg hnot, hnil]
      rfl
    · rw [hskip]
      rw [hcons] at hway ⊢
      refine (h.ilock hbad (fun _ => List.not_mem_nil) (List.mem_singleton_self ip) hknown).bind fun u hu => ?_
      obtain ⟨hwalk, hinum⟩ := hu
      have hmem := List.mem_singleton_self ip
      rw [← hinum ip] at hknown hway ⊢
      rw [(hwalk.record hmem).1]
      by_cases hdir : (s.dinode (u.itable ip).inum).type = T_DIR
      · rw [if_neg (not_not.mpr hdir)]
        by_cases hlast : parent = true ∧ rest = []
        · -- one level early
          rw [if_pos hlast]
          obtain ⟨v, hv, hwalk', rfl⟩ := hwalk.iunlock hmem hmem
          rw [List.erase_cons_head] at hwalk'
          rw [hv]
          refine ⟨⟨?_, Walking.oneMore hwalk'⟩, hwalk'⟩
          obtain ⟨l', hl'⟩ := u.setLock_slot ip none ip
          rw [if_pos hlast.1, hrest.mp hlast.2, Option.map_some, hl', walkParent]
          simp [walk, hdir]
        · rw [if_neg hlast]
          have hmore : parent = true → elements rest ≠ [] := fun hp hcon => hlast ⟨hp, hrest.mpr hcon⟩
          obtain ⟨⟨hfinds, hknowns⟩, hnexts⟩ := hway hdir
          refine (hwalk.dirlookup hbad hfinds hknowns).bind fun r hr => ?_
          obtain ⟨found, v⟩ := r
          obtain ⟨hfound, hwalk', hself, -⟩ := hr
          dsimp only at hfound hwalk' hself ⊢
          rw [← hself] at hknown
          obtain ⟨w, hw, hwalk'', hsame⟩ := (hwalk'.perm List.perm_append_comm).iunlockput hmem hknown
          rw [List.erase_cons_head] at hwalk''
          rw [hw]
          cases found with
          | none => exact ⟨hwalk''.resolved_none (Or.inr ⟨hmore, hfound.symm⟩), hwalk''⟩
          | some x =>
            have hj : entry (u.itable ip).inum name' = some (w.itable x.1).inum := by
              rw [hsame]
              exact hfound.symm
            have hnext : Walking s [x.1] [] w := hwalk''
            refine (ih hnext (hknowns _ hj) name' rest (hnexts _ hj) (by omega) hmore).mono
              fun r hr => ⟨⟨?_, hr.1.pointers⟩, hr.2⟩
            have hresult := hr.1.result
            split_ifs at hresult ⊢ with hp
            · rw [walkParent_cons (hmore hp) hdir hj]
              exact hresult
            · rw [walk_cons_of_dir hdir hj]
              exact hresult
      · rw [if_pos hdir]
        obtain ⟨v, hv, hwalk', -⟩ := hwalk.iunlockput hmem hknown
        rw [List.erase_cons_head] at hwalk'
        rw [hv]
        exact ⟨hwalk'.resolved_none (Or.inl hdir), hwalk'⟩

end Loop

/-! ## The whole lookup -/

section Lookup

variable {bad : Panic → Prop} {s t : FS} {entry : ℕ → List UInt8 → Option ℕ} {path : List UInt8} {cwd ip : Slot}
  {parent : Bool}

/-- **Where a lookup starts**: with a pointer to the root directory or to `cwd`. -/
theorem namexStart_walking (hbad : Spares bad s) (hs : Table s) (cwd : Slot) (path : List UInt8)
    (hpos : path.head? ≠ some slash → 0 < (s.itable cwd).ref) :
    Safe bad (fun r => Walking s [r.1] [] r.2 ∧ (r.2.itable r.1).inum = start s cwd path ∧
      (r.2.itable r.1).toDinode = (s.itable r.1).toDinode ∧ namexStart path cwd s = .ok r)
      (namexStart path cwd s) := by
  rw [namexStart, start]
  split_ifs with hslash
  · refine (((walking_start hs).iget hbad (Nat.zero_le 1) ROOTINO).and_of_ok fun r hr => hr).mono fun r hr => ?_
    obtain ⟨⟨hwalk, hinum, -⟩, hget⟩ := hr
    refine ⟨hwalk, hinum, ?_, hget⟩
    rcases iget_cases hget with ⟨-, -, -, heq⟩ | ⟨-, -, heq⟩ <;> rw [heq, FS.setInode_same]
  · have hsame : ∀ jp, ((idup cwd s).itable jp).inum = (s.itable jp).inum := by
      intro jp
      by_cases hj : jp = cwd
      · rw [hj, idup, FS.setInode_same]
      · rw [idup, FS.setInode_of_ne _ _ _ hj]
    refine ⟨⟨(books_start hs).take rfl rfl, hs.idup (hpos hslash), ⟨rfl, rfl, rfl⟩, rfl, fun jp _ => hsame jp⟩,
      hsame cwd, ?_, rfl⟩
    rw [idup, FS.setInode_same]

/-- `iput` can free an inode through a slot without blocks. -/
theorem destroy_ok (hlock : (t.itable ip).lock = none) (haddr : ∀ k, (t.itable ip).addr k = 0) :
    ∃ u, destroy ip t = .ok u := by
  have hdirect : ∀ l : List ℕ, l.foldlM (freeDirect ip) (t.setLock ip (some t.pid)) =
      .ok (t.setLock ip (some t.pid)) := by
    intro l
    induction l with
    | nil => rfl
    | cons k l ih =>
      have hzero : ((t.setLock ip (some t.pid)).itable ip).addr k = 0 := by
        rw [FS.setLock, FS.setInode_same]
        exact haddr k
      rw [List.foldlM_cons, freeDirect, if_pos hzero]
      exact ih
  have hindirect : freeIndirect ip (t.setLock ip (some t.pid)) = .ok (t.setLock ip (some t.pid)) := by
    refine if_pos ?_
    rw [FS.setLock, FS.setInode_same]
    exact haddr NDIRECT
  have hlock' : (t.setLock ip (some t.pid)).itable ip = { t.itable ip with lock := some t.pid } :=
    FS.setInode_same _ _ _
  have htrunc : ∃ v, itrunc ip (t.setLock ip (some t.pid)) = .ok v ∧ v.pid = t.pid ∧
      (v.itable ip).lock = some t.pid := by
    rw [itrunc, hdirect]
    dsimp only [bind, Except.bind]
    rw [hindirect]
    dsimp only
    rw [hlock', iupdate, if_neg (not_not.mpr (by rw [FS.setInode_same]; rfl))]
    refine ⟨_, rfl, rfl, ?_⟩
    exact congrArg Inode.lock (FS.setInode_same _ _ _)
  obtain ⟨v, hv, hpid, hheld⟩ := htrunc
  rw [destroy, if_neg (not_not.mpr hlock)]
  change ∃ u, (itrunc ip (t.setLock ip (some t.pid)) >>= _) = _
  rw [hv]
  dsimp only [bind, Except.bind]
  rw [iupdate, if_neg (not_not.mpr ?_)]
  · exact ⟨_, rfl⟩
  · rw [FS.setInode_same, FS.setInode_pid, hpid]
    exact hheld

/-- **A lookup of the parent of nothing** drops the pointer again. -/
theorem Rest.iput_start (hs : Rest s) (h : Walking s [ip] [] t)
    (hslot : (t.itable ip).toDinode = (s.itable ip).toDinode) :
    ∃ u, iput ip t = .ok u ∧ OneMore s none u := by
  by_cases hkept : (t.itable ip).nlink ≠ 0 ∨ 0 < (s.itable ip).ref
  · obtain ⟨u, hu, hwalk, -⟩ := h.iput (fun hcon => absurd hcon List.not_mem_nil) hkept
    exact ⟨u, hu, Walking.oneMore hwalk⟩
  · rw [not_or, not_not] at hkept
    have h0 : (s.itable ip).ref = 0 := by omega
    have hlock : (t.itable ip).lock = none := by
      rw [h.books.lock, if_neg List.not_mem_nil]
      exact hs.unlocked ip
    have href : (t.itable ip).ref = 1 := by
      rw [h.books.ref, h0, List.count_singleton_self]
    have hzero : ∀ k, (t.itable ip).addr k = 0 := by
      rw [hslot] at hkept ⊢
      exact hs.swept ip h0 hkept.1
    have hok : ∃ u, iput ip t = .ok u := by
      rw [iput, if_pos ⟨href, hkept.1⟩]
      split_ifs
      · obtain ⟨u, hu⟩ := destroy_ok hlock hzero
        rw [hu]
        exact ⟨_, rfl⟩
      · obtain ⟨u, hu⟩ := destroy_ok (t := t.note .stale) hlock hzero
        rw [hu]
        exact ⟨_, rfl⟩
    obtain ⟨u, hu⟩ := hok
    refine ⟨u, hu, (h.books.iput hu).ref, fun jp hjp => ?_⟩
    -- the other slots are not touched
    have hj : jp ≠ ip := by
      rintro rfl
      omega
    rcases iput_cases hu with ⟨-, v, hv, rfl⟩ | ⟨-, rfl⟩
    · rw [FS.setInode_of_ne _ _ _ hj, hv.other jp hj]
      exact h.inum jp hjp
    · rw [FS.setInode_of_ne _ _ _ hj]
      exact h.inum jp hjp

/-- The errors other than a panic of `iget` in a full table. -/
def Unexpected (s : FS) (e : Panic) : Prop := ¬ (e = .iget ∧ (unused s).card ≤ 1)

theorem Rest.spares (hs : Rest s) : Spares (Unexpected s) s :=
  ⟨fun hfull hcon => hcon ⟨rfl, hfull⟩, fun hlocked => absurd hlocked (by simp [hs.unlocked])⟩

theorem skipelem_nil (hnil : elements path = []) : skipelem path = none := by
  rcases skipelem_cases path with ⟨hskip, -⟩ | ⟨name, rest, -, hcons, -⟩
  · exact hskip
  · rw [hnil] at hcons
    cases hcons

/-- **`namex` walks along the elements of the path**, unless the inode table is too full. -/
theorem namex_resolved (hs : Rest s) (htree : Tree s entry) (hpos : 0 < (s.itable cwd).ref)
    (hcwd : (s.dinode (s.itable cwd).inum).type ≠ 0) (parent : Bool) (path : List UInt8) :
    Safe (Unexpected s) (fun r => Resolved parent s entry (start s cwd path) (elements path) r.1 r.2)
      (namex parent path cwd s) := by
  have hstart : start s cwd path < s.sb.ninodes ∧ Known s (start s cwd path) := by
    rw [start]
    split_ifs
    · exact htree.root
    · have hrange := hs.range cwd hpos
      exact ⟨hrange, hrange.trans_le hs.table.layout.ninodes_le, hcwd, Or.inr ⟨cwd, hpos, rfl⟩⟩
  rw [namex]
  refine (namexStart_walking hs.spares hs.table cwd path fun _ => hpos).bind fun r hr => ?_
  obtain ⟨ip, t⟩ := r
  obtain ⟨hwalk, hinum, hslot, -⟩ := hr
  dsimp only at hwalk hinum hslot ⊢
  rw [← hinum] at hstart ⊢
  by_cases hempty : parent = true ∧ elements path = []
  · -- no element: there is no parent
    obtain ⟨u, hu, hone⟩ := hs.iput_start hwalk hslot
    rw [namexLoop, skipelem_nil hempty.2]
    rw [if_pos hempty.1, hu]
    refine ⟨?_, hone⟩
    rw [if_pos hempty.1, hempty.2]
    rfl
  · exact (namexLoop_resolved hs.spares hwalk hstart.2 _ _ _ (htree.along hstart.1 _) (Nat.lt_succ_self _)
      fun hp hcon => hempty ⟨hp, hcon⟩).mono fun r hr => hr.1

theorem not_stale_start (hpos : 0 < (s.itable cwd).ref)
    (hroot : ∃ ip, 0 < (s.itable ip).ref ∧ (s.itable ip).inum = ROOTINO) : ¬ Stale s (start s cwd path) := by
  rintro ⟨hno, -⟩
  rw [start] at hno
  split_ifs at hno
  · obtain ⟨ip, hip, hinum⟩ := hroot
    exact hno ip hip hinum
  · exact hno cwd hpos rfl

/-- **`nameiparent` walks along all elements but the last**, and changes nothing but pointers. -/
theorem nameiparent_walking (hbad : Spares bad s) (hs : Table s) (hpos : 0 < (s.itable cwd).ref)
    (hstart : Known s (start s cwd path)) (hstale : elements path = [] → ¬ Stale s (start s cwd path))
    (hway : Along s entry (Looks s entry) (start s cwd path) (elements path)) :
    Safe bad (fun r => (r.1.map fun x => ((r.2.itable x.1).inum, x.2)) =
        walkParent s entry (start s cwd path) (elements path) ∧ Walking s (r.1.map Prod.fst).toList [] r.2)
      (nameiparent path cwd s) := by
  rw [nameiparent, namex]
  refine (namexStart_walking hbad hs cwd path fun _ => hpos).bind fun r hr => ?_
  obtain ⟨ip, t⟩ := r
  obtain ⟨hwalk, hinum, hslot, hrun⟩ := hr
  dsimp only at hwalk hinum hslot ⊢
  by_cases hnil : elements path = []
  · -- the pointer is dropped, and the slot was in use or says that there are links
    have hkept : (t.itable ip).nlink ≠ 0 ∨ 0 < (s.itable ip).ref := by
      by_contra hcon
      rw [not_or, not_not, Nat.pos_iff_ne_zero, not_not, hslot] at hcon
      refine hstale hnil ?_
      rw [namexStart] at hrun
      rw [start] at hinum ⊢
      split_ifs at hrun hinum ⊢
      · obtain ⟨hno, hfirst⟩ := iget_first hrun hcon.2
        exact ⟨fun jp hj => hno jp hj (hs.dev jp hj), ip, hcon.2, hfirst, hcon.1⟩
      · cases hrun
        omega
    obtain ⟨u, hu, hwalk', -⟩ := hwalk.iput (fun hmem => absurd hmem List.not_mem_nil) hkept
    rw [namexLoop, skipelem_nil hnil]
    rw [if_pos rfl, hu, hnil]
    exact ⟨rfl, hwalk'⟩
  · rw [← hinum] at hstart hway ⊢
    exact (namexLoop_resolved hbad hwalk hstart _ _ _ hway (Nat.lt_succ_self _) fun _ => hnil).mono
      fun r hr => ⟨hr.1.result, hr.2⟩

end Lookup

/-- **Looking up a path is walking along its elements.** For every directory tree, every starting directory
and every path: `namei` returns the inode that the walk along the elements of the path leads to, from the root if
the path begins with a slash and from `cwd` otherwise, and fails if the walk does; `nameiparent` returns the
inode that all elements but the last lead to, if it is a directory, with the last element, and fails if it is
not, or if there are no elements. There is one pointer more afterwards, to the inode that is returned, or none.
The only other result is the panic of `iget` in an inode table in which at most one slot is not in use. -/
theorem namei_is_walk {s : FS} {entry : ℕ → List UInt8 → Option ℕ} (hs : Rest s) (htree : Tree s entry)
    {cwd : Slot} (hpos : 0 < (s.itable cwd).ref) (hcwd : (s.dinode (s.itable cwd).inum).type ≠ 0)
    (path : List UInt8) :
    ((∃ r t, namei path cwd s = .ok (r, t) ∧
        (r.map fun ip => (t.itable ip).inum) = walk s entry (start s cwd path) (elements path) ∧
        OneMore s r t) ∨
      (namei path cwd s = .error .iget ∧ (unused s).card ≤ 1)) ∧
    ((∃ r t, nameiparent path cwd s = .ok (r, t) ∧
        (r.map fun x => ((t.itable x.1).inum, x.2)) = walkParent s entry (start s cwd path) (elements path) ∧
        OneMore s (r.map Prod.fst) t) ∨
      (nameiparent path cwd s = .error .iget ∧ (unused s).card ≤ 1)) := by
  constructor
  · rw [namei]
    have hres := namex_resolved hs htree hpos hcwd false path
    cases hn : namex false path cwd s with
    | ok p =>
      obtain ⟨r, t⟩ := p
      obtain ⟨hresult, hone⟩ := hres.of_eq_ok hn
      rw [if_neg Bool.false_ne_true] at hresult
      refine Or.inl ⟨r.map Prod.fst, t, rfl, ?_, hone⟩
      rw [Option.map_map]
      exact hresult
    | error e =>
      obtain ⟨rfl, hfull⟩ := not_not.mp fun hcon => hres.ne_error hcon hn
      exact Or.inr ⟨rfl, hfull⟩
  · have hres := namex_resolved hs htree hpos hcwd true path
    cases hn : nameiparent path cwd s with
    | ok p =>
      obtain ⟨r, t⟩ := p
      obtain ⟨hresult, hone⟩ := hres.of_eq_ok hn
      exact Or.inl ⟨r, t, rfl, hresult, hone⟩
    | error e =>
      obtain ⟨rfl, hfull⟩ := not_not.mp fun hcon => hres.ne_error hcon hn
      exact Or.inr ⟨rfl, hfull⟩

/-! ## Directories of direct blocks -/

/-- The inode number of the first entry with a name, in the directory `i`. -/
def entryOf (s : FS) (i : ℕ) (name : List UInt8) : Option ℕ :=
  ((List.range ((s.dinode i).size.toNat / direntSize)).find? fun k =>
    matchesName (cstr name) (entryAt s (s.dinode i) k)).map fun k => (entryAt s (s.dinode i) k).inum.toNat

/-- A directory of whole entries whose blocks are all there, without an indirect block. -/
structure Listed (d : Dinode) : Prop where
  whole : direntSize ∣ d.size.toNat
  size_le : d.size.toNat ≤ NDIRECT * BSIZE
  addr_ne : ∀ k, k < d.size.toNat → d.addr (k / BSIZE) ≠ 0

section Listed

variable {t : FS} {dp : Slot} {name : List UInt8}

theorem Listed.direct {d : Dinode} {k : ℕ} (h : Listed d) (hk : direntSize * k < d.size.toNat) :
    direntSize * k + direntSize ≤ NDIRECT * BSIZE ∧ d.addr (direntSize * k / BSIZE) ≠ 0 := by
  refine ⟨?_, h.addr_ne _ hk⟩
  obtain ⟨n, hn⟩ := h.whole
  have hle := h.size_le
  rw [hn] at hk hle
  have hkn : k < n := Nat.lt_of_mul_lt_mul_left hk
  exact (Nat.mul_le_mul_left direntSize hkn).trans hle

theorem Listed.searchable {s : FS} {d : Dinode} (h : Listed d) : Searchable s d (cstr name) :=
  ⟨h.whole, fun _ hk _ => h.direct hk⟩

/-- **The search of `dirlookup` in such a directory** finds the first entry with the name. -/
theorem finds_entryOf {s : FS} {i : ℕ} (h : Searchable s (s.dinode i) (cstr name)) (hdir : (s.dinode i).type = T_DIR) :
    Finds s i name (entryOf s i name) := by
  intro t dp hdisk hrec
  have hd : Searchable t (t.itable dp).toDinode (cstr name) := by
    rw [hrec]
    exact h.congr hdisk.buf
  rw [findEntry_eq hd (by rw [hrec, hdir]), hrec, entryOf]
  simp only [entryAt_buf hdisk.buf]
  cases (List.range ((s.dinode i).size.toNat / direntSize)).find? fun k =>
      matchesName (cstr name) (entryAt s (s.dinode i) k) with
  | none => exact ⟨0, rfl⟩
  | some k => exact ⟨direntSize * k, rfl⟩

end Listed

/-! ## A small tree -/

/-- A disk with a root directory that has one entry: the file `a`, with inode number 2. The process has a pointer
to the root directory. -/
def treeFS : FS where
  sb := smallSb
  buf := fun b =>
    if b = 32 then
      writeDinode (writeDinode (fun _ => 0) ROOTINO
        { Dinode.zero with type := T_DIR, nlink := 1, size := 16, addrs := fun k => if k = 0 then 40 else 0 })
        2 { Dinode.zero with type := T_FILE, nlink := 1 }
    else if b = 40 then fun i => if i.val = 0 then 2 else if i.val = 2 then 97 else 0
    else fun _ => 0
  hdr := fun _ _ => 0
  itable := fun ip => if ip = firstSlot then { Inode.empty with dev := ROOTDEV, inum := ROOTINO, ref := 1 }
    else Inode.empty
  pid := 1
  logged := []
  quirks := []

theorem itable_treeFS {ip : Slot} (h : 0 < (treeFS.itable ip).ref) :
    ip = firstSlot ∧ treeFS.itable ip = { Inode.empty with dev := ROOTDEV, inum := ROOTINO, ref := 1 } := by
  by_cases hip : ip = firstSlot
  · exact ⟨hip, if_pos hip⟩
  · have hempty : treeFS.itable ip = Inode.empty := if_neg hip
    rw [hempty] at h
    exact absurd h (lt_irrefl 0)

theorem slot_treeFS (ip : Slot) : (treeFS.itable ip).lock = none ∧ (treeFS.itable ip).toDinode = Dinode.zero ∧
    (treeFS.itable ip).valid = false := by
  by_cases hip : ip = firstSlot
  · have hslot : treeFS.itable ip = { Inode.empty with dev := ROOTDEV, inum := ROOTINO, ref := 1 } := if_pos hip
    rw [hslot]
    exact ⟨rfl, rfl, rfl⟩
  · have hempty : treeFS.itable ip = Inode.empty := if_neg hip
    rw [hempty]
    exact ⟨rfl, rfl, rfl⟩

theorem rest_treeFS : Rest treeFS := by
  refine ⟨⟨layout_smallSb, fun ip h => ?_, fun ip h hv => ?_, fun ip jp h h' _ => ?_, fun ip h hv => ?_,
    fun ip p h => ?_⟩, fun ip h => ?_, fun ip => (slot_treeFS ip).1, fun ip _ _ k => ?_⟩
  · rw [(itable_treeFS h).2]
  · rw [(slot_treeFS ip).2.2] at hv
    cases hv
  · rw [(itable_treeFS h).1, (itable_treeFS h').1]
  · rw [(slot_treeFS ip).2.2] at hv
    cases hv
  · rw [(slot_treeFS ip).1] at h
    cases h
  · rw [(itable_treeFS h).2]
    decide
  · rw [(slot_treeFS ip).2.1]
    unfold Dinode.addr
    split_ifs <;> rfl

theorem root_treeFS : ∀ i < smallSb.ninodes, (treeFS.dinode i).type = T_DIR →
    i = ROOTINO ∧ (treeFS.dinode i).size = 16 ∧ (treeFS.dinode i).addr 0 = 40 ∧
      (entryAt treeFS (treeFS.dinode i) 0).inum = 2 := by
  decide

theorem known_treeFS (i : ℕ) (h : i = ROOTINO ∨ i = 2) : Known treeFS i := by
  rcases h with rfl | rfl
  · exact ⟨by decide, by decide, Or.inl (by decide)⟩
  · exact ⟨by decide, by decide, Or.inl (by decide)⟩

theorem tree_treeFS : Tree treeFS (entryOf treeFS) := by
  refine ⟨⟨by decide, known_treeFS _ (Or.inl rfl)⟩, fun i hi hdir name t dp hdisk hrec => ?_,
    fun i hi hdir name j hj => ?_⟩
  · obtain ⟨-, hsize, haddr, -⟩ := root_treeFS i hi hdir
    refine finds_entryOf (Listed.searchable ⟨?_, ?_, fun k hk => ?_⟩) hdir t dp hdisk hrec
    · rw [hsize]
      decide
    · rw [hsize]
      decide
    · rw [hsize] at hk
      have hk16 : k < 16 := hk
      rw [Nat.div_eq_of_lt (hk16.trans (by decide)), haddr]
      decide
  · obtain ⟨-, hsize, -, hinum⟩ := root_treeFS i hi hdir
    obtain ⟨k, hk, rfl⟩ := Option.map_eq_some_iff.mp hj
    have hmem := List.mem_of_find?_eq_some hk
    rw [hsize, List.mem_range] at hmem
    obtain rfl : k = 0 := Nat.lt_one_iff.mp hmem
    rw [hinum]
    exact ⟨by decide, known_treeFS 2 (Or.inr rfl)⟩

/-- The path `//a/`. -/
def aPath : List UInt8 := [slash, slash, 97, slash]

theorem namei_is_walk_treeFS :
    ∃ ip t jp u, namei aPath firstSlot treeFS = .ok (some ip, t) ∧ (t.itable ip).inum = 2 ∧
      OneMore treeFS (some ip) t ∧ nameiparent aPath firstSlot treeFS = .ok (some (jp, [97]), u) ∧
      (u.itable jp).inum = ROOTINO ∧ OneMore treeFS (some jp) u := by
  obtain ⟨hfile, hparent⟩ := namei_is_walk rest_treeFS tree_treeFS (show 0 < (treeFS.itable firstSlot).ref by decide)
    (by decide) aPath
  have hmany : ¬ (unused treeFS).card ≤ 1 := by decide
  obtain ⟨r, t, ht, hr, hone⟩ := hfile.resolve_right fun hcon => hmany hcon.2
  obtain ⟨r', u, hu, hr', hone'⟩ := hparent.resolve_right fun hcon => hmany hcon.2
  obtain ⟨ip, rfl, hip⟩ := Option.map_eq_some_iff.mp hr
  obtain ⟨⟨jp, name⟩, rfl, hjp⟩ := Option.map_eq_some_iff.mp hr'
  obtain ⟨hinum, rfl⟩ := Prod.mk.inj hjp
  exact ⟨ip, t, jp, u, ht, hip, hone, hu, hinum, hone'⟩

end RiscvOs.Fs.Walk
