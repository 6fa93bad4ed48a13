import RiscvOs.Mkfs.Built
import RiscvOs.Fs.Mount

set_option autoImplicit false

/-!
# The kernel on a new image

`mkfs` and the kernel implement the same format twice. A file whose blocks are all direct is found
under its name and read back. Behind the direct blocks `bmap` looks into the buffer instead of into
its data and finds block `1`; and a file that is stored under a name of the root directory itself is
not found.

## Main results

* `Built.fsinit` — the image is mounted as it is.
* `Built.finds` — what the stored names lead to.
* `readsBack_iff` — files are read back, whatever they contain, exactly if they are
  readable.
* `long_file_lost` — a file of `13` blocks is not read back.
-/

namespace RiscvOs.Mkfs

open Function Fs Str Dirs

/-- The contents of an argument. -/
def Arg.bytes (a : Arg) : List UInt8 := a.data.getD []

/-- The stored name leads to a file with the length of the argument, and `readi` returns its
bytes. -/
def ReadsBack (s : FS) (cwd : Slot) (a : Arg) : Prop :=
  ∃ ip t u v, namei (slash :: storedName a.path) cwd s = .ok (some ip, t) ∧ ilock ip t = .ok u ∧
    (u.itable ip).type = T_FILE ∧ (u.itable ip).size.toNat = a.bytes.length ∧
    readi ip kernelDst 0 (u.itable ip).size.toNat u = .ok ((some a.bytes.length, a.bytes), v)

/-- The path of an argument, and the length of the file. -/
def Arg.shape (a : Arg) : List UInt8 × Option ℕ := (a.path, a.data.map List.length)

/-- The same paths, and contents of the same lengths. -/
def SameShape (args args' : List Arg) : Prop := args'.map Arg.shape = args.map Arg.shape

/-- All blocks of the file are direct, and its name is neither empty nor an entry that the root
directory has before it. -/
def Readable (a : Arg) : Prop :=
  a.bytes.length ≤ NDIRECT * BSIZE ∧ storedName a.path ≠ [] ∧ storedName a.path ≠ dot ∧
    storedName a.path ≠ dotdot

/-! ## Mounting -/

section Mount

variable {m : Image} {args : List Arg}

theorem readsb_superBlock : readsb superBlock = sb := by
  unfold readsb sb
  congr 1

theorem Built.superblock (h : Built m args) : m.disk 1 = superBlock := by
  rw [h.first 1 (by decide)]
  simp [blank]

/-- **A new image is mounted as it is.** -/
theorem Built.fsinit (h : Built m args) (hdr : ℕ → ℕ → UInt32) (pid : ℕ) :
    Fs.fsinit m.disk hdr pid = .ok (freshFS sb m.disk hdr pid) := by
  have hsb := h.superblock
  have hread : readsb (m.disk 1) = sb := by rw [hsb, readsb_superBlock]
  have hlog : m.disk 2 = fun _ => 0 := by
    rw [h.first 2 (by decide)]
    simp [blank]
  rw [← hread]
  refine fsinit_eq hdr pid ?_ ?_ ?_
  · rw [hsb]
    decide
  · rw [hread]
    change Log.headCount (m.disk 2) = 0
    rw [hlog]
    decide
  · rw [hread]
    intro i hpos hi
    rcases Nat.lt_or_ge i m.freeinode with hlt | hge
    · right
      rcases Nat.eq_or_lt_of_le (show 1 ≤ i from hpos) with rfl | h2
      · have hroot := h.root.2.1
        rw [ROOTINO] at hroot
        rw [hroot]
        decide
      · rw [(h.files i h2 hlt).2.1]
        decide
    · left
      rw [h.unused i (hi.trans_le (by decide)) (Or.inr hge)]
      rfl

end Mount

/-! ## The root directory -/

/-- The inode numbers and names in the root directory. -/
def names (args : List Arg) : List (ℕ × List UInt8) :=
  (ROOTINO, dot) :: (ROOTINO, dotdot) :: (args.zipIdx 2).map fun a => (a.2, storedName a.1.path)

section Names

variable {args : List Arg} {inum i : ℕ} {name : List UInt8}

theorem rootEntries_eq (args : List Arg) :
    rootEntries args = (names args).flatMap fun p => dirent p.1 p.2 := by
  simp [rootEntries, names, List.flatMap_map, dot, dotdot]

theorem names_add_two (args : List Arg) (i : ℕ) :
    (names args)[i + 2]? = args[i]?.map fun a => (i + 2, storedName a.path) := by
  simp only [names, List.getElem?_cons_succ, List.getElem?_map, List.getElem?_zipIdx, Option.map_map]
  rw [Nat.add_comm 2 i]
  rfl

theorem length_names (args : List Arg) : (names args).length = args.length + 2 := by
  simp [names]

/-- Names that fit into an entry and end where their `NUL` is. -/
def NameOk (name : List UInt8) : Prop := 0 ∉ name ∧ name.length ≤ DIRSIZ

theorem length_dirent (h : name.length ≤ DIRSIZ) : (dirent inum name).length = direntSize := by
  simp only [dirent, List.length_append, List.length_cons, List.length_nil, List.length_replicate]
  rw [show direntSize = 2 + DIRSIZ from rfl]
  omega

theorem inum_dirent (h : inum < 2 ^ 16) : (Dirent.ofBytes (dirent inum name)).inum.toNat = inum := by
  have hn : (UInt16.ofNat inum).toNat = inum := UInt16.toNat_ofNat_of_lt' h
  have heq : (Dirent.ofBytes (dirent inum name)).inum = UInt16.ofNat inum := by
    refine ByteBlock.u16_eq_of_leByte fun k hk => ?_
    rw [hn]
    interval_cases k <;> rfl
  rw [heq, hn]

theorem strn_dirent (h : NameOk name) :
    strn (Dirent.ofBytes (dirent inum name)).name DIRSIZ = name := by
  have hchar : ∀ j < DIRSIZ, (Dirent.ofBytes (dirent inum name)).name j = cstr name j := by
    intro j hj
    have hlt : 2 + j < direntSize := by
      rw [show direntSize = 2 + DIRSIZ from rfl]
      omega
    rw [Dirent.name, ByteBlock.get, dif_pos hlt]
    simp only [Dirent.ofBytes, dirent, cstr, List.getD_eq_getElem?_getD]
    rw [List.getElem?_append_right (by simp), List.length_cons, List.length_singleton,
      Nat.add_sub_cancel_left]
    rcases Nat.lt_or_ge j name.length with hn | hn
    · rw [List.getElem?_append_left hn]
    · rw [List.getElem?_append_right hn, List.getElem?_eq_none hn, List.getElem?_replicate]
      split_ifs <;> rfl
  rw [strn_congr hchar, strn_cstr h.1 h.2]

theorem getElem?_flatMap_of_length {α β : Type} {f : α → List β} {n : ℕ} {l : List α}
    (h : ∀ a ∈ l, (f a).length = n) (i : ℕ) {k : ℕ} (hk : k < n) :
    (l.flatMap f)[n * i + k]? = l[i]?.bind fun a => (f a)[k]? := by
  induction l generalizing i with
  | nil => simp
  | cons a l ih =>
    have ha := h a List.mem_cons_self
    rw [List.flatMap_cons]
    cases i with
    | zero => simp [List.getElem?_append_left (ha ▸ hk)]
    | succ i =>
      rw [Nat.mul_succ, List.getElem?_append_right (by omega), ha,
        show n * i + n + k - n = n * i + k by omega, ih (fun b hb => h b (List.mem_cons_of_mem a hb))]
      rfl

theorem length_flatMap_of_length {α β : Type} {f : α → List β} {n : ℕ} {l : List α}
    (h : ∀ a ∈ l, (f a).length = n) : (l.flatMap f).length = n * l.length := by
  induction l with
  | nil => simp
  | cons a l ih =>
    rw [List.flatMap_cons, List.length_append, h a List.mem_cons_self,
      ih fun b hb => h b (List.mem_cons_of_mem a hb), List.length_cons, Nat.mul_succ, Nat.add_comm]

theorem length_rootEntries (h : ∀ p ∈ names args, p.2.length ≤ DIRSIZ) :
    (rootEntries args).length = direntSize * (args.length + 2) := by
  rw [rootEntries_eq, length_flatMap_of_length fun p hp => length_dirent (h p hp), length_names]

end Names

section Lookup

variable {m : Image} {args : List Arg} {inum i : ℕ} {name : List UInt8} {s : FS} {d : Dinode}
  {n : ℕ} {l : List UInt8}

theorem FileLaid.fileByte (h : FileLaid s.buf d n l) {k : ℕ} (hk : k < l.length) (hdir : k < NDIRECT * BSIZE) :
    d.addr (k / BSIZE) ≠ 0 ∧ l[k]? = some (ByteBlock.get (s.buf (d.addr (k / BSIZE))) (k % BSIZE)) := by
  have hbn : k / BSIZE < NDIRECT := (Nat.div_lt_iff_lt_mul (by decide)).mpr hdir
  have hno : blockNo s.buf d (k / BSIZE) = d.addr (k / BSIZE) := if_pos hbn
  obtain ⟨hlt, hget⟩ := h.bytes k hk
  rw [hno] at hget
  refine ⟨fun h0 => ?_, hget⟩
  rw [← hno, h.mapped _ (hbn.trans (by decide))] at h0
  omega

theorem FileLaid.entryAt (h : FileLaid s.buf d n (rootEntries args))
    (hname : ∀ p ∈ names args, NameOk p.2) (hlen : args.length + 2 ≤ wide.ninodes)
    (hi : (names args)[i]? = some (inum, name)) :
    d.addr (direntSize * i / BSIZE) ≠ 0 ∧ Fs.entryAt s d i = Dirent.ofBytes (dirent inum name) := by
  have hi' := (List.getElem?_eq_some_iff.mp hi).1
  rw [length_names] at hi'
  have hd : direntSize = 16 := rfl
  have hlt : ∀ k < direntSize, direntSize * i + k < (rootEntries args).length := by
    intro k hk
    rw [length_rootEntries fun p hp => (hname p hp).2]
    rw [hd] at hk ⊢
    omega
  have hdir : ∀ k < direntSize, direntSize * i + k < NDIRECT * BSIZE := by
    intro k hk
    have h208 : wide.ninodes = 208 := rfl
    rw [show NDIRECT * BSIZE = 12288 from rfl]
    rw [hd] at hk ⊢
    omega
  refine ⟨(h.fileByte (hlt 0 (by decide)) (hdir 0 (by decide))).1, ?_⟩
  funext k
  have hbyte := (h.fileByte (hlt k k.isLt) (hdir k k.isLt)).2
  rw [rootEntries_eq, getElem?_flatMap_of_length (fun p hp => length_dirent (hname p hp).2) i k.isLt,
    hi] at hbyte
  exact ((congrArg (·.getD 0) hbyte).trans rfl).symm

theorem Built.root_laid (h : Built m args) :
    FileLaid m.disk (dinodeAt sb m.disk ROOTINO) (widths (contents args) ROOTINO)
      (rootEntries args) := by
  have hlive : Live (dinodeAt sb m.disk) ROOTINO := by
    refine ⟨by decide, ?_⟩
    rw [h.root.1]
    decide
  have := h.laid.file ROOTINO hlive
  rwa [show contents args ROOTINO = rootEntries args from if_pos rfl] at this

/-- **A name of the root directory is found** at its first entry. -/
theorem Built.entryOf (h : Built m args) (hname : ∀ p ∈ names args, NameOk p.2)
    (hlen : args.length + 2 ≤ wide.ninodes) (hi : (names args)[i]? = some (inum, name))
    (hinum : 0 < inum) (hlt : inum < 2 ^ 16)
    (hfirst : ∀ j < i, ∀ p, (names args)[j]? = some p → p.2 ≠ name) (hbuf : s.buf = m.disk)
    (hrec : s.dinode ROOTINO = dinodeAt sb m.disk ROOTINO) :
    Searchable s (s.dinode ROOTINO) (cstr name) ∧ Walk.entryOf s ROOTINO name = some inum := by
  have hentry : ∀ {j p}, (names args)[j]? = some p → (s.dinode ROOTINO).addr (direntSize * j / BSIZE) ≠ 0 ∧
      Fs.entryAt s (s.dinode ROOTINO) j = Dirent.ofBytes (dirent p.1 p.2) := by
    intro j p hp
    have hlaid := h.root_laid
    rw [← hrec, ← hbuf] at hlaid
    exact hlaid.entryAt hname hlen hp
  have hi' := (List.getElem?_eq_some_iff.mp hi).1
  have hget : ∀ j ≤ i, (names args)[j]? = some ((names args).getD j (0, [])) := by
    intro j hj
    rw [List.getD_eq_getElem _ _ (hj.trans_lt hi'), List.getElem?_eq_getElem]
  have hok := hname _ (List.mem_of_getElem? hi)
  have hnum : (Fs.entryAt s (s.dinode ROOTINO) i).inum.toNat = inum := by
    rw [(hentry hi).2, inum_dirent hlt]
  have hsame : matchesName (cstr name) (Fs.entryAt s (s.dinode ROOTINO) i) = true := by
    refine matchesName_iff.mpr ⟨fun h0 => ?_, ?_⟩
    · rw [h0] at hnum
      exact hinum.ne hnum
    · rw [(hentry hi).2, strn_dirent hok, strn_cstr hok.1 hok.2]
  have hother : ∀ j < i, matchesName (cstr name) (Fs.entryAt s (s.dinode ROOTINO) j) = false := by
    intro j hj
    have hj' := hget j hj.le
    refine Bool.eq_false_iff.mpr fun hmatch => hfirst j hj _ hj' ?_
    have hstr := (matchesName_iff.mp hmatch).2
    rw [(hentry hj').2, strn_dirent (hname _ (List.mem_of_getElem? hj')), strn_cstr hok.1 hok.2] at hstr
    exact hstr.symm
  have hsize : (s.dinode ROOTINO).size.toNat = ((rootEntries args).length / BSIZE + 1) * BSIZE := by
    rw [hrec]
    exact h.root.2.2
  rw [length_names] at hi'
  rw [length_rootEntries fun p hp => (hname p hp).2] at hsize
  have hd : direntSize = 16 := rfl
  have hB : BSIZE = 1024 := rfl
  refine ⟨⟨?_, fun k hk hfront => ?_⟩, ?_⟩
  · rw [hsize]
    exact (show direntSize ∣ BSIZE by decide).mul_left _
  · have hki : k ≤ i := by
      by_contra hcon
      rw [hfront i (by omega)] at hsame
      cases hsame
    refine ⟨?_, (hentry (hget k hki)).1⟩
    have h208 : wide.ninodes = 208 := rfl
    rw [hd, show NDIRECT * BSIZE = 12288 from rfl]
    omega
  · refine Option.map_eq_some_iff.mpr ⟨i, List.find?_range_eq_some.mpr ⟨hsame, ?_, fun j hj => ?_⟩, hnum⟩
    · rw [List.mem_range, hsize, hd, hB]
      omega
    · rw [hother j hj]
      rfl

theorem layout_sb : Layout sb := by decide +kernel

theorem unused_freshFS (d : Disk) (hdr : ℕ → ℕ → UInt32) (pid : ℕ) :
    Unused (freshFS sb d hdr pid) := fun _ => ⟨rfl, rfl⟩

theorem Built.known (h : Built m args) (hlen : args.length + 2 ≤ wide.ninodes) (hdr : ℕ → ℕ → UInt32) (pid : ℕ)
    (hpos : 0 < inum)
    (hlt : inum < m.freeinode) : Walk.Known (freshFS sb m.disk hdr pid) inum := by
  have hfile : (dinodeAt sb m.disk inum).type ≠ 0 ∧ (dinodeAt sb m.disk inum).nlink ≠ 0 := by
    rcases Nat.eq_or_lt_of_le (show 1 ≤ inum from hpos) with hroot | h2
    · rw [← hroot, show (1 : ℕ) = ROOTINO from rfl, h.root.1, h.root.2.1]
      decide
    · rw [(h.files inum h2 hlt).1, (h.files inum h2 hlt).2.1]
      decide
  have hrange : inum < wide.ninodes := by
    have := h.freeinode
    omega
  exact ⟨hrange, hfile.1, Or.inl hfile.2⟩

/-- **What a name of the root directory leads to.** -/
theorem Built.finds (h : Built m args) (hname : ∀ p ∈ names args, NameOk p.2 ∧ slash ∉ p.2)
    (hlen : args.length + 2 ≤ wide.ninodes) (hi : (names args)[i]? = some (inum, name))
    (hfirst : ∀ j < i, ∀ p, (names args)[j]? = some p → p.2 ≠ name) (hne : name ≠ [])
    (hpos : 0 < inum) (hlt : inum < m.freeinode) (hdr : ℕ → ℕ → UInt32) (pid : ℕ) (cwd : Slot) :
    Finds (freshFS sb m.disk hdr pid) (slash :: name) cwd inum := by
  have hok := hname _ (List.mem_of_getElem? hi)
  have h208 : wide.ninodes = 208 := rfl
  have hfree := h.freeinode
  have hroot := h.known hlen hdr pid (le_refl 1) (by omega)
  obtain ⟨hsearch, hentry⟩ := h.entryOf (s := freshFS sb m.disk hdr pid) (fun p hp => (hname p hp).1) hlen hi hpos
    (by omega) hfirst rfl rfl
  have helem : Walk.elements name = [name] := by
    have hrun := Walk.elements_run hne (fun c hc => beq_false_of_ne fun hs => hok.2 (hs ▸ hc)) (Or.inl rfl)
    rwa [List.append_nil, List.take_of_length_le hok.1.2, Walk.elements_nil] at hrun
  refine finds_of_walk (unused_freshFS _ _ _) layout_sb hroot ?_ ?_ (h.known hlen hdr pid hpos hlt) cwd <;>
    rw [helem]
  · refine fun hdir => ⟨⟨Walk.finds_entryOf hsearch hdir, fun j hj => ?_⟩, fun j _ => trivial⟩
    rw [hentry] at hj
    cases hj
    exact h.known hlen hdr pid hpos hlt
  · exact Walk.walk_cons_of_dir (s := freshFS sb m.disk hdr pid) h.root.1 hentry

end Lookup

/-! ## Reading a file -/

section Reading

variable {s : FS} {cwd : Slot} {a : Arg} {inum n : ℕ}

theorem readsBack_of_finds (hfind : Finds s (slash :: storedName a.path) cwd inum)
    (htype : (s.dinode inum).type = T_FILE) (hsize : (s.dinode inum).size.toNat = a.bytes.length)
    (hlaid : FileLaid s.buf (s.dinode inum) n a.bytes) (hdir : a.bytes.length ≤ NDIRECT * BSIZE) :
    ReadsBack s cwd a := by
  obtain ⟨ip, t, u, hname, hlock, hrec, hbuf⟩ := hfind
  rw [← hrec] at htype hsize hlaid
  rw [← hbuf] at hlaid
  refine ⟨ip, t, u, u, hname, hlock, htype, hsize, ?_⟩
  rw [hsize, readi_inside (by omega) (by omega)
    fun k _ hk => (hlaid.fileByte (by omega) (by omega)).1]
  congr 3
  apply List.ext_getElem?
  intro k
  rcases Nat.lt_or_ge k a.bytes.length with hk | hk
  · rw [List.getElem?_map, List.getElem?_range hk, (hlaid.fileByte hk (by omega)).2, Option.map_some,
      Nat.zero_add, Fs.fileByte]
  · rw [List.getElem?_eq_none hk, List.getElem?_eq_none (by simpa using hk)]

theorem byte_of_readsBack (hfind : Finds s (slash :: storedName a.path) cwd inum)
    (hlaid : FileLaid s.buf (s.dinode inum) (blocks a.bytes.length) a.bytes)
    (hlong : NDIRECT * BSIZE < a.bytes.length) (h : ReadsBack s cwd a) :
    a.bytes[NDIRECT * BSIZE]? = some (ByteBlock.get (s.buf 1) 0) := by
  obtain ⟨ip, t, u, hname, hlock, hrec, hbuf⟩ := hfind
  obtain ⟨ip', t', u', v, hname', hlock', -, hsize, hread⟩ := h
  obtain ⟨rfl, rfl⟩ : ip = ip' ∧ t = t' := by simpa using hname.symm.trans hname'
  obtain rfl : u = u' := by simpa using hlock.symm.trans hlock'
  have hblocks : NDIRECT < blocks a.bytes.length := by
    have := div_lt_blocks hlong
    rwa [Nat.mul_div_cancel _ (by decide)] at this
  rw [← hrec] at hlaid
  rw [← hbuf]
  refine readi_behind (by omega) (fun k hk h0 => ?_) (fun h0 => ?_) hread
  · have hno : blockNo s.buf (u.itable ip).toDinode k = 0 := (if_pos hk).trans h0
    rw [hlaid.mapped k (hk.trans (by decide))] at hno
    omega
  · have := hlaid.indirect.mp h0
    omega

theorem not_readsBack_of_dir (hfind : Finds s (slash :: storedName a.path) cwd inum)
    (htype : (s.dinode inum).type = T_DIR) : ¬ ReadsBack s cwd a := by
  rintro ⟨ip', t', u', v, hname', hlock', htype', -, -⟩
  obtain ⟨ip, t, u, hname, hlock, hrec, -⟩ := hfind
  obtain ⟨rfl, rfl⟩ : ip = ip' ∧ t = t' := by simpa using hname.symm.trans hname'
  obtain rfl : u = u' := by simpa using hlock.symm.trans hlock'
  rw [hrec, htype] at htype'
  exact absurd htype' (by decide)

end Reading

/-! ## The arguments -/

/-- Arguments that `mkfs` can store under names of their own: the paths are strings, and the inode
blocks have enough records. -/
structure Storable (args : List Arg) : Prop where
  few : args.length + 2 ≤ wide.ninodes
  ok : ∀ a ∈ args, ArgOk a ∧ 0 ∉ a.path
  distinct : (args.map fun a => storedName a.path).Nodup

section Args

variable {args args' : List Arg} {m : Image} {a : Arg} {i : ℕ}

theorem shortname_subset (path : List UInt8) : shortname path ⊆ path := by
  unfold shortname
  split_ifs
  · exact List.drop_subset _ _
  · exact List.Subset.refl path

theorem storedName_subset (path : List UInt8) : storedName path ⊆ shortname path := by
  unfold storedName
  split_ifs
  · exact List.drop_subset _ _
  · exact List.Subset.refl _

theorem Storable.names_ok (h : Storable args) : ∀ p ∈ names args, NameOk p.2 ∧ slash ∉ p.2 := by
  intro p hp
  simp only [names, List.mem_cons, List.mem_map] at hp
  rcases hp with rfl | rfl | ⟨⟨b, k⟩, hb, rfl⟩
  · exact ⟨⟨by decide, by decide⟩, by decide⟩
  · exact ⟨⟨by decide, by decide⟩, by decide⟩
  · obtain ⟨hok, h0⟩ := h.ok b (List.fst_mem_of_mem_zipIdx hb)
    refine ⟨⟨fun hz => h0 ?_, hok.name⟩, fun hs => hok.slash (storedName_subset _ hs)⟩
    exact shortname_subset _ (storedName_subset _ hz)

theorem names_length (h : ∀ a ∈ args, ArgOk a) : ∀ p ∈ names args, p.2.length ≤ DIRSIZ := by
  intro p hp
  simp only [names, List.mem_cons, List.mem_map] at hp
  rcases hp with rfl | rfl | ⟨⟨b, k⟩, hb, rfl⟩
  · decide
  · decide
  · exact (h b (List.fst_mem_of_mem_zipIdx hb)).name

theorem Built.arg (h : Built m args) (hfew : args.length + 2 ≤ wide.ninodes)
    (ha : args[i]? = some a) :
    i + 2 < m.freeinode ∧ (dinodeAt sb m.disk (i + 2)).type = T_FILE ∧
      (dinodeAt sb m.disk (i + 2)).size.toNat = a.bytes.length ∧
      FileLaid m.disk (dinodeAt sb m.disk (i + 2)) (blocks a.bytes.length) a.bytes := by
  have hi := (List.getElem?_eq_some_iff.mp ha).1
  have hfree := h.freeinode
  have hcont : contents args (i + 2) = a.bytes := by
    rw [contents_file (by omega), Nat.add_sub_cancel, ha]
    rfl
  obtain ⟨htype, -, hsize⟩ := h.files (i + 2) (by omega) (by omega)
  have hlive : Live (dinodeAt sb m.disk) (i + 2) := by
    refine ⟨by omega, ?_⟩
    rw [htype]
    decide
  have hlaid := h.laid.file (i + 2) hlive
  rw [widths, hcont] at hlaid
  rw [hcont] at hsize
  exact ⟨by omega, htype, hsize, hlaid⟩

/-- **The name of an argument leads to its file**, unless the root directory has the name before. -/
theorem Storable.finds_arg (h : Storable args) (hb : Built m args) (ha : args[i]? = some a)
    (hne : storedName a.path ≠ []) (hdot : storedName a.path ≠ dot)
    (hdotdot : storedName a.path ≠ dotdot) (hdr : ℕ → ℕ → UInt32) (pid : ℕ) (cwd : Slot) :
    Finds (freshFS sb m.disk hdr pid) (slash :: storedName a.path) cwd (i + 2) := by
  have hi : (names args)[i + 2]? = some (i + 2, storedName a.path) := by
    rw [names_add_two, ha]
    rfl
  refine hb.finds h.names_ok h.few hi ?_ hne (Nat.succ_pos _) (hb.arg h.few ha).1 hdr pid cwd
  intro j hj p hp
  match j, hp with
  | 0, hp =>
    cases hp
    exact hdot.symm
  | 1, hp =>
    cases hp
    exact hdotdot.symm
  | j + 2, hp =>
    rw [names_add_two] at hp
    obtain ⟨b, hb', rfl⟩ := Option.map_eq_some_iff.mp hp
    intro heq
    have hjk : j = i := by
      refine (List.getElem?_inj ?_ h.distinct).mp ?_
      · rw [List.length_map]
        exact (List.getElem?_eq_some_iff.mp hb').1
      · rw [List.getElem?_map, List.getElem?_map, hb', ha]
        exact congrArg some heq
    omega

theorem Storable.finds_own (h : Storable args) (hb : Built m args) {name : List UInt8}
    (hname : name = [] ∨ name = dot ∨ name = dotdot) (hdr : ℕ → ℕ → UInt32) (pid : ℕ)
    (cwd : Slot) : Finds (freshFS sb m.disk hdr pid) (slash :: name) cwd ROOTINO := by
  have hfree := hb.freeinode
  have hroot : ROOTINO < m.freeinode := by
    rw [ROOTINO]
    omega
  rcases hname with rfl | rfl | rfl
  · have hknown := hb.known h.few hdr pid Nat.one_pos hroot
    refine finds_of_walk (unused_freshFS _ _ _) layout_sb hknown ?_ ?_ hknown cwd <;> rw [Walk.elements_nil]
    · exact trivial
    · rfl
  · exact hb.finds (i := 0) h.names_ok h.few rfl (fun j hj => absurd hj (Nat.not_lt_zero j))
      (by decide) (by decide) hroot hdr pid cwd
  · refine hb.finds (i := 1) h.names_ok h.few rfl (fun j hj p hp => ?_) (by decide) (by decide) hroot
      hdr pid cwd
    obtain rfl : j = 0 := by omega
    cases hp
    decide

/-! ## Arguments of the same shape -/

theorem SameShape.getElem? (h : SameShape args args') (i : ℕ) :
    args'[i]?.map Arg.shape = args[i]?.map Arg.shape := by
  rw [← List.getElem?_map, ← List.getElem?_map, h]

theorem SameShape.exists_of_mem (h : SameShape args args') {a' : Arg} (ha : a' ∈ args') :
    ∃ a ∈ args, a.shape = a'.shape := by
  have hmem : a'.shape ∈ args.map Arg.shape := h ▸ List.mem_map_of_mem ha
  exact List.mem_map.mp hmem

theorem bytes_length (a : Arg) : a.bytes.length = a.shape.2.getD 0 := by
  unfold Arg.bytes Arg.shape
  cases a.data <;> rfl

theorem SameShape.names_eq (h : SameShape args args') : names args' = names args := by
  have hzip : ∀ l : List Arg, (l.zipIdx 2).map (fun a => (a.2, storedName a.1.path)) =
      ((l.map Arg.shape).zipIdx 2).map fun p => (p.2, storedName p.1.1) := by
    intro l
    rw [List.zipIdx_map, List.map_map]
    rfl
  rw [names, names, hzip, hzip, h]

theorem SameShape.length_contents (h : SameShape args args') (i : ℕ) :
    (contents args' i).length = (contents args i).length := by
  by_cases hroot : i = ROOTINO
  · rw [contents, contents, if_pos hroot, if_pos hroot, rootEntries_eq, rootEntries_eq, h.names_eq]
  · by_cases h2 : i < 2
    · rw [contents, contents, if_neg hroot, if_neg hroot, if_pos h2, if_pos h2]
    · rw [contents_file (not_lt.mp h2), contents_file (not_lt.mp h2)]
      have hshape := h.getElem? (i - 2)
      cases h1 : args[i - 2]? with
      | none =>
        rw [h1] at hshape
        rw [Option.map_eq_none_iff.mp hshape]
      | some b =>
        rw [h1] at hshape
        obtain ⟨b', hb', hs⟩ := Option.map_eq_some_iff.mp hshape
        rw [hb']
        change b'.bytes.length = b.bytes.length
        rw [bytes_length, bytes_length, hs]

theorem Storable.of_sameShape (h : Storable args) (hs : SameShape args args') : Storable args' := by
  have hlen : args'.length = args.length := by
    have := congrArg List.length hs
    simpa using this
  refine ⟨hlen ▸ h.few, fun a' ha' => ?_, ?_⟩
  · obtain ⟨a, ha, hshape⟩ := hs.exists_of_mem ha'
    obtain ⟨⟨hslash, hdata, hname⟩, h0⟩ := h.ok a ha
    have hpath : a.path = a'.path := congrArg Prod.fst hshape
    refine ⟨⟨hpath ▸ hslash, fun hnone => hdata ?_, hpath ▸ hname⟩, hpath ▸ h0⟩
    have hd : a.data.map List.length = a'.data.map List.length := congrArg Prod.snd hshape
    rw [hnone] at hd
    exact Option.map_eq_none_iff.mp hd
  · have hmap : ∀ l : List Arg, l.map (fun a => storedName a.path) =
        (l.map Arg.shape).map fun p => storedName p.1 := by
      intro l
      rw [List.map_map]
      rfl
    rw [hmap, hs, ← hmap]
    exact h.distinct

theorem Built.room (h : Built m args) : Room (contents args) := by
  refine ⟨fun i hi => ?_, h.laid.count ▸ h.laid.hi⟩
  by_cases hlive : Live (dinodeAt sb m.disk) i
  · exact length_le_of_blocks_le (h.laid.file i hlive).le
  · have hnil : contents args i = [] := by
      have hfree := h.freeinode
      rcases Nat.lt_or_ge i (args.length + 2) with hlt | hge
      · rcases Nat.lt_or_ge i 2 with h2 | h2
        · have hne : i ≠ ROOTINO := by
            rintro rfl
            exact hlive ⟨hi, by rw [h.root.1]; decide⟩
          rw [contents, if_neg hne, if_pos h2]
        · exact absurd ⟨hi, by rw [(h.files i h2 (by omega)).1]; decide⟩ hlive
      · exact contents_behind hge
    rw [hnil]
    exact Nat.zero_le _

end Args

/-! ## Reading back -/

/-- The argument with zeros for its contents. -/
def Arg.zeroed (a : Arg) : Arg := ⟨a.path, a.data.map fun l => List.replicate l.length 0⟩

section ReadBack

variable {args : List Arg} {m : Image}

theorem shape_zeroed (a : Arg) : a.zeroed.shape = a.shape := by
  simp [Arg.zeroed, Arg.shape, comp_def]

theorem sameShape_zeroed (args : List Arg) : SameShape args (args.map Arg.zeroed) := by
  simp [SameShape, comp_def, shape_zeroed]

theorem storable_of_mkfs (hn : mkfs args = .ok m) (hlen : args.length + 1 ≤ NINODES)
    (hnul : ∀ a ∈ args, 0 ∉ a.path) (hdist : (args.map fun a => storedName a.path).Nodup) :
    Storable args ∧ Built m args := by
  have hfew : args.length + 2 ≤ wide.ninodes := by
    have h208 : wide.ninodes = 208 := rfl
    rw [NINODES] at hlen
    omega
  obtain ⟨hok, hb⟩ := built_of_mkfs hfew hn
  exact ⟨⟨hfew, fun a ha => ⟨hok a ha, hnul a ha⟩, hdist⟩, hb⟩

theorem Storable.readsBack (h : Storable args) (hb : Built m args) {a : Arg} (ha : a ∈ args)
    (hread : Readable a) (hdr : ℕ → ℕ → UInt32) (pid : ℕ) (cwd : Slot) :
    ReadsBack (freshFS sb m.disk hdr pid) cwd a := by
  obtain ⟨hlong, hne, hdot, hdotdot⟩ := hread
  obtain ⟨i, hi⟩ := List.getElem?_of_mem ha
  obtain ⟨-, htype, hsize, hlaid⟩ := hb.arg h.few hi
  exact readsBack_of_finds (h.finds_arg hb hi hne hdot hdotdot hdr pid cwd) htype hsize hlaid hlong

theorem Storable.not_readsBack_of_name (h : Storable args) (hb : Built m args) {a : Arg}
    (hname : storedName a.path = [] ∨ storedName a.path = dot ∨ storedName a.path = dotdot)
    (hdr : ℕ → ℕ → UInt32) (pid : ℕ) (cwd : Slot) :
    ¬ ReadsBack (freshFS sb m.disk hdr pid) cwd a :=
  not_readsBack_of_dir (h.finds_own hb hname hdr pid cwd) hb.root.1

theorem Storable.not_readsBack_of_long (h : Storable args) (hb : Built m args) {a : Arg}
    (ha : a.zeroed ∈ args) (hlong : NDIRECT * BSIZE < a.bytes.length) (hne : storedName a.path ≠ [])
    (hdot : storedName a.path ≠ dot) (hdotdot : storedName a.path ≠ dotdot)
    (hdr : ℕ → ℕ → UInt32) (pid : ℕ) (cwd : Slot) :
    ¬ ReadsBack (freshFS sb m.disk hdr pid) cwd a.zeroed := by
  intro hread
  obtain ⟨i, hi⟩ := List.getElem?_of_mem ha
  obtain ⟨-, -, -, hlaid⟩ := hb.arg h.few hi
  have hlen : a.zeroed.bytes.length = a.bytes.length := by
    rw [bytes_length, bytes_length, shape_zeroed]
  have hbyte := byte_of_readsBack (h.finds_arg hb hi hne hdot hdotdot hdr pid cwd) hlaid
    (hlen ▸ hlong) hread
  have hzero : a.zeroed.bytes = List.replicate a.bytes.length 0 := by
    unfold Arg.bytes Arg.zeroed
    cases a.data <;> rfl
  rw [show (freshFS sb m.disk hdr pid).buf 1 = m.disk 1 from rfl, hb.superblock, hzero,
    List.getElem?_replicate, if_pos hlong] at hbyte
  exact absurd hbyte (by decide)

/-- **The kernel reads back what `mkfs` has stored, whatever the files contain, exactly if every
file is readable.** -/
theorem readsBack_iff (hn : ∃ m, mkfs args = .ok m) (hlen : args.length + 1 ≤ NINODES)
    (hnul : ∀ a ∈ args, 0 ∉ a.path) (hdist : (args.map fun a => storedName a.path).Nodup)
    (hdr : ℕ → ℕ → UInt32) (pid : ℕ) (cwd : Slot) :
    (∀ args' m, SameShape args args' → mkfs args' = .ok m →
        ∃ s, fsinit m.disk hdr pid = .ok s ∧ ∀ a ∈ args', ReadsBack s cwd a) ↔
      ∀ a ∈ args, Readable a := by
  obtain ⟨m, hm⟩ := hn
  obtain ⟨hst, hb⟩ := storable_of_mkfs hm hlen hnul hdist
  constructor
  · intro hread a ha
    have hname : ¬ (storedName a.path = [] ∨ storedName a.path = dot ∨
        storedName a.path = dotdot) := by
      intro hname
      obtain ⟨s, hs, hall⟩ := hread args m rfl hm
      rw [hb.fsinit] at hs
      cases hs
      exact hst.not_readsBack_of_name hb hname hdr pid cwd (hall a ha)
    push Not at hname
    refine ⟨not_lt.mp fun hlong => ?_, hname⟩
    -- the same files with zeros for their contents
    have hshape := sameShape_zeroed args
    have hst' := hst.of_sameShape hshape
    obtain ⟨m', hm'⟩ := mkfs_of_room hst'.few (fun b hb => (hst'.ok b hb).1)
      (hb.room.mono fun i => (hshape.length_contents i).le)
    have hb' := (built_of_mkfs hst'.few hm').2
    obtain ⟨s, hs, hall⟩ := hread _ m' hshape hm'
    rw [hb'.fsinit] at hs
    cases hs
    have hmem : a.zeroed ∈ args.map Arg.zeroed := List.mem_map_of_mem ha
    exact hst'.not_readsBack_of_long hb' hmem hlong hname.1 hname.2.1 hname.2.2 hdr pid cwd
      (hall _ hmem)
  · intro hread args' m' hshape hm'
    have hst' := hst.of_sameShape hshape
    have hb' := (built_of_mkfs hst'.few hm').2
    refine ⟨_, hb'.fsinit hdr pid, fun a' ha' => ?_⟩
    obtain ⟨a, ha, hs⟩ := hshape.exists_of_mem ha'
    have hpath : a.path = a'.path := congrArg Prod.fst hs
    refine hst'.readsBack hb' ha' ?_ hdr pid cwd
    have hr := hread a ha
    rw [Readable, bytes_length, hs, hpath] at hr
    rwa [Readable, bytes_length]

/-- A file of zeros that needs an indirect block. -/
def longArg : Arg := ⟨[97], some (List.replicate (NDIRECT * BSIZE + 1) 0)⟩

theorem readsBack_iff_shortArg : ∃ m, mkfs [shortArg] = .ok m ∧
    ∃ s, fsinit m.disk (fun _ _ => 0) 1 = .ok s ∧ ReadsBack s firstSlot shortArg := by
  obtain ⟨m, hm⟩ := mkfs_shortArg
  obtain ⟨s, hs, hall⟩ := (readsBack_iff ⟨m, hm⟩ (by decide) (by decide) (by decide) (fun _ _ => 0) 1
    firstSlot).mpr (fun a ha => by
      rw [List.mem_singleton.mp ha]
      exact ⟨by decide, by decide, by decide, by decide⟩) [shortArg] m rfl hm
  exact ⟨m, hm, s, hs, hall _ List.mem_cons_self⟩

/-- **A file of `12289` zeros is not read back.** -/
theorem long_file_lost : ∃ m, mkfs [longArg] = .ok m ∧
    ∃ s, fsinit m.disk (fun _ _ => 0) 1 = .ok s ∧ ¬ ReadsBack s firstSlot longArg := by
  have hok : ∀ a ∈ [longArg], ArgOk a := fun a ha => by
    rw [List.mem_singleton.mp ha]
    exact ⟨by decide, by simp [longArg], by decide⟩
  obtain ⟨m, hm⟩ : ∃ m, mkfs [longArg] = .ok m :=
    mkfs_of_room (by decide) hok (room_singleton (by rw [List.length_replicate]))
  obtain ⟨hst, hb⟩ := storable_of_mkfs hm (by decide)
    (fun a ha => by rw [List.mem_singleton.mp ha]; decide) (by simp)
  have hzero : longArg.zeroed = longArg := by simp [Arg.zeroed, longArg]
  refine ⟨m, hm, _, hb.fsinit _ _, hzero ▸ hst.not_readsBack_of_long hb ?_ ?_ ?_ ?_ ?_ _ _ _⟩
  · rw [hzero]
    exact List.mem_cons_self
  · simp [Arg.bytes, longArg]
  · decide
  · decide
  · decide

end ReadBack

end RiscvOs.Mkfs
