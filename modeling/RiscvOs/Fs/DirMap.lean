import RiscvOs.Fs.Dir
import RiscvOs.Fs.Ends
import RiscvOs.Lib.SlotMap
import RiscvOs.Lib.Machine

set_option autoImplicit false

/-!
# A directory is a map from names to inode numbers

The entries of a directory are the slots of a map. Names are added by `dirlink`, and removed as
`sys_unlink` does it, by clearing the entry that `dirlookup` has found.

## Main results

* `find_eq_some_iff`, `find_eq_none_iff` — `dirlookup` searches
  the map.
* `dirlink_spec`, `unlinkEntry_spec` — adding and removing a name.
* `directory_is_map` — the laws of a map, in every state of every run.
* `dirlink_truncates` — a name of `DIRSIZ` characters is not found after it has
  been linked, and can be linked again.
-/

namespace RiscvOs.Fs.Dirs

open Function Str SlotMap Loop Machine

/-- The contents of an entry. -/
def slotOf (de : Dirent) : Option (List UInt8 × ℕ) :=
  if de.inum = 0 then none else some (strn de.name DIRSIZ, de.inum.toNat)

/-- Entry number `i` of a directory. -/
def entryAt (s : FS) (dp : Slot) (i : ℕ) : Dirent := Fs.entryAt s (s.itable dp).toDinode i

/-- The entries of a directory. -/
def slots (s : FS) (dp : Slot) (i : ℕ) : Option (List UInt8 × ℕ) :=
  if direntSize * i < (s.itable dp).size.toNat then slotOf (entryAt s dp i) else none

/-- A file of entries that the caller has locked. -/
structure DirFile (dp : Slot) (s : FS) : Prop where
  consistent : Consistent s
  lock : (s.itable dp).lock = some s.pid
  type : (s.itable dp).type = T_DIR
  size : direntSize ∣ (s.itable dp).size.toNat
  mapped : Mapped s dp

/-- A directory that the caller has locked: no name occurs twice. -/
structure Directory (dp : Slot) (s : FS) : Prop extends DirFile dp s where
  distinct : Distinct (slots s dp)

/-! ## Reading entries -/

section Read

variable {dp : Slot} {s : FS} {i : ℕ}

theorem DirFile.entry_le (h : DirFile dp s) (hi : direntSize * i < (s.itable dp).size.toNat) :
    direntSize * i + direntSize ≤ (s.itable dp).size.toNat := by
  obtain ⟨n, hn⟩ := h.size
  rw [hn] at hi ⊢
  have : i < n := Nat.lt_of_mul_lt_mul_left hi
  exact Nat.mul_le_mul_left _ this

theorem readEntry_eq {e : Panic} (h : DirFile dp s)
    (hi : direntSize * i < (s.itable dp).size.toNat) :
    readEntry e dp (direntSize * i) s = .ok (entryAt s dp i, s) :=
  readEntry_mapped (h.entry_le hi) ((h.entry_le hi).trans h.mapped.size_le) (h.mapped.addr_ne _ hi)

/-- **The search of `dirlookup`** returns an entry with the name, or there is none. -/
theorem findEntry_cases (h : DirFile dp s) (name : ℕ → UInt8) :
    (∃ j u, slots s dp j = some (strn name DIRSIZ, u) ∧
        findEntry dp name s = .ok (some (direntSize * j, u), s)) ∨
      (Absent (slots s dp) (strn name DIRSIZ) ∧ findEntry dp name s = .ok (none, s)) := by
  have hs : Searchable s (s.itable dp).toDinode name := ⟨h.size, fun k hk _ =>
    ⟨(h.entry_le hk).trans h.mapped.size_le, h.mapped.addr_ne _ hk⟩⟩
  rw [findEntry_eq hs h.type]
  cases hf : (List.range ((s.itable dp).size.toNat / direntSize)).find? fun k =>
      matchesName name (Fs.entryAt s (s.itable dp).toDinode k) with
  | some j =>
    have hmatch := List.find?_some hf
    obtain ⟨hinum, hname⟩ := matchesName_iff.mp hmatch
    refine Or.inl ⟨j, (entryAt s dp j).inum.toNat, ?_, rfl⟩
    have hj := (lt_div_direntSize h.size).mp (List.mem_range.mp (List.mem_of_find?_eq_some hf))
    rw [slots, if_pos hj, slotOf, entryAt, if_neg hinum, hname]
  | none =>
    refine Or.inr ⟨?_, rfl⟩
    rintro u ⟨j, hj⟩
    rw [slots] at hj
    split_ifs at hj with hlt
    rw [slotOf] at hj
    split_ifs at hj with h0
    have hname := (Prod.mk.inj (Option.some.inj hj)).1
    exact List.find?_eq_none.mp hf j (List.mem_range.mpr ((lt_div_direntSize h.size).mpr hlt))
      (matchesName_iff.mpr ⟨h0, hname.symm⟩)

theorem linkLoop_eq (h : DirFile dp s) (fuel i : ℕ) (de : Dirent)
    (hi : direntSize * i ≤ (s.itable dp).size.toNat)
    (hfuel : (s.itable dp).size.toNat < direntSize * (i + fuel)) :
    ∃ j de', linkLoop dp fuel (direntSize * i) de s = .ok ((direntSize * j, de'), s) ∧
      direntSize * j ≤ (s.itable dp).size.toNat ∧ slots s dp j = none ∧
      ∀ m, i ≤ m → m < j → slots s dp m ≠ none := by
  induction fuel generalizing i de with
  | zero =>
    rw [Nat.add_zero] at hfuel
    omega
  | succ fuel ih =>
    rw [linkLoop]
    by_cases hlt : direntSize * i < (s.itable dp).size.toNat
    · rw [if_pos hlt, readEntry_eq h hlt]
      by_cases h0 : (entryAt s dp i).inum = 0
      · refine ⟨i, entryAt s dp i, if_pos h0, hi, ?_, fun m h1 h2 => absurd h1 (by omega)⟩
        rw [slots, if_pos hlt, slotOf, if_pos h0]
      · obtain ⟨j, de', heq, hj, hnone, hbefore⟩ := ih (i + 1) (entryAt s dp i)
          (by rw [Nat.mul_succ]; exact h.entry_le hlt) (by rwa [Nat.add_right_comm])
        refine ⟨j, de', (if_neg h0).trans heq, hj, hnone, fun m h1 h2 => ?_⟩
        rcases Nat.eq_or_lt_of_le h1 with rfl | h1
        · rw [slots, if_pos hlt, slotOf, if_neg h0]
          exact Option.some_ne_none _
        · exact hbefore m h1 h2
    · refine ⟨i, de, if_neg hlt, hi, ?_, fun m h1 h2 => absurd h1 (by omega)⟩
      rw [slots, if_neg hlt]

end Read

/-! ## Writing entries -/

section Write

variable {dp : Slot} {s t : FS} {i j : ℕ} {de : Dirent}

theorem entryAt_congr (h : ∀ k, k < direntSize →
    fileByte t dp (direntSize * i + k) = fileByte s dp (direntSize * i + k)) :
    entryAt t dp i = entryAt s dp i := by
  funext k
  exact h k k.isLt

theorem DirFile.keep (h : DirFile dp s) (hc : Consistent t) (hpid : t.pid = s.pid) {r : ℕ}
    (hslot : t.itable dp = { s.itable dp with ref := r })
    (hdata : ∀ b, s.sb.dataStart ≤ b → b < s.sb.size → t.buf b = s.buf b) :
    DirFile dp t ∧ slots t dp = slots s dp := by
  obtain ⟨hpos, hv⟩ := h.consistent.table.locked dp _ h.lock
  refine ⟨⟨hc, ?_, ?_, ?_, ?_⟩, ?_⟩
  · rw [hslot, hpid]
    exact h.lock
  · rw [hslot]
    exact h.type
  · rw [hslot]
    exact h.size
  · constructor
    · rw [hslot]
      exact h.mapped.size_le
    · rw [hslot]
      exact h.mapped.addr_ne
  · funext i
    rw [slots, slots, hslot]
    split_ifs with hi
    · have hle := h.entry_le hi
      congr 1
      refine entryAt_congr fun k hk => ?_
      have ha := h.mapped.addr_ne (direntSize * i + k) (by omega)
      have hr := h.consistent.addr_range hpos hv ha
      rw [fileByte, fileByte, hslot]
      exact congrArg (ByteBlock.get · _) (hdata _ hr.1 hr.2)
    · rfl

theorem entryAt_outside {src : Source} {tot e : ℕ} (h : DirFile dp s)
    (hw : WriteDone dp src (direntSize * j) direntSize s tot e t)
    (hi : direntSize * i < (s.itable dp).size.toNat) (he : i ≠ j ∨ e = direntSize * j) :
    entryAt t dp i = entryAt s dp i := by
  have hle := h.entry_le hi
  have hend := hw.le_end
  refine entryAt_congr fun k hk => hw.outside _ ?_ (h.mapped.addr_ne _ (by omega))
  rcases he with hne | he
  · have hd : direntSize = 16 := rfl
    rw [hd] at hend hk ⊢
    omega
  · omega

/-- **A directory after a write of one entry**: nothing has changed, or the entry has. -/
theorem DirFile.written {tot e : ℕ} (h : DirFile dp s)
    (hw : WriteDone dp (kernelSrc (ByteBlock.get de)) (direntSize * j) direntSize s tot e t) :
    DirFile dp t ∧ ((tot ≠ direntSize ∧ slots t dp = slots s dp) ∨
      (tot = direntSize ∧ slots t dp = update (slots s dp) j (slotOf de))) := by
  have hd : direntSize = 16 := rfl
  have he : e = direntSize * j + tot := hw.total fun _ _ => rfl
  subst he
  have hend := hw.le_end
  have hoff := hw.off_le
  -- the entry lies in one block
  have htot : tot = 0 ∨ tot = direntSize := by
    rcases hw.aligned with h0 | hal | hfull
    · exact Or.inl h0
    · have hB : BSIZE = 1024 := rfl
      rw [hB] at hal
      rw [hd] at hal hend ⊢
      omega
    · exact Or.inr hfull
  have hfile : DirFile dp t := by
    refine ⟨hw.consistent, ?_, ?_, ?_, ?_, fun k hk => ?_⟩
    · rw [hw.self, hw.pid]
      exact h.lock
    · rw [hw.self]
      exact h.type
    · rw [hw.size]
      rcases htot with rfl | rfl
      · rw [Nat.add_zero, Nat.max_eq_left hoff]
        exact h.size
      · rcases le_total (s.itable dp).size.toNat (direntSize * j + direntSize) with hle | hle
        · rw [Nat.max_eq_right hle, ← Nat.mul_succ]
          exact Nat.dvd_mul_right _ _
        · rw [Nat.max_eq_left hle]
          exact h.size
    · have hdir := hw.direct
      rw [Nat.max_eq_right (hoff.trans h.mapped.size_le)] at hdir
      rw [hw.size]
      exact Nat.max_le.mpr ⟨h.mapped.size_le, hdir⟩
    · rw [hw.size] at hk
      by_cases hlt : k < (s.itable dp).size.toNat
      · rw [hw.addr _ (h.mapped.addr_ne k hlt)]
        exact h.mapped.addr_ne k hlt
      · exact (hw.inside k (by omega) (by omega)).1
  refine ⟨hfile, ?_⟩
  rcases htot with rfl | rfl
  · refine Or.inl ⟨by decide, ?_⟩
    have hsize : (t.itable dp).size.toNat = (s.itable dp).size.toNat := by
      rw [hw.size, Nat.add_zero, Nat.max_eq_left hoff]
    funext i
    rw [slots, slots, hsize]
    split_ifs with hi
    · rw [entryAt_outside h hw hi (Or.inr rfl)]
    · rfl
  · refine Or.inr ⟨rfl, ?_⟩
    funext i
    by_cases hij : i = j
    · subst hij
      have hbytes : entryAt t dp i = de := by
        funext k
        have hk := (hw.inside (direntSize * i + k) (by omega) (by omega)).2
        rw [Nat.add_sub_cancel_left] at hk
        exact hk.trans (dif_pos k.isLt)
      rw [update_self, slots, hw.size, if_pos (by omega), hbytes]
    · rw [update_of_ne hij, slots, slots, hw.size]
      by_cases hi : direntSize * i < (s.itable dp).size.toNat
      · rw [if_pos (by omega), if_pos hi, entryAt_outside h hw hi (Or.inl hij)]
      · have hnot : ¬ direntSize * i < direntSize * j + direntSize := by
          rw [hd] at hoff hi ⊢
          omega
        rw [if_neg (by omega), if_neg hi]

/-- **Writing an entry** at the end of the directory or in front of it. -/
theorem writei_entry {r : Option ℕ} (h : DirFile dp s) (j : ℕ) (de : Dirent)
    (hno : ¬ Gets s dp (kernelSrc (ByteBlock.get de)) (direntSize * j) direntSize NDIRECT)
    (hn : writei dp (kernelSrc (ByteBlock.get de)) (direntSize * j) direntSize s = .ok (r, t)) :
    DirFile dp t ∧ ((r ≠ some direntSize ∧ slots t dp = slots s dp) ∨
      (r = some direntSize ∧ slots t dp = update (slots s dp) j (slotOf de))) := by
  obtain ⟨r', t', heq, hcases⟩ := writei_writes h.consistent h.lock (Or.inr hno)
  cases heq.symm.trans hn
  rcases hcases with ⟨rfl, rfl⟩ | ⟨tot, e, rfl, hw⟩
  · exact ⟨h, Or.inl ⟨by simp, rfl⟩⟩
  · obtain ⟨hf, hslots⟩ := h.written hw
    exact ⟨hf, by simpa using hslots⟩

/-- There is room for one more entry in the direct blocks; or else there is no block for the indirect block. -/
def Room (dp : Slot) (s : FS) : Prop :=
  (∃ i, direntSize * i < NDIRECT * BSIZE ∧ slots s dp i = none) ∨
    ((s.itable dp).addr NDIRECT = 0 ∧ ∀ b < s.sb.size, s.used b = true)

theorem Room.not_gets {src : Source} (h : Room dp s) (hbefore : ∀ m, 0 ≤ m → m < j → slots s dp m ≠ none) :
    ¬ Gets s dp src (direntSize * j) direntSize NDIRECT := by
  rcases h with ⟨i, hi, hnone⟩ | ⟨h0, hused⟩
  · have hij : j ≤ i := by
      by_contra hlt
      exact hbefore i (Nat.zero_le i) (by omega) hnone
    refine not_gets_of_le ?_
    rw [show NDIRECT * BSIZE = direntSize * 768 from rfl, ← Nat.mul_succ] at *
    exact Nat.mul_le_mul_left _ (hij.trans_lt (Nat.lt_of_mul_lt_mul_left hi))
  · rintro ⟨-, -, hle⟩
    have hfree : s.free = ∅ := by
      ext b
      rw [mem_free]
      refine iff_of_false (fun hb => ?_) (Finset.notMem_empty b)
      exact Bool.false_ne_true (hb.2.symm.trans (hused b hb.1))
    rw [hfree, Finset.card_empty, lacking_succ _ (Nat.min_le_right _ _), if_pos h0] at hle
    omega

end Write

/-! ## Looking up, adding and removing names -/

/-- A name as `skipelem` produces it. -/
structure Name (l : List UInt8) : Prop where
  pos : 0 < l.length
  le : l.length ≤ DIRSIZ
  nul : 0 ∉ l
  slash : 47 ∉ l

/-- The inode number for which `dirlookup` calls `iget`, if it finds the name. -/
def find (dp : Slot) (l : List UInt8) (s : FS) : Except Panic (Option ℕ) :=
  (findEntry dp (cstr l) s).map fun r => r.1.map Prod.snd

/-- The removal of a name as in `sys_unlink`: the entry that `dirlookup` has found is overwritten
with zeroes. -/
def unlinkEntry (dp : Slot) (name : ℕ → UInt8) (s : FS) : Except Panic FS := do
  let (r, s) ← dirlookup dp name s
  match r with
  | none => .ok s
  | some (_, off) => do
    let (r, s) ← writei dp (kernelSrc fun _ => 0) off direntSize s
    if r = some direntSize then .ok s else .error .unlinkWrite

section Names

variable {dp ip : Slot} {s t : FS} {l : List UInt8} {u : ℕ}

theorem Name.strn_cstr (h : Name l) : strn (cstr l) DIRSIZ = l := Str.strn_cstr h.nul h.le

theorem find_cases (h : DirFile dp s) (hl : Name l) :
    (∃ u, Maps (slots s dp) l u ∧ find dp l s = .ok (some u)) ∨
      (Absent (slots s dp) l ∧ find dp l s = .ok none) := by
  have hc := findEntry_cases h (cstr l)
  rw [hl.strn_cstr] at hc
  rcases hc with ⟨j, u, hj, heq⟩ | ⟨hno, heq⟩
  · refine Or.inl ⟨u, ⟨j, hj⟩, ?_⟩
    rw [find, heq]
    rfl
  · refine Or.inr ⟨hno, ?_⟩
    rw [find, heq]
    rfl

/-- **`dirlookup` finds what the map contains.** -/
theorem find_eq_some_iff (h : Directory dp s) (hl : Name l) :
    find dp l s = .ok (some u) ↔ Maps (slots s dp) l u := by
  rcases find_cases h.toDirFile hl with ⟨v, hv, heq⟩ | ⟨hno, heq⟩
  · rw [heq]
    constructor
    · intro he
      cases he
      exact hv
    · intro hu
      rw [h.distinct.value_unique hv hu]
  · rw [heq]
    exact iff_of_false (by simp) (hno u)

theorem find_eq_none_iff (h : Directory dp s) (hl : Name l) :
    find dp l s = .ok none ↔ Absent (slots s dp) l := by
  rcases find_cases h.toDirFile hl with ⟨v, hv, heq⟩ | ⟨hno, heq⟩
  · rw [heq]
    exact iff_of_false (by simp) fun hno => hno v hv
  · rw [heq]
    exact iff_of_true rfl hno

theorem find_congr (hs : Directory dp s) (ht : Directory dp t) (hl : Name l)
    (h : ∀ u, Maps (slots t dp) l u ↔ Maps (slots s dp) l u) : find dp l t = find dp l s := by
  rcases find_cases hs.toDirFile hl with ⟨v, hv, heq⟩ | ⟨hno, heq⟩
  · rw [heq, find_eq_some_iff ht hl, h]
    exact hv
  · rw [heq, find_eq_none_iff ht hl]
    exact fun u hu => hno u ((h u).mp hu)

theorem DirFile.iget {inum : ℕ} (h : DirFile dp s) (hn : Fs.iget ROOTDEV inum s = .ok (ip, t)) :
    (DirFile dp t ∧ slots t dp = slots s dp) ∧ Droppable ip t ∧ (t.itable ip).inum = inum := by
  obtain ⟨hpos, -⟩ := h.consistent.table.locked dp _ h.lock
  obtain ⟨hc, hd⟩ := h.consistent.iget hn
  have hinum := (h.consistent.table.iget hn).2.2
  rcases iget_cases hn with ⟨-, -, -, rfl⟩ | ⟨-, h0, rfl⟩
  · refine ⟨?_, hd, hinum⟩
    by_cases hdp : dp = ip
    · subst hdp
      exact h.keep hc rfl (FS.setInode_same _ _ _) fun _ _ _ => rfl
    · exact h.keep hc rfl (FS.setInode_of_ne _ _ _ hdp) fun _ _ _ => rfl
  · -- the slot that is taken is not the one of the directory, which is in use
    have hdp : dp ≠ ip := by
      rintro rfl
      omega
    exact ⟨h.keep hc rfl (FS.setInode_of_ne _ _ _ hdp) fun _ _ _ => rfl, hd, hinum⟩

theorem DirFile.iput (h : DirFile dp s) (hd : Droppable ip s) (hs : Settled ip s) (hn : Fs.iput ip s = .ok t) :
    DirFile dp t ∧ slots t dp = slots s dp := by
  have hdrop := (hs.dropped h.consistent hd).of_eq_ok hn
  by_cases hdp : dp = ip
  · subst hdp
    have hlt : 1 < (s.itable dp).ref := by
      rcases hd.2 with hnone | hlt
      · rw [h.lock] at hnone
        cases hnone
      · exact hlt
    exact h.keep hdrop.consistent hdrop.pid (hdrop.shared hlt) hdrop.data
  · exact h.keep hdrop.consistent hdrop.pid (hdrop.other dp hdp) hdrop.data

theorem Directory.of_slots (h : Directory dp s) (ht : DirFile dp t ∧ slots t dp = slots s dp) : Directory dp t := by
  refine ⟨ht.1, ?_⟩
  rw [ht.2]
  exact h.distinct

theorem noteRange_cases (s : FS) (inum : ℕ) : s.noteRange inum = s ∨ s.noteRange inum = s.note .range := by
  rw [FS.noteRange]
  split_ifs
  · exact Or.inl rfl
  · exact Or.inr rfl

theorem DirFile.noteRange (h : DirFile dp s) (inum : ℕ) :
    DirFile dp (s.noteRange inum) ∧ slots (s.noteRange inum) dp = slots s dp := by
  rcases noteRange_cases s inum with heq | heq
  · rw [heq]
    exact ⟨h, rfl⟩
  · rw [heq]
    exact ⟨{ h with
      consistent := h.consistent.of_table (h.consistent.table.congr rfl rfl rfl) rfl rfl
      mapped := ⟨h.mapped.size_le, h.mapped.addr_ne⟩ }, rfl⟩

theorem dirlookup_spec {name : ℕ → UInt8} {r : Option (Slot × ℕ)} (h : DirFile dp s)
    (hn : dirlookup dp name s = .ok (r, t)) :
    (DirFile dp t ∧ slots t dp = slots s dp) ∧
      ((r = none ∧ Absent (slots s dp) (strn name DIRSIZ) ∧ t = s) ∨
        ∃ ip j u, r = some (ip, direntSize * j) ∧ slots s dp j = some (strn name DIRSIZ, u) ∧
          Droppable ip t ∧ (t.itable ip).inum = u ∧ (¬ Stale s u → Settled ip t)) := by
  obtain ⟨hpos, -⟩ := h.consistent.table.locked dp _ h.lock
  rw [dirlookup] at hn
  rcases findEntry_cases h name with ⟨j, u, hj, heq⟩ | ⟨hno, heq⟩
  · rw [heq, ok_bind] at hn
    dsimp only at hn
    rw [h.consistent.table.dev dp hpos] at hn
    obtain ⟨⟨ip, v⟩, hget, hn⟩ := bind_eq_ok.mp hn
    cases hn
    obtain ⟨hr, hrs⟩ := h.noteRange u
    obtain ⟨⟨hf, hs⟩, hd, hinum⟩ := hr.iget hget
    refine ⟨⟨hf, hs.trans hrs⟩, Or.inr ⟨ip, j, u, rfl, hj, hd, hinum, fun hstale => ?_⟩⟩
    refine settled_iget hr.consistent.table ?_ hget
    rcases noteRange_cases s u with hsame | hsame
    · rwa [hsame]
    · rw [hsame]
      exact hstale
  · rw [heq] at hn
    cases hn
    exact ⟨⟨h, rfl⟩, Or.inl ⟨rfl, hno, rfl⟩⟩

theorem strn_fill (de : Dirent) (name : ℕ → UInt8) (u : ℕ) :
    strn (de.fill name u).name DIRSIZ = (strn name DIRSIZ).take (DIRSIZ - 1) := by
  rw [← strn_safestrcpy de.name name DIRSIZ]
  refine strn_congr fun i hi => ?_
  rw [Dirent.name, Dirent.fill, ByteBlock.setU16, ByteBlock.get_splice_of_not_mem _ _ (by omega),
    ByteBlock.get_splice_of_mem _ _ (by simp only [direntSize]; omega) (by omega) (by omega),
    Nat.add_sub_cancel_left]

theorem slotOf_fill (de : Dirent) (name : ℕ → UInt8) (hu : 0 < u) (h16 : u < 2 ^ 16) :
    slotOf (de.fill name u) = some ((strn name DIRSIZ).take (DIRSIZ - 1), u) := by
  have hinum : (de.fill name u).inum = UInt16.ofNat u := by
    rw [Dirent.inum, Dirent.fill, ByteBlock.u16_setU16 _ _ (by decide)]
  have htoNat : (UInt16.ofNat u).toNat = u := by
    exact Nat.mod_eq_of_lt h16
  have hne : UInt16.ofNat u ≠ 0 := by
    intro h0
    rw [h0] at htoNat
    exact hu.ne htoNat
  rw [slotOf, hinum, if_neg hne, strn_fill, htoNat]

/-- **`dirlink`** fails without a trace, or adds a name that was absent. -/
theorem dirlink_spec {junk : Dirent} {b : Bool} (h : Directory dp s) (hl : Name l) (hlen : l.length < DIRSIZ)
    (hu : 0 < u) (h16 : u < 2 ^ 16) (hroom : Absent (slots s dp) l → Room dp s)
    (hstale : ∀ v, Maps (slots s dp) l v → ¬ Stale s v) (hn : dirlink dp (cstr l) u junk s = .ok (b, t)) :
    Directory dp t ∧ ((b = false ∧ slots t dp = slots s dp) ∨
      (b = true ∧ Absent (slots s dp) l ∧ ∃ j, slots s dp j = none ∧
        slots t dp = update (slots s dp) j (some (l, u)))) := by
  rw [dirlink] at hn
  obtain ⟨⟨found, s₁⟩, hfind, hrest⟩ := bind_eq_ok.mp hn
  obtain ⟨⟨hd₁, hs₁⟩, hcases⟩ := dirlookup_spec h.toDirFile hfind
  rw [hl.strn_cstr] at hcases
  rcases hcases with ⟨rfl, hno, rfl⟩ | ⟨ip, j, v, rfl, hj, hdrop, -, hsettled⟩
  · have hpos : 0 < direntSize := by decide
    obtain ⟨j, de, heq, -, hj, hbefore⟩ := linkLoop_eq h.toDirFile
      ((s₁.itable dp).size.toNat / direntSize + 1) 0 junk (by simp)
      (by rw [Nat.zero_add]; exact Nat.lt_mul_div_succ _ hpos)
    rw [Nat.mul_zero] at heq
    dsimp only at hrest
    rw [heq, ok_bind] at hrest
    obtain ⟨⟨r, t'⟩, hw, hend⟩ := bind_eq_ok.mp hrest
    cases hend
    obtain ⟨hf, ⟨hne, hs⟩ | ⟨rfl, hs⟩⟩ := writei_entry h.toDirFile j (de.fill (cstr l) u)
      ((hroom hno).not_gets hbefore) hw
    · exact ⟨h.of_slots ⟨hf, hs⟩, Or.inl ⟨by simpa using hne, hs⟩⟩
    · rw [slotOf_fill de (cstr l) hu h16, hl.strn_cstr, List.take_of_length_le (by omega)] at hs
      refine ⟨⟨hf, ?_⟩, Or.inr ⟨by simp, hno, j, hj, hs⟩⟩
      rw [hs]
      exact h.distinct.put hno
  · -- the name exists: the pointer is dropped
    obtain ⟨t', hput, hend⟩ := bind_eq_ok.mp hrest
    cases hend
    obtain ⟨hf, hs⟩ := hd₁.iput hdrop (hsettled (hstale v ⟨j, hj⟩)) hput
    exact ⟨h.of_slots ⟨hf, hs.trans hs₁⟩, Or.inl ⟨rfl, hs.trans hs₁⟩⟩

/-- **Removing a name** leaves the other names. -/
theorem unlinkEntry_spec (h : Directory dp s) (hl : Name l) (hn : unlinkEntry dp (cstr l) s = .ok t) :
    Directory dp t ∧ ((Absent (slots s dp) l ∧ slots t dp = slots s dp) ∨
      ∃ j u, slots s dp j = some (l, u) ∧ slots t dp = update (slots s dp) j none) := by
  rw [unlinkEntry] at hn
  obtain ⟨⟨found, s₁⟩, hfind, hrest⟩ := bind_eq_ok.mp hn
  obtain ⟨⟨hd₁, hs₁⟩, hcases⟩ := dirlookup_spec h.toDirFile hfind
  rw [hl.strn_cstr] at hcases
  rcases hcases with ⟨rfl, hno, rfl⟩ | ⟨ip, j, v, rfl, hj, -⟩
  · cases hrest
    exact ⟨h, Or.inl ⟨hno, rfl⟩⟩
  · obtain ⟨⟨r, t'⟩, hw, hend⟩ := bind_eq_ok.mp hrest
    have hzero : (kernelSrc fun _ => 0) = kernelSrc (ByteBlock.get (fun _ => 0 : Dirent)) := by
      funext i
      rw [kernelSrc, kernelSrc, ByteBlock.get]
      split_ifs <;> rfl
    rw [hzero] at hw
    -- the entry lies in front of the end of the directory
    have hin : direntSize * j + direntSize ≤ NDIRECT * BSIZE := by
      rw [← hs₁, slots] at hj
      split_ifs at hj with hlt
      exact (hd₁.entry_le hlt).trans hd₁.mapped.size_le
    obtain ⟨hf, hw'⟩ := writei_entry hd₁ j _ (not_gets_of_le hin) hw
    dsimp only at hend
    split_ifs at hend with hok
    cases hend
    obtain ⟨hne, -⟩ | ⟨-, hs⟩ := hw'
    · exact absurd hok hne
    · have hfree : slotOf (fun _ => 0 : Dirent) = none := by decide
      rw [hfree, hs₁] at hs
      refine ⟨⟨hf, ?_⟩, Or.inr ⟨j, v, hj, hs⟩⟩
      rw [hs]
      exact h.distinct.clear

end Names

/-! ## Runs -/

/-- The calls of the process that has locked the directory; `drop` is `iput` of one of the
pointers that `dirlookup` has returned. -/
inductive Op where
  | link (l : List UInt8) (inum : ℕ) (junk : Dirent)
  | unlink (l : List UInt8)
  | drop (ip : Slot)

/-- One call. -/
def next (dp : Slot) (s : FS) : Op → Except Panic FS
  | .link l inum junk => (dirlink dp (cstr l) inum junk s).map Prod.snd
  | .unlink l => unlinkEntry dp (cstr l) s
  | .drop ip => iput ip s

/-- The condition on a call, before it is made. A name that is linked is shorter than `DIRSIZ` and its inode number
fits into an entry; there is room for a name that is absent, and `iget` does not take a slot without links for one
that exists. A pointer that is dropped is not the last one to a slot that was not read, unless the slot has links. -/
def Legal (dp : Slot) (s : FS) : Op → Prop
  | .link l inum _ => Name l ∧ l.length < DIRSIZ ∧ 0 < inum ∧ inum < 2 ^ 16 ∧
      (Absent (slots s dp) l → Room dp s) ∧ ∀ u, Maps (slots s dp) l u → ¬ Stale s u
  | .unlink l => Name l
  | .drop ip => Droppable ip s ∧ Settled ip s

section Runs

variable {dp : Slot} {s₀ s t : FS}

theorem Directory.step {op : Op} (h : Directory dp s) (hl : Legal dp s op)
    (hn : next dp s op = .ok t) : Directory dp t := by
  cases op with
  | link l inum junk =>
    obtain ⟨hname, hlen, h0, h16, hroom, hstale⟩ := hl
    rw [next] at hn
    cases hd : dirlink dp (cstr l) inum junk s with
    | error e =>
      rw [hd] at hn
      cases hn
    | ok r =>
      rw [hd] at hn
      cases hn
      exact (dirlink_spec h hname hlen h0 h16 hroom hstale hd).1
  | unlink l => exact (unlinkEntry_spec h hl hn).1
  | drop ip => exact h.of_slots (h.toDirFile.iput hl.1 hl.2 hn)

/-- **A directory is a map.** In every state that legal calls reach, no two entries in use have
the same name; `dirlookup` returns the inode number that the search finds; `dirlink` succeeds
only with a name that is absent, which is found afterwards, and a removed name is not found;
the other names are looked up with the same results before and after. -/
theorem directory_is_map (h₀ : Directory dp s₀)
    (hr : Reach (next dp) (Legal dp) s₀ s) :
    Distinct (slots s dp) ∧
      (∀ l r t, Name l → dirlookup dp (cstr l) s = .ok (r, t) →
        find dp l s = .ok (r.map fun x => (t.itable x.1).inum)) ∧
      (∀ l inum junk t, Legal dp s (.link l inum junk) →
        dirlink dp (cstr l) inum junk s = .ok (true, t) →
          find dp l s = .ok none ∧ find dp l t = .ok (some inum) ∧
            ∀ l', Name l' → l' ≠ l → find dp l' t = find dp l' s) ∧
      (∀ l inum junk t, Legal dp s (.link l inum junk) →
        dirlink dp (cstr l) inum junk s = .ok (false, t) →
          ∀ l', Name l' → find dp l' t = find dp l' s) ∧
      (∀ l t, Legal dp s (.unlink l) → unlinkEntry dp (cstr l) s = .ok t →
        find dp l t = .ok none ∧ ∀ l', Name l' → l' ≠ l → find dp l' t = find dp l' s) := by
  have h : Directory dp s := hr.invariant h₀ fun h hl hn => h.step hl hn
  -- a legal `dirlink` leaves a directory, and does one of two things to its entries
  have hlink : ∀ l inum junk b t, Legal dp s (.link l inum junk) →
      dirlink dp (cstr l) inum junk s = .ok (b, t) → Name l ∧ Directory dp t ∧
        ((b = false ∧ slots t dp = slots s dp) ∨ (b = true ∧ Absent (slots s dp) l ∧
          ∃ j, slots s dp j = none ∧
            slots t dp = update (slots s dp) j (some (l, inum)))) := by
    intro l inum junk b t ⟨hname, hlen, h0, h16, hroom, hstale⟩ hn
    exact ⟨hname, dirlink_spec h hname hlen h0 h16 hroom hstale hn⟩
  refine ⟨h.distinct, ?_, ?_, ?_, ?_⟩
  · intro l r t hl hn
    obtain ⟨-, hcases⟩ := dirlookup_spec h.toDirFile hn
    rw [hl.strn_cstr] at hcases
    rcases hcases with ⟨rfl, hno, -⟩ | ⟨ip, j, u, rfl, hj, -, hinum, -⟩
    · exact (find_eq_none_iff h hl).mpr hno
    · refine (find_eq_some_iff h hl).mpr ⟨j, ?_⟩
      rw [hj]
      exact congrArg (fun v => some (l, v)) hinum.symm
  · intro l inum junk t hl hn
    obtain ⟨hname, ht, ⟨hb, -⟩ | ⟨-, hno, j, hj, hs⟩⟩ := hlink l inum junk true t hl hn
    · cases hb
    · refine ⟨(find_eq_none_iff h hname).mpr hno, ?_, fun l' hl' hne => ?_⟩
      · rw [find_eq_some_iff ht hname, hs]
        exact ⟨j, update_self ..⟩
      · refine find_congr h ht hl' fun u => ?_
        rw [hs, maps_put hj]
        exact or_iff_left fun hc => hne hc.1
  · intro l inum junk t hl hn l' hl'
    obtain ⟨-, ht, ⟨-, hs⟩ | ⟨hb, -⟩⟩ := hlink l inum junk false t hl hn
    · exact find_congr h ht hl' fun u => by rw [hs]
    · cases hb
  · intro l t hl hn
    obtain ⟨ht, hcases⟩ := unlinkEntry_spec h hl hn
    rcases hcases with ⟨hno, hs⟩ | ⟨j, u, hj, hs⟩
    · refine ⟨?_, fun l' hl' _ => find_congr h ht hl' fun u => by rw [hs]⟩
      rw [find_eq_none_iff ht hl, hs]
      exact hno
    · refine ⟨?_, fun l' hl' hne => find_congr h ht hl' fun v => ?_⟩
      · rw [find_eq_none_iff ht hl, hs]
        intro v hv
        exact ((h.distinct.maps_clear hj).mp hv).2 rfl
      · rw [hs, h.distinct.maps_clear hj]
        exact and_iff_left hne

end Runs

/-! ## A new directory -/

/-- Allocate and lock a directory. -/
def newDir : Except Panic FS := do
  let (_, s) ← ialloc ROOTDEV T_DIR smallFS
  ilock firstSlot s

/-- The small file system with a new directory in the first slot. -/
def dirFS : FS := newDir.toOption.getD smallFS

theorem newDir_eq : newDir = .ok dirFS := by
  have h : newDir.toOption.isSome = true := by decide
  rw [dirFS]
  cases hn : newDir with
  | ok s => rfl
  | error e =>
    rw [hn] at h
    cases h

theorem size_dirFS : (dirFS.itable firstSlot).size.toNat = 0 := by decide

theorem slots_dirFS (i : ℕ) : slots dirFS firstSlot i = none := by
  rw [slots, size_dirFS, if_neg (Nat.not_lt_zero _)]

theorem directory_dirFS : Directory firstSlot dirFS := by
  have hslot : (dirFS.itable firstSlot).lock = some dirFS.pid ∧
      (dirFS.itable firstSlot).type = T_DIR ∧ (dirFS.itable firstSlot).inum < dirFS.sb.records := by
    decide
  obtain ⟨hlock, htype, hrange⟩ := hslot
  have hsize := size_dirFS
  refine ⟨⟨?_, hlock, htype, ?_, ?_, fun k hk => ?_⟩, distinct_empty slots_dirFS⟩
  · obtain ⟨⟨r, s₁⟩, h1, h2⟩ := bind_eq_ok.mp newDir_eq
    have hc : Consistent s₁ := by
      cases r with
      | some ip => exact (consistent_smallFS.ialloc h1).1
      | none => exact ialloc_eq_none h1 ▸ consistent_smallFS
    obtain ⟨hsb, hsame⟩ := ilock_same h2
    rw [(hsame firstSlot).2, hsb] at hrange
    exact hc.ilock hrange h2
  · rw [hsize]
    exact Nat.dvd_zero _
  · rw [hsize]
    exact Nat.zero_le _
  · rw [hsize] at hk
    exact absurd hk (Nat.not_lt_zero k)

/-- The names `a`, and fourteen times `b`. -/
def shortName : List UInt8 := [97]

def longName : List UInt8 := List.replicate DIRSIZ 98

theorem name_shortName : Name shortName := ⟨by decide, by decide, by decide, by decide⟩

theorem name_longName : Name longName := ⟨by decide, by decide, by decide, by decide⟩

theorem eq_ok_of_map {x : Except Panic (Bool × FS)} {b : Bool} {t : FS}
    (hb : (x.map Prod.fst).toOption = some b) (ht : x.map Prod.snd = .ok t) : x = .ok (b, t) := by
  cases x with
  | error e => cases ht
  | ok r =>
    cases hb
    cases ht
    rfl

/-- The directory after the name `a` was linked. -/
def linkedFS : FS := after (next firstSlot) dirFS [.link shortName 1 fun _ => 0]

theorem directory_is_map_shortName : find firstSlot shortName linkedFS = .ok (some 1) := by
  have hn : next firstSlot dirFS (.link shortName 1 fun _ => 0) = .ok linkedFS :=
    (exec_singleton ..).symm.trans (exec_eq_after (by decide))
  have hl : Legal firstSlot dirFS (.link shortName 1 fun _ => 0) := by
    refine ⟨name_shortName, by decide, by decide, by decide, fun _ => Or.inl ⟨0, by decide, slots_dirFS 0⟩, ?_⟩
    rintro u ⟨i, hi⟩
    rw [slots_dirFS] at hi
    cases hi
  have hd : dirlink firstSlot (cstr shortName) 1 (fun _ => 0) dirFS = .ok (true, linkedFS) :=
    eq_ok_of_map (by decide) hn
  exact ((directory_is_map directory_dirFS .refl).2.2.1 shortName 1 _ _ hl hd).2.1

theorem dirlink_truncates :
    Directory firstSlot dirFS ∧ Name longName ∧
      let s₁ := after (next firstSlot) dirFS [.link longName 1 fun _ => 0]
      let s₂ := after (next firstSlot) s₁ [.link longName 1 fun _ => 0]
      ((dirlink firstSlot (cstr longName) 1 (fun _ => 0) dirFS).map Prod.fst).toOption = some true ∧
        (find firstSlot longName s₁).toOption = some none ∧
        ((dirlink firstSlot (cstr longName) 1 (fun _ => 0) s₁).map Prod.fst).toOption = some true ∧
        slots s₂ firstSlot 0 = some (longName.take 13, 1) ∧
        slots s₂ firstSlot 1 = some (longName.take 13, 1) := by
  refine ⟨directory_dirFS, name_longName, ?_⟩
  decide

end RiscvOs.Fs.Dirs
