import RiscvOs.Fs.Making
import RiscvOs.Fs.Walk

set_option autoImplicit false

/-!
# Calls that take none of the recorded branches

Whether `create` and `sys_unlink` come to one of the recorded branches can be told from the state before the call:
from the directories on the way, the entries in them, and the room in the parent directory. This module
states the conditions and follows the two functions under them.

## Main results

* `createNew_quiet` — the part of `create` after `ialloc`.
* `create_quiet`, `sysUnlink_quiet` — the two operations on directories.
-/

namespace RiscvOs.Fs

open Loop Str Walk Create

/-! ## The conditions -/

/-- A path along which directories can be searched: `look` holds for each search, and what it finds is the number
of an inode. If the path has no elements, the pointer to the first directory can be dropped again. -/
@[mk_iff] structure Passable (look : ℕ → List UInt8 → Prop) (s : FS) (cwd : Slot) (path : List UInt8) : Prop where
  known : Known s (start s cwd path)
  fresh : elements path = [] → ¬ Stale s (start s cwd path)
  way : Along s (entryOf s) (fun i name => look i name ∧ ∀ j ∈ entryOf s i name, Known s j) (start s cwd path)
    (elements path)

/-- There is a free entry in the direct blocks of the directory `i`, or else there is no block for the indirect
block: a new directory has taken the last one. -/
def HasRoom (s : FS) (i : ℕ) (type : UInt16) : Prop :=
  (∃ k < NDIRECT * BSIZE / direntSize, direntSize * k < (s.dinode i).size.toNat →
    (entryAt s (s.dinode i) k).inum = 0) ∨
    ((s.dinode i).addr NDIRECT = 0 ∧ s.free.card ≤ if type = T_DIR then 1 else 0)

/-- `create` finds room for a new entry, if it makes one. -/
def Roomy (s : FS) (cwd : Slot) (path : List UInt8) (type : UInt16) : Prop :=
  ∀ p ∈ walkParent s (entryOf s) (start s cwd path) (elements path), entryOf s p.1 p.2 = none →
    (∃ j < s.sb.ninodes, 0 < j ∧ (s.dinode j).type = 0) → HasRoom s p.1 type

/-- The loop of `isdirempty` comes to entries of direct blocks only, and these blocks are there. -/
structure Scannable (s : FS) (d : Dinode) : Prop where
  whole : direntSize ∣ d.size.toNat
  direct : ∀ k, direntSize * k < d.size.toNat → 2 ≤ k → (∀ i, 2 ≤ i → i < k → (entryAt s d i).inum = 0) →
    direntSize * k + direntSize ≤ NDIRECT * BSIZE ∧ d.addr (direntSize * k / BSIZE) ≠ 0

/-- The directory that `sys_unlink` looks into, if there is one, satisfies `scan`. -/
def Emptyable (scan : ℕ → Prop) (s : FS) (cwd : Slot) (path : List UInt8) : Prop :=
  ∀ p ∈ walkParent s (entryOf s) (start s cwd path) (elements path), ∀ j ∈ entryOf s p.1 p.2,
    (s.dinode j).type = T_DIR → scan j

section Decide

variable (s : FS) (cwd : Slot) (path : List UInt8)

instance (inum : ℕ) : Decidable (Stale s inum) := by
  unfold Stale
  infer_instance

instance (look : ℕ → List UInt8 → Prop) [∀ i name, Decidable (look i name)] :
    Decidable (Passable look s cwd path) := decidable_of_iff' _ (passable_iff look s cwd path)

instance (i : ℕ) (type : UInt16) : Decidable (HasRoom s i type) := by
  unfold HasRoom
  infer_instance

instance (type : UInt16) : Decidable (Roomy s cwd path type) := by
  unfold Roomy
  infer_instance

instance (d : Dinode) : Decidable (Scannable s d) := by
  refine decidable_of_iff (direntSize ∣ d.size.toNat ∧ ∀ k < d.size.toNat / direntSize, 2 ≤ k →
    (∀ i < k, 2 ≤ i → (entryAt s d i).inum = 0) →
      direntSize * k + direntSize ≤ NDIRECT * BSIZE ∧ d.addr (direntSize * k / BSIZE) ≠ 0)
    ⟨fun h => ⟨h.1, fun k hk h2 hfront => h.2 k ?_ h2 fun i hi h2' => hfront i h2' hi⟩,
      fun h => ⟨h.whole, fun k hk h2 hfront => h.direct k ?_ h2 fun i h2' hi => hfront i hi h2'⟩⟩
  · exact (lt_div_direntSize h.1).mpr hk
  · exact (lt_div_direntSize h.whole).mp hk

instance (scan : ℕ → Prop) [DecidablePred scan] : Decidable (Emptyable scan s cwd path) := by
  unfold Emptyable
  infer_instance

end Decide

/-! ## Steps that record nothing -/

/-- The disk is consistent, and the recorded branches are those of `q`. -/
structure Calm (q : List Quirk) (s : FS) : Prop where
  quirks : s.quirks = q
  consistent : Consistent s

section Steps

variable {q : List Quirk} {s t : FS} {ip dp : Slot}

theorem spares_shows (q : List Quirk) (s : FS) : Spares (Shows q) s := by
  constructor
  · rintro - ⟨q', he, -⟩
    cases he
  · rintro - ⟨q', he, -⟩
    cases he

theorem quiet_of_ne {α : Type} {x : Except Panic α} (h : ∀ q, x ≠ .error (.bfree q)) :
    Safe (Shows q) (fun r => x = .ok r) x := by
  cases x with
  | ok r => rfl
  | error e =>
    rintro ⟨q', rfl, -⟩
    exact h q' rfl

theorem setAttrs_calm {a b c : UInt16} (h : Calm q s) : Safe (Shows q) (Calm q) (setAttrs ip a b c s) := by
  have hhist := iupdate_history ip (s.setInode ip { s.itable ip with major := a, minor := b, nlink := c })
  rw [show (s.setInode ip { s.itable ip with major := a, minor := b, nlink := c }).quirks = q from h.quirks] at hhist
  refine (hhist.and_of_ok fun t ht => ht).mono fun t ht => ⟨ht.1, ?_⟩
  exact h.consistent.setAttrs ht.2

/-- **An inode is unlocked and its pointer dropped**: the slot has a copy of the inode. -/
theorem iunlockput_calm (h : Calm q s) : Safe (Shows q) (Calm q) (iunlockput ip s) := by
  rw [iunlockput]
  refine (quiet_of_ne (iunlock_ne_bfree ip s)).bind fun t ht => ?_
  obtain ⟨hc, hd⟩ := h.consistent.iunlock ht
  obtain ⟨-, hlock, rfl⟩ := iunlock_cases ht
  have hs : Settled ip (s.setLock ip none) := by
    refine Or.inl ?_
    rw [FS.setLock, FS.setInode_same]
    exact (h.consistent.table.locked ip _ hlock).2
  have hput := iput_settled hs
  rw [show (s.setLock ip none).quirks = q from h.quirks] at hput
  refine (hput.and_of_ok fun t ht => ht).mono fun t ht => ⟨ht.1, ?_⟩
  exact ((hs.dropped hc hd).of_eq_ok ht.2).consistent

theorem writei_calm {src : Source} {off n : ℕ} (h : Calm q s) (hlock : (s.itable ip).lock = some s.pid)
    (hno : ¬ Gets s ip src off n NDIRECT) : Safe (Shows q) (fun r => Calm q r.2) (writei ip src off n s) := by
  obtain ⟨r, u, hw, hcases⟩ := writei_writes h.consistent hlock (Or.inr hno)
  rw [hw]
  rcases hcases with ⟨-, rfl⟩ | ⟨tot, e, -, hd⟩
  · exact h
  · exact ⟨hd.quirks.trans h.quirks, hd.consistent⟩

theorem setParentNlink_calm {type n : UInt16} (h : Calm q s) :
    Safe (Shows q) (Calm q) (setParentNlink dp type n s) := by
  rw [setParentNlink, setNlink]
  split_ifs
  · exact setAttrs_calm h
  · exact h

theorem calm_of_walking {l k : List Slot} (hs : Consistent s) (h : Walking s l k t) : Calm s.quirks t :=
  ⟨h.quirks, hs.of_table h.table h.disk.sb h.disk.buf⟩

end Steps

/-! ## A new inode -/

namespace Create

variable {b t u : FS} {ip dp : Slot} {j : ℕ} {type : UInt16}

theorem Making.used (hb : Base b ip j) (h : Making b ip j t) {B : ℕ} (hB : b.used B = true)
    (hlt : B < b.sb.size) : t.used B = true := by
  by_cases hdata : b.sb.dataStart ≤ B
  · obtain ⟨x, hx⟩ := (hb.consistent.owned.used_iff B hdata hlt).mp hB
    have h0 : B ≠ 0 := by
      have := hb.consistent.table.layout.bitmap B hlt
      omega
    have heq := hb.holds_eq h.sb h.record h.data (x := x) (by rwa [hx])
    rw [← hx, ← heq]
    exact h.consistent.owned.used (by rwa [heq, hx])
  · refine h.consistent.owned.reserved B ?_
    rw [h.sb]
    exact not_le.mp hdata

theorem Making.free_subset (hb : Base b ip j) (h : Making b ip j t) : t.free ⊆ b.free := by
  intro B hB
  rw [mem_free] at hB ⊢
  refine ⟨h.sb ▸ hB.1, Bool.eq_false_iff.mpr fun hused => ?_⟩
  rw [h.used hb hused (h.sb ▸ hB.1)] at hB
  cases hB.2

/-- **The block of the new inode** was free before. -/
theorem Making.free_lt (hb : Base b ip j) (h : Making b ip j t) (hlock : (t.itable ip).lock = some t.pid)
    (ha : (t.itable ip).addr 0 ≠ 0) : t.free.card < b.free.card := by
  refine Finset.card_lt_card ⟨h.free_subset hb, fun hsub => ?_⟩
  obtain ⟨hpos, hv⟩ := h.consistent.table.locked ip _ hlock
  have hplace := (h.consistent.editable hpos hv).holds_addr 0
  rw [h.consistent.table.recs_eq hpos hv, h.inum] at hplace
  have hused := h.consistent.owned.used (x := .addr j 0) (by rwa [hplace])
  obtain ⟨hlo, hhi⟩ := h.consistent.owned.range (x := .addr j 0) (by rwa [hplace])
  rw [hplace] at hused hlo hhi
  have hfree : b.used ((t.itable ip).addr 0) = false := by
    refine Bool.eq_false_iff.mpr fun hcon => ?_
    obtain ⟨x, hx⟩ := (hb.consistent.owned.used_iff _ (h.sb ▸ hlo) (h.sb ▸ hhi)).mp hcon
    have hne := hb.ne_inum (x := x) (by rwa [hx])
    have heq := hb.holds_eq h.sb h.record h.data (x := x) (by rwa [hx])
    have hsame := h.consistent.owned.inj (by rwa [heq, hx]) (heq.trans (hx.trans hplace.symm))
    rw [hsame] at hne
    exact hne rfl
  have hmem := (mem_free.mp (hsub (mem_free.mpr ⟨h.sb ▸ hhi, hfree⟩))).2
  cases hmem.symm.trans hused

/-- The room in a directory that is locked. -/
def RoomFor (dp : Slot) (type : UInt16) (b : FS) : Prop :=
  (∃ i, direntSize * i < NDIRECT * BSIZE ∧ Dirs.slots b dp i = none) ∨
    ((b.itable dp).addr NDIRECT = 0 ∧ b.free.card ≤ if type = T_DIR then 1 else 0)

theorem room_of_card (h0 : (t.itable dp).addr NDIRECT = 0) (hfree : t.free.card = 0) : Dirs.Room dp t := by
  refine Or.inr ⟨h0, fun B hB => ?_⟩
  by_contra hnot
  have hmem : B ∈ t.free := mem_free.mpr ⟨hB, Bool.eq_false_iff.mpr hnot⟩
  rw [Finset.card_eq_zero.mp hfree] at hmem
  exact Finset.notMem_empty B hmem

theorem RoomFor.making (hroom : RoomFor dp type b) (hb : Base b ip j) (h : Making b ip j t) (hd : Dirs.DirFile dp b)
    (hdots : type = T_DIR → (t.itable ip).addr 0 ≠ 0 ∧ (t.itable ip).lock = some t.pid) : Dirs.Room dp t := by
  have hne := hb.ne_slot hd.lock
  rcases hroom with ⟨i, hi, hnone⟩ | ⟨h0, hcard⟩
  · refine Or.inl ⟨i, hi, ?_⟩
    rw [(h.dirFile hb hd hne).2]
    exact hnone
  · refine room_of_card (by rwa [h.other dp hne]) ?_
    split_ifs at hcard with hT
    · have := h.free_lt hb (hdots hT).2 (hdots hT).1
      omega
    · have := Finset.card_le_card (h.free_subset hb)
      omega

/-- **The entries of a new inode.** -/
theorem Making.createLinks_calm {name : List UInt8} {junk : ℕ → Dirent} {q : List Quirk} (hb : Base b ip j)
    (h : Making b ip j t) (hq : t.quirks = q) (hlock : (t.itable ip).lock = some t.pid)
    (htype : (t.itable ip).type = type) (hsize : (t.itable ip).size = 0) (hd : Dirs.DirFile dp b)
    (hno : SlotMap.Absent (Dirs.slots b dp) (strn (cstr name) DIRSIZ)) (hroom : RoomFor dp type b) :
    Safe (Shows q) (fun r => Calm q r.2) (Fs.createLinks dp ip name type junk t) := by
  rw [Fs.createLinks]
  obtain ⟨ok, v, hdots, hv, hqv, haddr⟩ := h.createDots hb hlock htype hsize dp junk
  rw [hdots, ok_bind]
  have hcalm : Calm q v := ⟨hqv.trans hq, hv.consistent⟩
  cases ok with
  | false => exact hcalm
  | true =>
    obtain ⟨hdv, hslots⟩ := hv.dirFile hb hd (hb.ne_slot hd.lock)
    rw [← hslots] at hno
    obtain ⟨m, de, -, hbefore, heq⟩ := dirlink_absent hdv hno (v.itable ip).inum (junk 2)
    have hgets : ¬ Gets v dp (kernelSrc (ByteBlock.get (Dirent.fill de (cstr name) (v.itable ip).inum)))
        (direntSize * m) direntSize NDIRECT := (hroom.making hb hv hd (haddr rfl)).not_gets hbefore
    have hw := writei_calm hcalm hdv.lock hgets
    dsimp only
    rw [if_pos rfl, heq]
    cases hrun : Fs.writei dp (kernelSrc (ByteBlock.get (Dirent.fill de (cstr name) (v.itable ip).inum)))
        (direntSize * m) direntSize v with
    | ok r => exact hw.of_eq_ok hrun
    | error e =>
      rw [hrun] at hw
      exact hw

/-- **The part of `create` after `ialloc`.** -/
theorem createNew_quiet {name : List UInt8} {major minor : UInt16} {junk : ℕ → Dirent} (hd : Dirs.DirFile dp b)
    (hno : SlotMap.Absent (Dirs.slots b dp) (strn (cstr name) DIRSIZ)) (hroom : RoomFor dp type b)
    (halloc : ialloc ROOTDEV type b = .ok (some ip, t)) :
    Safe (Shows b.quirks) (fun r => r.2.quirks = b.quirks) (createNew dp ip name type major minor junk t) := by
  rw [createNew]
  refine (quiet_of_ne (ilock_ne_bfree ip t)).bind fun s₁ hlock => ?_
  refine (quiet_of_ne (setAttrs_ne_bfree ip major minor 1 s₁)).bind fun s₂ hattrs => ?_
  obtain ⟨j, hb, h, hq, hheld, htype, hsize⟩ := making_begin hd.consistent halloc hlock hattrs
  refine (h.createLinks_calm hb hq hheld htype hsize hd hno hroom).bind fun r hr => ?_
  obtain ⟨ok, s₃⟩ := r
  cases ok with
  | true =>
    refine (setParentNlink_calm hr).bind fun s₄ h₄ => ?_
    exact (iunlockput_calm h₄).bind fun s₅ h₅ => h₅.quirks
  | false =>
    refine (setAttrs_calm hr).bind fun s₄ h₄ => ?_
    refine (iunlockput_calm h₄).bind fun s₅ h₅ => ?_
    exact (iunlockput_calm h₅).bind fun s₆ h₆ => h₆.quirks

end Create

/-! ## Creating a file -/

section Calls

variable {s t b : FS} {ip dp cwd : Slot} {name path : List UInt8}

/-- **A directory in which a name is absent**, and all of whose blocks the search has read. -/
theorem dirFile_of_absent (hs : Consistent s) (h : Walking s [dp] [dp] b)
    (hdir : (s.dinode (b.itable dp).inum).type = T_DIR)
    (hlook : Searchable s (s.dinode (b.itable dp).inum) (cstr name)) (hno : entryOf s (b.itable dp).inum name = none) :
    Dirs.DirFile dp b ∧ SlotMap.Absent (Dirs.slots b dp) (strn (cstr name) DIRSIZ) := by
  have hmem := List.mem_singleton_self dp
  obtain ⟨hrec, -, hlock⟩ := h.record hmem
  have hno' : ∀ i, direntSize * i < (s.dinode (b.itable dp).inum).size.toNat →
      matchesName (cstr name) (entryAt s (s.dinode (b.itable dp).inum) i) = false := by
    intro i hi
    have hmem := List.mem_range.mpr ((lt_div_direntSize hlook.whole).mpr hi)
    exact Bool.eq_false_iff.mpr (List.find?_eq_none.mp (Option.map_eq_none_iff.mp hno) i hmem)
  have hblock : ∀ k, direntSize * k < (s.dinode (b.itable dp).inum).size.toNat →
      direntSize * k + direntSize ≤ NDIRECT * BSIZE ∧
        (s.dinode (b.itable dp).inum).addr (direntSize * k / BSIZE) ≠ 0 := by
    intro k hk
    refine hlook.direct k hk fun i hi => hno' i (lt_of_le_of_lt ?_ hk)
    exact Nat.mul_le_mul_left _ hi.le
  have hfile : Dirs.DirFile dp b := by
    refine ⟨(calm_of_walking hs h).consistent, hlock, by rw [hrec, hdir],
      by rw [hrec]; exact hlook.whole, ?_, fun k hk => ?_⟩
    · rw [hrec]
      obtain ⟨n, hn⟩ := hlook.whole
      rcases Nat.eq_zero_or_pos n with rfl | hpos
      · omega
      · have := (hblock (n - 1) (by rw [hn]; exact (Nat.mul_lt_mul_left (by decide)).mpr (by omega))).1
        rw [hn, ← Nat.mul_succ, Nat.succ_eq_add_one, Nat.sub_add_cancel hpos] at *
        exact this
    · rw [hrec] at hk ⊢
      have hle : direntSize * (k / direntSize) ≤ k := Nat.mul_div_le k direntSize
      have := (hblock (k / direntSize) (by omega)).2
      have hdiv : direntSize * (k / direntSize) / BSIZE = k / BSIZE := by
        rw [show direntSize = 16 from rfl, show BSIZE = 1024 from rfl]
        omega
      rwa [hdiv] at this
  refine ⟨hfile, ?_⟩
  obtain ⟨off, hfind⟩ := finds_entryOf hlook hdir b dp h.disk hrec
  rw [hno] at hfind
  rcases Dirs.findEntry_cases hfile (cstr name) with ⟨m, x, -, hfound⟩ | ⟨habs, -⟩
  · cases hfind.symm.trans hfound
  · exact habs

theorem HasRoom.roomFor {type : UInt16} (hroom : HasRoom s (b.itable dp).inum type) (h : Walking s [dp] [dp] b) :
    RoomFor dp type b := by
  obtain ⟨hrec, -⟩ := h.record (List.mem_singleton_self dp)
  have hentry : ∀ k, Dirs.entryAt b dp k = entryAt s (s.dinode (b.itable dp).inum) k := by
    intro k
    rw [Dirs.entryAt, hrec, entryAt_buf h.disk.buf]
  rcases hroom with ⟨k, hk, hfree⟩ | ⟨h0, hcard⟩
  · refine Or.inl ⟨k, ?_, ?_⟩
    · rw [Nat.lt_div_iff_mul_lt (by decide)] at hk
      rw [show direntSize = 16 from rfl] at hk ⊢
      omega
    · rw [Dirs.slots, hrec]
      split_ifs with hlt
      · rw [hentry, Dirs.slotOf, if_pos (hfree hlt)]
      · rfl
  · have hsame : b.free = s.free := by
      refine free_congr h.disk.sb fun B _ => ?_
      rw [FS.used, FS.used, h.disk.sb, h.disk.buf]
    exact Or.inr ⟨by rw [hrec, h0], by rwa [hsame]⟩

/-- **The part of `create` after `nameiparent`.** -/
theorem createAt_quiet {type major minor : UInt16} {junk : ℕ → Dirent} (hs : Consistent s)
    (h : Walking s [dp] [] t) (hknown : Known s (t.itable dp).inum)
    (hdir : (s.dinode (t.itable dp).inum).type = T_DIR)
    (hlook : Searchable s (s.dinode (t.itable dp).inum) (cstr name))
    (hfinds : ∀ j ∈ entryOf s (t.itable dp).inum name, Known s j)
    (hroom : entryOf s (t.itable dp).inum name = none → (∃ j < s.sb.ninodes, 0 < j ∧ (s.dinode j).type = 0) →
      HasRoom s (t.itable dp).inum type) :
    Safe (Shows s.quirks) (fun r => r.2.quirks = s.quirks) (createAt dp name type major minor junk t) := by
  have hbad := spares_shows s.quirks s
  have hmem := List.mem_singleton_self dp
  rw [createAt]
  refine (h.ilock hbad (fun _ => List.not_mem_nil) hmem hknown).bind fun b hb => ?_
  obtain ⟨hwalk, hinum⟩ := hb
  rw [← hinum dp] at hknown hdir hlook hfinds hroom
  refine (hwalk.dirlookup hbad (finds_entryOf hlook hdir) fun j hj => hfinds j hj).bind fun r hr => ?_
  obtain ⟨found, v⟩ := r
  obtain ⟨hfound, hwalk', hself, hsame⟩ := hr
  dsimp only at hfound hwalk' hself hsame ⊢
  cases found with
  | some x =>
    obtain ⟨next, off⟩ := x
    dsimp only [Option.map_some, Option.toList_some, List.cons_append, List.nil_append] at hfound hwalk' ⊢
    rw [← hself] at hknown
    obtain ⟨w, hw, hwalk'', hput⟩ := (hwalk'.perm (List.Perm.swap dp next [])).iunlockput hmem hknown
    rw [List.erase_cons_head] at hwalk''
    rw [hw, ok_bind]
    have hknext : Known s (w.itable next).inum := by
      rw [hput]
      exact hfinds _ hfound.symm
    have hmem' := List.mem_singleton_self next
    refine (hwalk''.ilock hbad (fun _ => List.not_mem_nil) hmem' hknext).bind fun y hy => ?_
    split_ifs
    · exact hy.1.quirks
    · exact (iunlockput_calm (calm_of_walking hs hy.1)).bind fun z hz => hz.quirks
  | none =>
    have hno := hfound.symm
    obtain rfl := hsame hno
    rw [hwalk.table.dev dp (hwalk.books.ref_pos hmem)]
    refine (quiet_of_ne (ialloc_ne_bfree ROOTDEV type v)).bind fun r hr => ?_
    obtain ⟨new, w⟩ := r
    cases new with
    | none =>
      obtain rfl := ialloc_eq_none hr
      exact (iunlockput_calm (calm_of_walking hs hwalk)).bind fun z hz => hz.quirks
    | some ip =>
      have hfree : ∃ j < s.sb.ninodes, 0 < j ∧ (s.dinode j).type = 0 := by
        obtain ⟨j, hj, hlt, h0⟩ := free_of_ialloc hr
        rw [hwalk.disk.sb] at hlt
        rw [hwalk.disk.dinode] at h0
        exact ⟨j, hlt, hj, h0⟩
      obtain ⟨hfile, habsent⟩ := dirFile_of_absent hs hwalk hdir hlook hno
      rw [← hwalk.quirks]
      exact createNew_quiet hfile habsent ((hroom hno hfree).roomFor hwalk) hr

/-- A search along a path reads direct blocks only, if `look` says so for directories. -/
theorem along_looks {look : ℕ → List UInt8 → Prop} {i : ℕ} {names : List (List UInt8)} (hi : Known s i)
    (h : Along s (entryOf s) (fun i name => look i name ∧ ∀ j ∈ entryOf s i name, Known s j) i names)
    (hlook : ∀ i name, Known s i → (s.dinode i).type = T_DIR → look i name → Searchable s (s.dinode i) (cstr name)) :
    Along s (entryOf s) (fun i name => Looks s (entryOf s) i name ∧ Searchable s (s.dinode i) (cstr name)) i names := by
  induction names generalizing i with
  | nil => exact trivial
  | cons name names ih =>
    intro hdir
    obtain ⟨⟨hfirst, hknown⟩, hnext⟩ := h hdir
    have hsearch := hlook i name hi hdir hfirst
    exact ⟨⟨⟨finds_entryOf hsearch hdir, fun j hj => hknown j hj⟩, hsearch⟩, fun j hj => ih (hknown j hj) (hnext j hj)⟩

/-- **`create`** records nothing if the directories can be searched and there is room for the new entry. -/
theorem create_quiet {look : ℕ → List UInt8 → Prop} {type major minor : UInt16} {junk : ℕ → Dirent} (hs : Consistent s)
    (hcwd : 0 < (s.itable cwd).ref) (h : Passable look s cwd path)
    (hlook : ∀ i name, Known s i → (s.dinode i).type = T_DIR → look i name → Searchable s (s.dinode i) (cstr name))
    (hroom : Roomy s cwd path type) :
    Safe (Shows s.quirks) (fun r => r.2.quirks = s.quirks) (create path type major minor cwd junk s) := by
  have hway := along_looks h.known h.way hlook
  rw [create]
  refine (nameiparent_walking (spares_shows s.quirks s) hs.table hcwd h.known h.fresh
    (hway.mono fun i name h => h.1)).bind fun r hr => ?_
  obtain ⟨found, t⟩ := r
  obtain ⟨hresult, hwalk⟩ := hr
  cases found with
  | none => exact hwalk.quirks
  | some p =>
    obtain ⟨hkdp, hdir, hlooks, hsearch⟩ := hway.walkParent h.known (fun i name j h hj => h.1.2 j hj) hresult.symm
    obtain ⟨dp, name⟩ := p
    have hparent : ((t.itable dp).inum, name) ∈ walkParent s (entryOf s) (start s cwd path) (elements path) :=
      Option.mem_def.mpr hresult.symm
    refine createAt_quiet hs hwalk hkdp hdir hsearch (fun j hj => hlooks.2 j hj) ?_
    exact hroom ((t.itable dp).inum, name) hparent

/-! ## Removing a file -/

/-- **The loop of `isdirempty`** reads direct blocks only, and changes nothing. -/
theorem emptyLoop_eq (h : Scannable t (t.itable dp).toDinode) (fuel k : ℕ) (hk : 2 ≤ k)
    (hfront : ∀ i, 2 ≤ i → i < k → (entryAt t (t.itable dp).toDinode i).inum = 0) :
    ∃ r, emptyLoop dp fuel (direntSize * k) t = .ok (r, t) := by
  induction fuel generalizing k with
  | zero => exact ⟨true, rfl⟩
  | succ fuel ih =>
    rw [emptyLoop]
    by_cases hlt : direntSize * k < (t.itable dp).size.toNat
    · have hend : direntSize * k + direntSize ≤ (t.itable dp).size.toNat := by
        obtain ⟨n, hn⟩ := h.whole
        rw [hn] at hlt ⊢
        exact Nat.mul_le_mul_left _ (Nat.lt_of_mul_lt_mul_left hlt)
      obtain ⟨hdirect, haddr⟩ := h.direct k hlt hk hfront
      rw [if_pos hlt, readEntry_mapped hend hdirect haddr, ok_bind]
      dsimp only
      split_ifs with h0
      · exact ⟨false, rfl⟩
      · rw [← Nat.mul_succ]
        refine ih (k + 1) (by omega) fun i hi hik => ?_
        rcases Nat.lt_succ_iff_lt_or_eq.mp hik with hlt' | rfl
        · exact hfront i hi hlt'
        · exact not_not.mp h0
    · rw [if_neg hlt]
      exact ⟨true, rfl⟩

theorem mayUnlink_eq (h : (t.itable ip).type = T_DIR → Scannable t (t.itable ip).toDinode) :
    ∃ r, mayUnlink ip t = .ok (r, t) := by
  rw [mayUnlink]
  split_ifs with hdir
  · rw [isdirempty, Nat.mul_comm 2]
    exact emptyLoop_eq (h hdir) _ 2 le_rfl fun i hi hlt => absurd hlt (by omega)
  · exact ⟨true, rfl⟩

theorem dirlookup_off {off : ℕ} (hlook : Searchable s (s.dinode (b.itable dp).inum) (cstr name))
    (h : Walking s [dp] [dp] b) (hdir : (s.dinode (b.itable dp).inum).type = T_DIR)
    (hn : dirlookup dp (cstr name) b = .ok (some (ip, off), t)) :
    ∃ k, off = direntSize * k ∧ direntSize * k + direntSize ≤ NDIRECT * BSIZE := by
  obtain ⟨hrec, -⟩ := h.record (List.mem_singleton_self dp)
  rw [← hrec] at hlook hdir
  rw [dirlookup] at hn
  obtain ⟨⟨found, u⟩, hfind, hrest⟩ := bind_eq_ok.mp hn
  cases found with
  | none => cases hrest
  | some e =>
    obtain ⟨off', j⟩ := e
    obtain ⟨⟨next, v⟩, -, hend⟩ := bind_eq_ok.mp hrest
    cases hend
    exact (hlook.congr h.disk.buf).found hdir hfind

theorem Scannable.congr {d : Dinode} (h : Scannable s d) (hbuf : t.buf = s.buf) : Scannable t d :=
  ⟨h.whole, fun k hk h2 hfront => h.direct k hk h2 fun i hi hik => by rw [← entryAt_buf hbuf]; exact hfront i hi hik⟩

/-- **The removal of an entry** of a direct block. -/
theorem removeEntry_calm {q : List Quirk} {k : ℕ} (h : Calm q s) (hlock : (s.itable dp).lock = some s.pid)
    (hk : direntSize * k + direntSize ≤ NDIRECT * BSIZE) :
    Safe (Shows q) (Calm q) (removeEntry dp ip (direntSize * k) s) := by
  rw [removeEntry]
  refine (writei_calm h hlock (not_gets_of_le hk)).bind fun r hr => ?_
  dsimp only
  split_ifs
  · rintro ⟨q', he, -⟩
    cases he
  · refine (setParentNlink_calm hr).bind fun s₁ h₁ => ?_
    refine (iunlockput_calm h₁).bind fun s₂ h₂ => ?_
    exact (setAttrs_calm h₂).bind fun s₃ h₃ => iunlockput_calm h₃

/-- **The part of `sys_unlink` after `nameiparent`.** -/
theorem unlinkAt_quiet (hs : Consistent s) (h : Walking s [dp] [] t) (hknown : Known s (t.itable dp).inum)
    (hdir : (s.dinode (t.itable dp).inum).type = T_DIR)
    (hlook : Searchable s (s.dinode (t.itable dp).inum) (cstr name))
    (hfinds : ∀ j ∈ entryOf s (t.itable dp).inum name, Known s j ∧
      ((s.dinode j).type = T_DIR → Scannable s (s.dinode j))) :
    Safe (Shows s.quirks) (fun r => r.2.quirks = s.quirks) (unlinkAt dp name t) := by
  have hbad := spares_shows s.quirks s
  have hmem := List.mem_singleton_self dp
  rw [unlinkAt]
  refine (h.ilock hbad (fun _ => List.not_mem_nil) hmem hknown).bind fun b hb => ?_
  obtain ⟨hwalk, hinum⟩ := hb
  rw [← hinum dp] at hknown hdir hlook hfinds
  split_ifs
  · exact (iunlockput_calm (calm_of_walking hs hwalk)).bind fun z hz => hz.quirks
  · refine ((hwalk.dirlookup hbad (finds_entryOf hlook hdir) fun j hj => (hfinds j hj).1).and_of_ok
      fun r hr => hr).bind fun r hr => ?_
    obtain ⟨found, v⟩ := r
    obtain ⟨⟨hfound, hwalk', -, -⟩, hrun⟩ := hr
    dsimp only at hfound hwalk' ⊢
    cases found with
    | none => exact (iunlockput_calm (calm_of_walking hs hwalk')).bind fun z hz => hz.quirks
    | some x =>
      obtain ⟨ip, off⟩ := x
      dsimp only [Option.map_some, Option.toList_some, List.cons_append, List.nil_append] at hfound hwalk' ⊢
      obtain ⟨hkip, hscan⟩ := hfinds _ hfound.symm
      have hblocked : ¬ Shows s.quirks .blocked := by
        rintro ⟨q', he, -⟩
        cases he
      refine (hwalk'.ilock hbad (fun hcon => absurd hcon hblocked) List.mem_cons_self hkip).bind fun w hw => ?_
      obtain ⟨hwalk'', hinum'⟩ := hw
      have hcalm := calm_of_walking hs hwalk''
      split_ifs
      · rintro ⟨q', he, -⟩
        cases he
      · have hself := hwalk''.record List.mem_cons_self
        have hmay : (w.itable ip).type = T_DIR → Scannable w (w.itable ip).toDinode := by
          rw [hself.1, hinum']
          exact fun htype => (hscan htype).congr hwalk''.disk.buf
        obtain ⟨empty, hempty⟩ := mayUnlink_eq hmay
        rw [hempty, ok_bind]
        cases empty with
        | false =>
          refine (iunlockput_calm hcalm).bind fun s₁ h₁ => ?_
          exact (iunlockput_calm h₁).bind fun s₂ h₂ => h₂.quirks
        | true =>
          obtain ⟨k, rfl, hk⟩ := dirlookup_off hlook hwalk hdir hrun
          have hdk : dp ∈ [ip, dp] := List.mem_cons_of_mem ip hmem
          exact (removeEntry_calm hcalm (hwalk''.record hdk).2.2 hk).bind fun s₁ h₁ => h₁.quirks

/-- **`sys_unlink`** records nothing if the directories can be searched. -/
theorem sysUnlink_quiet {look : ℕ → List UInt8 → Prop} {scan : ℕ → Prop} (hs : Consistent s)
    (hcwd : 0 < (s.itable cwd).ref) (h : Passable look s cwd path)
    (hlook : ∀ i name, Known s i → (s.dinode i).type = T_DIR → look i name → Searchable s (s.dinode i) (cstr name))
    (hscan : ∀ i, Known s i → (s.dinode i).type = T_DIR → scan i → Scannable s (s.dinode i))
    (hempty : Emptyable scan s cwd path) :
    Safe (Shows s.quirks) (fun r => r.2.quirks = s.quirks) (sysUnlink path cwd s) := by
  have hway := along_looks h.known h.way hlook
  rw [sysUnlink]
  refine (nameiparent_walking (spares_shows s.quirks s) hs.table hcwd h.known h.fresh
    (hway.mono fun i name h => h.1)).bind fun r hr => ?_
  obtain ⟨found, t⟩ := r
  obtain ⟨hresult, hwalk⟩ := hr
  cases found with
  | none => exact hwalk.quirks
  | some p =>
    obtain ⟨hkdp, hdir, hlooks, hsearch⟩ := hway.walkParent h.known (fun i name j h hj => h.1.2 j hj) hresult.symm
    refine unlinkAt_quiet hs hwalk hkdp hdir hsearch fun j hj => ⟨hlooks.2 j hj, fun htype => ?_⟩
    exact hscan j (hlooks.2 j hj) htype (hempty _ (Option.mem_def.mpr hresult.symm) j hj htype)

end Calls

end RiscvOs.Fs
