import RiscvOs.Fs.DirMap
import RiscvOs.Fs.Books

set_option autoImplicit false

/-!
# An inode that is being made

Between `ialloc` and its last step `create` works on an inode that no name leads to yet. This module follows
it there: whatever `create` writes goes to the record of the new inode and to blocks that were free, and if the
inode is freed again nothing else has changed.

## Main results

* `writei_one` — a write of one directory entry.
* `Making.dirlink` — a new entry in the new directory.
* `Making.dirlink_parent` — a new entry in another directory, if it fails.
* `createNew_failed` — the part of `create` after `ialloc`, if it fails.
-/

namespace RiscvOs.Fs.Create

open Function Str Dirs Loop

/-! ## Writing one entry -/

section Entry

variable {ip : Slot} {f : ℕ → UInt8} {off bn : ℕ} {s t u : FS} {r : Option ℕ}

/-- An entry is written in one round, or there is no block for it. -/
theorem writei_one (hoff : direntSize ∣ off) (hw : writei ip (kernelSrc f) off direntSize s = .ok (r, t)) :
    (r = none ∧ t = s) ∨ ∃ a u, bmap ip (off / BSIZE) s = .ok (a, u) ∧
      ((a = 0 ∧ r = some 0 ∧ iupdate ip (u.grow ip off) = .ok t) ∨
        (a ≠ 0 ∧ r = some direntSize ∧ ∃ c, iupdate ip (((u.setBuf a c).logWrite a).grow ip (off + direntSize)) =
          .ok t)) := by
  rw [writei] at hw
  split_ifs at hw
  · cases hw
    exact Or.inl ⟨rfl, rfl⟩
  · cases hw
    exact Or.inl ⟨rfl, rfl⟩
  · refine Or.inr ?_
    obtain ⟨⟨⟨tot, off'⟩, v⟩, hloop, hw⟩ := bind_eq_ok.mp hw
    obtain ⟨w, hup, hres⟩ := bind_eq_ok.mp hw
    cases hres
    have hchunk : chunk 0 off direntSize = direntSize := by
      obtain ⟨k, rfl⟩ := hoff
      rw [chunk, show direntSize = 16 from rfl, show BSIZE = 1024 from rfl]
      omega
    change writeLoop ip (kernelSrc f) direntSize (14 + 1 + 1) 0 off s = _ at hloop
    cases hm : bmap ip (off / BSIZE) s with
    | error e =>
      rw [writeLoop, if_pos (by decide), hm] at hloop
      cases hloop
    | ok p =>
      obtain ⟨a, u⟩ := p
      refine ⟨a, u, rfl, ?_⟩
      by_cases ha : a = 0
      · subst ha
        rw [writeLoop_unmapped (by decide) hm] at hloop
        cases hloop
        exact Or.inl ⟨rfl, rfl, hup⟩
      · rw [writeLoop_mapped (by decide) hm ha, hchunk, if_pos (copyLen_eq fun _ _ => rfl), Nat.zero_add,
          writeLoop, if_neg (lt_irrefl _)] at hloop
        cases hloop
        exact Or.inr ⟨ha, rfl, _, hup⟩

theorem bmap_zero (hfree : ∀ b < s.sb.size, s.used b = false → b ≠ 0) (hbn : bn ≤ NDIRECT)
    (h : bmap ip bn s = .ok (0, u)) : u = s := by
  rw [bmap] at h
  by_cases hlt : bn < NDIRECT
  · rw [if_pos hlt] at h
    rw [mapAddr_eq_zero hfree (congrArg Prod.fst (Except.ok.inj h))] at h
    exact (Prod.mk.inj (Except.ok.inj h)).2.symm
  · obtain rfl : bn = NDIRECT := by omega
    cases hm : mapAddr ip NDIRECT s with
    | mk a v =>
      rw [hm] at h
      cases a with
      | zero =>
        have heq := mapAddr_eq_zero hfree (show (mapAddr ip NDIRECT s).1 = 0 by rw [hm])
        rw [hm] at heq
        cases h
        exact (Prod.mk.inj heq).2
      | succ a =>
        -- the first word of the buffer is not zero
        have hentry : mapEntry (a + 1) 0 (v.note .indirect) = (1, v.note .indirect) := rfl
        cases h

theorem iupdate_data (hL : Layout t.sb) (hi : (t.itable ip).inum < t.sb.records) (hu : iupdate ip t = .ok u) {B : ℕ}
    (h₁ : t.sb.dataStart ≤ B) (h₂ : B < t.sb.size) : u.buf B = t.buf B := by
  obtain ⟨-, rfl⟩ := iupdate_eq_ok.mp hu
  exact update_of_ne (hL.inode_lt (record_lt hi) h₁ h₂).ne' _ _

/-- The records, the bitmap, the data blocks and the slots are the same. -/
structure Same (s t : FS) : Prop where
  sb : t.sb = s.sb
  pid : t.pid = s.pid
  itable : t.itable = s.itable
  record : ∀ i, t.dinode i = s.dinode i
  data : ∀ B, s.sb.dataStart ≤ B → B < s.sb.size → t.buf B = s.buf B
  consistent : Consistent t

/-- **A write of one entry that fails** changes nothing. -/
theorem writei_failed (h : Consistent s) (hlock : (s.itable ip).lock = some s.pid) (hoff : direntSize ∣ off)
    (hle : off ≤ (s.itable ip).size.toNat) (hdir : off ≤ NDIRECT * BSIZE)
    (hw : writei ip (kernelSrc f) off direntSize s = .ok (r, t)) (hr : r ≠ some direntSize) : Same s t := by
  obtain ⟨hpos, hv⟩ := h.table.locked ip _ hlock
  have hi := h.table.range ip hpos hv
  rcases writei_one hoff hw with ⟨-, rfl⟩ | ⟨a, u, hm, ⟨rfl, -, hup⟩ | ⟨-, hr', -⟩⟩
  · exact ⟨rfl, rfl, rfl, fun _ => rfl, fun _ _ _ => rfl, h⟩
  · have hfree : ∀ b < s.sb.size, s.used b = false → b ≠ 0 := by
      intro b hb hnot
      exact (h.editable hpos hv).free_ne_zero h.owned hb hnot
    have hbn : off / BSIZE ≤ NDIRECT := Nat.div_le_of_le_mul (by rwa [Nat.mul_comm])
    obtain rfl := bmap_zero hfree hbn hm
    rw [FS.grow, if_neg (by omega)] at hup
    have hupd := updated_of_iupdate hup
    have hrec : ∀ i, t.dinode i = u.dinode i := by
      intro i
      rw [hupd.dinode]
      by_cases hii : i = (u.itable ip).inum
      · rw [if_pos hii, hii]
        exact (h.table.coherent ip hpos hv).1
      · rw [if_neg hii]
    have htable : Table t := by
      refine ⟨hupd.sb ▸ h.table.layout, ?_, ?_, ?_, fun jp hj hvj => ?_, ?_⟩
      · rw [hupd.itable]
        exact h.table.dev
      · rw [hupd.itable, hupd.sb]
        exact h.table.range
      · rw [hupd.itable]
        exact h.table.unique
      · rw [hupd.itable] at hj hvj ⊢
        rw [hrec]
        exact h.table.coherent jp hj hvj
      · rw [hupd.itable]
        exact h.table.locked
    refine ⟨hupd.sb, hupd.pid, hupd.itable, hrec, fun B h₁ h₂ => iupdate_data h.table.layout hi hup h₁ h₂, htable,
      (h.owned_recs hpos hv).iupdate h.table.layout hi hup, hupd.sb ▸ h.small⟩
  · exact absurd hr' hr

/-- **`dirlink` of a name that is absent** writes one entry, the first one that is free. -/
theorem dirlink_absent {dp : Slot} {name : ℕ → UInt8} (h : DirFile dp s)
    (hno : SlotMap.Absent (slots s dp) (strn name DIRSIZ)) (inum : ℕ) (junk : Dirent) :
    ∃ m de, direntSize * m ≤ (s.itable dp).size.toNat ∧ (∀ i, 0 ≤ i → i < m → slots s dp i ≠ none) ∧
      dirlink dp name inum junk s =
        (writei dp (kernelSrc (ByteBlock.get (Dirent.fill de name inum))) (direntSize * m) direntSize s).map
          fun r => (r.1 == some direntSize, r.2) := by
  have hfind : findEntry dp name s = .ok (none, s) := by
    rcases findEntry_cases h name with ⟨j, u, hj, -⟩ | ⟨-, heq⟩
    · exact absurd ⟨j, hj⟩ (hno u)
    · exact heq
  have hlook : dirlookup dp name s = .ok (none, s) := by
    rw [dirlookup, hfind]
    rfl
  have hpos : 0 < direntSize := by decide
  obtain ⟨m, de, heq, hm, -, hbefore⟩ := linkLoop_eq h ((s.itable dp).size.toNat / direntSize + 1) 0 junk (by simp)
    (by rw [Nat.zero_add]; exact Nat.lt_mul_div_succ _ hpos)
  rw [Nat.mul_zero] at heq
  refine ⟨m, de, hm, hbefore, ?_⟩
  rw [dirlink, hlook, ok_bind]
  dsimp only
  rw [heq, ok_bind]
  cases writei dp (kernelSrc (ByteBlock.get (Dirent.fill de name inum))) (direntSize * m) direntSize s with
  | ok r => rfl
  | error e => rfl

end Entry

/-! ## One inode more -/

/-- The number `j` stands for no inode; if the slot `ip` is in use, it is one for this number. -/
structure Base (b : FS) (ip : Slot) (j : ℕ) : Prop where
  consistent : Consistent b
  range : j < b.sb.records
  free : (b.dinode j).type = 0
  slot : 0 < (b.itable ip).ref → (b.itable ip).inum = j

/-- Compared with `b` the inode `j` is allocated, and there is one pointer more to the slot `ip`, which stands
for it. -/
structure Making (b : FS) (ip : Slot) (j : ℕ) (t : FS) : Prop where
  consistent : Consistent t
  sb : t.sb = b.sb
  pid : t.pid = b.pid
  other : ∀ jp, jp ≠ ip → t.itable jp = b.itable jp
  inum : (t.itable ip).inum = j
  ref : (t.itable ip).ref = (b.itable ip).ref + 1
  record : ∀ i < b.sb.records, i ≠ j → t.dinode i = b.dinode i
  data : ∀ x, holds b.sb.wide b.buf b.dinode x ≠ 0 →
    t.buf (holds b.sb.wide b.buf b.dinode x) = b.buf (holds b.sb.wide b.buf b.dinode x)

section Making

variable {b s t u : FS} {ip dp : Slot} {j : ℕ} {x : Place} {ok : Bool}

theorem Base.ne_inum (hb : Base b ip j) (hx : holds b.sb.wide b.buf b.dinode x ≠ 0) : Reclaim.inumOf x ≠ j :=
  fun h => hx (holds_bare h (Or.inl hb.free))

theorem Base.ne_slot (hb : Base b ip j) (hlock : (b.itable dp).lock = some b.pid) : dp ≠ ip := by
  rintro rfl
  obtain ⟨hpos, hv⟩ := hb.consistent.table.locked dp _ hlock
  obtain ⟨hco, htype⟩ := hb.consistent.table.coherent dp hpos hv
  rw [hco, hb.slot hpos] at htype
  exact htype hb.free

theorem Base.holds_eq (hb : Base b ip j) (hsb : t.sb = b.sb)
    (hrec : ∀ i < b.sb.records, i ≠ j → t.dinode i = b.dinode i)
    (hdata : ∀ x, holds b.sb.wide b.buf b.dinode x ≠ 0 →
      t.buf (holds b.sb.wide b.buf b.dinode x) = b.buf (holds b.sb.wide b.buf b.dinode x))
    (hx : holds b.sb.wide b.buf b.dinode x ≠ 0) :
    holds t.sb.wide t.buf t.dinode x = holds b.sb.wide b.buf b.dinode x := by
  rw [hsb]
  refine Fs.holds_eq rfl (fun hi => ?_) fun hx' => hdata _ hx'
  rw [hrec _ hi (hb.ne_inum hx)]
  exact ⟨rfl, rfl⟩

/-- **A step** that changes only the slot, the record and the blocks of the new inode. -/
theorem Making.step (hb : Base b ip j) (h : Making b ip j t) (hc : Consistent u) (hsb : u.sb = t.sb)
    (hpid : u.pid = t.pid) (hother : ∀ jp, jp ≠ ip → u.itable jp = t.itable jp)
    (hinum : (u.itable ip).inum = (t.itable ip).inum) (href : (u.itable ip).ref = (t.itable ip).ref)
    (hrec : ∀ i < t.sb.records, i ≠ j → u.dinode i = t.dinode i)
    (hdata : ∀ x, holds t.sb.wide t.buf t.dinode x ≠ 0 → Reclaim.inumOf x ≠ j →
      u.buf (holds t.sb.wide t.buf t.dinode x) = t.buf (holds t.sb.wide t.buf t.dinode x)) : Making b ip j u := by
  refine ⟨hc, hsb.trans h.sb, hpid.trans h.pid, fun jp hj => (hother jp hj).trans (h.other jp hj),
    hinum.trans h.inum, href.trans h.ref, fun i hi hij => ?_, fun x hx => ?_⟩
  · rw [hrec i (h.sb ▸ hi) hij]
    exact h.record i hi hij
  · have heq := hb.holds_eq h.sb h.record h.data hx
    have hkeep := hdata x (by rwa [heq]) (hb.ne_inum hx)
    rw [heq] at hkeep
    exact hkeep.trans (h.data x hx)

theorem held_data (h : Consistent t) (hdata : ∀ B, t.sb.dataStart ≤ B → B < t.sb.size → u.buf B = t.buf B)
    (hx : holds t.sb.wide t.buf t.dinode x ≠ 0) :
    u.buf (holds t.sb.wide t.buf t.dinode x) = t.buf (holds t.sb.wide t.buf t.dinode x) := by
  obtain ⟨h₁, h₂⟩ := h.owned.range hx
  exact hdata _ h₁ h₂

/-- **`ialloc`** claims a record, and takes a slot that has no copy of it. -/
theorem making_ialloc {type : UInt16} (hb : Consistent b) (hn : ialloc ROOTDEV type b = .ok (some ip, t)) :
    ∃ j, Base b ip j ∧ Making b ip j t ∧ t.quirks = b.quirks ∧ t.dinode j = { Dinode.zero with type := type } ∧
      (t.itable ip).valid = false := by
  obtain ⟨j, hj, h0, hg⟩ := ialloc_eq_some hn
  have hj' := hj.trans_le hb.table.layout.ninodes_le
  have hc := (Consistent.ialloc hb hn).1
  have hdin : ∀ v i, ((b.claimInode j type).setInode ip v).dinode i =
      if i = j then { Dinode.zero with type := type } else b.dinode i := by
    intro v i
    rw [FS.setInode_dinode, FS.dinode_claimInode]
  have hdata : ∀ x, holds b.sb.wide b.buf b.dinode x ≠ 0 →
      (b.claimInode j type).buf (holds b.sb.wide b.buf b.dinode x) = b.buf (holds b.sb.wide b.buf b.dinode x) := by
    intro x hx
    obtain ⟨h₁, h₂⟩ := hb.owned.range hx
    exact update_of_ne (hb.table.layout.inode_lt (record_lt hj') h₁ h₂).ne' _ _
  -- a slot that was in use for this number has no copy, as the record was free
  have hnew : ∃ v : Inode, t = (b.claimInode j type).setInode ip v ∧ v.inum = j ∧ v.ref = (b.itable ip).ref + 1 ∧
      v.valid = false ∧ (0 < (b.itable ip).ref → (b.itable ip).inum = j) := by
    rcases iget_cases hg with ⟨hpos, -, hinum, heq⟩ | ⟨-, hfree, heq⟩
    · have hinum' : (b.itable ip).inum = j := hinum
      refine ⟨_, heq, hinum, rfl, Bool.eq_false_iff.mpr fun hv => ?_, fun _ => hinum'⟩
      obtain ⟨hco, htype⟩ := hb.table.coherent ip hpos hv
      rw [hco, hinum'] at htype
      exact htype h0
    · have hfree' : (b.itable ip).ref = 0 := hfree
      exact ⟨_, heq, rfl, by rw [hfree'], rfl, fun hpos => absurd hpos (by omega)⟩
  obtain ⟨v, rfl, hinum, href, hvalid, hslot⟩ := hnew
  refine ⟨j, ⟨hb, hj', h0, hslot⟩, ⟨hc, rfl, rfl, fun jp hne => FS.setInode_of_ne _ _ _ hne, ?_, ?_, fun i _ hij => ?_,
    hdata⟩, rfl, ?_, ?_⟩
  · rw [FS.setInode_same, hinum]
  · rw [FS.setInode_same, href]
  · rw [hdin, if_neg hij]
  · rw [hdin, if_pos rfl]
  · rw [FS.setInode_same, hvalid]

theorem free_of_ialloc {dev : ℕ} {type : UInt16} (hn : ialloc dev type s = .ok (some ip, t)) :
    ∃ j, 0 < j ∧ j < s.sb.ninodes ∧ (s.dinode j).type = 0 := by
  rw [ialloc] at hn
  split at hn
  · cases hn
  · rename_i j hfind
    have hmem := List.mem_range'_1.mp (List.mem_of_find?_eq_some hfind)
    have h0 := List.find?_some hfind
    exact ⟨j, hmem.1, by omega, eq_of_beq h0⟩

theorem Making.ref_pos (h : Making b ip j t) : 0 < (t.itable ip).ref := h.ref ▸ Nat.succ_pos _

theorem Making.touch (hb : Base b ip j) (h : Making b ip j t) {v : Inode} (hc : Consistent (t.setInode ip v))
    (hinum : v.inum = (t.itable ip).inum) (href : v.ref = (t.itable ip).ref) : Making b ip j (t.setInode ip v) := by
  refine h.step hb hc rfl rfl (fun jp hj => FS.setInode_of_ne _ _ _ hj) ?_ ?_ (fun _ _ _ => rfl) fun _ _ _ => rfl
  · rw [FS.setInode_same, hinum]
  · rw [FS.setInode_same, href]

theorem Making.ilock (hb : Base b ip j) (h : Making b ip j t) (hn : Fs.ilock ip t = .ok u) :
    Making b ip j u ∧ u.quirks = t.quirks := by
  have hi : (t.itable ip).inum < t.sb.records := by
    rw [h.inum, h.sb]
    exact hb.range
  have hc := h.consistent.ilock hi hn
  rcases (ilock_cases hn).2 with ⟨-, rfl⟩ | ⟨-, -, rfl⟩
  · exact ⟨h.touch hb hc rfl rfl, rfl⟩
  · exact ⟨h.touch hb hc rfl rfl, rfl⟩

theorem Making.setAttrs {major minor nlink : UInt16} (hb : Base b ip j) (h : Making b ip j t)
    (hn : Fs.setAttrs ip major minor nlink t = .ok u) :
    Making b ip j u ∧ u.quirks = t.quirks ∧
      u.itable ip = { t.itable ip with major := major, minor := minor, nlink := nlink } := by
  have hc := h.consistent.setAttrs hn
  have hup := updated_of_iupdate hn
  have hi : (t.itable ip).inum < t.sb.records := by
    rw [h.inum, h.sb]
    exact hb.range
  have hquirks : u.quirks = t.quirks := (iupdate_history ip (t.setInode ip
    { t.itable ip with major := major, minor := minor, nlink := nlink })).of_eq_ok hn
  have hslot : u.itable ip = { t.itable ip with major := major, minor := minor, nlink := nlink } := by
    rw [hup.itable, FS.setInode_same]
  refine ⟨h.step hb hc hup.sb hup.pid (fun jp hj => ?_) ?_ ?_ (fun i hi hij => ?_) fun x hx _ => ?_, hquirks,
    hslot⟩
  · rw [hup.itable, FS.setInode_of_ne _ _ _ hj]
  · rw [hslot]
  · rw [hslot]
  · rw [hup.dinode, FS.setInode_same, if_neg (by rw [h.inum]; exact hij), FS.setInode_dinode]
  · refine held_data h.consistent (fun B h₁ h₂ => ?_) hx
    exact iupdate_data (t := t.setInode ip { t.itable ip with major := major, minor := minor, nlink := nlink })
      h.consistent.table.layout (by rw [FS.setInode_same]; exact hi) hn h₁ h₂

/-- **A write of one entry to the new inode**, in a direct block. -/
theorem Making.writei {m : ℕ} (hb : Base b ip j) (h : Making b ip j t) (hlock : (t.itable ip).lock = some t.pid)
    (hdir : direntSize * m + direntSize ≤ NDIRECT * BSIZE) (f : ℕ → UInt8) :
    ∃ r u, Fs.writei ip (kernelSrc f) (direntSize * m) direntSize t = .ok (r, u) ∧ Making b ip j u ∧
      u.quirks = t.quirks ∧ (u.itable ip).size.toNat ≤ (t.itable ip).size.toNat + direntSize ∧
      (r = some direntSize → 0 < (u.itable ip).size.toNat) := by
  obtain ⟨r, u, hw, hcases⟩ := writei_writes h.consistent hlock (Or.inr (not_gets_of_le hdir))
  refine ⟨r, u, hw, ?_⟩
  rcases hcases with ⟨rfl, rfl⟩ | ⟨tot, e, rfl, hd⟩
  · exact ⟨h, rfl, Nat.le_add_right _ _, fun hcon => by cases hcon⟩
  · have hoff' := hd.off_le
    have hle := hd.le
    have hend := hd.le_end
    refine ⟨h.step hb hd.consistent hd.sb hd.pid hd.other ?_ ?_ (fun i hi hij => hd.dinode i hi ?_) fun x hx hne =>
      hd.data x ?_ hx, hd.quirks, ?_, fun hr => ?_⟩
    · rw [hd.self]
    · rw [hd.self]
    · rw [h.inum]
      exact hij
    · rw [h.inum]
      exact hne
    · rw [hd.size]
      omega
    · cases hr
      have hpos : 0 < direntSize := by decide
      rw [hd.size]
      omega

theorem Making.same (hb : Base b ip j) (h : Making b ip j t) (hs : Same t u) : Making b ip j u := by
  refine h.step hb hs.consistent hs.sb hs.pid (fun jp _ => ?_) ?_ ?_ (fun i _ _ => hs.record i) fun x hx _ =>
    held_data h.consistent hs.data hx
  · rw [hs.itable]
  · rw [hs.itable]
  · rw [hs.itable]

/-! ## The entries -/

/-- **A new entry in the new directory**, or none. -/
theorem Making.dirlink {name : ℕ → UInt8} (hb : Base b ip j) (h : Making b ip j t) (hdir : DirFile ip t)
    (hno : SlotMap.Absent (slots t ip) (strn name DIRSIZ))
    (hsize : (t.itable ip).size.toNat + direntSize ≤ NDIRECT * BSIZE) (inum : ℕ) (junk : Dirent) :
    ∃ ok u, Fs.dirlink ip name inum junk t = .ok (ok, u) ∧ Making b ip j u ∧ u.quirks = t.quirks ∧ DirFile ip u ∧
      (u.itable ip).size.toNat ≤ (t.itable ip).size.toNat + direntSize ∧
      (ok = true → 0 < (u.itable ip).size.toNat) ∧
      (slots u ip = slots t ip ∨
        ∃ m de, slots u ip = update (slots t ip) m (slotOf (Dirent.fill de name inum))) := by
  obtain ⟨m, de, hm, -, heq⟩ := dirlink_absent hdir hno inum junk
  have hdirect : direntSize * m + direntSize ≤ NDIRECT * BSIZE := by omega
  obtain ⟨r, u, hw, hu, hq, hle, hpos⟩ := h.writei hb hdir.lock hdirect (ByteBlock.get (Dirent.fill de name inum))
  obtain ⟨hdiru, hslots⟩ := writei_entry hdir m (Dirent.fill de name inum) (not_gets_of_le hdirect) hw
  rw [heq, hw]
  exact ⟨_, u, rfl, hu, hq, hdiru, hle, fun hok => hpos (eq_of_beq hok),
    hslots.imp And.right fun hs => ⟨m, de, hs.2⟩⟩

theorem strn_dot : strn (cstr dot) DIRSIZ = dot := by decide

theorem strn_dotdot : strn (cstr dotdot) DIRSIZ = dotdot := by decide

/-- **The entries `.` and `..`** go to the new directory. -/
theorem Making.createDots {type : UInt16} (hb : Base b ip j) (h : Making b ip j t)
    (hlock : (t.itable ip).lock = some t.pid) (htype : (t.itable ip).type = type)
    (hsize : (t.itable ip).size = 0) (dp : Slot) (junk : ℕ → Dirent) :
    ∃ ok u, Fs.createDots dp ip type junk t = .ok (ok, u) ∧ Making b ip j u ∧ u.quirks = t.quirks ∧
      (ok = true → type = T_DIR → (u.itable ip).addr 0 ≠ 0 ∧ (u.itable ip).lock = some u.pid) := by
  rw [Fs.createDots]
  split_ifs with hT
  · have hzero : (t.itable ip).size.toNat = 0 := by
      rw [hsize]
      rfl
    have hdir : DirFile ip t := by
      refine ⟨h.consistent, hlock, htype.trans hT, ?_, ?_, fun k hk => ?_⟩
      · rw [hzero]
        exact Nat.dvd_zero _
      · rw [hzero]
        exact Nat.zero_le _
      · rw [hzero] at hk
        exact absurd hk (Nat.not_lt_zero k)
    have hempty : ∀ i, slots t ip i = none := fun i => if_neg (by rw [hzero]; exact Nat.not_lt_zero _)
    have hno : ∀ l, SlotMap.Absent (slots t ip) l := by
      rintro l v ⟨i, hi⟩
      rw [hempty] at hi
      cases hi
    obtain ⟨ok₁, v, hdot, hv, hqv, hdirv, hle, -, hslots⟩ := h.dirlink hb hdir (hno (strn (cstr dot) DIRSIZ))
      (by rw [hzero]; decide) (t.itable ip).inum (junk 0)
    rw [hdot, ok_bind]
    dsimp only
    split_ifs
    · -- the first entry has another name
      have hno' : SlotMap.Absent (slots v ip) (strn (cstr dotdot) DIRSIZ) := by
        rcases hslots with hs | ⟨m, de, hs⟩
        · rw [hs]
          exact hno _
        · rintro w ⟨i, hi⟩
          rw [hs] at hi
          by_cases him : i = m
          · subst him
            rw [update_self, slotOf, strn_fill, strn_dot, strn_dotdot] at hi
            split_ifs at hi
            cases hi
          · rw [update_of_ne him, hempty] at hi
            cases hi
      have hsmall : (v.itable ip).size.toNat + direntSize ≤ NDIRECT * BSIZE := by
        have : direntSize + direntSize ≤ NDIRECT * BSIZE := by decide
        omega
      obtain ⟨ok₂, u, hdots, hu, hqu, hdiru, -, hpos, -⟩ :=
        hv.dirlink hb hdirv hno' hsmall (v.itable dp).inum (junk 1)
      exact ⟨ok₂, u, hdots, hu, hqu.trans hqv, fun hok _ => ⟨hdiru.mapped.addr_ne 0 (hpos hok), hdiru.lock⟩⟩
    · exact ⟨_, v, rfl, hv, hqv, fun hcon => by cases hcon⟩
  · exact ⟨_, t, rfl, h, rfl, fun _ hcon => absurd hcon hT⟩

theorem Making.dirFile (hb : Base b ip j) (h : Making b ip j t) (hd : DirFile dp b) (hne : dp ≠ ip) :
    DirFile dp t ∧ slots t dp = slots b dp := by
  have hslot := h.other dp hne
  obtain ⟨hpos, hv⟩ := hb.consistent.table.locked dp _ hd.lock
  refine ⟨⟨h.consistent, ?_, ?_, ?_, ?_, ?_⟩, ?_⟩
  · rw [hslot, h.pid]
    exact hd.lock
  · rw [hslot]
    exact hd.type
  · rw [hslot]
    exact hd.size
  · rw [hslot]
    exact hd.mapped.size_le
  · rw [hslot]
    exact hd.mapped.addr_ne
  · funext i
    rw [slots, slots, hslot]
    split_ifs with hi
    · have hle := hd.entry_le hi
      congr 1
      refine entryAt_congr fun k hk => ?_
      have ha := hd.mapped.addr_ne (direntSize * i + k) (by omega)
      have hplace := (hb.consistent.editable hpos hv).holds_addr ((direntSize * i + k) / BSIZE)
      rw [hb.consistent.table.recs_eq hpos hv] at hplace
      have hdata := h.data (.addr (b.itable dp).inum ((direntSize * i + k) / BSIZE)) (by rw [hplace]; exact ha)
      rw [hplace] at hdata
      rw [fileByte, fileByte, hslot, hdata]
    · rfl

/-- **A new entry in another directory, if it fails**, changes nothing. -/
theorem Making.dirlink_parent {name : ℕ → UInt8} {inum : ℕ} {junk : Dirent} (hb : Base b ip j)
    (h : Making b ip j t) (hd : DirFile dp b) (hne : dp ≠ ip)
    (hno : SlotMap.Absent (slots b dp) (strn name DIRSIZ)) (hn : Fs.dirlink dp name inum junk t = .ok (false, u)) :
    Same t u := by
  obtain ⟨hdt, hslots⟩ := h.dirFile hb hd hne
  rw [← hslots] at hno
  obtain ⟨m, de, hm, -, heq⟩ := dirlink_absent hdt hno inum junk
  rw [heq] at hn
  cases hw : Fs.writei dp (kernelSrc (ByteBlock.get (Dirent.fill de name inum))) (direntSize * m) direntSize t with
  | error e =>
    rw [hw] at hn
    cases hn
  | ok p =>
    obtain ⟨r, v⟩ := p
    rw [hw] at hn
    obtain ⟨hr, rfl⟩ := Prod.mk.inj (Except.ok.inj hn)
    have hr' : r ≠ some direntSize := by
      rintro rfl
      exact absurd hr (by simp)
    exact writei_failed h.consistent hdt.lock (Nat.dvd_mul_right _ _) hm (hm.trans hdt.mapped.size_le) hw hr'

/-- **The entries, if one of them fails.** -/
theorem Making.createLinks {name : List UInt8} {type : UInt16} {junk : ℕ → Dirent} (hb : Base b ip j)
    (h : Making b ip j t) (hlock : (t.itable ip).lock = some t.pid)
    (htype : (t.itable ip).type = type) (hsize : (t.itable ip).size = 0) (hd : DirFile dp b) (hne : dp ≠ ip)
    (hno : SlotMap.Absent (slots b dp) (strn (cstr name) DIRSIZ))
    (hn : Fs.createLinks dp ip name type junk t = .ok (false, u)) :
    Making b ip j u := by
  rw [Fs.createLinks] at hn
  obtain ⟨⟨ok₁, v⟩, hdots, hrest⟩ := bind_eq_ok.mp hn
  obtain ⟨ok₂, v₂, heq, hv, -, -⟩ := h.createDots hb hlock htype hsize dp junk
  cases heq.symm.trans hdots
  dsimp only at hrest
  split_ifs at hrest
  · exact hv.same hb (hv.dirlink_parent hb hd hne hno hrest)
  · cases hrest
    exact hv

/-! ## The inode is freed again -/

/-- Compared with `b` only the record of `j`, which stands for no inode, and the slot `ip` may be different. -/
structure Unmade (b : FS) (ip : Slot) (j : ℕ) (t : FS) : Prop where
  consistent : Consistent t
  sb : t.sb = b.sb
  pid : t.pid = b.pid
  other : ∀ jp, jp ≠ ip → t.itable jp = b.itable jp
  free : (t.dinode j).type = 0
  record : ∀ i < b.sb.records, i ≠ j → t.dinode i = b.dinode i
  data : ∀ x, holds b.sb.wide b.buf b.dinode x ≠ 0 →
    t.buf (holds b.sb.wide b.buf b.dinode x) = b.buf (holds b.sb.wide b.buf b.dinode x)

/-- **The new inode is freed** with its last pointer. -/
theorem Making.iput (hb : Base b ip j) (h : Making b ip j t) (h1 : (t.itable ip).ref = 1)
    (hv : (t.itable ip).valid = true) (hnlink : (t.itable ip).nlink = 0) (hlock : (t.itable ip).lock = none)
    (hn : Fs.iput ip t = .ok u) : Unmade b ip j u := by
  have htable := h.consistent.table.iput ⟨h.ref_pos, Or.inl hlock⟩ hn
  have hput := hn
  rw [Fs.iput, if_pos ⟨h1, hnlink⟩, if_pos hv] at hput
  obtain ⟨v, hdes, hput⟩ := bind_eq_ok.mp hput
  cases hput
  obtain ⟨howned, -, hdata⟩ := (destroy_owned h.consistent h.ref_pos hv).of_eq_ok hdes
  have hd := destroyed_of_destroy hdes
  refine ⟨⟨htable, howned, hd.sb ▸ h.consistent.small⟩, hd.sb.trans h.sb, hd.pid.trans h.pid, fun jp hj => ?_, ?_,
    fun i hi hij => ?_, fun x hx => ?_⟩
  · rw [FS.setInode_of_ne _ _ _ hj, hd.other jp hj, h.other jp hj]
  · rw [FS.setInode_dinode]
    exact h.inum ▸ hd.record.1
  · rw [FS.setInode_dinode, hd.dinode i (h.sb ▸ hi) (by rw [h.inum]; exact hij)]
    exact h.record i hi hij
  · have heq := hb.holds_eq h.sb h.record h.data hx
    have hkeep : v.buf (holds t.sb.wide t.buf t.dinode x) = t.buf (holds t.sb.wide t.buf t.dinode x) :=
      held_data h.consistent hdata (by rwa [heq])
    rw [heq] at hkeep
    exact hkeep.trans (h.data x hx)

/-- **The end of `create` if it fails**: the new inode has no link, and is freed. -/
theorem Making.undo (hb : Base b ip j) (h : Making b ip j t) (h0 : (b.itable ip).ref = 0) {v : FS}
    (hn : setNlink ip 0 t = .ok v) (hput : iunlockput ip v = .ok u) : Unmade b ip j u := by
  obtain ⟨hv, -, hslot⟩ := h.setAttrs hb hn
  obtain ⟨w, hun, hend⟩ := bind_eq_ok.mp hput
  have hcons := (hv.consistent.iunlock hun).1
  obtain ⟨-, hheld, rfl⟩ := iunlock_cases hun
  have hw : Making b ip j (v.setLock ip none) := hv.touch hb hcons rfl rfl
  have hself : (v.setLock ip none).itable ip = { v.itable ip with lock := none } := FS.setInode_same _ _ _
  refine hw.iput hb (by rw [hw.ref, h0]) ?_ ?_ ?_ hend
  · rw [hself]
    exact (hv.consistent.table.locked ip _ hheld).2
  · rw [hself, hslot]
  · rw [hself]

/-- **The beginning of `createNew`**: the slot gets a copy of the new record, and its lock is taken. -/
theorem making_begin {type major minor : UInt16} {v : FS} (hc : Consistent b)
    (halloc : ialloc ROOTDEV type b = .ok (some ip, t)) (hlock : Fs.ilock ip t = .ok u)
    (hattrs : Fs.setAttrs ip major minor 1 u = .ok v) :
    ∃ j, Base b ip j ∧ Making b ip j v ∧ v.quirks = b.quirks ∧ (v.itable ip).lock = some v.pid ∧
      (v.itable ip).type = type ∧ (v.itable ip).size = 0 := by
  obtain ⟨j, hb, ht, hq, hnew, hinvalid⟩ := making_ialloc hc halloc
  obtain ⟨h₁, hq₁⟩ := ht.ilock hb hlock
  obtain ⟨h₂, hq₂, hslot₂⟩ := h₁.setAttrs hb hattrs
  -- the slot is a copy of the new record
  have hslot₁ : u.itable ip = { t.itable ip with
      toDinode := { Dinode.zero with type := type }, lock := some t.pid, valid := true } := by
    rcases (ilock_cases hlock).2 with ⟨hv, -⟩ | ⟨-, -, rfl⟩
    · rw [hinvalid] at hv
      cases hv
    · rw [FS.setInode_same, ht.inum, hnew]
  refine ⟨j, hb, h₂, hq₂.trans (hq₁.trans hq), ?_, ?_, ?_⟩
  · rw [hslot₂, hslot₁, h₂.pid, ← ht.pid]
  · rw [hslot₂, hslot₁]
  · rw [hslot₂, hslot₁]
    rfl

/-- **The part of `create` after `ialloc`, if it fails**: what is left to do is to give up the parent. -/
theorem createNew_failed {name : List UInt8} {type major minor : UInt16} {junk : ℕ → Dirent} (hd : DirFile dp b)
    (halive : ∀ jp, 0 < (b.itable jp).ref → (b.dinode (b.itable jp).inum).type ≠ 0)
    (hno : SlotMap.Absent (slots b dp) (strn (cstr name) DIRSIZ))
    (halloc : ialloc ROOTDEV type b = .ok (some ip, t))
    (hn : createNew dp ip name type major minor junk t = .ok (none, u)) :
    ∃ j v, Base b ip j ∧ Unmade b ip j v ∧ dp ≠ ip ∧ iunlockput dp v = .ok u := by
  rw [createNew] at hn
  obtain ⟨s₁, hlock, hrest⟩ := bind_eq_ok.mp hn
  obtain ⟨s₂, hattrs, hrest⟩ := bind_eq_ok.mp hrest
  obtain ⟨⟨ok, s₃⟩, hlinks, hrest⟩ := bind_eq_ok.mp hrest
  obtain ⟨j, hb, h₂, -, hheld, htype, hsize⟩ := making_begin hd.consistent halloc hlock hattrs
  have hne := hb.ne_slot hd.lock
  -- a slot in use stands for an inode that is allocated
  have h0 : (b.itable ip).ref = 0 := by
    by_contra hpos
    have hpos' := Nat.pos_of_ne_zero hpos
    have htype := halive ip hpos'
    rw [hb.slot hpos'] at htype
    exact htype hb.free
  cases ok with
  | true =>
    obtain ⟨_, -, hrest⟩ := bind_eq_ok.mp hrest
    obtain ⟨_, -, hrest⟩ := bind_eq_ok.mp hrest
    cases hrest
  | false =>
    obtain ⟨s₄, hnlink, hrest⟩ := bind_eq_ok.mp hrest
    obtain ⟨s₅, hput, hrest⟩ := bind_eq_ok.mp hrest
    obtain ⟨s₆, hparent, hrest⟩ := bind_eq_ok.mp hrest
    cases hrest
    have h₃ := h₂.createLinks hb hheld htype hsize hd hne hno hlinks
    exact ⟨j, s₅, hb, h₃.undo hb h0 hnlink hput, hne, hparent⟩

end Making

end RiscvOs.Fs.Create
