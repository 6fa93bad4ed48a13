import RiscvOs.Fs.Freeing

set_option autoImplicit false

/-!
# Consistency of the file system

A file system is consistent if its inode table is in order and every data block that is in use
has one owner. This module shows how a change to one inode keeps it so, and that `bfree` finds
every block in use that `itrunc` asks it to free.

## Main results

* `Consistent.finish` — `iupdate` at the end of a change to an inode.
* `itrunc_owned` — `itrunc` frees exactly the blocks of the inode.
-/

namespace RiscvOs.Fs

open Function Loop Reclaim

/-- The inode table is in order, and the data blocks in use have one owner each. The numbers of the blocks can
be passed as `int`. -/
structure Consistent (s : FS) : Prop where
  table : Table s
  owned : Owned s.sb.wide s.buf s.dinode
  small : s.sb.size < 2 ^ 31

/-- `bfree` panics although none of the recorded branches was taken before. -/
def Fatal (e : Panic) : Prop := e = .bfree []

/-- `bfree` panics. -/
def Freed (e : Panic) : Prop := ∃ q, e = .bfree q

theorem fatal_of_freed {α : Type} {x : Except Panic α} {Q : α → Prop} (h : Safe Freed Q x) : Safe Fatal Q x := by
  cases x with
  | ok r => exact h
  | error e => exact fun he => h ⟨[], he⟩

section Records

variable {sb : Superblock} {buf : Disk} {recs recs' : ℕ → Dinode} {i : ℕ}

theorem Layout.inode_lt (hL : Layout sb) (hi : IBLOCK i sb < sb.bmapstart) {a : ℕ} (ha : sb.dataStart ≤ a)
    (ha' : a < sb.size) : IBLOCK i sb < a :=
  (hi.trans_le (bmapstart_le a sb)).trans (hL.bitmap_lt ha' ha)

theorem Owned.setDinode (h : Owned sb buf recs) (hL : Layout sb) (hi : i < sb.ninodes) (d : Dinode)
    (hr : ∀ j, j < sb.ninodes → recs' j = recs j) : Owned sb (Fs.setDinode sb buf i d) recs' := by
  refine h.congr (fun b _ => blockUsed_update_of_ne sb buf _ ?_) hr fun j hj => ?_
  · exact ((hL.inodes i hi).trans_le (bmapstart_le b sb)).ne'
  · obtain ⟨h1, h2⟩ := h.range hj
    exact update_of_ne (hL.inode_lt (hL.inodes i hi) h1 h2).ne' _ _

/-- A record that refers to no blocks. -/
def Dinode.Bare (d : Dinode) : Prop := d.type = 0 ∨ ∀ k, d.addr k = 0

theorem holds_bare {x : Place} (hx : inumOf x = i) (h : (recs i).Bare) : holds sb buf recs x = 0 := by
  cases x with
  | addr j k =>
    obtain rfl : j = i := hx
    refine ite_eq_right_iff.mpr fun hc => ?_
    exact h.elim (fun h0 => absurd h0 hc.2) fun h0 => h0 k
  | entry j k =>
    obtain rfl : j = i := hx
    refine if_neg fun hc => ?_
    exact h.elim hc.1.2 fun h0 => hc.2.1 (h0 NDIRECT)

theorem holds_update_bare (h : (recs i).Bare) {d : Dinode} (hd : d.Bare) :
    holds sb buf (update recs i d) = holds sb buf recs := by
  have hd' : (update recs i d i).Bare := by
    rw [update_self]
    exact hd
  funext x
  by_cases hx : inumOf x = i
  · rw [holds_bare hx h, holds_bare hx hd']
  · exact holds_update_of_ne hx d

theorem holds_of_bare (hr : ∀ i, i < sb.ninodes → (recs i).Bare) (x : Place) : holds sb buf recs x = 0 := by
  by_cases hi : inumOf x < sb.ninodes
  · exact holds_bare rfl (hr _ hi)
  · cases x with
    | addr i k => exact if_neg fun h => hi h.1
    | entry i j => exact if_neg fun h => hi h.1.1

theorem owned_of_bare (hr : ∀ i, i < sb.ninodes → (recs i).Bare)
    (hlow : ∀ b, b < sb.dataStart → blockUsed sb buf b = true)
    (hfree : ∀ b, sb.dataStart ≤ b → b < sb.size → blockUsed sb buf b = false)
    (hpos : 0 < sb.dataStart) : Owned sb buf recs := by
  have h0 : ∀ x, holds sb buf recs x = 0 := holds_of_bare hr
  refine ⟨fun x hx => absurd (h0 x) hx, fun x y hx => absurd (h0 x) hx, fun b h1 h2 => ?_, hlow⟩
  rw [hfree b h1 h2]
  constructor
  · intro h
    cases h
  · rintro ⟨x, hx⟩
    rw [h0] at hx
    omega

theorem Owned.update_bare (h : Owned sb buf recs) (hi : (recs i).Bare) {d : Dinode} (hd : d.Bare) :
    Owned sb buf (update recs i d) := by
  rw [Owned, holds_update_bare hi hd]
  exact h

theorem Owned.update_same (h : Owned sb buf recs) {d : Dinode} (ht : d.type = (recs i).type)
    (ha : d.addrs = (recs i).addrs) : Owned sb buf (update recs i d) := by
  have hsame : holds sb buf (update recs i d) = holds sb buf recs := by
    funext x
    by_cases hx : inumOf x = i
    · refine holds_eq hx (fun _ => ?_) fun _ => rfl
      rw [update_self]
      exact ⟨ht, ha⟩
    · exact holds_update_of_ne hx d
  rw [Owned, hsame]
  exact h

end Records

theorem iupdate_safe {ip : Slot} {s : FS} {Q : FS → Prop}
    (h : ∀ u, iupdate ip s = .ok u → Q u) : Safe Freed Q (iupdate ip s) := by
  cases hn : iupdate ip s with
  | ok u => exact h u hn
  | error e =>
    rw [iupdate] at hn
    split_ifs at hn
    cases hn
    rintro ⟨q, hq⟩
    cases hq

/-! ## Changing one inode -/

section Edit

variable {s t u : FS} {ip : Slot}

theorem Table.recs_eq (h : Table s) (hpos : 0 < (s.itable ip).ref)
    (hv : (s.itable ip).valid = true) : s.recs ip = s.dinode := by
  rw [FS.recs, (h.coherent ip hpos hv).1, update_eq_self]

theorem Consistent.owned_recs (h : Consistent s) (hpos : 0 < (s.itable ip).ref)
    (hv : (s.itable ip).valid = true) : Owned s.sb.wide s.buf (s.recs ip) := by
  rw [h.table.recs_eq hpos hv]
  exact h.owned

theorem FS.recs_self (s : FS) (ip : Slot) :
    s.recs ip (s.itable ip).inum = (s.itable ip).toDinode := update_self ..

theorem FS.recs_setInode (s : FS) (ip : Slot) {v : Inode} (hv : v.inum = (s.itable ip).inum) :
    (s.setInode ip v).recs ip =
      update (s.recs ip) (s.itable ip).inum v.toDinode := by
  rw [FS.recs, FS.recs, FS.setInode_same, hv, update_idem]
  rfl

theorem Owned.setInode (h : Owned s.sb.wide s.buf (s.recs ip)) {v : Inode}
    (hv : v.inum = (s.itable ip).inum) (ht : v.type = (s.itable ip).type)
    (ha : v.addrs = (s.itable ip).addrs) :
    Owned s.sb.wide s.buf ((s.setInode ip v).recs ip) := by
  rw [FS.recs_setInode s ip hv]
  refine h.update_same ?_ ?_
  · rw [FS.recs_self]
    exact ht
  · rw [FS.recs_self]
    exact ha

theorem FS.recs_setAddr (hit : t.itable = s.itable)
    (hd : ∀ j, j < s.sb.records → t.dinode j = s.dinode j) (k a : ℕ) {j : ℕ}
    (hj : j < s.sb.records) :
    (t.setAddr ip k a).recs ip j = update (s.recs ip) (s.itable ip).inum
      ((s.recs ip (s.itable ip).inum).setAddr k a) j := by
  rw [FS.recs_self, FS.recs, FS.recs, FS.setAddr, FS.setInode_same, hit]
  by_cases hji : j = (s.itable ip).inum
  · rw [hji, update_self, update_self]
  · rw [update_of_ne hji, update_of_ne hji, update_of_ne hji]
    exact hd j hj

theorem Owned.iupdate (ho : Owned t.sb.wide t.buf (t.recs ip)) (hL : Layout t.sb)
    (hi : (t.itable ip).inum < t.sb.records) (hn : Fs.iupdate ip t = .ok u) :
    Owned u.sb.wide u.buf u.dinode := by
  have hd := (updated_of_iupdate hn).dinode
  obtain ⟨-, rfl⟩ := iupdate_eq_ok.mp hn
  refine ho.setDinode hL.wide hi _ fun j _ => ?_
  rw [hd j, FS.recs]
  by_cases hj : j = (t.itable ip).inum
  · rw [if_pos hj, hj, update_self]
  · rw [if_neg hj, update_of_ne hj]

/-- **The end of a change to an inode**: the slot is written to the disk. -/
theorem Consistent.finish (h : Consistent s) (hf : Frame ip s t) {v : Inode}
    (hv : v = { s.itable ip with toDinode := v.toDinode }) (htype : v.type ≠ 0)
    (ho : Owned t.sb.wide t.buf ((t.setInode ip v).recs ip))
    (hn : iupdate ip (t.setInode ip v) = .ok u) : Consistent u := by
  have hu := updated_of_iupdate hn
  refine ⟨h.table.edit hf hv htype hu, ?_, (hu.sb.trans hf.sb).symm ▸ h.small⟩
  have hheld := hu.held
  rw [FS.setInode_same, hv] at hheld
  obtain ⟨hpos, hvalid⟩ := h.table.locked ip _ hheld
  refine Owned.iupdate (t := t.setInode ip v) ho (hf.sb ▸ h.table.layout) ?_ hn
  rw [FS.setInode_same, hv, FS.setInode_sb, hf.sb]
  exact h.table.range ip hpos hvalid

end Edit

/-! ## `itrunc` -/

section Itrunc

variable {s t : FS} {ip : Slot}

theorem Owned.freeable (ho : Owned s.sb.wide s.buf (s.recs ip)) (hL : Layout s.sb)
    (hi : (s.itable ip).inum < s.sb.records) (ht : (s.itable ip).type ≠ 0) :
    Freeable bfree ip (s.itable ip).inum (holds s.sb.wide s.buf (s.recs ip)) s := by
  have hrec := s.recs_self ip
  have ht' : (s.recs ip (s.itable ip).inum).type ≠ 0 := by rwa [hrec]
  refine ⟨fun k => ?_, fun j => ?_, fun x _ hx => ho.used hx, fun x _ hx => (ho.range hx).2,
    fun x _ hx b hb => (hL.bitmap_lt hb (ho.range hx).1).ne', fun x y _ _ hx he => ho.inj hx he,
    fun x _ _ t _ hu => bfree_of_used hu⟩
  · rw [holds_addr hi ht', hrec]
  · rw [holds, hrec]
    exact if_congr (and_iff_right ⟨hi, ht⟩) rfl rfl

theorem Owned.freed (ho : Owned s.sb.wide s.buf (s.recs ip)) (hL : Layout s.sb)
    (h : Freeing ip (holds s.sb.wide s.buf (s.recs ip)) (fun x => inumOf x = (s.itable ip).inum) s t)
    (h0 : ∀ j, (t.itable ip).addr j = 0) : Owned t.sb.wide t.buf (t.recs ip) := by
  have hinum : (t.itable ip).inum = (s.itable ip).inum := by rw [h.self]
  have hbare : (t.recs ip (s.itable ip).inum).Bare := by
    rw [← hinum, FS.recs_self]
    exact Or.inr h0
  rw [Owned, h.sb]
  refine Ownership.Owns.release ho (fun hpos => (Nat.zero_le _).trans_lt (hL.bitmap 0 hpos))
    (fun x hx => holds_bare hx hbare) (fun x hx => holds_eq rfl (fun hj => ?_) fun hx' => ?_) fun b => ?_
  · rw [FS.recs, FS.recs, hinum, update_of_ne hx, update_of_ne hx, h.dinode (record_lt hj)]
    exact ⟨rfl, rfl⟩
  · exact h.rest _ fun b hb => (hL.bitmap_lt hb (ho.range hx').1).ne'
  · have hbits := h.bits b
    rwa [FS.used, h.sb] at hbits

theorem FS.recs_congr (hit : t.itable = s.itable)
    (hd : ∀ j, j < s.sb.records → t.dinode j = s.dinode j) {j : ℕ} (hj : j < s.sb.records) :
    t.recs ip j = s.recs ip j := by
  rw [FS.recs, FS.recs, hit]
  by_cases hji : j = (s.itable ip).inum
  · rw [hji, update_self, update_self]
  · rw [update_of_ne hji, update_of_ne hji]
    exact hd j hj

/-- **`itrunc` frees exactly the blocks of the inode**: none of them is free already, and the
bitmap agrees with the records afterwards. -/
theorem itrunc_owned (ho : Owned s.sb.wide s.buf (s.recs ip)) (hL : Layout s.sb)
    (hi : (s.itable ip).inum < s.sb.records) (ht : (s.itable ip).type ≠ 0) :
    Safe Fatal (fun u => Owned u.sb.wide u.buf u.dinode ∧ u.quirks = s.quirks ∧
      u.sb = s.sb ∧ (∀ b, s.sb.dataStart ≤ b → b < s.sb.size → u.buf b = s.buf b) ∧
      (u.itable ip).inum = (s.itable ip).inum ∧ (u.dinode (s.itable ip).inum).Bare)
      (itrunc ip s) := by
  obtain ⟨t, hrun, hfree, h0⟩ := itrunc_frees (ho.freeable hL hi ht)
  rw [← itruncBy_bfree, hrun]
  refine fatal_of_freed (iupdate_safe fun u hu => ?_)
  have hinum : (t.itable ip).inum = (s.itable ip).inum := by rw [hfree.self]
  have hslot : (t.setInode ip { t.itable ip with size := 0 }).itable ip = { t.itable ip with size := 0 } :=
    FS.setInode_same ..
  have hup := updated_of_iupdate hu
  obtain ⟨-, rfl⟩ := iupdate_eq_ok.mp hu
  refine ⟨?_, hfree.quirks, hfree.sb, fun b hlo hhi => ?_, ?_, ?_⟩
  · refine ((ho.freed hL hfree h0).setInode (v := { t.itable ip with size := 0 }) rfl rfl rfl).iupdate
      (t := t.setInode ip _) (hfree.sb ▸ hL) ?_ hu
    rw [hslot, FS.setInode_sb, hfree.sb]
    exact hinum ▸ hi
  · have hne : b ≠ IBLOCK (t.itable ip).inum t.sb := by
      rw [hinum, hfree.sb]
      exact (hL.inode_lt (record_lt hi) hlo hhi).ne'
    have hdata := hfree.rest b fun b' hb' => (hL.bitmap_lt hb' hlo).ne'
    rw [← hdata]
    refine update_of_ne ?_ _ _
    rwa [hslot]
  · rw [hup.itable, hslot]
    exact hinum
  · rw [hup.dinode, hslot, if_pos hinum.symm]
    exact Or.inr h0

end Itrunc

end RiscvOs.Fs
