import RiscvOs.Fs.Inode

set_option autoImplicit false

/-!
# The inode table

What every call keeps true of the inode table: a slot that somebody points to stands for one
inode of the disk and no other slot does, a slot that is valid holds a copy of the record, and a
slot is locked only while it is pointed to and valid.

## Main results

* `Table.change` — the invariant after a change to one slot and one record.
* `Table.iget`, `Table.ilock`, `Table.iunlock`,
  `Table.edit`, `Table.claim`, `Table.iput` — one for each call.
-/

namespace RiscvOs.Fs

/-- The inode table agrees with itself and with the records. -/
structure Table (s : FS) : Prop where
  layout : Layout s.sb
  dev : ∀ ip, 0 < (s.itable ip).ref → (s.itable ip).dev = ROOTDEV
  range : ∀ ip, 0 < (s.itable ip).ref → (s.itable ip).valid = true → (s.itable ip).inum < s.sb.records
  unique : ∀ ip jp, 0 < (s.itable ip).ref → 0 < (s.itable jp).ref →
    (s.itable ip).inum = (s.itable jp).inum → ip = jp
  coherent : ∀ ip, 0 < (s.itable ip).ref → (s.itable ip).valid = true →
    (s.itable ip).toDinode = s.dinode (s.itable ip).inum ∧ (s.itable ip).type ≠ 0
  locked : ∀ ip p, (s.itable ip).lock = some p → 0 < (s.itable ip).ref ∧ (s.itable ip).valid = true

/-- Somebody points to the slot, and if nobody else does it is not locked. -/
def Droppable (ip : Slot) (s : FS) : Prop :=
  0 < (s.itable ip).ref ∧ ((s.itable ip).lock = none ∨ 1 < (s.itable ip).ref)

section Steps

variable {s t : FS} {ip : Slot}

/-- **Changing one slot.** The invariant is kept by a step that changes the slot `ip` and at
most the record of one inode `c`, which no other valid slot stands for. -/
theorem Table.change (h : Table s) (ip : Slot) (c : ℕ) (hsb : t.sb = s.sb)
    (hslot : ∀ jp, jp ≠ ip → t.itable jp = s.itable jp)
    (hdin : ∀ i, i < s.sb.records → i ≠ c → t.dinode i = s.dinode i)
    (hc : ∀ jp, jp ≠ ip → 0 < (s.itable jp).ref → (s.itable jp).valid = true →
      (s.itable jp).inum ≠ c)
    (hlive : 0 < (t.itable ip).ref → (t.itable ip).dev = ROOTDEV ∧
      (∀ jp, jp ≠ ip → 0 < (s.itable jp).ref → (s.itable jp).inum ≠ (t.itable ip).inum) ∧
      ((t.itable ip).valid = true → (t.itable ip).inum < s.sb.records ∧
        (t.itable ip).toDinode = t.dinode (t.itable ip).inum ∧ (t.itable ip).type ≠ 0))
    (hlock : ∀ p, (t.itable ip).lock = some p →
      0 < (t.itable ip).ref ∧ (t.itable ip).valid = true) : Table t := by
  refine ⟨hsb ▸ h.layout, fun jp hj => ?_, fun jp hj hv => ?_, fun jp kp hj hk he => ?_,
    fun jp hj hv => ?_, fun jp p hl => ?_⟩
  · by_cases hji : jp = ip
    · subst hji
      exact (hlive hj).1
    · rw [hslot jp hji] at hj ⊢
      exact h.dev jp hj
  · rw [hsb]
    by_cases hji : jp = ip
    · subst hji
      exact ((hlive hj).2.2 hv).1
    · rw [hslot jp hji] at hj hv ⊢
      exact h.range jp hj hv
  · by_cases hji : jp = ip <;> by_cases hki : kp = ip
    · rw [hji, hki]
    · subst hji
      rw [hslot kp hki] at hk he
      exact absurd he.symm ((hlive hj).2.1 kp hki hk)
    · subst hki
      rw [hslot jp hji] at hj he
      exact absurd he ((hlive hk).2.1 jp hji hj)
    · rw [hslot jp hji] at hj he
      rw [hslot kp hki] at hk he
      exact h.unique jp kp hj hk he
  · by_cases hji : jp = ip
    · subst hji
      exact ((hlive hj).2.2 hv).2
    · rw [hslot jp hji] at hj hv ⊢
      rw [hdin _ (h.range jp hj hv) (hc jp hji hj hv)]
      exact h.coherent jp hj hv
  · by_cases hji : jp = ip
    · subst hji
      exact hlock p hl
    · rw [hslot jp hji] at hl ⊢
      exact h.locked jp p hl

theorem Table.ne_inum (h : Table s) (hp : 0 < (s.itable ip).ref) (jp : Slot) (hj : jp ≠ ip)
    (hjp : 0 < (s.itable jp).ref) : (s.itable jp).inum ≠ (s.itable ip).inum :=
  fun he => hj (h.unique jp ip hjp hp he)

theorem Table.congr (h : Table s) (hsb : t.sb = s.sb) (hbuf : t.buf = s.buf)
    (hit : t.itable = s.itable) : Table t := by
  have hdin : ∀ i, t.dinode i = s.dinode i := fun i => by rw [FS.dinode, FS.dinode, hsb, hbuf]
  refine ⟨hsb ▸ h.layout, ?_, ?_, ?_, ?_, ?_⟩
  · rw [hit]
    exact h.dev
  · rw [hit, hsb]
    exact h.range
  · rw [hit]
    exact h.unique
  · simp only [hit, hdin]
    exact h.coherent
  · rw [hit]
    exact h.locked

theorem Table.setInode (h : Table s) {v : Inode} (hpos : 0 < (s.itable ip).ref)
    (hdev : v.dev = (s.itable ip).dev) (hinum : v.inum = (s.itable ip).inum)
    (hco : 0 < v.ref → v.valid = true → (s.itable ip).inum < s.sb.records ∧
      v.toDinode = s.dinode (s.itable ip).inum ∧ v.type ≠ 0)
    (hlock : ∀ p, v.lock = some p → 0 < v.ref ∧ v.valid = true) : Table (s.setInode ip v) := by
  refine h.change ip (s.itable ip).inum rfl (fun jp hj => FS.setInode_of_ne _ _ _ hj)
    (fun _ _ _ => rfl) (fun jp hj hjp _ => h.ne_inum hpos jp hj hjp) (fun hr => ?_) (fun p hp => ?_)
  · rw [FS.setInode_same] at hr ⊢
    rw [hdev, hinum]
    exact ⟨h.dev ip hpos, h.ne_inum hpos, hco hr⟩
  · rw [FS.setInode_same] at hp ⊢
    exact hlock p hp

theorem Table.share (h : Table s) (hpos : 0 < (s.itable ip).ref) :
    Table (s.setInode ip { s.itable ip with ref := (s.itable ip).ref + 1 }) :=
  h.setInode hpos rfl rfl (fun _ hv => ⟨h.range ip hpos hv, h.coherent ip hpos hv⟩)
    fun p hp => ⟨Nat.succ_pos _, (h.locked ip p hp).2⟩

theorem Table.drop (h : Table s) (hd : Droppable ip s) :
    Table (s.setInode ip { s.itable ip with ref := (s.itable ip).ref - 1 }) := by
  refine h.setInode hd.1 rfl rfl (fun _ hv => ⟨h.range ip hd.1 hv, h.coherent ip hd.1 hv⟩) fun p hp => ?_
  refine ⟨?_, (h.locked ip p hp).2⟩
  rcases hd.2 with hnone | hlt
  · exact absurd (hnone.symm.trans hp) (by simp)
  · exact Nat.sub_pos_of_lt hlt

theorem Table.idup (h : Table s) (hpos : 0 < (s.itable ip).ref) : Table (Fs.idup ip s) :=
  h.share hpos

theorem Table.iget {inum : ℕ} (h : Table s) (hn : Fs.iget ROOTDEV inum s = .ok (ip, t)) :
    Table t ∧ Droppable ip t ∧ (t.itable ip).inum = inum := by
  rcases iget_cases hn with ⟨hpos, -, hinum, rfl⟩ | ⟨hno, h0, rfl⟩
  · refine ⟨h.share hpos, ?_, ?_⟩
    · rw [Droppable, FS.setInode_same]
      exact ⟨Nat.succ_pos _, Or.inr (Nat.succ_lt_succ hpos)⟩
    · rw [FS.setInode_same]
      exact hinum
  · -- the slot was not in use, so it is not locked
    have hlock : (s.itable ip).lock = none := by
      rw [Option.eq_none_iff_forall_ne_some]
      intro p hp
      exact absurd (h.locked ip p hp).1 (by rw [h0]; exact lt_irrefl 0)
    have hno' : ∀ jp, 0 < (s.itable jp).ref → (s.itable jp).inum ≠ inum := fun jp hj =>
      hno jp hj (h.dev jp hj)
    refine ⟨h.change ip inum rfl (fun jp hj => FS.setInode_of_ne _ _ _ hj) (fun _ _ _ => rfl)
      (fun jp _ hj _ => hno' jp hj) (fun _ => ?_) (fun p hp => ?_), ?_, ?_⟩
    · rw [FS.setInode_same]
      exact ⟨rfl, fun jp _ hj => hno' jp hj, fun hv => absurd hv (by simp)⟩
    · rw [FS.setInode_same] at hp
      exact absurd (hlock.symm.trans hp) (by simp)
    · rw [Droppable, FS.setInode_same]
      exact ⟨Nat.one_pos, Or.inl hlock⟩
    · rw [FS.setInode_same]

theorem Table.ilock (h : Table s) (hi : (s.itable ip).inum < s.sb.records) (hn : Fs.ilock ip s = .ok t) :
    Table t := by
  rw [Fs.ilock] at hn
  split_ifs at hn with h1 h2 hv h3 <;> cases hn
  · have hpos : 0 < (s.itable ip).ref := by omega
    exact h.setInode hpos rfl rfl (fun _ hv => ⟨h.range ip hpos hv, h.coherent ip hpos hv⟩) fun p _ => ⟨hpos, hv⟩
  · have hpos : 0 < (s.itable ip).ref := by omega
    exact h.setInode hpos rfl rfl (fun _ _ => ⟨hi, rfl, h3⟩) fun p _ => ⟨hpos, rfl⟩

theorem Table.iunlock (h : Table s) (hn : Fs.iunlock ip s = .ok t) :
    Table t ∧ Droppable ip t := by
  rw [Fs.iunlock] at hn
  split_ifs at hn with h1
  cases hn
  rw [not_or, not_lt] at h1
  refine ⟨h.setInode h1.1 rfl rfl (fun _ hv => ⟨h.range ip h1.1 hv, h.coherent ip h1.1 hv⟩) fun p hp => ?_, ?_⟩
  · cases hp
  · rw [Droppable, FS.setInode_same]
    exact ⟨h1.1, Or.inl rfl⟩

/-- **Editing an inode.** After a step that leaves the other inodes alone, the copy in the slot
gets new contents and is written to the disk. -/
theorem Table.edit {u : FS} (h : Table s) (hf : Frame ip s t) {v : Inode}
    (hv : v = { s.itable ip with toDinode := v.toDinode }) (htype : v.type ≠ 0)
    (hu : Updated ip (t.setInode ip v) u) : Table u := by
  have hheld := hu.held
  have hdin := hu.dinode
  rw [FS.setInode_same] at hheld
  simp only [FS.setInode_same, FS.setInode_dinode] at hdin
  have hlock : (s.itable ip).lock = some t.pid := by
    rw [hv] at hheld
    exact hheld
  have hpos := (h.locked ip _ hlock).1
  have hvalid := (h.locked ip _ hlock).2
  have hself : u.itable ip = v := by rw [hu.itable, FS.setInode_same]
  have hinum : v.inum = (s.itable ip).inum := by rw [hv]
  refine h.change ip (s.itable ip).inum (hu.sb.trans hf.sb) (fun jp hj => ?_) (fun i hi hne => ?_)
    (fun jp hj hjp _ => h.ne_inum hpos jp hj hjp) (fun _ => ?_) (fun p _ => ?_)
  · rw [hu.itable, FS.setInode_of_ne _ _ _ hj, hf.other jp hj]
  · rw [hdin, hinum, if_neg hne, hf.dinode i hi]
  · rw [hself, hdin, if_pos rfl, hinum]
    refine ⟨?_, h.ne_inum hpos, fun _ => ⟨h.range ip hpos hvalid, rfl, htype⟩⟩
    rw [hv]
    exact h.dev ip hpos
  · rw [hself, hv]
    exact ⟨hpos, hvalid⟩

theorem Table.claim {inum : ℕ} (h : Table s) (h0 : (s.dinode inum).type = 0) (type : UInt16) :
    Table (s.claimInode inum type) := by
  refine ⟨h.layout, h.dev, h.range, h.unique, fun jp hj hv => ?_, h.locked⟩
  obtain ⟨hco, hty⟩ := h.coherent jp hj hv
  have hne : (s.itable jp).inum ≠ inum := by
    intro he
    rw [hco, he] at hty
    exact hty h0
  refine ⟨?_, hty⟩
  rw [FS.dinode_claimInode]
  exact hco.trans (if_neg hne).symm

theorem Table.destroyed (h : Table s) (hpos : 0 < (s.itable ip).ref) (hd : Destroyed ip s t) :
    Table t := by
  refine h.change ip (s.itable ip).inum hd.sb hd.other hd.dinode
    (fun jp hj hjp _ => h.ne_inum hpos jp hj hjp) (fun _ => ?_) (fun p hp => ?_)
  · rw [hd.dev, hd.inum, hd.valid]
    exact ⟨h.dev ip hpos, h.ne_inum hpos, fun hv => absurd hv (by simp)⟩
  · rw [hd.lock] at hp
    cases hp

theorem Table.iput (h : Table s) (hd : Droppable ip s) (hn : Fs.iput ip s = .ok t) : Table t := by
  rcases iput_cases hn with ⟨-, u, hu, rfl⟩ | ⟨-, rfl⟩
  · refine (h.destroyed hd.1 hu).drop ⟨?_, Or.inl hu.lock⟩
    rw [hu.ref]
    exact hd.1
  · exact h.drop hd

end Steps

end RiscvOs.Fs
