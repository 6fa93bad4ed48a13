import RiscvOs.Fs.Blocks

set_option autoImplicit false

/-!
# Files without holes

If no file of a disk has a hole, no operation makes one: `writei` raises the size of a file only up
to where it has mapped the blocks, also if the disk is full or the source cannot be read to its end.
Reading such a file allocates nothing and writes nothing.

## Main results

* `kept_solid` — the calls on inodes keep the files full.
* `solid_reach` — in every reachable state all files are full.
-/

namespace RiscvOs.Fs

/-- All blocks of the file are there, and they are direct ones. -/
structure Dinode.Full (d : Dinode) : Prop where
  size_le : d.size.toNat ≤ NDIRECT * BSIZE
  addr_ne : ∀ k, k < d.size.toNat → d.addr (k / BSIZE) ≠ 0

theorem Dinode.full_of_size {d : Dinode} (h : d.size = 0) : d.Full := by
  have h0 : d.size.toNat = 0 := by
    rw [h]
    rfl
  exact ⟨by omega, fun k hk => by omega⟩

/-- A sound file system in which all files are full. -/
structure Solid (s : FS) : Prop extends Sound s where
  full : ∀ i, i < s.sb.records → (s.dinode i).type ≠ 0 → (s.dinode i).Full

section Solid

variable {s t : FS} {ip : Slot}

theorem Solid.mapped (h : Solid s) (hlock : (s.itable ip).lock = some s.pid) : Mapped s ip := by
  obtain ⟨hpos, hv⟩ := h.table.locked ip _ hlock
  obtain ⟨hco, htype⟩ := h.table.coherent ip hpos hv
  rw [hco] at htype
  have hfull := h.full _ (h.table.range ip hpos hv) htype
  rw [← hco] at hfull
  exact ⟨hfull.size_le, hfull.addr_ne⟩

theorem Solid.change (h : Solid s) (ht : Sound t) (hsb : t.sb = s.sb) (c : ℕ)
    (hdin : ∀ i, i < s.sb.records → i ≠ c → t.dinode i = s.dinode i)
    (hc : c < s.sb.records → (t.dinode c).type ≠ 0 → (t.dinode c).Full) : Solid t := by
  refine ⟨ht, fun i hi htype => ?_⟩
  rw [hsb] at hi
  by_cases hic : i = c
  · subst hic
    exact hc hi htype
  · rw [hdin i hi hic] at htype ⊢
    exact h.full i hi htype

theorem Solid.same (h : Solid s) (ht : Sound t) (hsb : t.sb = s.sb) (hbuf : t.buf = s.buf) :
    Solid t := by
  have hdin : t.dinode = s.dinode := by
    funext i
    rw [FS.dinode, FS.dinode, hsb, hbuf]
  refine ⟨ht, ?_⟩
  rw [hdin, hsb]
  exact h.full

/-- **A write does not make a hole**: the blocks up to the new end are mapped. -/
theorem Solid.written {src : Source} {off n tot e : ℕ} (h : Solid s)
    (hlock : (s.itable ip).lock = some s.pid) (hw : WriteDone ip src off n s tot e t) : Solid t := by
  have hM := h.mapped hlock
  have hlock' : (t.itable ip).lock = some t.pid := by
    rw [hw.self, hw.pid]
    exact hlock
  obtain ⟨hpos, hv⟩ := hw.consistent.table.locked ip _ hlock'
  have hco := (hw.consistent.table.coherent ip hpos hv).1
  have hinum : (t.itable ip).inum = (s.itable ip).inum := by rw [hw.self]
  have hsound : Sound t := by
    refine h.of_slots hw.consistent hw.sb fun jp hj => ?_
    by_cases hjp : jp = ip
    · subst hjp
      rw [hw.self] at hj ⊢
      exact ⟨hj, rfl⟩
    · rw [hw.other jp hjp] at hj ⊢
      exact ⟨hj, rfl⟩
  refine h.change hsound hw.sb (s.itable ip).inum hw.dinode fun _ _ => ?_
  rw [← hinum, ← hco]
  have hM' := hw.mapped hM
  exact ⟨hM'.size_le, hM'.addr_ne⟩

theorem Solid.itrunc (h : Solid s) (hlock : (s.itable ip).lock = some s.pid) :
    Loop.Safe Fatal (fun t => Solid t ∧ t.quirks = s.quirks) (Fs.itrunc ip s) := by
  refine ((Blocks.keptOps_sound.itrunc h.toSound hlock).and_of_ok fun t ht => ht).mono fun t ht => ?_
  obtain ⟨⟨hsound, hq⟩, hn⟩ := ht
  obtain ⟨u, hf, hup⟩ := itrunc_frame hn
  have hsb := (updated_of_iupdate hup).sb.trans hf.sb
  have hdin := (updated_of_iupdate hup).dinode
  rw [FS.setInode_same] at hdin
  refine ⟨h.change hsound hsb (u.itable ip).inum (fun i hi hne => ?_) fun _ _ => ?_, hq⟩
  · rw [hdin, if_neg hne, FS.setInode_dinode, hf.dinode i hi]
  · rw [hdin, if_pos rfl]
    exact Dinode.full_of_size rfl

theorem Solid.iput (h : Solid s) (hd : Droppable ip s) :
    Loop.Safe Fatal (Clean Solid) (Fs.iput ip s) := by
  refine ((kept_sound.iput h.toSound hd).and_of_ok fun t ht => ht).mono fun t ht hq => ?_
  obtain ⟨hclean, hn⟩ := ht
  have hsound := hclean hq
  rcases iput_cases hn with ⟨-, u, hu, rfl⟩ | ⟨-, rfl⟩
  · refine h.change hsound hu.sb (s.itable ip).inum hu.dinode fun _ htype => ?_
    exact absurd hu.record.1 htype
  · exact h.same hsound rfl rfl

/-- **Every call on an inode keeps the files full.** -/
theorem kept_solid : Kept Solid where
  table h := h.table
  root h := h.root
  ilock h hn := by
    rcases ilock_cases hn with ⟨-, ⟨-, rfl⟩ | ⟨-, -, rfl⟩⟩ <;>
      exact h.same (kept_sound.ilock h.toSound hn) rfl rfl
  iunlock h hn := by
    have hsound := kept_sound.iunlock h.toSound hn
    obtain ⟨-, -, rfl⟩ := iunlock_cases hn
    exact h.same hsound rfl rfl
  idup h hpos := h.same (kept_sound.idup h.toSound hpos) rfl rfl
  iget h hi hn := by
    have hsound := kept_sound.iget h.toSound hi hn
    rcases iget_cases hn with ⟨-, -, -, rfl⟩ | ⟨-, -, rfl⟩ <;> exact h.same hsound rfl rfl
  ialloc {s t ip type} h hn := by
    have hsound := kept_sound.ialloc h.toSound hn
    obtain ⟨inum, -, -, hg⟩ := ialloc_eq_some hn
    obtain ⟨hsb, hbuf⟩ : t.sb = s.sb ∧ t.buf = (s.claimInode inum type).buf := by
      rcases iget_cases hg with ⟨-, -, -, rfl⟩ | ⟨-, -, rfl⟩ <;> exact ⟨rfl, rfl⟩
    have hdin : ∀ i, t.dinode i = (s.claimInode inum type).dinode i := by
      intro i
      rw [FS.dinode, hsb, hbuf]
      rfl
    refine h.change hsound hsb inum (fun i _ hne => ?_) fun _ _ => ?_
    · rw [hdin, FS.dinode_claimInode, if_neg hne]
    · rw [hdin, FS.dinode_claimInode, if_pos rfl]
      exact Dinode.full_of_size rfl
  setAttrs {s t ip a b c} h hn := by
    have hup := updated_of_iupdate hn
    have hheld := hup.held
    have hdin := hup.dinode
    rw [FS.setInode_same] at hheld hdin
    have hM := h.mapped hheld
    refine h.change (kept_sound.setAttrs h.toSound hn) hup.sb (s.itable ip).inum
      (fun i _ hne => ?_) fun _ _ => ?_
    · rw [hdin, if_neg hne, FS.setInode_dinode]
    · rw [hdin, if_pos rfl]
      exact ⟨hM.size_le, hM.addr_ne⟩
  iput h hd := h.iput hd
  writei {s ip src off n} h := by
    by_cases hlock : (s.itable ip).lock = some s.pid
    · refine (writei_done h.toConsistent hlock).mono fun r hr hq => ?_
      rcases hr hq with ⟨-, heq⟩ | ⟨tot, e, -, hw⟩
      · rw [heq]
        exact h
      · exact h.written hlock hw
    · refine (fatal_of_freed (writei_unlocked hlock)).mono fun r hr _ => ?_
      rw [hr]
      exact h

end Solid

namespace Blocks

open Machine Walk

/-- The file `i` consists of whole entries. -/
def Whole (s : FS) (i : ℕ) : Prop := direntSize ∣ (s.dinode i).size.toNat

/-- The directories that are searched consist of whole entries. -/
def Plain (s : FS) (op : Op) : Prop := Orderly (fun s i _ => Whole s i) Whole s op

variable {s : FS} {op : Op}

theorem keptOps_solid : KeptOps Solid where
  toKept := kept_solid
  switch h pid := h.same (keptOps_sound.switch h.toSound pid) rfl rfl
  itrunc h hlock := h.itrunc hlock

theorem listed_of_solid {i : ℕ} (h : Solid s) (hi : Known s i) (hw : Whole s i) : Listed (s.dinode i) :=
  have hfull := h.full i hi.range hi.allocated
  ⟨hw, hfull.size_le, hfull.addr_ne⟩

theorem plain_quiet (h : Solid s) (hl : Legal s op) (ho : Plain s op) :
    Loop.Safe (Shows s.quirks) (fun t => t.quirks = s.quirks) (next s op) := by
  refine next_quiet h.toConsistent hl ho (fun i name hi _ hw => (listed_of_solid h hi hw).searchable)
    fun i hi _ hw => ?_
  exact ⟨hw, fun k hk _ _ => (listed_of_solid h hi hw).direct hk⟩

/-- **In every state that plain operations reach all files are full.** -/
theorem solid_reach {s₀ : FS} (h₀ : Solid s₀) (hq₀ : s₀.quirks = [])
    (hr : Reach next (fun s op => Legal s op ∧ Plain s op) s₀ s) : Solid s :=
  (hr.invariant (I := fun s => Solid s ∧ s.quirks = []) ⟨h₀, hq₀⟩
    fun hs hl hn => (keptOps_solid.step hs.1 hl.1 hs.2 (plain_quiet hs.1 hl.1 hl.2)).2 _ hn).1

end Blocks

end RiscvOs.Fs
