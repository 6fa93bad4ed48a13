import RiscvOs.Fs.Mount
import RiscvOs.Fs.Truncate

set_option autoImplicit false

/-!
# Freeing unlinked inodes at boot (`kernel/disk/fs.c`)

`ireclaim` goes through the inode records and frees the inodes that have no link any more. `Fs/Mount` has it
for the disks on which every number fits into an `int`. Here the disk may have any size: the number of the inode
is an `int` in `ireclaim`, and so is the number of the block in `bfree`.

## Main results

* `iput_frees` — one orphan is freed.
* `run_cases` — what `ireclaim` has done after each round.
* `ireclaim_exact_iff` — `ireclaim` frees exactly the orphans if and only if the condition
  holds.

## Implementation notes

`bread`, `brelse` and the log are a transparent cache, as in `Fs/State`.
-/

namespace RiscvOs.Fs.Reclaim

open Function CInt Balloc Loop

/-! ## The code -/

/-- `IBLOCK(inum, sb)` for a variable of type `int`: `IPB` is an `unsigned long`, and so `inum` is converted to
one before the division. -/
def iblock (inum : ℤ) (sb : Superblock) : ℕ := uint (inum % 2 ^ 64 / IPB + sb.inodestart)

/-- The record at which `ireclaim` looks for an inode. -/
def seen (s : FS) (inum : ℕ) : Dinode :=
  readDinode (s.buf (iblock (int inum) s.sb)) (int inum % 2 ^ 64 % IPB).toNat

/-- One round of `ireclaim`. -/
def reclaimInode (s : FS) (inum : ℕ) : Except Panic FS :=
  if (seen s inum).type ≠ 0 ∧ (seen s inum).nlink = 0 then do
    let (ip, s) ← iget ROOTDEV inum s
    let s ← ilock ip s
    let s ← iunlock ip s
    iputBy bfree ip s
  else .ok s

/-- Free the inodes without links. The test `inum < sb.ninodes` compares unsigned numbers. -/
def ireclaim (s : FS) : Except Panic FS := (List.range' 1 (s.sb.ninodes - 1)).foldlM reclaimInode s

/-! ## The disk -/

/-- The file system on the disk is consistent: a data block is marked as used exactly if one place of one
allocated inode refers to it. -/
structure OnDisk (s : FS) : Prop where
  areas : Areas s.sb
  owned : Owned s.sb s.buf s.dinode

/-- The inode is allocated and has no link. -/
def Orphan (s : FS) (i : ℕ) : Prop :=
  0 < i ∧ i < s.sb.ninodes ∧ (s.dinode i).type ≠ 0 ∧ (s.dinode i).nlink = 0

/-- **The orphans are freed, and nothing else has changed.** -/
structure Reclaimed (s t : FS) : Prop where
  sb : t.sb = s.sb
  none_left : ∀ i, ¬ Orphan t i
  cleared : ∀ i b, Orphan s i → Refers s i b → t.used b = false
  record : ∀ i, i < s.sb.ninodes → ¬ Orphan s i → t.dinode i = s.dinode i
  bit : ∀ b, (∀ i, Orphan s i → ¬ Refers s i b) → t.used b = s.used b
  data : ∀ b, s.sb.dataStart ≤ b → b < s.sb.size → t.buf b = s.buf b
  unused : ∀ ip, (t.itable ip).ref = 0

/-- What `ireclaim` takes for an orphan. -/
def Spotted (s : FS) (i : ℕ) : Prop := (seen s i).type ≠ 0 ∧ (seen s i).nlink = 0

/-- The numbers of the orphans and of their blocks are below `2 ^ 31`, or rather: from `2 ^ 31` on `ireclaim`
looks at another record, and that one must look like an orphan if the inode is one, and must not if the inode
is free. -/
structure InReach (s : FS) : Prop where
  spotted : ∀ i, Orphan s i → 2 ^ 31 ≤ i → Spotted s i
  blocks : ∀ i b, Orphan s i → Refers s i b → b < 2 ^ 31
  typed : ∀ i, i < s.sb.ninodes → 2 ^ 31 ≤ i → Spotted s i → (s.dinode i).type ≠ 0

/-! ## Numbers -/

section Numbers

variable {s : FS} {sb : Superblock} {i b : ℕ}

theorem seen_eq (hi : i < 2 ^ 31) (h : IBLOCK i s.sb < 2 ^ 32) : seen s i = s.dinode i := by
  have hint : int i = i := int_eq (by omega) (by omega)
  have hlong : int i % 2 ^ 64 = i := by
    omega
  have hIPB : (IPB : ℤ) = 16 := rfl
  have hblock : iblock (int i) s.sb = IBLOCK i s.sb := by
    rw [IBLOCK, show IPB = 16 from rfl] at h ⊢
    rw [iblock, hlong, hIPB, uint_of_nonneg (by omega) (by omega)]
    omega
  rw [seen, hblock, hlong, FS.dinode, dinodeAt, show ((i : ℤ) % IPB).toNat = i % IPB by
    omega]

theorem iblock_outside (h : Areas sb) (hi : 2 ^ 31 ≤ i) (hi' : i < sb.ninodes) :
    (∀ j, j < sb.ninodes → iblock (int i) sb ≠ IBLOCK j sb) ∧
      ∀ b, b < sb.size → iblock (int i) sb ≠ BBLOCK b sb := by
  have hn := h.ninodes_lt
  have hs := h.size_lt
  have hend := h.inodes_end
  have hlast := h.inodes i hi'
  have hint : int i = i - 2 ^ 32 := int_of_ge (by omega) (by omega)
  have hIPB : (IPB : ℤ) = 16 := rfl
  have hblock : iblock (int i) sb = (i / 16 + sb.inodestart + (2 ^ 32 - 2 ^ 28)) % 2 ^ 32 := by
    rw [iblock, hint, hIPB]
    unfold uint
    omega
  rw [IBLOCK, show IPB = 16 from rfl] at hlast
  rw [show IPB = 16 from rfl] at hend
  constructor
  · intro j hj
    rw [IBLOCK, show IPB = 16 from rfl]
    omega
  · intro b hb
    rw [BBLOCK, show BPB = 8192 from rfl]
    omega

end Numbers

/-! ## One round -/

/-- Between `s` and `t` the inodes `R` were freed. -/
structure Exact (R : ℕ → Prop) (s t : FS) : Prop where
  sb : t.sb = s.sb
  unused : Unused t
  freed : ∀ i, R i → i < s.sb.ninodes ∧ (t.dinode i).type = 0
  record : ∀ i, i < s.sb.ninodes → ¬ R i → t.dinode i = s.dinode i
  bits : ∀ b, t.used b = true ↔ s.used b = true ∧ ∀ i, R i → ¬ Refers s i b
  rest : ∀ B, (∀ i, i < s.sb.ninodes → B ≠ IBLOCK i s.sb) → (∀ b, b < s.sb.size → B ≠ BBLOCK b s.sb) →
    t.buf B = s.buf B

section Round

variable {s t u : FS} {ip : Slot} {i : ℕ} {R : ℕ → Prop}

/-- **Dropping the only pointer to an orphan** frees it. -/
theorem iput_frees (hun : Unused t) (hd : Doomed ip i (t.load ip i (some t.pid)))
    (hnlink : (t.dinode i).nlink = 0) :
    ∃ u, iputBy bfree ip (t.load ip i none) = .ok u ∧ Exact (fun j => j = i) t u := by
  have hload : ∀ lock, (t.load ip i lock).itable ip = ⟨t.dinode i, ROOTDEV, i, 1, lock, true⟩ := fun lock =>
    FS.setInode_same _ _ _
  have hlocked : (t.load ip i none).setInode ip
      { (t.load ip i none).itable ip with lock := some (t.load ip i none).pid } = t.load ip i (some t.pid) := by
    rw [hload]
    exact FS.setInode_setInode _ _
  obtain ⟨u₁, htrunc, hfree, -⟩ := itrunc_frees hd.freeable
  obtain ⟨v, u, hv, hu, her⟩ := hfree.erase hd
  have hdestroy : destroyBy bfree ip (t.load ip i none) =
      .ok (u.setInode ip { u.itable ip with valid := false, lock := none }) := by
    rw [destroyBy, if_neg (by rw [hload]; simp), hlocked, htrunc, hv]
    dsimp only [bind, Except.bind]
    rw [hu]
  rw [iputBy, if_pos (by rw [hload]; exact ⟨rfl, hnlink⟩), if_pos (by rw [hload]), hdestroy]
  refine ⟨_, rfl, her.sb, fun jp => ?_, ?_, ?_, ?_, ?_⟩
  · by_cases hj : jp = ip
    · have href := her.ref
      rw [hload] at href
      rw [hj, FS.setInode_same, FS.setInode_same, href]
      exact ⟨rfl, rfl⟩
    · rw [FS.setInode_of_ne _ _ _ hj, FS.setInode_of_ne _ _ _ hj, her.other jp hj, FS.load,
        FS.setInode_of_ne _ _ _ hj]
      exact hun jp
  · rintro j rfl
    exact ⟨hd.range, her.type⟩
  · exact her.record
  · intro b
    refine (her.bits b).trans (and_congr_right fun _ => ?_)
    rw [forall_eq]
    rfl
  · exact her.rest

theorem Exact.held_eq (h : Exact R s t) (hs : OnDisk s) (hi : i < s.sb.ninodes) (hR : ¬ R i) {x : Place}
    (hx : inumOf x = i) : held t x = held s x := by
  rw [held, held, h.sb]
  refine holds_eq hx (fun _ => ?_) fun hind => ?_
  · rw [h.record i hi hR]
    exact ⟨rfl, rfl⟩
  · obtain ⟨h₁, h₂⟩ := hs.owned.range hind
    have hout := hs.areas.data_outside h₁ h₂
    exact h.rest _ hout.1 hout.2

theorem Exact.refers (h : Exact R s t) (hs : OnDisk s) (hi : i < s.sb.ninodes) (hR : ¬ R i) (b : ℕ) :
    Refers t i b ↔ Refers s i b := by
  refine and_congr_right fun _ => exists_congr fun x => and_congr_right fun hx => ?_
  rw [h.held_eq hs hi hR hx]

theorem Exact.seen_eq (h : Exact R s t) (hA : Areas s.sb) (hi : i < s.sb.ninodes) (hR : ¬ R i) :
    seen t i = seen s i := by
  by_cases hlt : i < 2 ^ 31
  · have hlast : IBLOCK i s.sb < 2 ^ 32 :=
      (hA.inodes i hi).trans ((Nat.le_add_right _ _).trans_lt (hA.bmapstart_lt hA.size_pos))
    rw [Reclaim.seen_eq hlt hlast, Reclaim.seen_eq hlt (h.sb ▸ hlast), h.record i hi hR]
  · have hout := iblock_outside hA (Nat.le_of_not_lt hlt) hi
    rw [seen, seen, h.sb, h.rest _ hout.1 hout.2]

theorem Exact.trans (h : Exact R s t) (hs : OnDisk s) (hi : i < s.sb.ninodes) (hR : ¬ R i)
    (h' : Exact (fun j => j = i) t u) : Exact (fun j => R j ∨ j = i) s u := by
  refine ⟨h'.sb.trans h.sb, h'.unused, fun j hj => ?_, fun j hj hno => ?_, fun b => ?_, fun B h₁ h₂ => ?_⟩
  · by_cases hji : j = i
    · exact ⟨hji ▸ hi, (h'.freed j hji).2⟩
    · have hfreed := h.freed j (hj.resolve_right hji)
      rw [h'.record j (h.sb ▸ hfreed.1) hji]
      exact hfreed
  · rw [not_or] at hno
    rw [h'.record j (h.sb ▸ hj) hno.2, h.record j hj hno.1]
  · rw [h'.bits b, h.bits b, forall_eq, h.refers hs hi hR]
    constructor
    · rintro ⟨⟨hb, hno⟩, hno'⟩
      refine ⟨hb, ?_⟩
      rintro j (hj | rfl)
      · exact hno j hj
      · exact hno'
    · rintro ⟨hb, hno⟩
      exact ⟨⟨hb, fun j hj => hno j (Or.inl hj)⟩, hno i (Or.inr rfl)⟩
  · rw [h'.rest B (h.sb ▸ h₁) (h.sb ▸ h₂), h.rest B h₁ h₂]

theorem reclaimInode_spotted (hun : Unused t) (hsp : Spotted t i) :
    ((t.dinode i).type = 0 → reclaimInode t i = .error .noType) ∧
      ((t.dinode i).type ≠ 0 → ∃ ip, reclaimInode t i = iputBy bfree ip (t.load ip i none)) := by
  obtain ⟨ip, -, hget⟩ : ∃ ip, (t.itable ip).ref = 0 ∧ iget ROOTDEV i t = _ :=
    iget_of_free (fun jp hj => absurd (hun jp).1 hj.ne') (hun firstSlot).1
  rw [Spotted] at hsp
  constructor
  · intro htype
    have hlock : ilock ip (t.setInode ip { t.itable ip with
        dev := ROOTDEV, inum := i, ref := 1, valid := false }) = .error .noType := by
      rw [ilock, FS.setInode_same]
      dsimp only
      rw [if_neg (by decide), if_neg (by simp [(hun ip).2]), if_neg (by simp), FS.setInode_dinode,
        if_pos htype]
    rw [reclaimInode, if_pos hsp, hget]
    dsimp only [bind, Except.bind]
    rw [hlock]
  · intro htype
    have hlock := ilock_taken (hun ip).2 htype
    have hunlock : iunlock ip (t.load ip i (some t.pid)) = .ok (t.load ip i none) := by
      have hslot : (t.load ip i (some t.pid)).itable ip = ⟨t.dinode i, ROOTDEV, i, 1, some t.pid, true⟩ :=
        FS.setInode_same _ _ _
      have hpid : (t.load ip i (some t.pid)).pid = t.pid := rfl
      rw [iunlock, hslot, hpid, if_neg (by simp)]
      exact congrArg Except.ok (FS.setInode_setInode _ _)
    refine ⟨ip, ?_⟩
    rw [reclaimInode, if_pos hsp, hget]
    dsimp only [bind, Except.bind]
    rw [hlock]
    dsimp only
    rw [hunlock]

theorem iput_keeps (ip : Slot) (hun : Unused t) (hnlink : (t.dinode i).nlink ≠ 0) :
    ∃ u, iputBy bfree ip (t.load ip i none) = .ok u ∧ u.sb = t.sb ∧ u.buf = t.buf ∧ Unused u := by
  have hload : (t.load ip i none).itable ip = ⟨t.dinode i, ROOTDEV, i, 1, none, true⟩ :=
    FS.setInode_same _ _ _
  rw [iputBy, if_neg (by rw [hload]; exact fun h => hnlink h.2), hload]
  refine ⟨_, rfl, rfl, rfl, fun jp => ?_⟩
  by_cases hj : jp = ip
  · rw [hj, FS.setInode_same]
    exact ⟨rfl, rfl⟩
  · rw [FS.setInode_of_ne _ _ _ hj, FS.load, FS.setInode_of_ne _ _ _ hj]
    exact hun jp

theorem Exact.doomed (h : Exact R s t) (hs : OnDisk s) (hR : ¬ R i) (ho : Orphan s i)
    (hsmall : ∀ b, Refers s i b → b < 2 ^ 31) (ip : Slot) : Doomed ip i (t.load ip i (some t.pid)) := by
  have hi : i < s.sb.ninodes := ho.2.1
  have hheld : ∀ x, inumOf x = i → held (t.load ip i (some t.pid)) x = held s x := fun x hx =>
    h.held_eq hs hi hR hx
  have hrec : (t.load ip i (some t.pid)).dinode i = s.dinode i := h.record i hi hR
  refine ⟨h.sb ▸ hs.areas, h.sb ▸ hi, FS.setInode_same _ _ _, hrec ▸ ho.2.2.1, fun x hx h0 => ?_,
    fun x hx h0 => ?_, fun x hx h0 => ?_, fun x y hx hy h0 he => ?_⟩
  · rw [hheld x hx] at h0 ⊢
    refine (h.bits _).mpr ⟨hs.owned.used h0, fun j hj href => ?_⟩
    obtain ⟨-, y, hy, he⟩ := href
    have hxy : x = y := hs.owned.inj h0 he.symm
    rw [← hxy, hx] at hy
    exact hR (hy ▸ hj)
  · rw [hheld x hx] at h0 ⊢
    change t.sb.dataStart ≤ _ ∧ _ < t.sb.size
    rw [h.sb]
    exact hs.owned.range h0
  · rw [hheld x hx] at h0 ⊢
    exact hsmall _ ⟨h0, x, hx, rfl⟩
  · rw [hheld x hx] at h0 he
    rw [hheld y hy] at he
    exact hs.owned.inj h0 he

end Round

/-! ## All rounds -/

section Run

variable {s t : FS}

/-- The inodes that are freed in the first `n` rounds. -/
def due (s : FS) (n i : ℕ) : Prop := Orphan s i ∧ Spotted s i ∧ i ≤ n

/-- The first `n` rounds. -/
def rounds (n : ℕ) (s : FS) : Except Panic FS := (List.range' 1 n).foldlM reclaimInode s

theorem rounds_succ (n : ℕ) (s : FS) : rounds (n + 1) s = rounds n s >>= fun t => reclaimInode t (n + 1) := by
  rw [rounds, List.range'_1_concat, List.foldlM_append, Nat.add_comm 1 n]
  simp only [List.foldlM_cons, List.foldlM_nil, bind_pure]
  rfl

/-- One more round. -/
theorem Exact.round {n : ℕ} (h : Exact (due s n) s t) (hs : OnDisk s) (hn : n + 1 < s.sb.ninodes)
    (hsmall : ∀ b, Orphan s (n + 1) → Refers s (n + 1) b → b < 2 ^ 31) :
    (∃ u, reclaimInode t (n + 1) = .ok u ∧ Exact (due s (n + 1)) s u ∧
        (Spotted s (n + 1) → (s.dinode (n + 1)).type ≠ 0)) ∨
      ((∃ e, reclaimInode t (n + 1) = .error e) ∧ Spotted s (n + 1) ∧ (s.dinode (n + 1)).type = 0) := by
  have hnew : ¬ due s n (n + 1) := fun hd => absurd hd.2.2 (by omega)
  have hrec : t.dinode (n + 1) = s.dinode (n + 1) := h.record _ hn hnew
  have hseen : Spotted t (n + 1) ↔ Spotted s (n + 1) := by
    rw [Spotted, Spotted, h.seen_eq hs.areas hn hnew]
  have hdue : ¬ (Orphan s (n + 1) ∧ Spotted s (n + 1)) → due s (n + 1) = due s n := by
    intro hno
    funext i
    refine propext ⟨fun hd => ⟨hd.1, hd.2.1, ?_⟩, fun hd => ⟨hd.1, hd.2.1, by have := hd.2.2; omega⟩⟩
    rcases Nat.le_or_eq_of_le_succ hd.2.2 with hle | rfl
    · exact hle
    · exact absurd ⟨hd.1, hd.2.1⟩ hno
  by_cases hsp : Spotted s (n + 1)
  · have hround := reclaimInode_spotted h.unused (hseen.mpr hsp)
    rw [hrec] at hround
    by_cases htype : (s.dinode (n + 1)).type = 0
    · exact Or.inr ⟨⟨_, hround.1 htype⟩, hsp, htype⟩
    · obtain ⟨ip, heq⟩ := hround.2 htype
      rw [heq]
      refine Or.inl ?_
      by_cases hnlink : (s.dinode (n + 1)).nlink = 0
      · have ho : Orphan s (n + 1) := ⟨Nat.succ_pos n, hn, htype, hnlink⟩
        obtain ⟨u, hu, hex⟩ := iput_frees h.unused (h.doomed hs hnew ho (fun b => hsmall b ho) ip)
          (hrec ▸ hnlink)
        have hdue' : due s (n + 1) = fun j => due s n j ∨ j = n + 1 := by
          funext j
          refine propext ⟨fun hd => ?_, ?_⟩
          · rcases Nat.le_or_eq_of_le_succ hd.2.2 with hle | rfl
            · exact Or.inl ⟨hd.1, hd.2.1, hle⟩
            · exact Or.inr rfl
          · rintro (hd | rfl)
            · exact ⟨hd.1, hd.2.1, by have := hd.2.2; omega⟩
            · exact ⟨ho, hsp, le_refl _⟩
        exact ⟨u, hu, hdue' ▸ h.trans hs hn hnew hex, fun _ => htype⟩
      · obtain ⟨u, hu, hsb, hbuf, hun⟩ := iput_keeps ip h.unused (hrec ▸ hnlink)
        refine ⟨u, hu, ?_, fun _ => htype⟩
        rw [hdue fun hc => hnlink hc.1.2.2.2]
        have hdin : ∀ j, u.dinode j = t.dinode j := fun j => by rw [FS.dinode, hsb, hbuf, FS.dinode]
        have hbit : ∀ b, u.used b = t.used b := fun b => by rw [FS.used, hsb, hbuf, FS.used]
        refine ⟨hsb.trans h.sb, hun, fun j => ?_, fun j => ?_, fun b => ?_, ?_⟩
        · rw [hdin j]
          exact h.freed j
        · rw [hdin j]
          exact h.record j
        · rw [hbit b]
          exact h.bits b
        · rw [hbuf]
          exact h.rest
  · refine Or.inl ⟨t, if_neg fun hc => hsp (hseen.mp hc), ?_, fun hc => absurd hc hsp⟩
    rw [hdue fun hc => hsp hc.2]
    exact h

/-- **What `ireclaim` has done after each round**, if the blocks of all orphans are below `2 ^ 31`. -/
theorem run_cases (hs : OnDisk s) (hun : Unused s) (hsmall : ∀ i b, Orphan s i → Refers s i b → b < 2 ^ 31)
    {n : ℕ} (hn : n ≤ s.sb.ninodes - 1) :
    (∃ t, rounds n s = .ok t ∧ Exact (due s n) s t ∧
        ∀ i, 0 < i → i ≤ n → Spotted s i → (s.dinode i).type ≠ 0) ∨
      ((∃ e, rounds n s = .error e) ∧ ∃ i, 0 < i ∧ i ≤ n ∧ Spotted s i ∧ (s.dinode i).type = 0) := by
  induction n with
  | zero =>
    have hnone : ∀ i, ¬ due s 0 i := fun i hd => absurd hd.1.1 (by have := hd.2.2; omega)
    refine Or.inl ⟨s, rfl, ⟨rfl, hun, fun i hd => absurd hd (hnone i), fun _ _ _ => rfl, fun b => ?_,
      fun _ _ _ => rfl⟩, fun i h0 hi => absurd h0 (by omega)⟩
    exact ⟨fun hb => ⟨hb, fun i hd => absurd hd (hnone i)⟩, fun hb => hb.1⟩
  | succ n ih =>
    rw [rounds_succ]
    rcases ih (by omega) with ⟨t, ht, hex, htyped⟩ | ⟨⟨e, he⟩, i, h0, hi, hsp, htype⟩
    · rw [ht, ok_bind]
      rcases hex.round hs (by omega) fun b ho => hsmall _ b ho with ⟨u, hu, hex', htyped'⟩ | ⟨herr, hsp, htype⟩
      · refine Or.inl ⟨u, hu, hex', fun i h0 hi => ?_⟩
        rcases Nat.le_or_eq_of_le_succ hi with hle | rfl
        · exact htyped i h0 hle
        · exact htyped'
      · exact Or.inr ⟨herr, n + 1, Nat.succ_pos n, le_refl _, hsp, htype⟩
    · rw [he]
      exact Or.inr ⟨⟨e, rfl⟩, i, h0, by omega, hsp, htype⟩

end Run

/-! ## Blocks from `2 ^ 31` on -/

section Wide

variable {s t u : FS} {ip : Slot} {i b B : ℕ}

theorem reclaimInode_keeps (hA : Areas t.sb) (hB : High t.sb B) (hi : i < t.sb.ninodes) :
    Post (fun u => u.sb = t.sb ∧ u.buf B = t.buf B) (reclaimInode t i) := by
  rw [reclaimInode]
  split_ifs
  · refine Post.bind (P := fun r => r.2.sb = t.sb ∧ r.2.buf = t.buf ∧ (r.2.itable r.1).inum = i) ?_ ?_
    · rintro ⟨ip, u⟩ hu
      rcases iget_cases hu with ⟨-, -, hinum, rfl⟩ | ⟨-, -, rfl⟩
      · exact ⟨rfl, rfl, by rw [FS.setInode_same]; exact hinum⟩
      · exact ⟨rfl, rfl, by rw [FS.setInode_same]⟩
    · rintro ⟨ip, u⟩ ⟨hsb, hbuf, hinum⟩
      dsimp only at hsb hbuf hinum ⊢
      have hi' : (u.itable ip).inum < u.sb.ninodes := by
        rw [hinum, hsb]
        exact hi
      refine Post.bind (P := Keeps ip B u) ?_ fun v hv => Post.bind (P := Keeps ip B u) ?_ fun w hw => ?_
      · intro v hv
        rw [ilock] at hv
        split_ifs at hv <;> cases hv
        all_goals exact (Keeps.refl ip B u).setInode rfl
      · intro w hw
        rw [iunlock] at hw
        split_ifs at hw
        cases hw
        exact hv.setInode rfl
      · refine (Keeps.drop (hsb ▸ hA) (hsb ▸ hB) hi' hw).mono fun x hx => ⟨hx.sb.trans hsb, ?_⟩
        rw [hx.block, hbuf]
  · exact .ok ⟨rfl, rfl⟩

theorem rounds_keeps (hA : Areas s.sb) (hB : High s.sb B) {n : ℕ} (hn : n ≤ s.sb.ninodes - 1) :
    Post (fun u => u.sb = s.sb ∧ u.buf B = s.buf B) (rounds n s) := by
  induction n with
  | zero => exact .ok ⟨rfl, rfl⟩
  | succ n ih =>
    rw [rounds_succ]
    refine (ih (by omega)).bind fun t ht => ?_
    have hlt : n + 1 < t.sb.ninodes := by
      rw [ht.1]
      omega
    refine (reclaimInode_keeps (ht.1 ▸ hA) (ht.1 ▸ hB) hlt).mono fun u hu => ⟨hu.1.trans ht.1, ?_⟩
    rw [hu.2, ht.2]

theorem used_of_rounds (hs : OnDisk s) (ht : ireclaim s = .ok t) (href : Refers s i b)
    (hb : 2 ^ 31 ≤ b) : t.used b = true := by
  obtain ⟨hb0, x, -, rfl⟩ := href
  have hsize : held s x < s.sb.size := (hs.owned.range hb0).2
  have hkeep := rounds_keeps hs.areas ⟨_, hb, hsize, rfl⟩ (le_refl _) t ht
  rw [FS.used, blockUsed, hkeep.1, hkeep.2]
  exact hs.owned.used hb0

end Wide

/-! ## The result -/

section Result

variable {s t : FS}

theorem Exact.reclaimed (h : Exact (Orphan s) s t) (hs : OnDisk s) : Reclaimed s t := by
  refine ⟨h.sb, fun i ho => ?_, fun i b ho href => ?_, h.record, fun b hno => ?_, fun b h₁ h₂ => ?_,
    fun ip => (h.unused ip).1⟩
  · have hi : i < s.sb.ninodes := h.sb ▸ ho.2.1
    by_cases hos : Orphan s i
    · exact ho.2.2.1 (h.freed i hos).2
    · rw [Orphan, h.sb, h.record i hi hos] at ho
      exact hos ho
  · rw [Bool.eq_false_iff]
    intro hused
    exact ((h.bits b).mp hused).2 i ho href
  · rw [Bool.eq_iff_iff, h.bits b]
    exact and_iff_left hno
  · have hout := hs.areas.data_outside h₁ h₂
    exact h.rest b hout.1 hout.2

/-- **`ireclaim` is exact if and only if the orphans are in reach.** For every consistent file system on the disk,
and a table in which no slot is in use: `ireclaim` returns, the orphans and their blocks are free, and nothing
else has changed, exactly under the condition. -/
theorem ireclaim_exact_iff (hs : OnDisk s) (hun : Unused s) :
    (∃ t, ireclaim s = .ok t ∧ Reclaimed s t) ↔ InReach s := by
  have hA := hs.areas
  have hspot : ∀ i, 0 < i → i < s.sb.ninodes → i < 2 ^ 31 → (Spotted s i ↔ Orphan s i) := by
    intro i h0 hi hlt
    have hlast : IBLOCK i s.sb < 2 ^ 32 :=
      (hA.inodes i hi).trans ((Nat.le_add_right _ _).trans_lt (hA.bmapstart_lt hA.size_pos))
    rw [Spotted, seen_eq hlt hlast, Orphan]
    exact ⟨fun h => ⟨h0, hi, h⟩, fun h => h.2.2⟩
  constructor
  · rintro ⟨t, ht, hrec⟩
    have hsmall : ∀ i b, Orphan s i → Refers s i b → b < 2 ^ 31 := by
      intro i b ho href
      by_contra hb
      have hused := used_of_rounds hs ht href (not_lt.mp hb)
      rw [hrec.cleared i b ho href] at hused
      cases hused
    rcases run_cases hs hun hsmall (le_refl _) with ⟨t', ht', hex, htyped⟩ | ⟨⟨e, he⟩, -⟩
    · obtain rfl : t' = t := Except.ok.inj (ht'.symm.trans ht)
      refine ⟨fun i ho _ => ?_, hsmall, fun i hi hge => htyped i (by omega) (by omega)⟩
      -- an orphan that is not found is still there
      by_contra hno
      have hsame := hex.record i ho.2.1 fun hd => hno hd.2.1
      refine hrec.none_left i ⟨ho.1, hrec.sb ▸ ho.2.1, ?_⟩
      rw [hsame]
      exact ho.2.2
    · exact absurd (he.symm.trans ht) (by simp)
  · intro hin
    rcases run_cases hs hun hin.blocks (le_refl _) with ⟨t, ht, hex, -⟩ | ⟨-, i, h0, hi, hsp, htype⟩
    · have hdue : due s (s.sb.ninodes - 1) = Orphan s := by
        funext i
        refine propext ⟨fun hd => hd.1, fun ho => ⟨ho, ?_, by have := ho.2.1; omega⟩⟩
        by_cases hlt : i < 2 ^ 31
        · exact (hspot i ho.1 ho.2.1 hlt).mpr ho
        · exact hin.spotted i ho (not_lt.mp hlt)
      exact ⟨t, ht, (hdue ▸ hex).reclaimed hs⟩
    · by_cases hlt : i < 2 ^ 31
      · exact absurd htype ((hspot i h0 (by omega) hlt).mp hsp).2.2.1
      · exact absurd htype (hin.typed i (by omega) (not_lt.mp hlt) hsp)

end Result

/-! ## A disk with an orphan -/

/-- An unlinked file with one block. -/
def unlinked (n : ℕ) : Dinode := { Dinode.zero with type := T_FILE }.setAddr 0 n

/-- The areas before the data area, and one data block, number `n`. -/
def orphanSb (n : ℕ) : Superblock := ⟨n + 1, 1, 32, 30, 2, 32, 34⟩

/-- The blocks up to `n` are marked as used, for a multiple `n` of 8. -/
def bitmapUpTo (n : ℕ) : Disk := fun B j =>
  if B < 34 then 0
  else if (B - 34) * BPB + 8 * j + 8 ≤ n then 255
  else if (B - 34) * BPB + 8 * j = n then 1
  else 0

/-- An empty root directory, and an orphan with the last block of the disk. -/
def orphanFS (n : ℕ) : FS where
  sb := orphanSb n
  buf := setDinode (orphanSb n) (setDinode (orphanSb n) (bitmapUpTo n) ROOTINO
    { Dinode.zero with type := T_DIR, nlink := 1 }) 2 (unlinked n)
  hdr := fun _ _ => 0
  itable := fun _ => Inode.empty
  pid := 1
  logged := []
  quirks := []

section Orphan

variable {n : ℕ}

theorem orphanFS_used (h8 : n % 8 = 0) {b : ℕ} (hb : b ≤ n) : (orphanFS n).used b = true := by
  have hIB : ∀ i, i < 32 → IBLOCK i (orphanSb n) < 34 := fun i hi => by
    change i / 16 + 32 < 34
    omega
  have hne : ∀ i, i < 32 → BBLOCK b (orphanSb n) ≠ IBLOCK i (orphanSb n) := fun i hi =>
    ((hIB i hi).trans_le (Nat.le_add_left 34 _)).ne'
  have hbase : (orphanFS n).used b = blockUsed (orphanSb n) (bitmapUpTo n) b := by
    rw [FS.used, orphanFS, setDinode, blockUsed_update_of_ne _ _ _ (hne 2 (by decide)), setDinode,
      blockUsed_update_of_ne _ _ _ (hne ROOTINO (by decide))]
  have hbyte : b % BPB / 8 < BSIZE := bit_div_lt b
  rw [hbase, blockUsed, ByteBlock.isSet, ByteBlock.get, dif_pos hbyte, ByteBlock.and_bitMask, bitmapUpTo]
  have hB : ¬ BBLOCK b (orphanSb n) < 34 := not_lt.mpr (Nat.le_add_left 34 _)
  have hstart : (BBLOCK b (orphanSb n) - 34) * BPB + 8 * (b % BPB / 8) = b - b % 8 := by
    change (b / 8192 + 34 - 34) * 8192 + 8 * (b % 8192 / 8) = b - b % 8
    omega
  have hmod : b % BPB % 8 = b % 8 := by
    change b % 8192 % 8 = b % 8
    omega
  rw [if_neg hB, hstart, hmod]
  rcases Nat.lt_or_eq_of_le hb with hlt | rfl
  · rw [if_pos (by omega)]
    have hbits : ∀ j < 8, (255 : UInt8).toNat.testBit j = true := by decide
    exact hbits _ (Nat.mod_lt b (by decide))
  · rw [if_neg (by omega), if_pos (by omega), h8]
    rfl

theorem orphanFS_dinode (n i : ℕ) : (orphanFS n).dinode i =
    if i = 2 then unlinked n else if i = ROOTINO then { Dinode.zero with type := T_DIR, nlink := 1 }
    else dinodeAt (orphanSb n) (bitmapUpTo n) i := by
  rw [FS.dinode, orphanFS, dinodeAt_setDinode, dinodeAt_setDinode]

/-- Only one place refers to a block. -/
theorem orphanFS_held (hn : n < 2 ^ 32) (x : Place) :
    held (orphanFS n) x = if x = .addr 2 0 then n else 0 := by
  have hzero : ∀ i, i < 32 → (dinodeAt (orphanSb n) (bitmapUpTo n) i).type = 0 := by
    intro i hi
    have hlow : IBLOCK i (orphanSb n) < 34 := by
      change i / 16 + 32 < 34
      omega
    have hblock : bitmapUpTo n (IBLOCK i (orphanSb n)) = fun _ => 0 := funext fun _ => if_pos hlow
    rw [dinodeAt, hblock]
    simp [readDinode, ByteBlock.u16, ByteBlock.get]
  -- without its address the orphan is bare, like every other inode
  set recs : ℕ → Dinode := fun i =>
    if i = 2 then { Dinode.zero with type := T_FILE }
    else if i = ROOTINO then { Dinode.zero with type := T_DIR, nlink := 1 }
    else dinodeAt (orphanSb n) (bitmapUpTo n) i with hrecs
  have hbare : ∀ i, i < (orphanSb n).ninodes → (recs i).Bare := by
    intro i hi
    rw [hrecs]
    dsimp only
    split_ifs
    · exact Or.inr fun k => Dinode.addr_zero k
    · exact Or.inr fun k => Dinode.addr_zero k
    · exact Or.inl (hzero i hi)
  have hdin : (orphanFS n).dinode = update recs 2 ((recs 2).setAddr 0 n) := by
    funext i
    rw [orphanFS_dinode]
    by_cases hi : i = 2
    · rw [if_pos hi, hi, update_self]
      rfl
    · rw [if_neg hi, update_of_ne hi, hrecs]
      dsimp only
      rw [if_neg hi]
  rw [held, hdin]
  change holds (orphanSb n) _ _ x = _
  have hrange : 2 < (orphanSb n).ninodes := show 2 < 32 by decide
  have htype : (recs 2).type ≠ 0 := show T_FILE ≠ 0 by decide
  rw [holds_setAddr _ hrange htype (by decide) hn]
  by_cases hx : x = .addr 2 0
  · rw [if_pos hx, hx, update_self]
  · rw [if_neg hx, update_of_ne hx, holds_of_bare hbare]

/-- The file system is consistent. -/
theorem onDisk_orphanFS (h8 : n % 8 = 0) (hlow : n / BPB + 34 < n) (hn : n < 2 ^ 32 - 1) :
    OnDisk (orphanFS n) := by
  have hheld : ∀ x, held (orphanFS n) x = if x = .addr 2 0 then n else 0 := orphanFS_held (by omega)
  have hone : ∀ x, held (orphanFS n) x ≠ 0 → x = .addr 2 0 ∧ held (orphanFS n) x = n := by
    intro x hx
    rw [hheld x] at hx ⊢
    split_ifs at hx ⊢ with h
    · exact ⟨h, rfl⟩
    · exact absurd rfl hx
  have hstart : (orphanFS n).sb.dataStart = n := Nat.add_sub_cancel n 1
  have hsize : (orphanFS n).sb.size = n + 1 := rfl
  refine ⟨⟨by rw [hsize]; omega, Nat.succ_pos n, show 32 < 2 ^ 32 by decide, show 2 ≤ 2 by decide,
    show 2 + 30 ≤ 32 by decide, fun i hi => ?_, show 34 ≤ 32 + 32 / IPB + 1 by decide, fun b hb => ?_⟩,
    ⟨fun x hx => ?_, fun x y hx he => ?_, fun b h₁ h₂ => ?_, fun b hb => ?_⟩⟩
  · change i < 32 at hi
    change i / 16 + 32 < 34
    omega
  · rw [hsize] at hb
    have hle : b / BPB ≤ n / BPB := Nat.div_le_div_right (by omega)
    change b / BPB + 34 < n
    omega
  · have hx' := (hone x hx).2
    rw [held] at hx'
    rw [hx', hstart, hsize]
    omega
  · have hy : held (orphanFS n) y ≠ 0 := fun h0 => hx (he.trans h0)
    rw [(hone x hx).1, (hone y hy).1]
  · rw [hstart] at h₁
    obtain rfl : b = n := by omega
    have hused := orphanFS_used h8 (le_refl b)
    refine ⟨fun _ => ⟨.addr 2 0, ?_⟩, fun _ => hused⟩
    exact (hheld _).trans (if_pos rfl)
  · rw [hstart] at hb
    exact orphanFS_used h8 hb.le

theorem unused_orphanFS (n : ℕ) : Unused (orphanFS n) := fun _ => ⟨rfl, rfl⟩

end Orphan

theorem ireclaim_exact_iff_smallDisk : Orphan (orphanFS 40) 2 ∧
    ∃ t, ireclaim (orphanFS 40) = .ok t ∧ Reclaimed (orphanFS 40) t := by
  have hs := onDisk_orphanFS (n := 40) (by decide) (by decide) (by decide)
  refine ⟨by rw [Orphan, orphanFS_dinode]; decide, (ireclaim_exact_iff hs (unused_orphanFS 40)).mpr ⟨?_, ?_, ?_⟩⟩
  · intro i ho hge
    exact absurd (show i < 32 from ho.2.1) (by omega)
  · rintro i b - ⟨hb, x, -, rfl⟩
    have hlt : held (orphanFS 40) x < 41 := (hs.owned.range hb).2
    omega
  · intro i hi hge
    exact absurd (show i < 32 from hi) (by omega)

/-- **An orphan with block `2 ^ 31` is not freed**: `bfree` looks at block `2 ^ 32 - 2 ^ 18 + 34` instead of the
bitmap, finds the bit clear, and panics. -/
theorem wide_orphan_panics : OnDisk (orphanFS (2 ^ 31)) ∧ Unused (orphanFS (2 ^ 31)) ∧
    Orphan (orphanFS (2 ^ 31)) 2 ∧ Refers (orphanFS (2 ^ 31)) 2 (2 ^ 31) ∧
      ireclaim (orphanFS (2 ^ 31)) = .error (.bfree []) := by
  have hs := onDisk_orphanFS (n := 2 ^ 31) (by decide) (by decide) (by decide)
  have hstop : Machine.errorOf (ireclaim (orphanFS (2 ^ 31))) = some (.bfree []) := by decide +kernel
  exact ⟨hs, unused_orphanFS _, by rw [Orphan, orphanFS_dinode]; decide,
    ⟨by decide, .addr 2 0, rfl, (orphanFS_held (by decide) _).trans (if_pos rfl)⟩,
    Machine.eq_error_of_errorOf hstop⟩

end RiscvOs.Fs.Reclaim
