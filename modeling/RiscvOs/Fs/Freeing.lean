import RiscvOs.Fs.Ownership

set_option autoImplicit false

/-!
# Freeing the blocks of an inode (`kernel/disk/fs.c`)

`itrunc` visits the direct addresses, the entries of the indirect block and the indirect block of an inode, and
calls `bfree` for each block it finds. All of them are in use and no two are the same, so every call finds the bit
of its block set. This does not depend on how `bfree` converts its argument, so `bfree` is a parameter here.

## Main results

* `itrunc_frees` — `itrunc` clears the bits of the blocks of the inode, and no other.
-/

namespace RiscvOs.Fs

/-- The state after `bfree(b)`. -/
def FS.release (s : FS) (b : ℕ) : FS :=
  { s with buf := clearUsed s.sb s.buf b }.logWrite (BBLOCK b s.sb)

theorem bfree_of_used {s : FS} {b : ℕ} (h : s.used b = true) : bfree b s = .ok (s.release b) := if_pos h

end RiscvOs.Fs

namespace RiscvOs.Fs.Reclaim

open Function Loop

/-! ## The code -/

section By

variable (free : ℕ → FS → Except Panic FS)

/-- One round of the first loop of `itrunc`, where blocks are freed by `free`. -/
def freeDirectBy (ip : Slot) (s : FS) (i : ℕ) : Except Panic FS :=
  if (s.itable ip).addr i = 0 then .ok s
  else do
    let s ← free ((s.itable ip).addr i) s
    .ok (s.setAddr ip i 0)

@[inherit_doc freeDirectBy] def freeEntryBy (b : ℕ) (s : FS) (j : ℕ) : Except Panic FS :=
  if s.entry b j = 0 then .ok s else free (s.entry b j) s

@[inherit_doc freeDirectBy] def freeIndirectBy (ip : Slot) (s : FS) : Except Panic FS :=
  if (s.itable ip).addr NDIRECT = 0 then .ok s
  else do
    let s ← (List.range NINDIRECT).foldlM (freeEntryBy free ((s.itable ip).addr NDIRECT)) s
    let s ← free ((s.itable ip).addr NDIRECT) s
    .ok (s.setAddr ip NDIRECT 0)

/-- `itrunc`, where blocks are freed by `free`. -/
def itruncBy (ip : Slot) (s : FS) : Except Panic FS := do
  let s ← (List.range NDIRECT).foldlM (freeDirectBy free ip) s
  let s ← freeIndirectBy free ip s
  iupdate ip (s.setInode ip { s.itable ip with size := 0 })

end By

theorem itruncBy_bfree : itruncBy Fs.bfree = Fs.itrunc := rfl

/-! ## The blocks of an inode -/

section Itrunc

variable {free : ℕ → FS → Except Panic FS} {s t u : FS} {ip : Slot} {i k : ℕ} {f : Place → ℕ} {P : Place → Prop}

/-- The slot `ip` holds the addresses of the inode `i`. The blocks at the places of `i`, which `f` gives, are in
use, all different and outside the bitmap, and `free` can free them. -/
structure Freeable (free : ℕ → FS → Except Panic FS) (ip : Slot) (i : ℕ) (f : Place → ℕ) (s : FS) : Prop where
  addr : ∀ k, f (.addr i k) = (s.itable ip).addr k
  entry : ∀ j, f (.entry i j) =
    if (s.itable ip).addr NDIRECT ≠ 0 ∧ j < NINDIRECT then s.entry ((s.itable ip).addr NDIRECT) j else 0
  used : ∀ x, inumOf x = i → f x ≠ 0 → s.used (f x) = true
  size : ∀ x, inumOf x = i → f x ≠ 0 → f x < s.sb.size
  data : ∀ x, inumOf x = i → f x ≠ 0 → ∀ b, b < s.sb.size → f x ≠ BBLOCK b s.sb
  inj : ∀ x y, inumOf x = i → inumOf y = i → f x ≠ 0 → f x = f y → x = y
  free : ∀ x, inumOf x = i → f x ≠ 0 → ∀ t : FS, t.sb = s.sb → t.used (f x) = true →
    free (f x) t = .ok (t.release (f x))

/-- Between `s` and `t` the blocks at the places `P` were freed. -/
structure Freeing (ip : Slot) (f : Place → ℕ) (P : Place → Prop) (s t : FS) : Prop where
  sb : t.sb = s.sb
  pid : t.pid = s.pid
  quirks : t.quirks = s.quirks
  other : ∀ jp, jp ≠ ip → t.itable jp = s.itable jp
  self : t.itable ip = { s.itable ip with addrs := (t.itable ip).addrs }
  bits : ∀ b, t.used b = true ↔ s.used b = true ∧ ∀ x, P x → f x = b → b = 0
  rest : ∀ B, (∀ b, b < s.sb.size → B ≠ BBLOCK b s.sb) → t.buf B = s.buf B

theorem Freeing.refl (ip : Slot) (f : Place → ℕ) (s : FS) : Freeing ip f (fun _ => False) s s :=
  ⟨rfl, rfl, rfl, fun _ _ => rfl, rfl, fun _ => ⟨fun h => ⟨h, fun _ hx => hx.elim⟩, fun h => h.1⟩, fun _ _ => rfl⟩

theorem Freeing.congr {Q : Place → Prop} (h : Freeing ip f P s t) (hPQ : ∀ x, f x ≠ 0 → (P x ↔ Q x)) :
    Freeing ip f Q s t := by
  refine { h with bits := fun b => ?_ }
  rw [h.bits b]
  refine and_congr_right fun _ => ⟨fun hP x hx he => ?_, fun hQ x hx he => ?_⟩
  · by_contra hb
    exact hb (hP x ((hPQ x (he ▸ hb)).mpr hx) he)
  · by_contra hb
    exact hb (hQ x ((hPQ x (he ▸ hb)).mp hx) he)

theorem Freeing.setAddr (h : Freeing ip f P s t) (k a : ℕ) : Freeing ip f P s (t.setAddr ip k a) := by
  have hf := frame_setAddr ip k a t
  refine { h with other := fun jp hj => (hf.other jp hj).trans (h.other jp hj), self := ?_ }
  rw [hf.self, h.self]

/-- **One block is freed**: it is still in use, since every other place refers to another block. -/
theorem Freeing.next (h : Freeing ip f P s t) (hd : Freeable free ip i f s) (hP : ∀ y, P y → inumOf y = i)
    {x : Place} (hx : inumOf x = i) (hnew : ¬ P x) (h0 : f x ≠ 0) :
    ∃ u, free (f x) t = .ok u ∧ u.itable = t.itable ∧ Freeing ip f (fun y => P y ∨ y = x) s u := by
  have hused : t.used (f x) = true := by
    refine (h.bits _).mpr ⟨hd.used x hx h0, fun y hy he => ?_⟩
    exact absurd (hd.inj x y hx (hP y hy) h0 he.symm ▸ hy) hnew
  refine ⟨_, hd.free x hx h0 t h.sb hused, rfl, { h with bits := fun b => ?_, rest := fun B hB => ?_ }⟩
  · have hbit : (t.release (f x)).used b = (!decide (b = f x) && t.used b) := blockUsed_clearUsed _ _ _ _
    rw [hbit, Bool.and_eq_true, h.bits b]
    constructor
    · rintro ⟨hne, hs, hno⟩
      refine ⟨hs, fun y hy he => ?_⟩
      rcases hy with hy | rfl
      · exact hno y hy he
      · simp [he] at hne
    · rintro ⟨hs, hno⟩
      refine ⟨?_, hs, fun y hy => hno y (Or.inl hy)⟩
      simp only [Bool.not_eq_true', decide_eq_false_iff_not]
      rintro rfl
      exact h0 (hno x (Or.inr rfl) rfl)
  · have hne : B ≠ BBLOCK (f x) t.sb := by
      rw [h.sb]
      exact hB _ (hd.size x hx h0)
    exact (update_of_ne hne _ _).trans (h.rest B hB)

theorem Freeing.dinode (h : Freeing ip f P s t) {j : ℕ} (hj : IBLOCK j s.sb < s.sb.bmapstart) :
    t.dinode j = s.dinode j := by
  rw [FS.dinode, FS.dinode, dinodeAt, dinodeAt, h.sb, h.rest]
  intro b _
  exact (hj.trans_le (bmapstart_le b s.sb)).ne

/-! ## The loops -/

/-- The first `k` direct addresses of the inode. -/
def directs (i k : ℕ) (x : Place) : Prop := ∃ j < k, x = .addr i j

/-- The direct addresses, and the first `n` entries of the indirect block. -/
def entries (i n : ℕ) (x : Place) : Prop := directs i NDIRECT x ∨ ∃ j < n, x = .entry i j

theorem inumOf_entries (x : Place) (hx : entries i k x) : inumOf x = i := by
  rcases hx with ⟨j, -, rfl⟩ | ⟨j, -, rfl⟩
  · rfl
  · rfl

theorem exists_lt_succ {g : ℕ → Place} {x : Place} :
    (∃ j < k + 1, x = g j) ↔ (∃ j < k, x = g j) ∨ x = g k := by
  constructor
  · rintro ⟨j, hj, rfl⟩
    rcases Nat.lt_succ_iff_lt_or_eq.mp hj with hj | rfl
    · exact Or.inl ⟨j, hj, rfl⟩
    · exact Or.inr rfl
  · rintro (⟨j, hj, rfl⟩ | rfl)
    · exact ⟨j, by omega, rfl⟩
    · exact ⟨k, by omega, rfl⟩

/-- One round of the first loop. -/
theorem Freeing.freeDirect (hd : Freeable free ip i f s) (h : Freeing ip f (directs i k) s t) (hk : k < NDIRECT)
    (haddr : ∀ j, (t.itable ip).addr j = if j < k then 0 else (s.itable ip).addr j) :
    ∃ u, freeDirectBy free ip t k = .ok u ∧ Freeing ip f (directs i (k + 1)) s u ∧
      ∀ j, (u.itable ip).addr j = if j < k + 1 then 0 else (s.itable ip).addr j := by
  have hheld : f (.addr i k) = (t.itable ip).addr k := by
    rw [hd.addr, haddr, if_neg (lt_irrefl k)]
  have hsucc : ∀ x, directs i (k + 1) x ↔ directs i k x ∨ x = .addr i k := fun _ => exists_lt_succ
  rw [freeDirectBy]
  by_cases h0 : (t.itable ip).addr k = 0
  · rw [if_pos h0]
    refine ⟨t, rfl, h.congr fun x hx => ?_, fun j => ?_⟩
    · rw [hsucc, or_iff_left]
      rintro rfl
      exact hx (hheld.trans h0)
    · by_cases hjk : j = k
      · rw [hjk, h0, if_pos (Nat.lt_succ_self k)]
      · rw [haddr]
        exact if_congr (by omega) rfl rfl
  · rw [if_neg h0, ← hheld]
    have hnew : ¬ directs i k (.addr i k) := by
      rintro ⟨j, hj, he⟩
      exact absurd (Place.addr.inj he).2 hj.ne'
    have hinum : ∀ y, directs i k y → inumOf y = i := by
      rintro y ⟨j, -, rfl⟩
      rfl
    obtain ⟨u, hu, hit, hfree⟩ := h.next hd hinum rfl hnew (hheld ▸ h0)
    rw [hu]
    refine ⟨_, rfl, (hfree.congr fun x _ => (hsucc x).symm).setAddr k 0, fun j => ?_⟩
    rw [FS.setAddr, FS.setInode_same]
    change ((u.itable ip).toDinode.setAddr k 0).addr j = _
    rw [Dinode.addr_setAddr _ (by omega) (by omega), hit, haddr]
    by_cases hjk : j = k
    · rw [if_pos hjk, if_pos (by omega)]
    · rw [if_neg hjk]
      exact if_congr (by omega) rfl rfl

theorem Freeing.freeEntry (hd : Freeable free ip i f s) (h : Freeing ip f (entries i k) s t)
    (hk : k < NINDIRECT) (h0 : (s.itable ip).addr NDIRECT ≠ 0) :
    ∃ u, freeEntryBy free ((s.itable ip).addr NDIRECT) t k = .ok u ∧ Freeing ip f (entries i (k + 1)) s u ∧
      u.itable = t.itable := by
  -- the indirect block is a data block, so it has not changed
  have hheld : t.entry ((s.itable ip).addr NDIRECT) k = f (.entry i k) := by
    have hdata := hd.data (.addr i NDIRECT) rfl (hd.addr NDIRECT ▸ h0)
    rw [hd.addr] at hdata
    rw [hd.entry, if_pos ⟨h0, hk⟩, FS.entry, FS.entry, h.rest _ hdata]
  have hsucc : ∀ x, entries i (k + 1) x ↔ entries i k x ∨ x = .entry i k := fun x => by
    rw [entries, entries, or_assoc, exists_lt_succ]
  rw [freeEntryBy, hheld]
  by_cases hz : f (.entry i k) = 0
  · rw [if_pos hz]
    refine ⟨t, rfl, h.congr fun x hx => ?_, rfl⟩
    rw [hsucc, or_iff_left]
    rintro rfl
    exact hx hz
  · rw [if_neg hz]
    have hnew : ¬ entries i k (.entry i k) := by
      rintro (⟨j, -, he⟩ | ⟨j, hj, he⟩)
      · cases he
      · exact absurd (Place.entry.inj he).2 hj.ne'
    obtain ⟨u, hu, hit, hfree⟩ := h.next hd inumOf_entries rfl hnew hz
    exact ⟨u, hu, hfree.congr fun x _ => (hsucc x).symm, hit⟩

theorem Freeable.inumOf_iff (hd : Freeable free ip i f s) {x : Place} (hx : f x ≠ 0) :
    inumOf x = i ↔ entries i NINDIRECT x ∨ x = .addr i NDIRECT := by
  constructor
  · intro hi
    cases x with
    | addr j m =>
      obtain rfl : j = i := hi
      rw [hd.addr, Dinode.addr] at hx
      by_cases hm : m < NDIRECT + 1
      · rcases Nat.lt_succ_iff_lt_or_eq.mp hm with hm | rfl
        · exact Or.inl (Or.inl ⟨m, hm, rfl⟩)
        · exact Or.inr rfl
      · exact absurd (dif_neg hm) hx
    | entry j m =>
      obtain rfl : j = i := hi
      rw [hd.entry] at hx
      split_ifs at hx with hm
      · exact Or.inl (Or.inr ⟨m, hm.2, rfl⟩)
      · exact absurd rfl hx
  · rintro (hx | rfl)
    · exact inumOf_entries x hx
    · rfl

/-- The second half of `itrunc`: all blocks are freed, and all addresses cleared. -/
theorem Freeing.freeIndirect (hd : Freeable free ip i f s) (h : Freeing ip f (directs i NDIRECT) s t)
    (haddr : ∀ j, (t.itable ip).addr j = if j < NDIRECT then 0 else (s.itable ip).addr j) :
    ∃ u, freeIndirectBy free ip t = .ok u ∧ Freeing ip f (fun x => inumOf x = i) s u ∧
      ∀ j, (u.itable ip).addr j = 0 := by
  have hlast : (t.itable ip).addr NDIRECT = (s.itable ip).addr NDIRECT := by
    rw [haddr, if_neg (lt_irrefl _)]
  have hcleared : ∀ j ≠ NDIRECT, (t.itable ip).addr j = 0 := fun j hj => by
    by_cases hlt : j < NDIRECT
    · rw [haddr, if_pos hlt]
    · exact dif_neg (by omega)
  rw [freeIndirectBy, hlast]
  by_cases h0 : (s.itable ip).addr NDIRECT = 0
  · rw [if_pos h0]
    refine ⟨t, rfl, h.congr fun x hx => ?_, fun j => ?_⟩
    · rw [hd.inumOf_iff hx, entries]
      refine ⟨fun hx => Or.inl (Or.inl hx), ?_⟩
      rintro ((hx | ⟨j, -, rfl⟩) | rfl)
      · exact hx
      · rw [hd.entry, if_neg fun hc => hc.1 h0] at hx
        exact absurd rfl hx
      · exact absurd ((hd.addr NDIRECT).trans h0) hx
    · by_cases hj : j = NDIRECT
      · rw [hj, hlast, h0]
      · exact hcleared j hj
  · rw [if_neg h0]
    have hstart : Freeing ip f (entries i 0) s t := h.congr fun x _ => by
      rw [entries, or_iff_left]
      rintro ⟨j, hj, -⟩
      exact absurd hj (Nat.not_lt_zero j)
    obtain ⟨v, hv, hfree, hit⟩ : ∃ v, (List.range NINDIRECT).foldlM
        (freeEntryBy free ((s.itable ip).addr NDIRECT)) t = .ok v ∧
          Freeing ip f (entries i NINDIRECT) s v ∧ v.itable = t.itable := by
      refine Safe.exists_ok (Safe.foldlM_range
        (fun n v => Freeing ip f (entries i n) s v ∧ v.itable = t.itable) ⟨hstart, rfl⟩ fun n hn v hv => ?_)
      obtain ⟨w, hw, hfree, hit⟩ := hv.1.freeEntry hd hn h0
      rw [hw]
      exact ⟨hfree, hit.trans hv.2⟩
    have hnew : ¬ entries i NINDIRECT (.addr i NDIRECT) := by
      rintro (⟨j, hj, he⟩ | ⟨j, -, he⟩)
      · exact absurd (Place.addr.inj he).2 hj.ne'
      · cases he
    obtain ⟨w, hw, hit', hfree'⟩ := hfree.next hd inumOf_entries rfl hnew (hd.addr NDIRECT ▸ h0)
    refine ⟨w.setAddr ip NDIRECT 0, bind_eq_ok.mpr ⟨v, hv, bind_eq_ok.mpr ⟨w, ?_, rfl⟩⟩,
      (hfree'.congr fun x hx => (hd.inumOf_iff hx).symm).setAddr NDIRECT 0, fun j => ?_⟩
    · rw [hit, hlast, ← hd.addr, hw]
    · rw [FS.setAddr, FS.setInode_same, hit', hit]
      change ((t.itable ip).toDinode.setAddr NDIRECT 0).addr j = 0
      rw [Dinode.addr_setAddr _ (Nat.lt_succ_self _) (by omega)]
      by_cases hj : j = NDIRECT
      · rw [if_pos hj]
      · rw [if_neg hj]
        exact hcleared j hj

/-- **`itrunc` clears the bits of the blocks of the inode**, and no other. -/
theorem itrunc_frees (hd : Freeable free ip i f s) :
    ∃ u, itruncBy free ip s = iupdate ip (u.setInode ip { u.itable ip with size := 0 }) ∧
      Freeing ip f (fun x => inumOf x = i) s u ∧ ∀ j, (u.itable ip).addr j = 0 := by
  obtain ⟨t, ht, hfree, haddr⟩ : ∃ t, (List.range NDIRECT).foldlM (freeDirectBy free ip) s = .ok t ∧
      Freeing ip f (directs i NDIRECT) s t ∧
        ∀ j, (t.itable ip).addr j = if j < NDIRECT then 0 else (s.itable ip).addr j := by
    refine Safe.exists_ok (Safe.foldlM_range (fun k t => Freeing ip f (directs i k) s t ∧
      ∀ j, (t.itable ip).addr j = if j < k then 0 else (s.itable ip).addr j) ⟨?_, fun j => ?_⟩
      fun k hk t ht => ?_)
    · refine (Freeing.refl ip f s).congr fun x _ => ⟨False.elim, ?_⟩
      rintro ⟨j, hj, -⟩
      exact Nat.not_lt_zero j hj
    · rw [if_neg (Nat.not_lt_zero j)]
    · obtain ⟨u, hu, hfree⟩ := ht.1.freeDirect hd hk ht.2
      rw [hu]
      exact hfree
  obtain ⟨u, hu, hfree'⟩ := hfree.freeIndirect hd haddr
  refine ⟨u, ?_, hfree'⟩
  rw [itruncBy, ht]
  change (freeIndirectBy free ip t >>= _) = _
  rw [hu]
  rfl

end Itrunc

end RiscvOs.Fs.Reclaim
