import RiscvOs.Fs.Write

set_option autoImplicit false

/-!
# How a write ends (`kernel/disk/fs.c`)

The loop of `writei` takes a free block for each address that is not set, until all bytes are written, no block
is free or a byte of the source is missing. Where it comes to depends on the file, the number of free blocks and
the source before the call, unless it gets to the indirect block: from there on `bmap` reads the words of
`struct buf` instead of block numbers.

## Main results

* `writeLoop_ends` — how the loop of `writei` ends.
* `writei_cases` — a write that does not get to the indirect block writes a prefix of its source.
* `Consistent.writei` — no write that does not get there makes the file system inconsistent.
-/

namespace RiscvOs.Fs

open Function Loop

/-- The number of bytes of a request before the first one that is missing. -/
abbrev supply (src : Source) (n : ℕ) : ℕ := reached src 0 n

/-- The free blocks. -/
def FS.free (s : FS) : Finset ℕ := (Finset.range s.sb.size).filter fun b => s.used b = false

/-- How many of the addresses from `lo` up to `hi` are not set. -/
def Dinode.lacking (d : Dinode) (lo hi : ℕ) : ℕ := ((Finset.Ico lo hi).filter fun k => d.addr k = 0).card

/-- The tests at the beginning of `writei`. -/
def Refused (s : FS) (ip : Slot) (off n : ℕ) : Prop :=
  (s.itable ip).size.toNat < off ∨ (off + n) % 2 ^ 32 < off ∨ MAXFILE * BSIZE < off + n

/-- The loop of `writei` gets block `bn` of the file, or the indirect block if `bn` is `NDIRECT`: the block is not
behind the last byte of the request or the first one that is missing, and there are free blocks for it and for
the ones before it. -/
def Gets (s : FS) (ip : Slot) (src : Source) (off n bn : ℕ) : Prop :=
  0 < n ∧ bn * BSIZE ≤ off + min (supply src n) (n - 1) ∧
    (s.itable ip).lacking (min (off / BSIZE) bn) (bn + 1) ≤ s.free.card

/-! ## The bytes before the first missing one -/

section Supply

variable {src : Source} {tot m i : ℕ}

theorem isSome_of_lt_reached (h : i < reached src tot m) : (src (tot + i)).isSome = true := ok_of_lt_copyLen h

theorem isSome_reached (h : reached src tot m < m) : (src (tot + reached src tot m)).isSome = false :=
  not_ok_copyLen h

theorem isSome_supply (h : supply src m < m) : (src (supply src m)).isSome = false := by
  have := isSome_reached h
  rwa [Nat.zero_add] at this

theorem le_supply (hsrc : ∀ i < tot, (src i).isSome = true) (htot : tot ≤ m) : tot ≤ supply src m := by
  by_contra hlt
  have hmiss : (src (supply src m)).isSome = false := isSome_supply (by omega)
  exact Bool.false_ne_true (hmiss.symm.trans (hsrc (supply src m) (by omega)))

end Supply

/-! ## Free blocks and missing addresses -/

section Free

variable {s t : FS} {ip : Slot} {d : Dinode} {b lo hi k : ℕ}

theorem mem_free : b ∈ s.free ↔ b < s.sb.size ∧ s.used b = false := by
  rw [FS.free, Finset.mem_filter, Finset.mem_range]

theorem free_congr (hsb : t.sb = s.sb) (h : ∀ b < s.sb.size, t.used b = s.used b) : t.free = s.free := by
  ext b
  rw [mem_free, mem_free, hsb]
  refine and_congr_right fun hb => ?_
  rw [h b hb]

theorem free_take (hL : Layout s.sb) (hd : s.sb.dataStart ≤ b) : (s.take b).free = s.free.erase b := by
  ext c
  rw [Finset.mem_erase, mem_free, mem_free]
  by_cases hc : c < s.sb.size
  · have hiff : (s.take b).used c = true ↔ c = b ∨ s.used c = true := blockUsed_alloc hL hd (fun _ => 0) hc
    rw [← Bool.not_eq_true, hiff, ← Bool.not_eq_true]
    tauto
  · exact iff_of_false (fun h => hc h.1) fun h => hc h.2.1

theorem lacking_self (d : Dinode) (lo : ℕ) : d.lacking lo lo = 0 := by
  rw [Dinode.lacking, Finset.Ico_self]
  rfl

theorem lacking_succ (d : Dinode) (h : lo ≤ hi) :
    d.lacking lo (hi + 1) = d.lacking lo hi + if d.addr hi = 0 then 1 else 0 := by
  rw [Dinode.lacking, Dinode.lacking, ← Finset.insert_Ico_right_eq_Ico_add_one h, Finset.filter_insert]
  split_ifs with h0
  · rw [Finset.card_insert_of_notMem (by simp)]
  · rfl

theorem lacking_mono (d : Dinode) (h : hi ≤ k) : d.lacking lo hi ≤ d.lacking lo k :=
  Finset.card_le_card (Finset.filter_subset_filter _ (Finset.Ico_subset_Ico_right h))

end Free

/-! ## The loop -/

/-- The loop has written `tot` bytes and has asked for the blocks before `nb`: it has taken a free block for each
address that was not set, and each block that it has changed is in the log. -/
structure Progress (ip : Slot) (src : Source) (off : ℕ) (s : FS) (tot nb : ℕ) (t : FS) : Prop where
  written : Written ip src off s t (off + tot)
  bound : off + tot ≤ max off (NDIRECT * BSIZE)
  first : off / BSIZE ≤ nb
  count : (s.itable ip).lacking (off / BSIZE) nb + t.free.card = s.free.card
  ahead : ∀ k, nb ≤ k → (t.itable ip).addr k = (s.itable ip).addr k
  kept : ∀ b ∈ s.logged, b ∈ t.logged
  tracked : ∀ b, t.buf b ≠ s.buf b → b ∈ t.logged
  fresh : ∀ k, off / BSIZE ≤ k → k < nb → (s.itable ip).addr k = 0 → (t.itable ip).addr k ∈ t.logged
  logged : ∀ b ∈ t.logged, b ∈ s.logged ∨ b < s.sb.dataStart ∨
    ∃ k, off / BSIZE ≤ k ∧ k < nb ∧ (t.itable ip).addr k = b

section Loop

variable {ip : Slot} {src : Source} {off n tot nb fuel b a m : ℕ} {s t : FS}

theorem Progress.start (ho : Owned s.sb.wide s.buf (s.recs ip)) : Progress ip src off s 0 (off / BSIZE) s where
  written := .refl ho
  bound := Nat.le_max_left _ _
  first := le_rfl
  count := by rw [lacking_self, Nat.zero_add]
  ahead _ _ := rfl
  kept _ hb := hb
  tracked _ hb := absurd rfl hb
  fresh _ h1 h2 := absurd h1 (by omega)
  logged _ hb := Or.inl hb

theorem Progress.skip (h : Progress ip src off s tot nb t) (h0 : (t.itable ip).addr nb ≠ 0) :
    Progress ip src off s tot (nb + 1) t := by
  have hs : (s.itable ip).addr nb ≠ 0 := by
    rw [← h.ahead nb le_rfl]
    exact h0
  refine { h with first := ?_, count := ?_, ahead := ?_, fresh := ?_, logged := ?_ }
  · exact h.first.trans (Nat.le_succ nb)
  · rw [lacking_succ _ h.first, if_neg hs]
    exact h.count
  · exact fun k hk => h.ahead k (by omega)
  · intro k h1 h2 hk
    have hne : k ≠ nb := by
      rintro rfl
      exact hs hk
    exact h.fresh k h1 (by omega) hk
  · intro b hb
    rcases h.logged b hb with h1 | h2 | ⟨k, h3, h4, h5⟩
    · exact Or.inl h1
    · exact Or.inr (Or.inl h2)
    · exact Or.inr (Or.inr ⟨k, h3, by omega, h5⟩)

/-- A free block is taken for the next block. -/
theorem Progress.map (h : Progress ip src off s tot nb t) (hE : Editable ip s) (hnb : nb < NDIRECT)
    (h0 : (t.itable ip).addr nb = 0) (hb : b < t.sb.size) (hfree : t.used b = false) :
    Progress ip src off s tot (nb + 1) ((t.take b).setAddr ip nb b) ∧ b ≠ 0 ∧
      (((t.take b).setAddr ip nb b).itable ip).addr nb = b := by
  obtain ⟨hw, hb0, haddr⟩ := h.written.map hE hnb h0 hb hfree
  have hEt := hE.frame h.written.frame
  have hd : t.sb.dataStart ≤ b := h.written.owned.dataStart_le hfree
  have hb32 : b < 2 ^ 32 := by
    have := hEt.layout.size_lt
    omega
  have hset := addr_setAddr_itable (t.take b) ip hnb hb32
  have hs : (s.itable ip).addr nb = 0 := by
    rw [← h.ahead nb le_rfl]
    exact h0
  refine ⟨⟨hw, h.bound, h.first.trans (Nat.le_succ nb), ?_, fun k hk => ?_, fun c hc => ?_, fun c hc => ?_,
    fun k h1 h2 hk => ?_, fun c hc => ?_⟩, hb0, haddr⟩
  · have hcard : (t.free.erase b).card + 1 = t.free.card :=
      Finset.card_erase_add_one (mem_free.mpr ⟨hb, hfree⟩)
    have hcount := h.count
    rw [lacking_succ _ h.first, if_pos hs]
    change _ + (t.take b).free.card = _
    rw [free_take hEt.layout hd]
    omega
  · rw [hset, if_neg (by omega)]
    exact h.ahead k (by omega)
  · exact List.mem_cons_of_mem _ (List.mem_cons_of_mem _ (h.kept c hc))
  · change c ∈ b :: BBLOCK b t.sb :: t.logged
    by_cases h1 : c = b
    · exact h1 ▸ List.mem_cons_self
    · by_cases h2 : c = BBLOCK b t.sb
      · exact h2 ▸ List.mem_cons_of_mem _ List.mem_cons_self
      · refine List.mem_cons_of_mem _ (List.mem_cons_of_mem _ (h.tracked c ?_))
        refine fun heq => hc (Eq.trans ?_ heq)
        exact (update_of_ne h1 _ _).trans (update_of_ne h2 _ _)
  · by_cases hkn : k = nb
    · rw [hset, if_pos hkn]
      exact List.mem_cons_self
    · rw [hset, if_neg hkn]
      exact List.mem_cons_of_mem _ (List.mem_cons_of_mem _ (h.fresh k h1 (by omega) hk))
  · have hnew : c = b ∨ c = BBLOCK b t.sb ∨ c ∈ t.logged := by
      rcases List.mem_cons.mp hc with h1 | h1
      · exact Or.inl h1
      · exact Or.inr (List.mem_cons.mp h1)
    rcases hnew with rfl | rfl | hc
    · exact Or.inr (Or.inr ⟨nb, h.first, by omega, haddr⟩)
    · refine Or.inr (Or.inl ?_)
      rw [← h.written.frame.sb]
      exact hEt.layout.bitmap b hb
    · rcases h.logged c hc with h1 | h2 | ⟨k, h3, h4, h5⟩
      · exact Or.inl h1
      · exact Or.inr (Or.inl h2)
      · refine Or.inr (Or.inr ⟨k, h3, by omega, ?_⟩)
        rw [hset, if_neg (by omega)]
        exact h5

theorem free_setBuf (hL : Layout t.sb) (hd : t.sb.dataStart ≤ a) (c : Block) : (t.setBuf a c).free = t.free :=
  free_congr rfl fun _ hb => blockUsed_update_of_ne t.sb _ _ (hL.bitmap_lt hb hd).ne

/-- A round that is complete. -/
theorem Progress.store (h : Progress ip src off s tot (nb + 1) t) (hE : Editable ip s) (hnb : nb < NDIRECT)
    (hpos : (off + tot) / BSIZE = nb) (hlo : off / BSIZE ≤ nb) (ha : (t.itable ip).addr nb ≠ 0)
    (hm : (off + tot) % BSIZE + reached src tot m ≤ BSIZE) :
    Progress ip src off s (tot + reached src tot m) (nb + 1)
      ((t.fill ((t.itable ip).addr nb) src tot m ((off + tot) % BSIZE)).logWrite ((t.itable ip).addr nb)) := by
  have hEt := hE.frame h.written.frame
  have hst := h.written.store hE (Nat.le_add_right off tot) (m := reached src tot m) (by rwa [hpos])
    (by rwa [hpos]) hm
  rw [Nat.add_sub_cancel_left, hpos, Nat.add_assoc] at hst
  have hdata : t.sb.dataStart ≤ (t.itable ip).addr nb := by
    have hx := hEt.holds_addr nb
    have hr := h.written.owned.range (x := .addr (t.itable ip).inum nb) (by rw [hx]; exact ha)
    rw [hx] at hr
    exact hr.1
  refine ⟨{ hst with frame := { hst.frame with } }, ?_, h.first, ?_, h.ahead, fun c hc => ?_, fun c hc => ?_,
    fun k h1 h2 hk => ?_, fun c hc => ?_⟩
  · have hdm := Nat.div_add_mod (off + tot) BSIZE
    rw [hpos] at hdm
    have hB : BSIZE * (nb + 1) ≤ BSIZE * NDIRECT := Nat.mul_le_mul_left _ hnb
    rw [Nat.mul_add] at hB
    rw [Nat.mul_comm NDIRECT]
    omega
  · rw [← h.count]
    congr 2
    exact free_setBuf hEt.layout hdata _
  · exact List.mem_cons_of_mem _ (h.kept c hc)
  · by_cases h1 : c = (t.itable ip).addr nb
    · exact h1 ▸ List.mem_cons_self
    · refine List.mem_cons_of_mem _ (h.tracked c fun heq => hc (Eq.trans ?_ heq))
      exact update_of_ne h1 _ _
  · exact List.mem_cons_of_mem _ (h.fresh k h1 h2 hk)
  · rcases List.mem_cons.mp hc with rfl | hc
    · exact Or.inr (Or.inr ⟨nb, hlo, by omega, rfl⟩)
    · exact h.logged c hc

/-- The loop has come to the block of the first byte of the source that is missing, and the block is mapped. -/
structure CutAt (ip : Slot) (src : Source) (off n : ℕ) (s : FS) (tot nb m : ℕ) (t : FS) : Prop where
  progress : Progress ip src off s tot (nb + 1) t
  source : ∀ i < tot, (src i).isSome = true
  first : off / BSIZE ≤ nb
  block : nb = (off + tot) / BSIZE
  direct : nb < NDIRECT
  aligned : tot = 0 ∨ (off + tot) % BSIZE = 0
  there : (t.itable ip).addr nb ≠ 0
  supplied : supply src n = tot + reached src tot m
  missing : supply src n < n
  same : (off + tot) % BSIZE + reached src tot m < BSIZE
  quiet : (s.itable ip).addr nb ≠ 0 → (s.itable ip).addr nb ∉ s.logged → (s.itable ip).addr nb ∉ t.logged

/-- How the loop ends: all bytes are written; or there is no free block for the next one; or a byte of the
source is missing, and the bytes before it in its block were copied. -/
inductive Ends (ip : Slot) (src : Source) (off n : ℕ) (s : FS) : ℕ → FS → Prop
  | all {nb : ℕ} {t : FS} (progress : Progress ip src off s n nb t) (source : ∀ i < n, (src i).isSome = true) :
      Ends ip src off n s n t
  | full {tot nb : ℕ} {t : FS} (progress : Progress ip src off s tot nb t)
      (source : ∀ i < tot, (src i).isSome = true) (lt : tot < n) (block : nb = (off + tot) / BSIZE)
      (aligned : tot = 0 ∨ (off + tot) % BSIZE = 0)
      (unset : (s.itable ip).addr nb = 0) (exhausted : t.free = ∅) : Ends ip src off n s tot t
  | cut {tot nb m : ℕ} {t : FS} (cut : CutAt ip src off n s tot nb m t) :
      Ends ip src off n s tot (t.fill ((t.itable ip).addr nb) src tot m ((off + tot) % BSIZE))

/-- The loop ends in one of these ways, or it gets to the indirect block, and a branch is recorded. -/
def LoopEnds (ip : Slot) (src : Source) (off n : ℕ) (s : FS) (x : Except Panic ((ℕ × ℕ) × FS)) : Prop :=
  (∃ tot t, x = .ok ((tot, off + tot), t) ∧ Ends ip src off n s tot t) ∨
    (Gets s ip src off n NDIRECT ∧ Safe Fatal (fun r => r.2.quirks ≠ []) x)

/-- Where the loop does not get to the indirect block, there is none and no block is free. -/
theorem Progress.exhausted (h : Progress ip src off s tot NDIRECT t) (hsrc : ∀ i < tot, (src i).isSome = true)
    (htot : tot < n) (hblock : NDIRECT = (off + tot) / BSIZE) (hno : ¬ Gets s ip src off n NDIRECT) :
    (t.itable ip).addr NDIRECT = 0 ∧ t.free = ∅ := by
  have hsup : tot ≤ supply src n := le_supply hsrc htot.le
  have hpos : NDIRECT * BSIZE ≤ off + tot := by
    rw [hblock]
    exact Nat.div_mul_le_self _ _
  have hlt : s.free.card < (s.itable ip).lacking (off / BSIZE) (NDIRECT + 1) := by
    by_contra hle
    refine hno ⟨by omega, by omega, ?_⟩
    rw [Nat.min_eq_left h.first]
    exact not_lt.mp hle
  have hcount := h.count
  rw [lacking_succ _ h.first] at hlt
  rw [h.ahead NDIRECT le_rfl]
  split_ifs at hlt with h0
  · exact ⟨h0, Finset.card_eq_zero.mp (by omega)⟩
  · omega

theorem supply_of_reached (hsrc : ∀ i < tot, (src i).isSome = true) (hm : tot + m ≤ n)
    (hlt : reached src tot m < m) : supply src n = tot + reached src tot m := by
  refine copyLen_unique (by omega) (fun i hi => ?_) fun _ => ?_
  · rw [Nat.zero_add]
    by_cases hit : i < tot
    · exact hsrc i hit
    · have hin : i - tot < reached src tot m := by omega
      have := isSome_of_lt_reached hin
      rwa [show tot + (i - tot) = i by omega] at this
  · rw [Nat.zero_add]
    exact isSome_reached hlt

theorem Progress.not_logged (h : Progress ip src off s tot nb t) (hE : Editable ip s)
    (hs : (s.itable ip).addr nb ≠ 0) (hlog : (s.itable ip).addr nb ∉ s.logged) :
    (s.itable ip).addr nb ∉ t.logged := by
  have hEt := hE.frame h.written.frame
  have hsame := h.ahead nb le_rfl
  have hx := hEt.holds_addr nb
  have hx0 : holds t.sb.wide t.buf (t.recs ip) (.addr (t.itable ip).inum nb) ≠ 0 := by
    rw [hx, hsame]
    exact hs
  intro hmem
  rcases h.logged _ hmem with h1 | h2 | ⟨k, -, hk, h3⟩
  · exact hlog h1
  · have hr : t.sb.dataStart ≤ _ := (h.written.owned.range hx0).1
    rw [hx, hsame, h.written.frame.sb] at hr
    omega
  · -- two addresses of the file are different blocks
    have heq : holds t.sb.wide t.buf (t.recs ip) (.addr (t.itable ip).inum nb) =
        holds t.sb.wide t.buf (t.recs ip) (.addr (t.itable ip).inum k) := by
      rw [hx, hEt.holds_addr k, hsame, h3]
    have := (Place.addr.inj (h.written.owned.inj hx0 heq)).2
    omega

theorem chunk_next (h : tot + chunk tot (off + tot) n < n) :
    off + (tot + chunk tot (off + tot) n) = ((off + tot) / BSIZE + 1) * BSIZE := by
  have hdm := Nat.div_add_mod' (off + tot) BSIZE
  have hmod := Nat.mod_lt (off + tot) (show 0 < BSIZE by decide)
  unfold chunk at h ⊢
  rw [Nat.add_mul]
  omega

theorem mapAddr_unset {k : ℕ} (h0 : (t.itable ip).addr k = 0) :
    (∃ b, b < t.sb.size ∧ t.used b = false ∧ (b ≠ 0 → mapAddr ip k t = (b, (t.take b).setAddr ip k b))) ∨
      (t.free = ∅ ∧ mapAddr ip k t = (0, t)) := by
  rw [mapAddr, if_pos h0]
  rcases balloc_cases t with ⟨b, hb, hfree, -, heq⟩ | ⟨hfull, heq⟩
  · refine Or.inl ⟨b, hb, hfree, fun hb0 => ?_⟩
    obtain ⟨b, rfl⟩ := Nat.exists_eq_succ_of_ne_zero hb0
    rw [heq]
    rfl
  · refine Or.inr ⟨?_, by rw [heq]; rfl⟩
    ext b
    rw [mem_free]
    refine iff_of_false (fun h => ?_) (Finset.notMem_empty b)
    exact Bool.false_ne_true (h.2.symm.trans (hfull b h.1))

/-- Without an indirect block and a free block there is no block behind the direct ones. -/
theorem bmap_exhausted {bn : ℕ} (h0 : (t.itable ip).addr NDIRECT = 0) (hfree : t.free = ∅) (hlo : NDIRECT ≤ bn)
    (hhi : bn < MAXFILE) : bmap ip bn t = .ok (0, t) := by
  have hmap : mapAddr ip NDIRECT t = (0, t) := by
    rcases mapAddr_unset h0 with ⟨b, hb, hused, -⟩ | ⟨-, heq⟩
    · have hmem : b ∈ t.free := mem_free.mpr ⟨hb, hused⟩
      rw [hfree] at hmem
      exact absurd hmem (Finset.notMem_empty b)
    · exact heq
  have hin : bn - NDIRECT < NINDIRECT := by
    rw [MAXFILE] at hhi
    omega
  rw [bmap, if_neg (not_lt.mpr hlo), if_pos hin, hmap]
  rfl

/-- Behind the direct blocks a round gets no block, or a branch is recorded. -/
theorem writeLoop_behind (ip : Slot) (src : Source) (fuel : ℕ) {p : ℕ}
    (hfree : ∀ b < t.sb.size, t.used b = false → b ≠ 0) (htot : tot < n) (hlo : NDIRECT ≤ p / BSIZE)
    (hhi : p / BSIZE < MAXFILE) :
    ((t.itable ip).addr NDIRECT = 0 ∧ t.free = ∅ ∧ writeLoop ip src n (fuel + 1) tot p t = .ok ((tot, p), t)) ∨
      (¬ ((t.itable ip).addr NDIRECT = 0 ∧ t.free = ∅) ∧
        Safe Fatal (fun r => r.2.quirks ≠ []) (writeLoop ip src n (fuel + 1) tot p t)) := by
  by_cases hx : (t.itable ip).addr NDIRECT = 0 ∧ t.free = ∅
  · exact Or.inl ⟨hx.1, hx.2, writeLoop_unmapped htot (bmap_exhausted hx.1 hx.2 hlo hhi)⟩
  refine Or.inr ⟨hx, ?_⟩
  rw [writeLoop, if_pos htot]
  refine Safe.bind (fatal_of_freed (bmap_stays ip (p / BSIZE) t)) fun r hr => ?_
  have hne : r.2.quirks ≠ [] := by
    refine (hr.2 hlo).resolve_right ?_
    rintro ⟨h0, rfl⟩
    by_cases ha : (t.itable ip).addr NDIRECT = 0
    · rcases mapAddr_unset ha with ⟨b, hb, hused, hc⟩ | ⟨hfull, -⟩
      · rw [hc (hfree b hb hused)] at h0
        exact hfree b hb hused h0
      · exact hx ⟨ha, hfull⟩
    · rw [mapAddr_of_ne ha] at h0
      exact ha h0
  dsimp only
  split_ifs
  · exact hne
  · exact (fatal_of_freed (writeLoop_stays ip src n fuel _ _ _)).mono fun r' hr' => hr'.ne_nil hne
  · exact hne

theorem Progress.round {u : FS} (h : Progress ip src off s tot (nb + 1) u)
    (hE : Editable ip s) (hsrc : ∀ i < tot, (src i).isSome = true) (htot : tot < n)
    (hblock : nb = (off + tot) / BSIZE) (hal : tot = 0 ∨ (off + tot) % BSIZE = 0) (hnb : nb < NDIRECT)
    (hlo : off / BSIZE ≤ nb) (hm : bmap ip ((off + tot) / BSIZE) t = .ok ((u.itable ip).addr nb, u))
    (ha : (u.itable ip).addr nb ≠ 0)
    (hquiet : (s.itable ip).addr nb ≠ 0 → (s.itable ip).addr nb ∉ s.logged → (s.itable ip).addr nb ∉ u.logged)
    (ih : ∀ w, Progress ip src off s (tot + chunk tot (off + tot) n) (nb + 1) w →
      (∀ i < tot + chunk tot (off + tot) n, (src i).isSome = true) → LoopEnds ip src off n s
        (writeLoop ip src n fuel (tot + chunk tot (off + tot) n) (off + tot + chunk tot (off + tot) n) w)) :
    LoopEnds ip src off n s (writeLoop ip src n (fuel + 1) tot (off + tot) t) := by
  have hle := chunk_le tot (off + tot) n
  have hin := chunk_le_block tot (off + tot) n
  have hreach : reached src tot (chunk tot (off + tot) n) ≤ chunk tot (off + tot) n := copyLen_le _ tot _
  rw [writeLoop_mapped htot hm ha]
  split_ifs with hok
  · have hst := h.store hE hnb hblock.symm hlo ha (m := chunk tot (off + tot) n) (by omega)
    rw [hok] at hst
    refine ih _ hst fun i hi => ?_
    by_cases hit : i < tot
    · exact hsrc i hit
    · have hin' : i - tot < reached src tot (chunk tot (off + tot) n) := by omega
      have := isSome_of_lt_reached hin'
      rwa [show tot + (i - tot) = i by omega] at this
  · have hlt : reached src tot (chunk tot (off + tot) n) < chunk tot (off + tot) n := by omega
    have hsup : supply src n = tot + reached src tot (chunk tot (off + tot) n) :=
      supply_of_reached hsrc (by omega) hlt
    exact Or.inl ⟨tot, _, rfl, .cut ⟨h, hsrc, hlo, hblock, hnb, hal, ha, hsup, by omega, by omega, hquiet⟩⟩

/-- **How the loop of `writei` ends.**

**Proof sketch.** Induction on the number of rounds that are left. When the loop comes to a block, it has taken
a free block for each address before it that was not set. Behind the direct blocks there is then no indirect
block and no free block for it, or the loop gets there. -/
theorem writeLoop_ends (hE : Editable ip s) (hoff : off ≤ NDIRECT * BSIZE) (h : Progress ip src off s tot nb t)
    (hsrc : ∀ i < tot, (src i).isSome = true) (htot : tot ≤ n) (hfuel : n ≤ tot + fuel)
    (hblock : tot < n → nb = (off + tot) / BSIZE ∧ (tot = 0 ∨ (off + tot) % BSIZE = 0)) :
    LoopEnds ip src off n s (writeLoop ip src n fuel tot (off + tot) t) := by
  induction fuel generalizing tot nb t with
  | zero =>
    obtain rfl : tot = n := by omega
    exact Or.inl ⟨tot, t, rfl, .all h hsrc⟩
  | succ fuel ih =>
    by_cases htn : tot < n
    · obtain ⟨hnb, hal⟩ := hblock htn
      have hEt := hE.frame h.written.frame
      have hle : nb ≤ NDIRECT := by
        have hb := h.bound
        rw [Nat.max_eq_right hoff] at hb
        rw [hnb]
        exact Nat.div_le_of_le_mul (by rwa [Nat.mul_comm])
      rcases hle.eq_or_lt with rfl | hdir
      · rcases writeLoop_behind ip src fuel (fun b hb => hEt.free_ne_zero h.written.owned hb) htn
          hnb.le (by rw [← hnb]; decide) with ⟨h0, hfree, hrun⟩ | ⟨hsome, hsafe⟩
        · exact Or.inl ⟨tot, t, hrun, .full h hsrc htn hnb hal (h.ahead NDIRECT le_rfl ▸ h0) hfree⟩
        · exact Or.inr ⟨by_contra fun hno => hsome (h.exhausted hsrc htn hnb hno), hsafe⟩
      have hnext : ∀ w, Progress ip src off s (tot + chunk tot (off + tot) n) (nb + 1) w →
          (∀ i < tot + chunk tot (off + tot) n, (src i).isSome = true) → LoopEnds ip src off n s
            (writeLoop ip src n fuel (tot + chunk tot (off + tot) n)
              (off + tot + chunk tot (off + tot) n) w) := by
        intro w hw hsrc'
        have hpos := chunk_pos (off + tot) htn
        have hle := chunk_le tot (off + tot) n
        rw [Nat.add_assoc off tot]
        refine ih hw hsrc' (by omega) (by omega) fun hlt => ?_
        have hend : off + (tot + chunk tot (off + tot) n) = ((off + tot) / BSIZE + 1) * BSIZE := chunk_next hlt
        rw [hend, ← hnb]
        exact ⟨(Nat.mul_div_cancel _ (by decide)).symm, Or.inr (Nat.mul_mod_left _ _)⟩
      have hm : bmap ip ((off + tot) / BSIZE) t = .ok (mapAddr ip nb t) := by
        rw [← hnb, bmap_direct ip hdir]
      have hsame : (t.itable ip).addr nb = (s.itable ip).addr nb := h.ahead nb le_rfl
      by_cases h0 : (t.itable ip).addr nb = 0
      · rcases mapAddr_unset h0 with ⟨b, hb, hfree, hc⟩ | ⟨hfull, hc⟩
        · obtain ⟨hp, hb0, haddr⟩ := h.map hE hdir h0 hb hfree
          rw [hc hb0] at hm
          refine hp.round hE hsrc htn hnb hal hdir h.first ?_ ?_ (fun hs => absurd (hsame ▸ h0) hs) hnext
          · rw [haddr, hm]
          · rw [haddr]
            exact hb0
        · rw [hc] at hm
          exact Or.inl ⟨tot, t, writeLoop_unmapped htn hm, .full h hsrc htn hnb hal (hsame ▸ h0) hfull⟩
      · rw [mapAddr_of_ne h0] at hm
        exact (h.skip h0).round hE hsrc htn hnb hal hdir h.first hm h0 (fun hs => h.not_logged hE hs) hnext
    · obtain rfl : tot = n := by omega
      rw [writeLoop, if_neg htn]
      exact Or.inl ⟨tot, t, rfl, .all h hsrc⟩

theorem CutAt.loopDone (h : CutAt ip src off n s tot nb m t) (hE : Editable ip s) :
    LoopDone ip src off n s tot (t.fill ((t.itable ip).addr nb) src tot m ((off + tot) % BSIZE))
      (off + supply src n) := by
  have hst := h.progress.written.store hE (Nat.le_add_right off tot) (m := reached src tot m)
    (by rw [← h.block]; exact h.direct) (by rw [← h.block]; exact h.there) h.same.le
  rw [Nat.add_sub_cancel_left, ← h.block, Nat.add_assoc, ← h.supplied] at hst
  have hsup := h.supplied
  have hmiss := h.missing
  refine ⟨hst, by omega, by omega, h.aligned.imp_right Or.inl, fun hall => ?_⟩
  exact absurd (hall _ hmiss) (by rw [isSome_supply hmiss]; exact Bool.false_ne_true)

theorem Ends.loopDone (h : Ends ip src off n s tot t) (hE : Editable ip s) :
    (∃ e, LoopDone ip src off n s tot t e) ∧ off + tot ≤ max off (NDIRECT * BSIZE) := by
  cases h with
  | all progress source =>
    exact ⟨⟨_, progress.written, le_rfl, le_rfl, Or.inr (Or.inr rfl), fun _ => rfl⟩, progress.bound⟩
  | full progress source lt block aligned unset exhausted =>
    exact ⟨⟨_, progress.written, le_rfl, by omega, aligned.imp_right Or.inl, fun _ => rfl⟩, progress.bound⟩
  | cut cut => exact ⟨⟨_, cut.loopDone hE⟩, cut.progress.bound⟩

end Loop

/-! ## The function -/

section Writei

variable {ip : Slot} {src : Source} {off n : ℕ} {s : FS}

theorem writei_refused (h : Refused s ip off n) : writei ip src off n s = .ok (none, s) := by
  unfold writei
  split_ifs with h1 h2
  · rfl
  · rfl
  · exact absurd h (by unfold Refused; tauto)

theorem writei_accepted {tot : ℕ} {t : FS} (h : ¬ Refused s ip off n)
    (hlock : (s.itable ip).lock = some s.pid) (hst : Stays s t)
    (hrun : writeLoop ip src n n 0 off s = .ok ((tot, off + tot), t)) :
    ∃ u, iupdate ip (t.grow ip (off + tot)) = .ok u ∧ writei ip src off n s = .ok (some tot, u) := by
  have hst' := hst.trans (stays_grow t ip (off + tot))
  have hlock' : ((t.grow ip (off + tot)).itable ip).lock = some (t.grow ip (off + tot)).pid := by
    rw [hst'.lock, hst'.pid, hlock]
  have hu := iupdate_eq_ok.mpr ⟨hlock', rfl⟩
  refine ⟨_, hu, ?_⟩
  unfold Refused at h
  rw [writei, if_neg (by tauto), if_neg (by tauto), hrun]
  change (iupdate ip (t.grow ip (off + tot)) >>= fun u => .ok (some tot, u)) = _
  rw [hu]
  rfl

theorem writeLoop_begin (hc : Consistent s) (hlock : (s.itable ip).lock = some s.pid) (src : Source) (n : ℕ)
    (hoff : off ≤ NDIRECT * BSIZE) : LoopEnds ip src off n s (writeLoop ip src n n 0 off s) := by
  obtain ⟨hpos, hv⟩ := hc.table.locked ip _ hlock
  exact writeLoop_ends (hc.editable hpos hv) hoff (Progress.start (hc.owned_recs hpos hv))
    (fun i hi => absurd hi (Nat.not_lt_zero i)) (Nat.zero_le n) (by omega) fun _ => ⟨rfl, Or.inl rfl⟩

theorem gets_behind (hn : 0 < n) (hoff : NDIRECT * BSIZE ≤ off)
    (hsome : ¬ ((s.itable ip).addr NDIRECT = 0 ∧ s.free = ∅)) : Gets s ip src off n NDIRECT := by
  have hlo : NDIRECT ≤ off / BSIZE := (Nat.le_div_iff_mul_le (by decide)).mpr hoff
  refine ⟨hn, by omega, ?_⟩
  rw [Nat.min_eq_right hlo, lacking_succ _ le_rfl, lacking_self, Nat.zero_add]
  split_ifs with h0
  · exact Finset.card_pos.mpr (Finset.nonempty_iff_ne_empty.mpr fun hfree => hsome ⟨h0, hfree⟩)
  · exact Nat.zero_le _

theorem not_gets_of_le (h : off + n ≤ NDIRECT * BSIZE) : ¬ Gets s ip src off n NDIRECT := by
  rintro ⟨hn, hle, -⟩
  omega

/-- **What `writei` does**: it is refused, or writes a prefix of its source, unless it gets to the indirect
block. -/
theorem writei_cases (hc : Consistent s) (hlock : (s.itable ip).lock = some s.pid) (src : Source) (off n : ℕ) :
    (∃ r u, writei ip src off n s = .ok (r, u) ∧
      ((r = none ∧ u = s) ∨ ∃ tot e, r = some tot ∧ WriteDone ip src off n s tot e u)) ∨
    (¬ Refused s ip off n ∧ Gets s ip src off n NDIRECT ∧
      Safe Fatal (fun r => r.2.quirks ≠ []) (writei ip src off n s)) := by
  by_cases href : Refused s ip off n
  · exact Or.inl ⟨none, s, writei_refused href, Or.inl ⟨rfl, rfl⟩⟩
  obtain ⟨hpos, hv⟩ := hc.table.locked ip _ hlock
  have hE := hc.editable hpos hv
  have ho := hc.owned_recs hpos hv
  have hoff : off ≤ (s.itable ip).size.toNat := not_lt.mp fun hlt => href (Or.inl hlt)
  have hmax : off + n ≤ MAXFILE * BSIZE := not_lt.mp fun hlt => href (Or.inr (Or.inr hlt))
  have hloop : (∃ tot t, writeLoop ip src n n 0 off s = .ok ((tot, off + tot), t) ∧
      (∃ e, LoopDone ip src off n s tot t e) ∧ off + tot ≤ max off (NDIRECT * BSIZE)) ∨
      (Gets s ip src off n NDIRECT ∧ Safe Fatal (fun r => r.2.quirks ≠ []) (writeLoop ip src n n 0 off s)) := by
    by_cases hdir : off ≤ NDIRECT * BSIZE
    · refine (writeLoop_begin hc hlock src n hdir).imp_left ?_
      rintro ⟨tot, t, heq, hends⟩
      exact ⟨tot, t, heq, hends.loopDone hE⟩
    · have hnone : (∃ e, LoopDone ip src off n s 0 s e) ∧ off + 0 ≤ max off (NDIRECT * BSIZE) :=
        ⟨⟨off, Written.refl ho, le_rfl, Nat.le_add_right _ _, Or.inl rfl, fun _ => rfl⟩, Nat.le_max_left _ _⟩
      cases n with
      | zero => exact Or.inl ⟨0, s, rfl, hnone⟩
      | succ n =>
        have hbehind := (not_le.mp hdir).le
        refine (writeLoop_behind ip src n (fun b hb => hE.free_ne_zero ho hb) (Nat.succ_pos n)
          ((Nat.le_div_iff_mul_le (by decide)).mpr hbehind)
          ((Nat.div_lt_iff_lt_mul (by decide)).mpr (by omega))).imp ?_ ?_
        · exact fun h => ⟨0, s, h.2.2, hnone⟩
        · exact fun h => ⟨gets_behind (Nat.succ_pos n) hbehind h.1, h.2⟩
  rcases hloop with ⟨tot, t, heq, ⟨e, hdone⟩, hbound⟩ | ⟨hgets, hsafe⟩
  · obtain ⟨u, hu, hrun⟩ := writei_accepted href hlock ((writeLoop_stays ip src n n 0 off s).of_eq_ok heq) heq
    exact Or.inl ⟨some tot, u, hrun, Or.inr ⟨tot, e, rfl, hdone.finish hc hlock hoff hmax hbound hu⟩⟩
  · refine Or.inr ⟨href, hgets, ?_⟩
    unfold Refused at href
    rw [writei, if_neg (by tauto), if_neg (by tauto)]
    refine hsafe.bind fun r hr => Safe.bind (P := fun u : FS => u.quirks ≠ [])
      (fatal_of_freed (iupdate_safe fun u hu => ?_)) fun u hu => hu
    exact ((stays_grow r.2 ip r.1.2).trans (stays_iupdate hu)).ne_nil hr

theorem writei_writes (hc : Consistent s) (hlock : (s.itable ip).lock = some s.pid)
    (h : Refused s ip off n ∨ ¬ Gets s ip src off n NDIRECT) :
    ∃ r u, writei ip src off n s = .ok (r, u) ∧
      ((r = none ∧ u = s) ∨ ∃ tot e, r = some tot ∧ WriteDone ip src off n s tot e u) := by
  refine (writei_cases hc hlock src off n).resolve_right ?_
  rintro ⟨hacc, hgets, -⟩
  exact h.elim hacc fun hno => hno hgets

theorem writei_done (h : Consistent s) (hlock : (s.itable ip).lock = some s.pid) :
    Safe Fatal (fun r => r.2.quirks = [] → (r.1 = none ∧ r.2 = s) ∨
      ∃ tot e, r.1 = some tot ∧ WriteDone ip src off n s tot e r.2) (writei ip src off n s) := by
  rcases writei_cases h hlock src off n with ⟨r, u, heq, hcases⟩ | ⟨-, -, hsafe⟩
  · rw [heq]
    exact fun _ => hcases
  · exact hsafe.mono fun r hr hq => absurd hq hr

/-- **`writei` keeps the file system consistent**, whether or not the slot is locked. -/
theorem Consistent.writei (h : Consistent s) :
    Safe Fatal (fun r => r.2.quirks = [] → Consistent r.2) (Fs.writei ip src off n s) := by
  by_cases hlock : (s.itable ip).lock = some s.pid
  · refine (writei_done h hlock).mono fun r hr hq => ?_
    rcases hr hq with ⟨-, heq⟩ | ⟨tot, e, -, hd⟩
    · rw [heq]
      exact h
    · exact hd.consistent
  · refine (fatal_of_freed (writei_unlocked hlock)).mono fun r hr _ => ?_
    rw [hr]
    exact h

theorem writei_quiet (hc : Consistent s) (h : Refused s ip off n ∨ ¬ Gets s ip src off n NDIRECT)
    {r : Option ℕ} {u : FS} (hrun : writei ip src off n s = .ok (r, u)) : u.quirks = s.quirks := by
  by_cases hlock : (s.itable ip).lock = some s.pid
  · obtain ⟨r', u', heq, hcases⟩ := writei_writes hc hlock h
    cases heq.symm.trans hrun
    rcases hcases with ⟨-, rfl⟩ | ⟨tot, e, -, hd⟩
    · rfl
    · exact hd.quirks
  · have hsame : u = s := (writei_unlocked hlock).of_eq_ok hrun
    rw [hsame]

end Writei

end RiscvOs.Fs
