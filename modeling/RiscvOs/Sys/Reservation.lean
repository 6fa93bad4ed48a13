import RiscvOs.Fs.Write
import RiscvOs.Sys.Balance

set_option autoImplicit false

/-!
# The log blocks of a write (`kernel/disk/file.c`, `kernel/disk/fs.c`)

`filewrite` writes at most `maxWrite` bytes in one transaction, for which `begin_op` reserves `MAXOPBLOCKS`
blocks of the log. A round of `writei` passes one data block to `log_write`. It may allocate the data block,
which changes a block of the bitmap, and then changes the indirect block; the indirect block itself is
allocated at most once. The record of the inode is written at the end.

## Main results

* `writeLoop_costs`, `writeLoop_costs_mapped` — the loop of
  `writei`, and the loop if the first block is there.
* `writei_fits_reservation` — a write fits the reservation.

## Implementation notes

That the indirect block is missing is a debt of one bitmap block, which its allocation pays; so each round
costs one bitmap block, whether or not it allocates the indirect block.

The `balloc` of these functions is that of `RiscvOs.Fs.State`, which counts in natural numbers.
-/

namespace RiscvOs.Sys.Reservation

open Fs Balance

/-- The blocks before the end of the file are there: the direct ones and, if the file reaches behind them, the
indirect block. Its entries do not matter. -/
def NoHoles (d : Dinode) : Prop :=
  ∀ bn, bn * BSIZE < d.size.toNat → d.addr (min bn NDIRECT) ≠ 0

/-- One if the indirect block of the file is missing. -/
def missing (s : FS) (ip : Slot) : ℕ := if (s.itable ip).addr NDIRECT = 0 then 1 else 0

/-- The blocks passed to `log_write` between `s` and `t` are in `data` or `bitmap`, or the indirect block of the
file, which does not change once it is there. -/
structure Charge (ip : Slot) (s t : FS) (data bitmap : Finset ℕ) : Prop where
  stays : Stays s t
  indirect : (s.itable ip).addr NDIRECT ≠ 0 → (t.itable ip).addr NDIRECT = (s.itable ip).addr NDIRECT
  logged : ∃ new, t.logged = new ++ s.logged ∧
    ∀ b ∈ new, b ∈ data ∨ b ∈ bitmap ∨ (b = (t.itable ip).addr NDIRECT ∧ b ≠ 0)

/-- There are at most `d` data blocks and, with the missing indirect block as a debt, `m` blocks of the
bitmap. -/
def Costs (ip : Slot) (s t : FS) (d m : ℕ) : Prop :=
  ∃ data bitmap : Finset ℕ, Charge ip s t data bitmap ∧ data.card ≤ d ∧
    bitmap.card + missing t ip ≤ m + missing s ip

/-! ## Charges -/

section Charges

variable {ip : Slot} {s t u : FS} {data bitmap data' bitmap' : Finset ℕ} {a b k d m d' m' : ℕ}

theorem Charge.refl (ip : Slot) (s : FS) : Charge ip s s ∅ ∅ :=
  ⟨.refl s, fun _ => rfl, [], rfl, fun _ hb => absurd hb List.not_mem_nil⟩

theorem Charge.mono (h : Charge ip s t data bitmap) (hd : data ⊆ data') (hb : bitmap ⊆ bitmap') :
    Charge ip s t data' bitmap' := by
  obtain ⟨new, heq, hnew⟩ := h.logged
  refine ⟨h.stays, h.indirect, new, heq, fun b hmem => ?_⟩
  rcases hnew b hmem with h1 | h2 | h3
  · exact Or.inl (hd h1)
  · exact Or.inr (Or.inl (hb h2))
  · exact Or.inr (Or.inr h3)

theorem Charge.trans (h : Charge ip s t data bitmap) (h' : Charge ip t u data' bitmap') :
    Charge ip s u (data ∪ data') (bitmap ∪ bitmap') := by
  obtain ⟨new, heq, hnew⟩ := h.logged
  obtain ⟨new', heq', hnew'⟩ := h'.logged
  refine ⟨h.stays.trans h'.stays, fun h0 => ?_, new' ++ new, ?_, fun b hmem => ?_⟩
  · have ht := h.indirect h0
    rw [h'.indirect (by rwa [ht]), ht]
  · rw [heq', heq, List.append_assoc]
  · rcases List.mem_append.mp hmem with hm | hm
    · rcases hnew' b hm with h1 | h2 | h3
      · exact Or.inl (Finset.mem_union_right _ h1)
      · exact Or.inr (Or.inl (Finset.mem_union_right _ h2))
      · exact Or.inr (Or.inr h3)
    · rcases hnew b hm with h1 | h2 | ⟨h3, h0⟩
      · exact Or.inl (Finset.mem_union_left _ h1)
      · exact Or.inr (Or.inl (Finset.mem_union_left _ h2))
      · -- the indirect block is the same afterwards
        exact Or.inr (Or.inr ⟨h3.trans (h'.indirect (h3 ▸ h0)).symm, h0⟩)

theorem charge_quiet (hst : Stays s t) (hit : t.itable = s.itable) (hlog : t.logged = s.logged) :
    Charge ip s t ∅ ∅ :=
  ⟨hst, fun _ => by rw [hit], [], hlog, fun _ hb => absurd hb List.not_mem_nil⟩

theorem charge_logWrite (ip : Slot) (s : FS) (b : ℕ) : Charge ip s (s.logWrite b) {b} ∅ :=
  ⟨stays_logWrite s b, fun _ => rfl, [b], rfl, fun _ hc => Or.inl (Finset.mem_singleton.mpr (List.mem_singleton.mp hc))⟩

theorem charge_logWrite_indirect (h0 : (s.itable ip).addr NDIRECT ≠ 0) :
    Charge ip s (s.logWrite ((s.itable ip).addr NDIRECT)) ∅ ∅ := by
  refine ⟨stays_logWrite s _, fun _ => rfl, [(s.itable ip).addr NDIRECT], rfl, fun c hc => ?_⟩
  obtain rfl := List.mem_singleton.mp hc
  exact Or.inr (Or.inr ⟨rfl, h0⟩)

theorem charge_take (ip : Slot) (s : FS) (b : ℕ) : Charge ip s (s.take b) {b} {BBLOCK b s.sb} := by
  refine ⟨stays_of_eq rfl rfl rfl (List.suffix_refl _), fun _ => rfl, [b, BBLOCK b s.sb], rfl, fun c hc => ?_⟩
  rcases List.mem_cons.mp hc with rfl | hc
  · exact Or.inl (Finset.mem_singleton_self _)
  · exact Or.inr (Or.inl (Finset.mem_singleton.mpr (List.mem_singleton.mp hc)))

theorem addr_setAddr_slot (u : FS) (ip : Slot) (hk : k < NDIRECT + 1) (ha : a < 2 ^ 32) (j : ℕ) :
    ((u.setAddr ip k a).itable ip).addr j = if j = k then a else (u.itable ip).addr j := by
  rw [FS.setAddr, FS.setInode_same]
  exact Dinode.addr_setAddr _ hk ha j

theorem charge_setAddr (hk : k < NDIRECT) (ha : a < 2 ^ 32) : Charge ip s (s.setAddr ip k a) ∅ ∅ := by
  refine ⟨stays_setAddr s ip k a, fun _ => ?_, [], rfl, fun _ hb => absurd hb List.not_mem_nil⟩
  rw [addr_setAddr_slot s ip (by omega) ha, if_neg (by omega)]

theorem charge_indirect (h0 : (s.itable ip).addr NDIRECT = 0) (hb : b < 2 ^ 32) (hb0 : b ≠ 0) :
    Charge ip s ((s.take b).setAddr ip NDIRECT b) ∅ {BBLOCK b s.sb} := by
  have haddr : (((s.take b).setAddr ip NDIRECT b).itable ip).addr NDIRECT = b := by
    rw [addr_setAddr_slot _ ip (by omega) hb, if_pos rfl]
  refine ⟨(charge_take ip s b).stays.trans (stays_setAddr _ ip _ _), fun h => absurd h0 h,
    [b, BBLOCK b s.sb], rfl, fun c hc => ?_⟩
  rcases List.mem_cons.mp hc with rfl | hc
  · exact Or.inr (Or.inr ⟨haddr.symm, hb0⟩)
  · exact Or.inr (Or.inl (Finset.mem_singleton.mpr (List.mem_singleton.mp hc)))

theorem missing_le (s : FS) (ip : Slot) : missing s ip ≤ 1 := by
  unfold missing
  split_ifs <;> omega

theorem Charge.missing_le (h : Charge ip s t data bitmap) : missing t ip ≤ missing s ip := by
  unfold missing
  by_cases h0 : (s.itable ip).addr NDIRECT = 0
  · rw [if_pos h0]
    split_ifs <;> omega
  · rw [if_neg (by rwa [h.indirect h0])]
    omega

theorem Costs.trans (h : Costs ip s t d m) (h' : Costs ip t u d' m') : Costs ip s u (d + d') (m + m') := by
  obtain ⟨data, bitmap, hc, hd, hm⟩ := h
  obtain ⟨data', bitmap', hc', hd', hm'⟩ := h'
  have hdata := Finset.card_union_le data data'
  have hbitmap := Finset.card_union_le bitmap bitmap'
  exact ⟨_, _, hc.trans hc', by omega, by omega⟩

end Charges

/-! ## `bmap` -/

section Bmap

variable {ip : Slot} {s t : FS} {a b k bn : ℕ}

theorem mapAddr_charge (hsb : s.sb.size < 2 ^ 32) (hk : k < NDIRECT) (h : mapAddr ip k s = (a, t)) :
    ∃ bitmap : Finset ℕ, Charge ip s t {a} bitmap ∧ bitmap.card ≤ 1 := by
  rcases mapAddr_cases ip k s with ⟨-, hc⟩ | ⟨-, b, hb, -, ⟨-, hc⟩ | ⟨-, hc⟩⟩ | ⟨-, hc⟩
  · cases hc.symm.trans h
    exact ⟨∅, (Charge.refl ip s).mono (Finset.empty_subset _) (Finset.empty_subset _), by simp⟩
  · cases hc.symm.trans h
    have hset : Charge ip (s.take a) ((s.take a).setAddr ip k a) ∅ ∅ := charge_setAddr hk (by omega)
    exact ⟨{BBLOCK a s.sb}, by simpa using (charge_take ip s a).trans hset, by simp⟩
  · cases hc.symm.trans h
    exact ⟨{BBLOCK 0 s.sb}, charge_take ip s 0, by simp⟩
  · cases hc.symm.trans h
    exact ⟨∅, (Charge.refl ip s).mono (Finset.empty_subset _) (Finset.empty_subset _), by simp⟩

theorem mapAddr_indirect_charge (hsb : s.sb.size < 2 ^ 32) (h : mapAddr ip NDIRECT s = (a, t)) :
    (a ≠ 0 ∧ (t.itable ip).addr NDIRECT = a ∧
      ∃ bitmap : Finset ℕ, Charge ip s t ∅ bitmap ∧ bitmap.card ≤ missing s ip) ∨
    (a = 0 ∧ ∃ bitmap : Finset ℕ, Charge ip s t {0} bitmap ∧ bitmap.card ≤ 1) := by
  rcases mapAddr_cases ip NDIRECT s with ⟨h0, hc⟩ | ⟨h0, b, hb, -, ⟨hb0, hc⟩ | ⟨-, hc⟩⟩ | ⟨-, hc⟩
  · cases hc.symm.trans h
    exact Or.inl ⟨h0, rfl, ∅, .refl ip s, by simp⟩
  · cases hc.symm.trans h
    refine Or.inl ⟨hb0, ?_, {BBLOCK a s.sb}, charge_indirect h0 (by omega) hb0, ?_⟩
    · rw [addr_setAddr_slot _ ip (by omega) (by omega), if_pos rfl]
    · rw [missing, if_pos h0, Finset.card_singleton]
  · cases hc.symm.trans h
    exact Or.inr ⟨rfl, {BBLOCK 0 s.sb}, charge_take ip s 0, by simp⟩
  · cases hc.symm.trans h
    exact Or.inr ⟨rfl, ∅, (Charge.refl ip s).mono (Finset.empty_subset _) (Finset.empty_subset _), by simp⟩

/-- An entry of the indirect block that is looked up costs at most one block of the bitmap. -/
theorem mapEntry_charge (hb0 : (s.itable ip).addr NDIRECT ≠ 0)
    (h : mapEntry ((s.itable ip).addr NDIRECT) k s = (a, t)) :
    ∃ bitmap : Finset ℕ, Charge ip s t {a} bitmap ∧ bitmap.card ≤ 1 := by
  unfold mapEntry at h
  split_ifs at h
  · rcases balloc_cases s with ⟨b, -, -, -, hc⟩ | ⟨-, hc⟩
    · rw [hc] at h
      cases b with
      | zero =>
        cases h
        exact ⟨{BBLOCK 0 s.sb}, charge_take ip s 0, by simp⟩
      | succ b =>
        cases h
        refine ⟨{BBLOCK (b + 1) s.sb}, ?_, by simp⟩
        -- the word is stored, and the indirect block is passed to `log_write`
        have hword : Charge ip (s.take (b + 1)) (setBufWord (s.take (b + 1)) ((s.itable ip).addr NDIRECT) k
            (UInt32.ofNat (b + 1))) ∅ ∅ := by
          refine charge_quiet (setBufWord_stays ..) ?_ ?_ <;>
          · unfold setBufWord
            split_ifs <;> rfl
        have hit : (setBufWord (s.take (b + 1)) ((s.itable ip).addr NDIRECT) k
            (UInt32.ofNat (b + 1))).itable = s.itable := by
          unfold setBufWord
          split_ifs <;> rfl
        have hb0' : ((setBufWord (s.take (b + 1)) ((s.itable ip).addr NDIRECT) k
            (UInt32.ofNat (b + 1))).itable ip).addr NDIRECT ≠ 0 := by rwa [hit]
        have hlog := charge_logWrite_indirect hb0'
        rw [hit] at hlog
        simpa using ((charge_take ip s (b + 1)).trans hword).trans hlog
    · rw [hc] at h
      cases h
      exact ⟨∅, (Charge.refl ip s).mono (Finset.empty_subset _) (Finset.empty_subset _), by simp⟩
  · cases h
    exact ⟨∅, (Charge.refl ip s).mono (Finset.empty_subset _) (Finset.empty_subset _), by simp⟩

/-- **The cost of `bmap`**: besides the block itself at most one block of the bitmap, with the missing indirect
block as a debt. -/
theorem bmap_charge (hsb : s.sb.size < 2 ^ 32) (hbn : bn < MAXFILE) :
    ∃ a t, bmap ip bn s = .ok (a, t) ∧ ∃ bitmap : Finset ℕ, Charge ip s t {a} bitmap ∧
      bitmap.card + missing t ip ≤ 1 + missing s ip := by
  by_cases hdir : bn < NDIRECT
  · rcases hr : mapAddr ip bn s with ⟨a, t⟩
    obtain ⟨bitmap, hc, hcard⟩ := mapAddr_charge hsb hdir hr
    have hmiss := hc.missing_le
    exact ⟨a, t, (bmap_direct ip hdir s).trans (congrArg Except.ok hr), bitmap, hc, by omega⟩
  · have hmax : MAXFILE = NDIRECT + NINDIRECT := rfl
    rw [bmap, if_neg hdir, if_pos (by omega)]
    rcases hr : mapAddr ip NDIRECT s with ⟨b, t⟩
    rcases mapAddr_indirect_charge hsb hr with ⟨hb0, rfl, bitmap, hc, hcard⟩ | ⟨rfl, bitmap, hc, hcard⟩
    · have hnote : Charge ip t (t.note .indirect) ∅ ∅ :=
        charge_quiet (stays_of_eq rfl rfl rfl (List.suffix_cons _ _)) rfl rfl
      rcases he : mapEntry ((t.itable ip).addr NDIRECT) (bn - NDIRECT) (t.note .indirect) with ⟨a, u⟩
      have hb1 : ((t.note .indirect).itable ip).addr NDIRECT ≠ 0 := hb0
      obtain ⟨bitmap', hc', hcard'⟩ := mapEntry_charge hb1 he
      have hpaid : missing u ip = 0 := by
        rw [missing, hc'.indirect hb1, if_neg hb1]
      have hunion := Finset.card_union_le bitmap bitmap'
      refine ⟨a, u, ?_, bitmap ∪ bitmap', by simpa using (hc.trans hnote).trans hc', by omega⟩
      split
      · rename_i heq
        exact absurd (congrArg Prod.fst heq) hb0
      · rename_i heq
        cases heq
        exact congrArg Except.ok he
    · refine ⟨0, t, rfl, bitmap, by simpa using hc, ?_⟩
      have hmiss := hc.missing_le
      omega

end Bmap

/-! ## The loop -/

section Loop

variable {ip : Slot} {src : Source} {s t : FS} {a n tot off fuel R c : ℕ} {bitmap : Finset ℕ}

theorem writeLoop_round (htot : tot < n) (hm : bmap ip (off / BSIZE) s = .ok (a, t))
    (hc : Charge ip s t {a} bitmap) (hcard : bitmap.card + missing t ip ≤ c + missing s ip)
    (ih : ∀ w : FS, w.sb = s.sb → ∃ r u, writeLoop ip src n fuel (tot + chunk tot off n)
      (off + chunk tot off n) w = .ok (r, u) ∧ Costs ip w u R R) :
    ∃ r u, writeLoop ip src n (fuel + 1) tot off s = .ok (r, u) ∧ Costs ip s u (R + 1) (R + c) := by
  have hstop : ∀ w, Charge ip t w {a} ∅ → Costs ip s w 1 c := fun w hw => by
    have hmiss := hw.missing_le
    refine ⟨{a}, bitmap, by simpa using hc.trans hw, by simp, by omega⟩
  have hadd : ∀ {w : FS}, Costs ip s w 1 c → Costs ip s w (R + 1) (R + c) := by
    rintro w ⟨data, bitmap', hch, h1, h2⟩
    exact ⟨data, bitmap', hch, by omega, by omega⟩
  by_cases ha : a = 0
  · subst ha
    exact ⟨_, t, writeLoop_unmapped htot hm,
      hadd (hstop t ((Charge.refl ip t).mono (Finset.empty_subset _) (Finset.empty_subset _)))⟩
  · rw [writeLoop_mapped htot hm ha]
    have hfill : Charge ip t (t.fill a src tot (chunk tot off n) (off % BSIZE)) ∅ ∅ :=
      charge_quiet (stays_setBuf _ _ _) rfl rfl
    split_ifs
    · have hlog := hfill.trans (charge_logWrite ip (t.fill a src tot (chunk tot off n) (off % BSIZE)) a)
      obtain ⟨r, u, hrun, hcost⟩ := ih ((t.fill a src tot (chunk tot off n) (off % BSIZE)).logWrite a)
        hc.stays.sb
      refine ⟨r, u, hrun, ?_⟩
      rw [Nat.add_comm R 1, Nat.add_comm R c]
      exact (hstop _ hlog).trans hcost
    · exact ⟨_, _, rfl, hadd (hstop _ (hfill.mono (Finset.empty_subset _) (Finset.empty_subset _)))⟩

theorem rounds_left (htot : tot < n) (hR : off % BSIZE + (n - tot) ≤ (R + 1) * BSIZE) :
    n ≤ tot + chunk tot off n ∨
      (off + chunk tot off n) % BSIZE + (n - (tot + chunk tot off n)) ≤ R * BSIZE := by
  unfold chunk
  rw [show BSIZE = 1024 from rfl] at *
  omega

/-- **The cost of the loop of `writei`**: a data block and a block of the bitmap for each of the `R` blocks that
the write touches. -/
theorem writeLoop_costs (hsb : s.sb.size < 2 ^ 32) (hend : off + (n - tot) ≤ MAXFILE * BSIZE)
    (hR : n ≤ tot ∨ off % BSIZE + (n - tot) ≤ R * BSIZE) :
    ∃ r u, writeLoop ip src n fuel tot off s = .ok (r, u) ∧ Costs ip s u R R := by
  have hstop : Costs ip s s R R := ⟨∅, ∅, .refl ip s, by simp, by simp⟩
  induction fuel generalizing tot off s R with
  | zero => exact ⟨_, s, rfl, hstop⟩
  | succ fuel ih =>
    by_cases htot : tot < n
    · obtain ⟨R, rfl⟩ : ∃ R', R = R' + 1 := by
        refine Nat.exists_eq_succ_of_ne_zero ?_
        rintro rfl
        omega
      have hbn : off / BSIZE < MAXFILE := (Nat.div_lt_iff_lt_mul (by decide)).mpr (by omega)
      obtain ⟨a, t, hm, bitmap, hc, hcard⟩ := bmap_charge hsb hbn
      refine writeLoop_round htot hm hc hcard fun w hw => ?_
      have hle := chunk_le tot off n
      refine ih (by rwa [hw]) (by omega) (rounds_left htot (by omega)) ⟨∅, ∅, .refl ip w, by simp, by simp⟩
    · rw [writeLoop, if_neg htot]
      exact ⟨_, s, rfl, hstop⟩

/-- **The cost of the loop if the first block is there** as a direct block: the first round costs no block of
the bitmap. -/
theorem writeLoop_costs_mapped (hsb : s.sb.size < 2 ^ 32) (hend : off + (n - tot) ≤ MAXFILE * BSIZE)
    (hR : off % BSIZE + (n - tot) ≤ (R + 1) * BSIZE) (hdir : off / BSIZE < NDIRECT)
    (ha : (s.itable ip).addr (off / BSIZE) ≠ 0) :
    ∃ r u, writeLoop ip src n fuel tot off s = .ok (r, u) ∧ Costs ip s u (R + 1) R := by
  have hstop : Costs ip s s (R + 1) R := ⟨∅, ∅, .refl ip s, by simp, by simp⟩
  cases fuel with
  | zero => exact ⟨_, s, rfl, hstop⟩
  | succ fuel =>
    by_cases htot : tot < n
    · have hm : bmap ip (off / BSIZE) s = .ok ((s.itable ip).addr (off / BSIZE), s) := by
        rw [bmap_direct ip hdir, mapAddr_of_ne ha]
      have hc : Charge ip s s {(s.itable ip).addr (off / BSIZE)} ∅ :=
        (Charge.refl ip s).mono (Finset.empty_subset _) (Finset.empty_subset _)
      refine writeLoop_round (c := 0) htot hm hc (by simp) fun w hw => ?_
      have hle := chunk_le tot off n
      exact writeLoop_costs (by rwa [hw]) (by omega) (rounds_left htot hR)
    · rw [writeLoop, if_neg htot]
      exact ⟨_, s, rfl, hstop⟩

end Loop

/-! ## The function -/

section Writei

variable {ip : Slot} {src : Source} {s t u : FS} {d m n off : ℕ}

theorem Costs.card_le (h : Costs ip s t d m) (b : ℕ) :
    ∃ new, t.logged = new ++ s.logged ∧ (b :: new).toFinset.card ≤ d + m + missing s ip + 2 := by
  obtain ⟨data, bitmap, hc, hd, hm⟩ := h
  obtain ⟨new, heq, hnew⟩ := hc.logged
  refine ⟨new, heq, ?_⟩
  have hsub : (b :: new).toFinset ⊆ (data ∪ bitmap) ∪ {(t.itable ip).addr NDIRECT, b} := by
    intro c hmem
    rcases List.mem_cons.mp (List.mem_toFinset.mp hmem) with rfl | hmem
    · simp
    · rcases hnew c hmem with h1 | h2 | ⟨h3, -⟩
      · simp [h1]
      · simp [h2]
      · simp [h3]
  have h1 := Finset.card_le_card hsub
  have h2 := Finset.card_union_le (data ∪ bitmap) {(t.itable ip).addr NDIRECT, b}
  have h3 := Finset.card_union_le data bitmap
  have h4 := Finset.card_le_two (a := (t.itable ip).addr NDIRECT) (b := b)
  omega

theorem writeLoop_within (hsb : s.sb.size < 2 ^ 32) (hfull : NoHoles (s.itable ip).toDinode) (hn : n ≤ maxWrite)
    (hoff : off ≤ (s.itable ip).size.toNat) (hend : off + n ≤ MAXFILE * BSIZE) :
    ∃ r t d m, writeLoop ip src n n 0 off s = .ok (r, t) ∧ Costs ip s t d m ∧ d + m + missing s ip ≤ 28 := by
  have hmax : maxWrite = 13 * BSIZE := rfl
  have hmod := Nat.mod_lt off (show 0 < BSIZE by decide)
  have hmiss := missing_le s ip
  by_cases hal : off % BSIZE = 0
  · have hloop : ∃ r t, writeLoop ip src n n 0 off s = .ok (r, t) ∧ Costs ip s t 13 13 :=
      writeLoop_costs hsb (by omega) (Or.inr (by omega))
    obtain ⟨r, t, hrun, hcost⟩ := hloop
    exact ⟨r, t, 13, 13, hrun, hcost, by omega⟩
  · have hthere : (s.itable ip).addr (min (off / BSIZE) NDIRECT) ≠ 0 := by
      refine hfull (off / BSIZE) (lt_of_lt_of_le ?_ hoff)
      have := Nat.div_add_mod' off BSIZE
      omega
    by_cases hdir : off / BSIZE < NDIRECT
    · rw [Nat.min_eq_left hdir.le] at hthere
      have hloop : ∃ r t, writeLoop ip src n n 0 off s = .ok (r, t) ∧ Costs ip s t 14 13 :=
        writeLoop_costs_mapped hsb (by omega) (by omega) hdir hthere
      obtain ⟨r, t, hrun, hcost⟩ := hloop
      exact ⟨r, t, 14, 13, hrun, hcost, by omega⟩
    · rw [Nat.min_eq_right (not_lt.mp hdir)] at hthere
      have hpaid : missing s ip = 0 := if_neg hthere
      have hloop : ∃ r t, writeLoop ip src n n 0 off s = .ok (r, t) ∧ Costs ip s t 14 14 :=
        writeLoop_costs hsb (by omega) (Or.inr (by omega))
      obtain ⟨r, t, hrun, hcost⟩ := hloop
      exact ⟨r, t, 14, 14, hrun, hcost, by omega⟩

/-- **One write fits its reservation.** For every superblock, every inode without holes, every offset and every
length up to the maximum that `filewrite` uses, with any part of the source missing: `writei` returns, and the
blocks that it has passed to `log_write` are at most `MAXOPBLOCKS` different ones. -/
theorem writei_fits_reservation (ip : Slot) (src : Source) (off : ℕ) (hsb : s.sb.size < 2 ^ 32)
    (hlock : (s.itable ip).lock = some s.pid) (hfull : NoHoles (s.itable ip).toDinode) (hn : n ≤ maxWrite) :
    ∃ r t new, writei ip src off n s = .ok (r, t) ∧ t.logged = new ++ s.logged ∧
      new.toFinset.card ≤ MAXOPBLOCKS := by
  unfold writei
  split_ifs with hout hbig
  · exact ⟨none, s, [], rfl, rfl, by simp⟩
  · exact ⟨none, s, [], rfl, rfl, by simp⟩
  · have hloop : ∃ r t d m, writeLoop ip src n n 0 off s = .ok (r, t) ∧ Costs ip s t d m ∧
        d + m + missing s ip ≤ 28 := writeLoop_within hsb hfull hn (by omega) (by omega)
    obtain ⟨⟨tot, off'⟩, t, d, m, hrun, hcost, hle⟩ := hloop
    obtain ⟨new, hnew, hcard⟩ := hcost.card_le (IBLOCK (s.itable ip).inum s.sb)
    obtain ⟨data, bitmap, hc, -⟩ := hcost
    have hst := hc.stays.trans (stays_grow t ip off')
    have hlock' : ((t.grow ip off').itable ip).lock = some (t.grow ip off').pid := by
      rw [hst.lock, hst.pid, hlock]
    obtain ⟨u, hu⟩ : ∃ u, iupdate ip (t.grow ip off') = .ok u := ⟨_, iupdate_eq_ok.mpr ⟨hlock', rfl⟩⟩
    refine ⟨some tot, u, IBLOCK (s.itable ip).inum s.sb :: new, ?_, ?_, ?_⟩
    · rw [hrun]
      change (iupdate ip (t.grow ip off') >>= fun u => .ok (some tot, u)) = _
      rw [hu]
      rfl
    · have hinum : ((t.grow ip off').itable ip).inum = (s.itable ip).inum := by rw [hst.slot ip]
      have hlog : (t.grow ip off').logged = t.logged := by rw [FS.grow_eq]; rfl
      obtain ⟨-, rfl⟩ := iupdate_eq_ok.mp hu
      rw [hinum, hst.sb, hlog, hnew]
      rfl
    · rw [show MAXOPBLOCKS = 30 from rfl]
      omega

end Writei

/-- The small disk with the file of 14 blocks in a slot that is locked. -/
def lockedFS : FS :=
  longFS.setInode secondSlot { Inode.empty with
    toDinode := longRecord, dev := ROOTDEV, inum := 2, ref := 1, lock := some longFS.pid, valid := true }

theorem noHoles_lockedFS : NoHoles (lockedFS.itable ⟨1, by decide⟩).toDinode := by
  intro bn hbn
  have hlt : bn < 14 := by
    exact Nat.lt_of_mul_lt_mul_right hbn
  interval_cases bn <;> decide

theorem writei_fits_reservation_long :
    lockedFS.sb.size < 2 ^ 32 ∧ (lockedFS.itable ⟨1, by decide⟩).lock = some lockedFS.pid ∧
    NoHoles (lockedFS.itable ⟨1, by decide⟩).toDinode ∧
    ∃ r t new, writei ⟨1, by decide⟩ (fun _ => some 7) (14 * 1024 - 5) maxWrite lockedFS = .ok (r, t) ∧
      t.logged = new ++ lockedFS.logged ∧ new.toFinset.card ≤ MAXOPBLOCKS :=
  ⟨by decide, rfl, noHoles_lockedFS,
    writei_fits_reservation ⟨1, by decide⟩ _ _ (by decide) rfl noHoles_lockedFS le_rfl⟩

end RiscvOs.Sys.Reservation
