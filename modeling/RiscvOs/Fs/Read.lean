import RiscvOs.Fs.Ends

set_option autoImplicit false

/-!
# What `readi` does

A read changes nothing, unless it meets a block that is not mapped or goes behind the direct
blocks, both of which are recorded. Where all blocks are mapped it returns the bytes of the file.

## Main results

* `readi_reads` — a read in which nothing is recorded changes nothing, and a read of a
  file whose blocks are mapped records nothing.
* `readi_eq` — the result of a read of a file whose blocks are mapped.
-/

namespace RiscvOs.Fs

open Loop

/-- Every byte of the file lies in a direct block that is mapped. -/
structure Mapped (s : FS) (ip : Slot) : Prop where
  size_le : (s.itable ip).size.toNat ≤ NDIRECT * BSIZE
  addr_ne : ∀ k, k < (s.itable ip).size.toNat → (s.itable ip).addr (k / BSIZE) ≠ 0

/-- Between `s` and `t` something was read: only the history, allocated blocks and the addresses
of slots have changed, and nothing at all if no branch was recorded. -/
structure Peeks (s t : FS) : Prop where
  stays : Stays s t
  same : t.quirks = [] → t = s

theorem Peeks.refl (s : FS) : Peeks s s := ⟨.refl s, fun _ => rfl⟩

theorem Peeks.trans {s t u : FS} (h : Peeks s t) (h' : Peeks t u) : Peeks s u := by
  refine ⟨h.stays.trans h'.stays, fun hq => ?_⟩
  -- the second part has changed nothing, so the first one was regular, too
  have heq := h'.same hq
  rw [heq] at hq ⊢
  exact h.same hq

/-- The slot `ip` was read: nothing at all has changed if its blocks are mapped. -/
structure Reads (ip : Slot) (s t : FS) : Prop extends Peeks s t where
  mapped : Mapped s ip → t = s

theorem Reads.refl (ip : Slot) (s : FS) : Reads ip s s := ⟨.refl s, fun _ => rfl⟩

theorem Reads.trans {ip : Slot} {s t u : FS} (h : Reads ip s t) (h' : Reads ip t u) :
    Reads ip s u := by
  refine ⟨h.toPeeks.trans h'.toPeeks, fun hM => ?_⟩
  obtain rfl := h.mapped hM
  exact h'.mapped hM

section Clean

variable {ip : Slot} {dst : Dest} {n : ℕ} {s : FS}

theorem bmap_noteHole (ip : Slot) (bn : ℕ) (s : FS) :
    Safe Fatal (fun r => Peeks s r.2) (bmap ip bn (s.noteHole ip bn)) := by
  have hnote : Stays s (s.noteHole ip bn) := by
    rw [FS.noteHole]
    split_ifs
    · exact stays_of_eq rfl rfl rfl (List.suffix_cons _ _)
    · exact .refl s
  by_cases hbn : bn < NDIRECT
  · by_cases h0 : (s.itable ip).addr bn = 0
    · refine (fatal_of_freed (bmap_stays ip bn _)).mono fun r hr => ⟨hnote.trans hr.1, fun hq => ?_⟩
      rw [FS.noteHole, Nat.min_eq_left hbn.le, if_pos h0] at hr
      exact absurd hq (hr.1.ne_nil (List.cons_ne_nil _ _))
    · rw [FS.noteHole_of_ne hbn.le h0, bmap_direct ip hbn, mapAddr_of_ne h0]
      exact .refl s
  · refine (fatal_of_freed (bmap_stays ip bn _)).mono fun r hr => ⟨hnote.trans hr.1, fun hq => ?_⟩
    rcases hr.2 (not_lt.mp hbn) with hne | ⟨h0, hr⟩
    · exact absurd hq hne
    · -- there is no indirect block, which is recorded as a hole
      by_cases ha : (s.itable ip).addr NDIRECT = 0
      · rw [hr, (mapAddr_stays ip NDIRECT _).2, FS.noteHole, Nat.min_eq_right (not_lt.mp hbn), if_pos ha] at hq
        cases hq
      · have hsame : ((s.noteHole ip bn).itable ip).addr NDIRECT = (s.itable ip).addr NDIRECT := by
          rw [FS.noteHole]
          split_ifs <;> rfl
        rw [hr, mapAddr_of_ne (hsame ▸ ha), hsame] at h0
        exact absurd h0 ha

theorem readLoop_peeks (fuel tot off : ℕ) (out : List UInt8) (s : FS) :
    Safe Fatal (fun r => Peeks s r.2) (readLoop ip dst n fuel tot off out s) := by
  induction fuel generalizing tot off out s with
  | zero => exact .refl s
  | succ fuel ih =>
    rw [readLoop]
    split_ifs
    · refine Safe.bind (bmap_noteHole ip (off / BSIZE) s) fun r hr => ?_
      dsimp only
      split_ifs
      · exact hr
      · exact (ih _ _ _ r.2).mono fun r' hr' => hr.trans hr'
      · exact hr
    · exact .refl s

/-- **A read in which nothing is recorded changes nothing.** -/
theorem readi_peeks (off : ℕ) (s : FS) :
    Safe Fatal (fun r => Peeks s r.2) (readi ip dst off n s) := by
  rw [readi]
  split_ifs
  · exact .refl s
  · exact readLoop_peeks _ _ _ _ s
  · exact readLoop_peeks _ _ _ _ s

theorem readLoop_same {fuel tot off : ℕ} {out : List UInt8} {r : Option ℕ × List UInt8} {t : FS}
    (hM : Mapped s ip) (hle : off + (n - tot) ≤ (s.itable ip).size.toNat)
    (hn : readLoop ip dst n fuel tot off out s = .ok (r, t)) : t = s := by
  induction fuel generalizing tot off out with
  | zero =>
    cases hn
    rfl
  | succ fuel ih =>
    rw [readLoop] at hn
    split_ifs at hn with htot
    · have hlt : off < (s.itable ip).size.toNat := by omega
      have hbn : off / BSIZE < NDIRECT :=
        (Nat.div_lt_iff_lt_mul (by decide)).mpr (hlt.trans_le hM.size_le)
      have ha := hM.addr_ne off hlt
      rw [FS.noteHole_of_ne hbn.le ha, bmap_direct ip hbn, mapAddr_of_ne ha] at hn
      have hchunk := chunk_le tot off n
      dsimp only [bind, Except.bind] at hn
      rw [if_neg ha] at hn
      split_ifs at hn
      · exact ih (by omega) hn
      · cases hn
        rfl
    · cases hn
      rfl

/-- **A read of a file whose blocks are mapped changes nothing.** -/
theorem readi_reads (off : ℕ) (s : FS) :
    Safe Fatal (fun r => Reads ip s r.2) (readi ip dst off n s) := by
  refine ((readi_peeks off s).and_of_ok fun r hr => ?_).mono fun r hr => ⟨hr.1, hr.2⟩
  intro hM
  rw [readi] at hr
  split_ifs at hr
  · cases hr
    rfl
  all_goals
    refine readLoop_same hM ?_ hr
    omega

end Clean

/-! ## The number of bytes -/

theorem readLoop_length {ip : Slot} {dst : Dest} {n fuel tot off : ℕ} {r : Option ℕ} {out bytes : List UInt8}
    {s t : FS} (hout : out.length = tot) (htot : tot ≤ n)
    (h : readLoop ip dst n fuel tot off out s = .ok ((r, bytes), t)) :
    bytes.length ≤ n ∧ ∀ k, r = some k → bytes.length = k := by
  have hstop : out.length ≤ n ∧ ∀ k, some tot = some k → out.length = k :=
    ⟨hout.trans_le htot, fun k hk => hout.trans (Option.some.inj hk)⟩
  induction fuel generalizing tot off out s with
  | zero =>
    cases h
    exact hstop
  | succ fuel ih =>
    rw [readLoop] at h
    split_ifs at h with hlt
    · obtain ⟨⟨addr, u⟩, -, h⟩ := bind_eq_ok.mp h
      have hchunk := chunk_le tot off n
      have hcopy := copyLen_le dst tot (chunk tot off n)
      have hlen : (out ++ (eitherCopyout dst tot (chunk tot off n) (off % BSIZE) (u.buf addr)).1).length =
          tot + copyLen dst tot (chunk tot off n) := by
        rw [List.length_append, eitherCopyout_length, hout]
      dsimp only at h
      split_ifs at h with haddr hok
      · cases h
        exact hstop
      · have hall : copyLen dst tot (chunk tot off n) = chunk tot off n := beq_iff_eq.mp hok
        rw [hall] at hlen
        exact ih hlen (by omega) h ⟨by omega, fun k hk => hlen.trans (Option.some.inj hk)⟩
      · cases h
        exact ⟨by omega, nofun⟩
    · cases h
      exact hstop

theorem readi_length {ip : Slot} {dst : Dest} {off n : ℕ} {r : Option ℕ} {bytes : List UInt8} {s t : FS}
    (h : readi ip dst off n s = .ok ((r, bytes), t)) :
    bytes.length ≤ n ∧ ∀ k, r = some k → bytes.length = k ∧ (0 < k → off + k ≤ (s.itable ip).size.toNat) := by
  rw [readi] at h
  split_ifs at h
  · cases h
    refine ⟨Nat.zero_le _, ?_⟩
    rintro k ⟨rfl⟩
    exact ⟨rfl, fun hk => absurd hk (lt_irrefl 0)⟩
  all_goals
    obtain ⟨hle, hlen⟩ := readLoop_length List.length_nil (Nat.zero_le _) h
    exact ⟨by omega, fun k hk => ⟨hlen k hk, fun _ => by have := hlen k hk; omega⟩⟩

section Mapped

variable {ip : Slot} {n fuel tot off : ℕ} {s : FS}

theorem readLoop_mapped {out : List UInt8} (h : tot < n) (hbn : off / BSIZE < NDIRECT)
    (ha : (s.itable ip).addr (off / BSIZE) ≠ 0) :
    readLoop ip kernelDst n (fuel + 1) tot off out s =
      readLoop ip kernelDst n fuel (tot + chunk tot off n) (off + chunk tot off n)
        (out ++ (List.range (chunk tot off n)).map fun i =>
          ByteBlock.get (s.buf ((s.itable ip).addr (off / BSIZE))) (off % BSIZE + i)) s := by
  rw [readLoop, if_pos h, FS.noteHole_of_ne hbn.le ha, bmap_direct ip hbn, mapAddr_of_ne ha]
  refine (if_neg ha).trans ?_
  have hk : copyLen kernelDst tot (chunk tot off n) = chunk tot off n := copyLen_eq fun _ _ => rfl
  simp only [hk, beq_self_eq_true, if_true]

theorem chunk_div {i : ℕ} (hi : i < chunk tot off n) : (off + i) / BSIZE = off / BSIZE := by
  have hblock := chunk_le_block tot off n
  have hdm := Nat.div_add_mod off BSIZE
  rw [Nat.div_eq_iff (by decide), Nat.mul_comm]
  omega

theorem fileByte_chunk {i : ℕ} (hi : i < chunk tot off n) :
    fileByte s ip (off + i) =
      ByteBlock.get (s.buf ((s.itable ip).addr (off / BSIZE))) (off % BSIZE + i) := by
  have hdm := Nat.div_add_mod off BSIZE
  have hdiv : (off + i) / BSIZE = off / BSIZE := chunk_div hi
  have hmod : (off + i) % BSIZE = off % BSIZE + i := by
    have := Nat.div_add_mod (off + i) BSIZE
    rw [hdiv] at this
    omega
  rw [fileByte, hdiv, hmod]

theorem readLoop_eq (tot : ℕ) (htot : tot ≤ n) (hfuel : n ≤ tot + fuel)
    (hdir : off + n ≤ NDIRECT * BSIZE)
    (hmap : ∀ k, off ≤ k → k < off + n → (s.itable ip).addr (k / BSIZE) ≠ 0) :
    readLoop ip kernelDst n fuel tot (off + tot)
        ((List.range tot).map fun i => fileByte s ip (off + i)) s =
      .ok ((some n, (List.range n).map fun i => fileByte s ip (off + i)), s) := by
  induction fuel generalizing tot with
  | zero =>
    obtain rfl : tot = n := by omega
    rfl
  | succ fuel ih =>
    by_cases htn : tot < n
    · have hbn : (off + tot) / BSIZE < NDIRECT :=
        (Nat.div_lt_iff_lt_mul (by decide)).mpr (by omega)
      rw [readLoop_mapped htn hbn (hmap _ (by omega) (by omega))]
      have hpos := chunk_pos (off + tot) htn
      have hle := chunk_le tot (off + tot) n
      have hbytes : ((List.range tot).map fun i => fileByte s ip (off + i)) ++
          (List.range (chunk tot (off + tot) n)).map (fun i =>
            ByteBlock.get (s.buf ((s.itable ip).addr ((off + tot) / BSIZE)))
              ((off + tot) % BSIZE + i)) =
          (List.range (tot + chunk tot (off + tot) n)).map fun i => fileByte s ip (off + i) := by
        rw [List.range_add, List.map_append, List.map_map]
        congr 1
        refine List.map_congr_left fun i hi => ?_
        rw [Function.comp_apply, ← Nat.add_assoc]
        exact (fileByte_chunk (List.mem_range.mp hi)).symm
      rw [hbytes, Nat.add_assoc]
      exact ih _ (by omega) (by omega)
    · obtain rfl : tot = n := by omega
      rw [readLoop, if_neg htn]

theorem readi_inside (hsize : off + n ≤ (s.itable ip).size.toNat) (hdir : off + n ≤ NDIRECT * BSIZE)
    (hmap : ∀ k, off ≤ k → k < off + n → (s.itable ip).addr (k / BSIZE) ≠ 0) :
    readi ip kernelDst off n s =
      .ok ((some n, (List.range n).map fun i => fileByte s ip (off + i)), s) := by
  have hmax : NDIRECT * BSIZE = 12288 := rfl
  rw [readi, Nat.mod_eq_of_lt (by omega), if_neg (by omega)]
  rw [if_neg (by omega)]
  exact readLoop_eq 0 (Nat.zero_le _) (by omega) hdir hmap

/-- **`readi` returns the bytes of the file**, as many as there are, for every offset and length
whose sum is below `2 ^ 32`. -/
theorem readi_eq (hM : Mapped s ip) (hsum : off + n < 2 ^ 32) :
    readi ip kernelDst off n s =
      .ok ((some (min n ((s.itable ip).size.toNat - off)),
        (List.range (min n ((s.itable ip).size.toNat - off))).map fun i =>
          fileByte s ip (off + i)), s) := by
  rw [readi, Nat.mod_eq_of_lt hsum]
  by_cases hoff : (s.itable ip).size.toNat < off
  · rw [if_pos (Or.inl hoff), Nat.sub_eq_zero_of_le hoff.le, Nat.min_zero]
    rfl
  · rw [if_neg (by omega)]
    have hmin : (if (s.itable ip).size.toNat < off + n then (s.itable ip).size.toNat - off else n) =
        min n ((s.itable ip).size.toNat - off) := by
      split_ifs <;> omega
    rw [hmin]
    have hsize := hM.size_le
    exact readLoop_eq 0 (Nat.zero_le _) (by omega) (by omega)
      fun k _ hk => hM.addr_ne k (by omega)

theorem WriteDone.mapped {src : Source} {e : ℕ} {u : FS} (hd : WriteDone ip src off n s tot e u)
    (hM : Mapped s ip) : Mapped u ip := by
  have hsize := hd.size
  have hoff := hd.off_le
  have hle := hd.le
  have hdir := hd.direct
  have hsz := hM.size_le
  refine ⟨by omega, fun k hk => ?_⟩
  by_cases hlt : k < (s.itable ip).size.toNat
  · rw [hd.addr _ (hM.addr_ne k hlt)]
    exact hM.addr_ne k hlt
  · exact (hd.inside k (by omega) (by omega)).1

end Mapped

/-! ## Behind the direct blocks -/

section Behind

variable {ip : Slot} {dst : Dest} {n fuel tot off : ℕ} {out bytes : List UInt8} {r : Option ℕ}
  {s t : FS}

theorem readLoop_append (hn : readLoop ip dst n fuel tot off out s = .ok ((r, bytes), t)) :
    out <+: bytes := by
  induction fuel generalizing tot off out s with
  | zero =>
    cases hn
    exact List.prefix_rfl
  | succ fuel ih =>
    rw [readLoop] at hn
    split_ifs at hn
    · obtain ⟨⟨addr, u⟩, -, hn⟩ := bind_eq_ok.mp hn
      dsimp only at hn
      split_ifs at hn
      · cases hn
        exact List.prefix_rfl
      · exact (List.prefix_append _ _).trans (ih hn)
      · cases hn
        exact List.prefix_append _ _
    · cases hn
      exact List.prefix_rfl

theorem readLoop_direct (hn : NDIRECT * BSIZE < n) (hfuel : n ≤ tot + fuel)
    (htot : tot ≤ NDIRECT * BSIZE)
    (hmap : ∀ k < NDIRECT, (s.itable ip).addr k ≠ 0) (hout : out.length = tot) :
    ∃ fuel' out', out'.length = NDIRECT * BSIZE ∧
      readLoop ip kernelDst n fuel tot tot out s =
        readLoop ip kernelDst n (fuel' + 1) (NDIRECT * BSIZE) (NDIRECT * BSIZE) out' s := by
  induction fuel generalizing tot out with
  | zero => omega
  | succ fuel ih =>
    rcases Nat.eq_or_lt_of_le htot with rfl | hlt
    · exact ⟨fuel, out, hout, rfl⟩
    · have hbn : tot / BSIZE < NDIRECT := (Nat.div_lt_iff_lt_mul (by decide)).mpr hlt
      rw [readLoop_mapped (by omega) hbn (hmap _ hbn)]
      have hpos := chunk_pos tot (hlt.trans hn)
      have hle : tot + chunk tot tot n ≤ NDIRECT * BSIZE := by
        rw [chunk, show NDIRECT * BSIZE = 12288 from rfl, show BSIZE = 1024 from rfl]
        rw [show NDIRECT * BSIZE = 12288 from rfl] at hlt
        omega
      exact ih (by omega) hle (by simp [hout])

theorem bmap_behind (hind : (s.itable ip).addr NDIRECT ≠ 0) :
    bmap ip NDIRECT s = .ok (1, s.note .indirect) := by
  have hmap : mapAddr ip NDIRECT s = ((s.itable ip).addr NDIRECT, s) := mapAddr_of_ne hind
  rw [bmap, if_neg (lt_irrefl _), if_pos (by decide), hmap]
  cases hb : (s.itable ip).addr NDIRECT with
  | zero => exact absurd hb hind
  | succ b => rfl

theorem readLoop_behind (h : off = NDIRECT * BSIZE) (htot : tot < n)
    (hind : (s.itable ip).addr NDIRECT ≠ 0) (hout : out.length = tot)
    (hn : readLoop ip kernelDst n (fuel + 1) tot off out s = .ok ((r, bytes), t)) :
    bytes[tot]? = some (ByteBlock.get (s.buf 1) 0) := by
  have hdiv : off / BSIZE = NDIRECT := by rw [h, Nat.mul_div_cancel _ (by decide)]
  have hmod : off % BSIZE = 0 := by rw [h, Nat.mul_mod_left]
  have hk : copyLen kernelDst tot (chunk tot off n) = chunk tot off n := copyLen_eq fun _ _ => rfl
  have hpos := chunk_pos off htot
  rw [readLoop, if_pos htot, hdiv, FS.noteHole_of_ne le_rfl hind,
    bmap_behind hind] at hn
  dsimp only [bind, Except.bind] at hn
  rw [if_neg one_ne_zero, eitherCopyout, hk, hmod] at hn
  rw [if_pos (by simp)] at hn
  obtain ⟨l, rfl⟩ := readLoop_append hn
  rw [List.append_assoc, List.getElem?_append_right hout.le, hout, Nat.sub_self,
    List.getElem?_append_left (by simpa using hpos), List.getElem?_map,
    List.getElem?_range hpos]
  rfl

/-- **The byte behind the direct blocks is read from block `1`**, which is the superblock. -/
theorem readi_behind (hsize : NDIRECT * BSIZE < (s.itable ip).size.toNat)
    (hmap : ∀ k < NDIRECT, (s.itable ip).addr k ≠ 0) (hind : (s.itable ip).addr NDIRECT ≠ 0)
    (hn : readi ip kernelDst 0 (s.itable ip).size.toNat s = .ok ((r, bytes), t)) :
    bytes[NDIRECT * BSIZE]? = some (ByteBlock.get (s.buf 1) 0) := by
  rw [readi, if_neg (by simp)] at hn
  rw [Nat.zero_add, if_neg (lt_irrefl _)] at hn
  obtain ⟨fuel, out, hout, heq⟩ : ∃ fuel' out', _ ∧
      readLoop ip kernelDst _ (s.itable ip).size.toNat 0 0 [] s = _ :=
    readLoop_direct hsize (by omega) (Nat.zero_le _) hmap rfl
  rw [heq] at hn
  exact readLoop_behind rfl hsize hind hout hn

end Behind

end RiscvOs.Fs
