import RiscvOs.Mkfs.Laid

set_option autoImplicit false

/-!
# Appending to a file of the image

What `iappend` does, and when it succeeds: exactly if the file does not become longer than
`MAXFILE` blocks and the blocks it needs are there.

## Main results

* `Laid.mapBlock` — a block is found or handed out.
* `Laid.appendLoop` — the loop of `iappend`.
-/

namespace RiscvOs.Mkfs

open Function Fs

/-- The number of blocks of a file of `n` bytes. -/
def blocks (n : ℕ) : ℕ := (n + (BSIZE - 1)) / BSIZE

section Sectors

variable {sec : ℕ} {m : Image} {b : Block}

theorem sector_of_le (h : sec ≤ FSSIZE) : sector sec = sec := by
  have h1 : sec ≤ 2000 := h
  rw [sector, BSIZE, Nat.mod_eq_of_lt (by omega), Nat.mul_div_cancel _ (by decide)]

theorem rsect_of_lt (h : sec < FSSIZE) : rsect sec m = .ok (m.disk sec) := by
  rw [rsect, sector_of_le h.le, if_pos h]

theorem rsect_of_eq (h : sec = FSSIZE) : rsect sec m = .error .read := by
  rw [rsect, sector_of_le h.le, if_neg h.not_lt]

theorem wsect_of_lt (h : sec < FSSIZE) : wsect sec b m = m.put sec b := by
  rw [wsect, sector_of_le h.le]
  rfl

end Sectors

/-- What an append leaves alone: the counter of inodes, the blocks before the data area, and the
fields of the record that are not addresses. -/
structure Appended (m t : Image) (din din' : Dinode) : Prop where
  freeinode : t.freeinode = m.freeinode
  disk : ∀ b < nmeta, t.disk b = m.disk b
  record : din' = { din with addrs := din'.addrs }

theorem Appended.refl (m : Image) (din : Dinode) : Appended m m din din :=
  ⟨rfl, fun _ _ => rfl, rfl⟩

theorem Appended.trans {m t u : Image} {d d' d'' : Dinode} (h : Appended m t d d')
    (h' : Appended t u d' d'') : Appended m u d d'' := by
  refine ⟨h'.freeinode.trans h.freeinode, fun b hb => (h'.disk b hb).trans (h.disk b hb), ?_⟩
  rw [h'.record, h.record]

section MapBlock

variable {m : Image} {recs : ℕ → Dinode} {w : ℕ → ℕ} {c : ℕ → List UInt8} {i fbn : ℕ}

theorem Laid.mapBlock_old (h : Laid m recs w c) (hi : Live recs i) (hf : fbn < w i) :
    mapBlock fbn (recs i) m = .ok (blockNo m.disk (recs i) fbn, recs i, m) := by
  have h0 := (h.range hi hf).1
  rw [Mkfs.mapBlock, Mkfs.mapAddr, Mkfs.mapAddr]
  rw [blockNo] at h0 ⊢
  by_cases hd : fbn < NDIRECT
  · rw [if_pos hd] at h0 ⊢
    rw [if_pos hd, if_neg h0]
  · rw [if_neg hd] at h0 ⊢
    have ha : (recs i).addr NDIRECT ≠ 0 := fun ha => h0 (if_pos ha)
    rw [if_neg ha] at h0 ⊢
    have hlt := (h.indirect_lt hi ha).trans_le h.hi
    have hu : ByteBlock.u32 (m.disk ((recs i).addr NDIRECT)) (4 * (fbn - NDIRECT)) ≠ 0 := fun hu =>
      h0 (by rw [hu]; rfl)
    rw [if_neg hd, if_neg ha]
    dsimp only
    rw [rsect_of_lt hlt]
    dsimp only [bind, Except.bind]
    rw [if_neg hu]

theorem Laid.mapBlock_direct (h : Laid m recs w c) (hi : Live recs i) (hd : w i < NDIRECT) :
    mapBlock (w i) (recs i) m =
      .ok (m.freeblock, (recs i).setAddr (w i) m.freeblock, m.bump) := by
  have h32 : m.freeblock < 2 ^ 32 := h.hi.trans_lt (by decide)
  have h0 := ((h.file i hi).mapped (w i) (by rw [MAXFILE]; omega)).mpr le_rfl
  rw [blockNo, if_pos hd] at h0
  rw [Mkfs.mapBlock, Mkfs.mapAddr, if_pos hd, if_pos h0]
  dsimp only
  rw [Dinode.addr_setAddr _ (by omega) h32, if_pos rfl]

theorem Laid.mapBlock_indirect (h : Laid m recs w c) (hi : Live recs i) (hn : w i = NDIRECT)
    (hroom : m.freeblock < FSSIZE) :
    mapBlock (w i) (recs i) m = .ok (m.freeblock + 1, (recs i).setAddr NDIRECT m.freeblock,
      m.bump.bump.put m.freeblock
        (ByteBlock.setU32 (m.disk m.freeblock) 0 (UInt32.ofNat (m.freeblock + 1)))) := by
  have h32 : m.freeblock < 2 ^ 32 := hroom.trans (by decide)
  have ha : (recs i).addr NDIRECT = 0 := (h.file i hi).indirect.mpr hn.le
  have hu : ByteBlock.u32 (m.disk m.freeblock) 0 = 0 := by
    rw [h.fresh _ le_rfl]
    rfl
  have hlt : m.freeblock + 1 < 2 ^ 32 := Nat.lt_of_le_of_lt hroom (by decide)
  rw [hn, Mkfs.mapBlock, Mkfs.mapAddr, if_neg (lt_irrefl _), if_pos ha]
  dsimp only
  rw [Dinode.addr_setAddr _ (Nat.lt_succ_self _) h32, if_pos rfl, rsect_of_lt hroom]
  change (if ByteBlock.u32 (m.disk m.freeblock) 0 = 0 then _ else _) = _
  rw [if_pos hu, ByteBlock.u32_setU32 _ _ (by decide), wsect_of_lt hroom]
  change Except.ok ((UInt32.ofNat (m.freeblock + 1)).toNat, _) = _
  rw [UInt32.toNat_ofNat_of_lt' hlt]
  rfl

theorem Laid.mapBlock_entry (h : Laid m recs w c) (hi : Live recs i) (hn : NDIRECT < w i)
    (hM : w i < MAXFILE) :
    mapBlock (w i) (recs i) m = .ok (m.freeblock, recs i, m.bump.put ((recs i).addr NDIRECT)
        (ByteBlock.setU32 (m.disk ((recs i).addr NDIRECT)) (4 * (w i - NDIRECT))
          (UInt32.ofNat m.freeblock))) := by
  have h32 : m.freeblock < 2 ^ 32 := h.hi.trans_lt (by decide)
  have hf := h.file i hi
  have ha : (recs i).addr NDIRECT ≠ 0 := fun h0 => absurd (hf.indirect.mp h0) (by omega)
  have hlt := (h.indirect_lt hi ha).trans_le h.hi
  have hB : 4 * (w i - NDIRECT) + 4 ≤ BSIZE := by
    have h1 : MAXFILE = NDIRECT + 256 := rfl
    rw [BSIZE]
    omega
  have hu : ByteBlock.u32 (m.disk ((recs i).addr NDIRECT)) (4 * (w i - NDIRECT)) = 0 := by
    have h0 := (hf.mapped (w i) hM).mpr le_rfl
    rw [blockNo, if_neg (by omega), if_neg ha] at h0
    exact UInt32.toNat_inj.mp h0
  rw [Mkfs.mapBlock, Mkfs.mapAddr, Mkfs.mapAddr, if_neg (by omega), if_neg ha]
  dsimp only
  rw [rsect_of_lt hlt]
  dsimp only [bind, Except.bind]
  rw [if_pos hu, ByteBlock.u32_setU32 _ _ hB, wsect_of_lt hlt, UInt32.toNat_ofNat_of_lt' h32]

/-- **A block of the file is found or handed out**, if there is room. -/
theorem Laid.mapBlock (h : Laid m recs w c) (hi : Live recs i) (hf : fbn ≤ w i)
    (hM : fbn < MAXFILE)
    (hfit : m.freeblock + cost (max (w i) (fbn + 1)) ≤ FSSIZE + cost (w i)) :
    ∃ din t, Mkfs.mapBlock fbn (recs i) m = .ok (blockNo t.disk din fbn, din, t) ∧
      Laid t (update recs i din) (update w i (max (w i) (fbn + 1))) c ∧
      Appended m t (recs i) din := by
  rcases hf.lt_or_eq with hlt | rfl
  · refine ⟨_, _, h.mapBlock_old hi hlt, ?_, .refl m _⟩
    rw [Nat.max_eq_left hlt, update_eq_self, update_eq_self]
    exact h
  · rw [Nat.max_eq_right (Nat.le_succ _)] at hfit ⊢
    have h32 : m.freeblock < 2 ^ 32 := h.hi.trans_lt (by decide)
    rcases Nat.lt_trichotomy (w i) NDIRECT with hd | hn | hn
    · have hroom : m.freeblock < FSSIZE := by
        unfold cost at hfit
        split_ifs at hfit <;> omega
      refine ⟨_, _, ?_, h.setAddr hi hd hroom, rfl, fun _ _ => rfl, rfl⟩
      rw [h.mapBlock_direct hi hd, blockNo_setAddr hd h32, if_pos rfl]
    · have hroom : m.freeblock + 1 < FSSIZE := by
        unfold cost at hfit
        split_ifs at hfit <;> omega
      have hnew : ((recs i).setAddr NDIRECT m.freeblock).addr NDIRECT = m.freeblock := by
        rw [Dinode.addr_setAddr _ (Nat.lt_succ_self _) h32, if_pos rfl]
      have hfree : m.freeblock ≠ 0 := (Nat.lt_of_lt_of_le (by decide : 0 < nmeta) h.lo).ne'
      refine ⟨_, _, ?_, h.setIndirect hi hn hroom, rfl, fun b hb => ?_, rfl⟩
      · rw [h.mapBlock_indirect hi hn (by omega)]
        have hno := blockNo_setEntry (d := m.disk) (hnew.trans_ne hfree) hn.ge hM
          (UInt32.ofNat (m.freeblock + 1)) hM
        rw [hnew, if_pos rfl, toNat_ofNat_of_lt_FSSIZE hroom, hn, Nat.sub_self, Nat.mul_zero,
          ← hn] at hno
        rw [Image.put, hn] at *
        exact congrArg _ (Prod.ext hno.symm rfl)
      · exact Image.put_of_ne _ _ (hb.trans_le h.lo).ne
    · have hroom : m.freeblock < FSSIZE := by
        unfold cost at hfit
        split_ifs at hfit <;> omega
      have ha : (recs i).addr NDIRECT ≠ 0 := fun h0 =>
        absurd ((h.file i hi).indirect.mp h0) (by omega)
      have hset := h.setEntry hi hn hM hroom
      nth_rewrite 3 [← update_eq_self i recs] at hset
      refine ⟨_, _, ?_, hset, rfl, fun b hb => ?_, rfl⟩
      · rw [h.mapBlock_entry hi hn hM]
        have hno := blockNo_setEntry (d := m.disk) ha hn.le hM (UInt32.ofNat m.freeblock) hM
        rw [if_pos rfl, toNat_ofNat_of_lt_FSSIZE hroom] at hno
        exact congrArg _ (Prod.ext hno.symm rfl)
      · refine Image.put_of_ne _ _ (hb.trans_le ?_).ne
        rw [← holds_live m.disk hi] at ha ⊢
        exact (h.owns.range _ ha).1

/-- If there is no room, the block behind the image cannot be read. -/
theorem Laid.mapBlock_full (h : Laid m recs w c) (hi : Live recs i) (hf : fbn ≤ w i)
    (hM : fbn < MAXFILE)
    (hfull : FSSIZE + cost (w i) < m.freeblock + cost (max (w i) (fbn + 1))) :
    (do let r ← Mkfs.mapBlock fbn (recs i) m; rsect r.1 r.2.2) = .error .read := by
  have hhi := h.hi
  rcases hf.lt_or_eq with hlt | rfl
  · rw [Nat.max_eq_left hlt] at hfull
    omega
  · rw [Nat.max_eq_right (Nat.le_succ _)] at hfull
    rcases Nat.lt_trichotomy (w i) NDIRECT with hd | hn | hn
    · have heq : m.freeblock = FSSIZE := by
        unfold cost at hfull
        split_ifs at hfull <;> omega
      rw [h.mapBlock_direct hi hd]
      exact rsect_of_eq heq
    · by_cases hroom : m.freeblock < FSSIZE
      · have heq : m.freeblock + 1 = FSSIZE := by
          unfold cost at hfull
          split_ifs at hfull <;> omega
        rw [h.mapBlock_indirect hi hn hroom]
        exact rsect_of_eq heq
      · have h32 : m.freeblock < 2 ^ 32 := h.hi.trans_lt (by decide)
        have ha : (recs i).addr NDIRECT = 0 := (h.file i hi).indirect.mpr hn.le
        rw [hn, Mkfs.mapBlock, Mkfs.mapAddr, if_neg (lt_irrefl _), if_pos ha]
        dsimp only
        rw [Dinode.addr_setAddr _ (Nat.lt_succ_self _) h32, if_pos rfl,
          rsect_of_eq (le_antisymm hhi (not_lt.mp hroom))]
        rfl
    · have heq : m.freeblock = FSSIZE := by
        unfold cost at hfull
        split_ifs at hfull <;> omega
      rw [h.mapBlock_entry hi hn hM]
      exact rsect_of_eq heq

end MapBlock

/-! ## The loop -/

section Blocks

theorem blocks_mono {n k : ℕ} (h : n ≤ k) : blocks n ≤ blocks k := Nat.div_le_div_right (by omega)

theorem div_le_blocks (n : ℕ) : n / BSIZE ≤ blocks n :=
  Nat.div_le_div_right (Nat.le_add_right _ _)

theorem div_lt_blocks {k n : ℕ} (h : k < n) : k / BSIZE < blocks n := by
  rw [blocks, BSIZE]
  omega

variable {p : List UInt8} {off : ℕ}

theorem pieceLen_pos (off : ℕ) (h : p ≠ []) : 0 < pieceLen p off := by
  have := List.length_pos_iff.mpr h
  rw [pieceLen, BSIZE]
  omega

theorem pieceLen_le (p : List UInt8) (off : ℕ) : pieceLen p off ≤ p.length := Nat.min_le_left _ _

theorem pieceLen_le_block (p : List UInt8) (off : ℕ) : off % BSIZE + pieceLen p off ≤ BSIZE := by
  rw [pieceLen, BSIZE]
  omega

theorem blocks_add_pieceLen (h : p ≠ []) :
    blocks (off + pieceLen p off) = max (blocks off) (off / BSIZE + 1) := by
  have h1 := pieceLen_pos off h
  have h2 := pieceLen_le_block p off
  rw [BSIZE] at h2
  rw [blocks, blocks, BSIZE]
  omega

end Blocks

section Append

variable {m t : Image} {recs : ℕ → Dinode} {w : ℕ → ℕ} {c : ℕ → List UInt8} {i : ℕ}
  {p : List UInt8}

theorem Laid.freeblock_eq {recs' : ℕ → Dinode} {c' : ℕ → List UInt8} {v : ℕ}
    (h : Laid m recs w c) (hi : i < wide.ninodes) (h' : Laid t recs' (update w i v) c') :
    t.freeblock + cost (w i) = m.freeblock + cost v := by
  have h1 := h.count
  have h2 := h'.count
  have h3 := sum_cost_update hi w v
  omega

/-- **One round appends a piece**, if there is room for its block. -/
theorem Laid.round (h : Laid m recs w c) (hi : Live recs i) (hw : w i = blocks (c i).length)
    (hp : p ≠ []) (hM : (c i).length / BSIZE < MAXFILE)
    (hfit : m.freeblock + cost (blocks ((c i).length + pieceLen p (c i).length)) ≤
      FSSIZE + cost (w i)) :
    ∃ din t, appendRound p (c i).length (recs i) m = .ok (din, t) ∧
      Laid t (update recs i din)
        (update w i (blocks ((c i).length + pieceLen p (c i).length)))
        (update c i (c i ++ p.take (pieceLen p (c i).length))) ∧
      Appended m t (recs i) din := by
  have hle : (c i).length / BSIZE ≤ w i := hw ▸ div_le_blocks _
  rw [blocks_add_pieceLen hp, ← hw] at hfit ⊢
  obtain ⟨din, t, hmap, hlaid, happ⟩ := h.mapBlock hi hle hM hfit
  have hlive : Live (update recs i din) i := by
    refine ⟨hi.1, ?_⟩
    rw [update_self, happ.record]
    exact hi.2
  have hlt : (c i).length / BSIZE < update w i (max (w i) ((c i).length / BSIZE + 1)) i := by
    rw [update_self]
    omega
  obtain ⟨-, hlo, hfree⟩ := hlaid.range hlive hlt
  rw [update_self] at hlo hfree
  have hsize := hfree.trans_le hlaid.hi
  have hoff : (c i).length - (c i).length / BSIZE * BSIZE = (c i).length % BSIZE := by
    have := Nat.div_add_mod (c i).length BSIZE
    rw [Nat.mul_comm] at this
    omega
  refine ⟨din, t.put (blockNo t.disk din ((c i).length / BSIZE)) (ByteBlock.splice
    (t.disk (blockNo t.disk din ((c i).length / BSIZE))) ((c i).length % BSIZE)
    (pieceLen p (c i).length) fun j => p.getD j 0), ?_, ?_, ?_⟩
  · rw [appendRound, hmap]
    dsimp only [bind, Except.bind]
    rw [rsect_of_lt hsize]
    dsimp only
    rw [wsect_of_lt hsize, hoff]
  · have hst := hlaid.store hlive hlt (ByteBlock.splice
      (t.disk (blockNo t.disk din ((c i).length / BSIZE))) ((c i).length % BSIZE)
      (pieceLen p (c i).length) fun j => p.getD j 0)
      (l := c i ++ p.take (pieceLen p (c i).length)) fun k hk => ?_
    · rwa [update_self] at hst
    rw [update_self, update_self]
    have hblock := pieceLen_le_block p (c i).length
    have hpl := pieceLen_le p (c i).length
    rw [List.length_append, List.length_take, Nat.min_eq_left hpl] at hk
    by_cases hold : k < (c i).length
    · -- a byte that was there before
      have hb := (hlaid.file i hlive).bytes k hold
      rw [update_self, update_self] at hb
      refine ⟨hb.1, ?_⟩
      rw [List.getElem?_append_left hold, hb.2]
      split_ifs with hkb
      · rw [hkb, ByteBlock.get_splice_of_not_mem]
        left
        rw [BSIZE] at hkb ⊢
        omega
      · rfl
    · -- a byte of the piece
      have hkb : k / BSIZE = (c i).length / BSIZE := by
        rw [BSIZE] at hblock ⊢
        omega
      have hmod : k % BSIZE = (c i).length % BSIZE + (k - (c i).length) := by
        rw [BSIZE] at hblock hkb ⊢
        omega
      refine ⟨by omega, ?_⟩
      rw [if_pos hkb, List.getElem?_append_right (not_lt.mp hold), List.getElem?_take,
        if_pos (by omega), ByteBlock.get_splice_of_mem _ _ (Nat.mod_lt _ (by decide)) (by omega)
        (by omega), hmod, Nat.add_sub_cancel_left, List.getElem?_eq_getElem (by omega),
        List.getD_eq_getElem _ _ (by omega)]
  · refine happ.trans ⟨rfl, fun b hb => Image.put_of_ne _ _ (hb.trans_le hlo).ne, rfl⟩

theorem Laid.round_full (h : Laid m recs w c) (hi : Live recs i) (hw : w i = blocks (c i).length)
    (hp : p ≠ []) (hM : (c i).length / BSIZE < MAXFILE)
    (hfull : FSSIZE + cost (w i) <
      m.freeblock + cost (blocks ((c i).length + pieceLen p (c i).length))) :
    appendRound p (c i).length (recs i) m = .error .read := by
  have hle : (c i).length / BSIZE ≤ w i := hw ▸ div_le_blocks _
  rw [blocks_add_pieceLen hp, ← hw] at hfull
  have hr := h.mapBlock_full hi hle hM hfull
  rw [appendRound]
  cases hm : Mkfs.mapBlock ((c i).length / BSIZE) (recs i) m with
  | error e =>
    rw [hm] at hr
    cases hr
    rfl
  | ok r =>
    rw [hm] at hr
    dsimp only [bind, Except.bind] at hr ⊢
    rw [hr]

/-- There is room for `n` bytes in the file: it does not become too long, and the blocks are
there. -/
def Fits (m : Image) (w : ℕ → ℕ) (i n : ℕ) : Prop :=
  n ≤ MAXFILE * BSIZE ∧ m.freeblock + cost (blocks n) ≤ FSSIZE + cost (w i)

theorem Laid.fits_iff {recs' : ℕ → Dinode} {c' : ℕ → List UInt8} {v n : ℕ} (h : Laid m recs w c)
    (hi : i < wide.ninodes) (h' : Laid t recs' (update w i v) c') :
    Fits t (update w i v) i n ↔ Fits m w i n := by
  have := h.freeblock_eq hi h'
  unfold Fits
  rw [update_self]
  omega

theorem Laid.append_nil (h : Laid m recs w c) (hw : w i = blocks (c i).length) :
    Laid m (update recs i (recs i)) (update w i (blocks ((c i).length + 0))) (update c i (c i ++ [])) := by
  rw [Nat.add_zero, ← hw, List.append_nil, update_eq_self, update_eq_self, update_eq_self]
  exact h

/-- **The loop of `iappend`** appends all bytes if there is room. -/
theorem Laid.appendLoop {fuel : ℕ} (h : Laid m recs w c) (hi : Live recs i)
    (hw : w i = blocks (c i).length) (hfuel : p.length ≤ fuel)
    (hfit : Fits m w i ((c i).length + p.length)) :
    ∃ din t, Mkfs.appendLoop fuel p (c i).length (recs i) m =
        .ok ((c i).length + p.length, din, t) ∧
      Laid t (update recs i din) (update w i (blocks ((c i).length + p.length)))
        (update c i (c i ++ p)) ∧ Appended m t (recs i) din := by
  induction fuel generalizing p m recs w c with
  | zero =>
    obtain rfl : p = [] := List.eq_nil_of_length_eq_zero (by omega)
    exact ⟨recs i, m, rfl, h.append_nil hw, .refl m _⟩
  | succ fuel ih =>
    rw [Mkfs.appendLoop]
    by_cases hp : p = []
    · subst hp
      exact ⟨recs i, m, rfl, h.append_nil hw, .refl m _⟩
    · have hpos := pieceLen_pos (c i).length hp
      have hle := pieceLen_le p (c i).length
      have hM : (c i).length / BSIZE < MAXFILE := by
        have h1 := hfit.1
        rw [BSIZE] at h1 ⊢
        omega
      rw [if_neg hp, if_neg (not_le.mpr hM)]
      have hcost := cost_mono (blocks_mono
        (n := (c i).length + pieceLen p (c i).length) (k := (c i).length + p.length) (by omega))
      obtain ⟨din, t, hr, hlaid, happ⟩ := h.round hi hw hp hM (by have := hfit.2; omega)
      rw [hr]
      have hlive : Live (update recs i din) i := by
        refine ⟨hi.1, ?_⟩
        rw [update_self, happ.record]
        exact hi.2
      have hlen : (update c i (c i ++ p.take (pieceLen p (c i).length)) i).length =
          (c i).length + pieceLen p (c i).length := by
        rw [update_self, List.length_append, List.length_take, Nat.min_eq_left hle]
      have hrest : (p.drop (pieceLen p (c i).length)).length = p.length - pieceLen p (c i).length :=
        List.length_drop
      obtain ⟨din', t', hr', hlaid', happ'⟩ := ih (p := p.drop (pieceLen p (c i).length)) hlaid hlive
        (by rw [hlen, update_self]) (by omega) (by
          rw [h.fits_iff hi.1 hlaid, hlen, hrest]
          rwa [show (c i).length + pieceLen p (c i).length + (p.length - pieceLen p (c i).length) =
            (c i).length + p.length by omega])
      have htot : (c i).length + pieceLen p (c i).length + (p.length - pieceLen p (c i).length) =
          (c i).length + p.length := by omega
      rw [hlen, hrest, htot] at hr' hlaid'
      rw [update_self] at hr' happ'
      refine ⟨din', t', hr', ?_, happ.trans happ'⟩
      rw [update_idem, update_idem, update_idem, update_self,
        List.append_assoc, List.take_append_drop] at hlaid'
      exact hlaid'

/-- If the loop ends normally there was room. -/
theorem Laid.fits_of_appendLoop {fuel : ℕ} {r : ℕ × Dinode × Image} (h : Laid m recs w c)
    (hi : Live recs i) (hw : w i = blocks (c i).length) (hfuel : p.length ≤ fuel) (hp : p ≠ [])
    (hn : Mkfs.appendLoop fuel p (c i).length (recs i) m = .ok r) :
    Fits m w i ((c i).length + p.length) := by
  induction fuel generalizing p m recs w c with
  | zero => exact absurd (List.eq_nil_of_length_eq_zero (by omega)) hp
  | succ fuel ih =>
    rw [Mkfs.appendLoop, if_neg hp] at hn
    split_ifs at hn with hM
    rw [not_le] at hM
    have hpos := pieceLen_pos (c i).length hp
    have hle := pieceLen_le p (c i).length
    by_cases hfit : m.freeblock + cost (blocks ((c i).length + pieceLen p (c i).length)) ≤
        FSSIZE + cost (w i)
    · obtain ⟨din, t, hr, hlaid, happ⟩ := h.round hi hw hp hM hfit
      rw [hr] at hn
      dsimp only [bind, Except.bind] at hn
      have hlen : (update c i (c i ++ p.take (pieceLen p (c i).length)) i).length =
          (c i).length + pieceLen p (c i).length := by
        rw [update_self, List.length_append, List.length_take, Nat.min_eq_left hle]
      by_cases hrest : p.drop (pieceLen p (c i).length) = []
      · -- the round was the last one
        have hall : pieceLen p (c i).length = p.length := by
          have := List.drop_eq_nil_iff.mp hrest
          omega
        rw [hall] at hfit
        refine ⟨?_, hfit⟩
        have hblock := pieceLen_le_block p (c i).length
        rw [hall, BSIZE] at hblock
        rw [BSIZE] at hM ⊢
        omega
      · have hlive : Live (update recs i din) i := by
          refine ⟨hi.1, ?_⟩
          rw [update_self, happ.record]
          exact hi.2
        have hlen' : (p.drop (pieceLen p (c i).length)).length =
            p.length - pieceLen p (c i).length := List.length_drop
        have := ih (p := p.drop (pieceLen p (c i).length)) hlaid hlive
          (by rw [hlen, update_self]) (by omega) hrest
          (by rwa [hlen, update_self])
        rw [h.fits_iff hi.1 hlaid, hlen, hlen'] at this
        rwa [show (c i).length + pieceLen p (c i).length + (p.length - pieceLen p (c i).length) =
          (c i).length + p.length by omega] at this
    · rw [h.round_full hi hw hp hM (not_le.mp hfit)] at hn
      cases hn

end Append

end RiscvOs.Mkfs
