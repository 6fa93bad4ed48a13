import RiscvOs.Fs.File
import RiscvOs.Fs.Calls

set_option autoImplicit false

/-!
# What `writei` does

`writei` copies a prefix of its source to the file, block by block, and changes no byte of any
file besides. Blocks that are missing are allocated on the way. A copy that fails in the middle
of a block leaves bytes behind that `writei` does not report.

## Main results

* `Written.map`, `Written.store` — one round: the block is mapped, the
  bytes are stored.
* `LoopDone.finish` — from the end of the loop to the end of the function.
-/

namespace RiscvOs.Fs

open Function Loop

open Reclaim (inumOf)

theorem mapAddr_cases (ip : Slot) (k : ℕ) (s : FS) :
    ((s.itable ip).addr k ≠ 0 ∧ mapAddr ip k s = ((s.itable ip).addr k, s)) ∨
      ((s.itable ip).addr k = 0 ∧ ∃ b, b < s.sb.size ∧ s.used b = false ∧
        ((b ≠ 0 ∧ mapAddr ip k s = (b, (s.take b).setAddr ip k b)) ∨
          (b = 0 ∧ mapAddr ip k s = (0, s.take 0)))) ∨
      ((s.itable ip).addr k = 0 ∧ mapAddr ip k s = (0, s)) := by
  by_cases h0 : (s.itable ip).addr k = 0
  · refine Or.inr ?_
    rw [mapAddr, if_pos h0]
    rcases balloc_cases s with ⟨b, hb, hfree, -, heq⟩ | ⟨-, heq⟩
    · refine Or.inl ⟨h0, b, hb, hfree, ?_⟩
      rw [heq]
      cases b with
      | zero => exact Or.inr ⟨rfl, rfl⟩
      | succ b => exact Or.inl ⟨Nat.succ_ne_zero b, rfl⟩
    · rw [heq]
      exact Or.inr ⟨h0, rfl⟩
  · exact Or.inl ⟨h0, mapAddr_of_ne h0⟩

theorem mapAddr_eq_zero {ip : Slot} {k : ℕ} {s : FS} (hfree : ∀ b < s.sb.size, s.used b = false → b ≠ 0)
    (h0 : (mapAddr ip k s).1 = 0) : mapAddr ip k s = (0, s) := by
  rcases mapAddr_cases ip k s with ⟨hne, heq⟩ | ⟨-, b, hb, hnot, ⟨hb0, heq⟩ | ⟨rfl, -⟩⟩ | ⟨-, heq⟩
  · rw [heq] at h0
    exact absurd h0 hne
  · rw [heq] at h0
    exact absurd h0 hb0
  · exact absurd rfl (hfree 0 hb hnot)
  · exact heq

/-- Between `s` and `t` the bytes of the file from `off` up to `e` were written, and nothing
else that any file contains. -/
structure Written (ip : Slot) (src : Source) (off : ℕ) (s t : FS) (e : ℕ) : Prop where
  frame : Frame ip s t
  quirks : t.quirks = s.quirks
  owned : Owned t.sb.wide t.buf (t.recs ip)
  addr : ∀ k, (s.itable ip).addr k ≠ 0 → (t.itable ip).addr k = (s.itable ip).addr k
  other : ∀ x, inumOf x ≠ (s.itable ip).inum → holds s.sb.wide s.buf (s.recs ip) x ≠ 0 →
    t.buf (holds s.sb.wide s.buf (s.recs ip) x) = s.buf (holds s.sb.wide s.buf (s.recs ip) x)
  low : ∀ b, b < s.sb.bmapstart → t.buf b = s.buf b
  inside : ∀ k, off ≤ k → k < e →
    (t.itable ip).addr (k / BSIZE) ≠ 0 ∧ fileByte t ip k = (src (k - off)).getD 0
  outside : ∀ k, k < off ∨ e ≤ k → (s.itable ip).addr (k / BSIZE) ≠ 0 →
    fileByte t ip k = fileByte s ip k
  fresh : ∀ k, k < off ∨ e ≤ k → (s.itable ip).addr (k / BSIZE) = 0 → (t.itable ip).addr (k / BSIZE) ≠ 0 →
    fileByte t ip k = 0
  used : ∀ b < s.sb.size, s.used b = true → t.used b = true
  taken : ∀ k, (s.itable ip).addr k = 0 → (t.itable ip).addr k ≠ 0 → s.used ((t.itable ip).addr k) = false

section Written

variable {ip : Slot} {src : Source} {off e : ℕ} {s t : FS}

theorem Written.refl (ho : Owned s.sb.wide s.buf (s.recs ip)) : Written ip src off s s off where
  frame := .refl ip s
  quirks := rfl
  owned := ho
  addr := fun _ _ => rfl
  other := fun _ _ _ => rfl
  low := fun _ _ => rfl
  inside := fun k h1 h2 => absurd h2 (by omega)
  outside := fun _ _ _ => rfl
  fresh := fun _ _ h0 h1 => absurd h0 h1
  used := fun _ _ hb => hb
  taken := fun _ h0 h1 => absurd h0 h1

theorem Written.holds_eq (h : Written ip src off s t e) {x : Place} (hx : inumOf x ≠ (s.itable ip).inum) :
    holds t.sb.wide t.buf (t.recs ip) x = holds s.sb.wide s.buf (s.recs ip) x := by
  rw [h.frame.sb]
  refine Fs.holds_eq rfl (fun hi => ?_) (h.other (.addr (inumOf x) NDIRECT) hx)
  have hx' : inumOf x ≠ (t.itable ip).inum := by
    rw [h.frame.inum]
    exact hx
  rw [FS.recs, FS.recs, update_of_ne hx', update_of_ne hx, h.frame.dinode _ hi]
  exact ⟨rfl, rfl⟩

/-- What the owner of the slot may rely on during a change. -/
structure Editable (ip : Slot) (s : FS) : Prop where
  layout : Layout s.sb
  inum_lt : (s.itable ip).inum < s.sb.records
  type_ne : (s.itable ip).type ≠ 0

theorem Editable.frame (h : Editable ip s) (hf : Frame ip s t) : Editable ip t := by
  refine ⟨hf.sb ▸ h.layout, ?_, ?_⟩
  · rw [hf.inum, hf.sb]
    exact h.inum_lt
  · rw [hf.self]
    exact h.type_ne

theorem Editable.holds_addr (h : Editable ip s) (k : ℕ) :
    holds s.sb.wide s.buf (s.recs ip) (.addr (s.itable ip).inum k) = (s.itable ip).addr k := by
  rw [Fs.holds_addr h.inum_lt (by rw [FS.recs_self]; exact h.type_ne), FS.recs_self]

theorem Editable.free_ne_zero {recs : ℕ → Dinode} (hE : Editable ip t) (ho : Owned t.sb.wide t.buf recs) {b : ℕ}
    (hb : b < t.sb.size) (hfree : t.used b = false) : b ≠ 0 := by
  have h1 : t.sb.dataStart ≤ b := ho.dataStart_le hfree
  have h2 := hE.layout.bitmap b hb
  omega

theorem take_buf (hE : Editable ip t) (ho : Owned t.sb.wide t.buf (t.recs ip)) {b : ℕ}
    (hb : b < t.sb.size) (hfree : t.used b = false) {x : Place}
    (hx : holds t.sb.wide t.buf (t.recs ip) x ≠ 0) :
    (t.take b).buf (holds t.sb.wide t.buf (t.recs ip) x) =
      t.buf (holds t.sb.wide t.buf (t.recs ip) x) := by
  have h1 : holds t.sb.wide t.buf (t.recs ip) x ≠ b := by
    intro he
    have := ho.used hx
    rw [he] at this
    exact Bool.false_ne_true (hfree.symm.trans this)
  have h2 : holds t.sb.wide t.buf (t.recs ip) x ≠ BBLOCK b t.sb :=
    (hE.layout.bitmap_lt hb (ho.range hx).1).ne'
  exact (update_of_ne h1 _ _).trans (update_of_ne h2 _ _)

theorem frame_take (ip : Slot) {b : ℕ} (hL : Layout t.sb) (hb : b < t.sb.size)
    (hd : t.sb.dataStart ≤ b) : Frame ip t (t.take b) := by
  refine ⟨rfl, rfl, fun _ _ => rfl, rfl, fun i hi => ?_⟩
  have h1 : IBLOCK i t.sb ≠ b := (hL.inode_lt (record_lt hi) hd hb).ne
  have h2 : IBLOCK i t.sb ≠ BBLOCK b t.sb :=
    ((record_lt hi).trans_le (bmapstart_le b t.sb)).ne
  exact (dinodeAt_update_of_ne t.sb _ _ h1).trans (dinodeAt_update_of_ne t.sb _ _ h2)

theorem addr_setAddr_itable (u : FS) (ip : Slot) {k a : ℕ} (hk : k < NDIRECT) (ha : a < 2 ^ 32) (j : ℕ) :
    ((u.setAddr ip k a).itable ip).addr j = if j = k then a else (u.itable ip).addr j := by
  rw [FS.setAddr, FS.setInode_same]
  exact Dinode.addr_setAddr _ (by omega) ha j

/-- **Mapping a block**: a free block is taken for an address that is not set. -/
theorem Written.map (h : Written ip src off s t e) (hE : Editable ip s) {bn b : ℕ}
    (hbn : bn < NDIRECT) (h0 : (t.itable ip).addr bn = 0) (hb : b < t.sb.size)
    (hfree : t.used b = false) :
    Written ip src off s ((t.take b).setAddr ip bn b) e ∧ b ≠ 0 ∧
      (((t.take b).setAddr ip bn b).itable ip).addr bn = b := by
  have hEt := hE.frame h.frame
  have hd : t.sb.dataStart ≤ b := h.owned.dataStart_le hfree
  have hpos : 0 < t.sb.dataStart := (Nat.zero_le _).trans_lt (hEt.layout.bitmap b hb)
  have hb32 : b < 2 ^ 32 := by
    have := hEt.layout.size_lt
    omega
  have hft := frame_take ip hEt.layout hb hd
  have haddr := addr_setAddr_itable (t.take b) ip hbn hb32
  -- an address that was set is not the new one
  have hset : ∀ k, (t.itable ip).addr k ≠ 0 →
      (((t.take b).setAddr ip bn b).itable ip).addr k = (t.itable ip).addr k ∧
        (t.take b).buf ((t.itable ip).addr k) = t.buf ((t.itable ip).addr k) := by
    intro k hk
    have hkbn : k ≠ bn := by
      rintro rfl
      exact hk h0
    have hx := hEt.holds_addr k
    refine ⟨(haddr k).trans (if_neg hkbn), ?_⟩
    have := take_buf hEt h.owned hb hfree (x := .addr (t.itable ip).inum k) (by rw [hx]; exact hk)
    rwa [hx] at this
  have hbyte : ∀ k, (t.itable ip).addr (k / BSIZE) ≠ 0 →
      fileByte ((t.take b).setAddr ip bn b) ip k = fileByte t ip k := by
    intro k hk
    obtain ⟨h1, h2⟩ := hset _ hk
    rw [fileByte, fileByte, h1]
    exact congrArg (ByteBlock.get · (k % BSIZE)) h2
  refine ⟨⟨h.frame.trans (hft.trans (frame_setAddr ip bn b _)), h.quirks, ?_, fun k hk => ?_,
    fun x hx hx0 => ?_, fun c hc => ?_, fun k hk1 hk2 => ?_, fun k hk hk0 => ?_, fun k hk hk0 hk' => ?_,
    fun c hc hu => ?_, fun k hk0 hk' => ?_⟩, by omega, (haddr bn).trans (if_pos rfl)⟩
  · refine h.owned.alloc hEt.layout.wide hb hfree hEt.inum_lt ?_ hbn ?_ (fun _ => 0) fun j hj =>
      FS.recs_setAddr (s := t) (t := t.take b) rfl hft.dinode bn b hj
    · rw [FS.recs_self]
      exact hEt.type_ne
    · rw [FS.recs_self]
      exact h0
  · rw [(hset k (by rw [h.addr k hk]; exact hk)).1, h.addr k hk]
  · have heq := h.holds_eq hx
    have := take_buf hEt h.owned hb hfree (x := x) (by rw [heq]; exact hx0)
    rw [heq] at this
    exact this.trans (h.other x hx hx0)
  · rw [← h.frame.sb] at hc
    have hBB : c < BBLOCK b t.sb := hc.trans_le (bmapstart_le b t.sb)
    have h1 : c ≠ b := (hBB.trans (hEt.layout.bitmap_lt hb hd)).ne
    refine Eq.trans ?_ (h.low c (h.frame.sb ▸ hc))
    exact (update_of_ne h1 _ _).trans (update_of_ne hBB.ne _ _)
  · obtain ⟨h1, h2⟩ := h.inside k hk1 hk2
    rw [(hset _ h1).1, hbyte k h1]
    exact ⟨h1, h2⟩
  · rw [hbyte k (by rw [h.addr _ hk0]; exact hk0)]
    exact h.outside k hk hk0
  · by_cases hkbn : k / BSIZE = bn
    · -- `balloc` has cleared the new block
      have hzero : ((t.take b).setAddr ip bn b).buf b = fun _ => 0 := update_self ..
      rw [fileByte, haddr, if_pos hkbn, hzero]
      exact dif_pos (Nat.mod_lt k (by decide))
    · rw [haddr, if_neg hkbn] at hk'
      rw [hbyte k hk']
      exact h.fresh k hk hk0 hk'
  · rw [← h.frame.sb] at hc
    exact (blockUsed_alloc hEt.layout hd (fun _ => 0) hc).mpr (Or.inr (h.used c (h.frame.sb ▸ hc) hu))
  · rw [haddr] at hk' ⊢
    split_ifs at hk' ⊢
    · by_contra hu
      rw [Bool.not_eq_false] at hu
      exact Bool.false_ne_true (hfree.symm.trans (h.used b (h.frame.sb ▸ hb) hu))
    · exact h.taken k hk0 hk'

theorem fileByte_setBuf (hE : Editable ip t) (ho : Owned t.sb.wide t.buf (t.recs ip)) (bn : ℕ)
    (c : Block) {k : ℕ} (hk : (t.itable ip).addr (k / BSIZE) ≠ 0) :
    fileByte (t.setBuf ((t.itable ip).addr bn) c) ip k =
      if k / BSIZE = bn then ByteBlock.get c (k % BSIZE) else fileByte t ip k := by
  by_cases hkbn : k / BSIZE = bn
  · rw [if_pos hkbn]
    change ByteBlock.get (update t.buf _ c ((t.itable ip).addr (k / BSIZE))) _ = _
    rw [hkbn, update_self]
  · rw [if_neg hkbn]
    change ByteBlock.get (update t.buf _ c ((t.itable ip).addr (k / BSIZE))) _ = _
    -- two addresses of one inode hold different blocks
    have hne : (t.itable ip).addr (k / BSIZE) ≠ (t.itable ip).addr bn := by
      intro he
      rw [← hE.holds_addr, ← hE.holds_addr bn] at he
      have := ho.inj (by rw [hE.holds_addr]; exact hk) he
      exact hkbn (Place.addr.inj this).2
    rw [update_of_ne hne]
    rfl

/-- **Storing bytes**: `m` bytes of the source are copied to a block that is mapped. -/
theorem Written.store (h : Written ip src off s t e) (hE : Editable ip s) (hoff : off ≤ e) {m : ℕ}
    (hbn : e / BSIZE < NDIRECT) (ha : (t.itable ip).addr (e / BSIZE) ≠ 0)
    (hm : e % BSIZE + m ≤ BSIZE) :
    Written ip src off s (t.setBuf ((t.itable ip).addr (e / BSIZE))
      (ByteBlock.splice (t.buf ((t.itable ip).addr (e / BSIZE))) (e % BSIZE) m
        fun i => (src (e - off + i)).getD 0)) (e + m) := by
  have hEt := hE.frame h.frame
  have hx := hEt.holds_addr (e / BSIZE)
  have hx0 : holds t.sb.wide t.buf (t.recs ip) (.addr (t.itable ip).inum (e / BSIZE)) ≠ 0 := by
    rw [hx]
    exact ha
  obtain ⟨hlo, hhi⟩ := h.owned.range hx0
  rw [hx] at hlo hhi
  -- the block belongs to no other place
  have hne : ∀ y : Place, y ≠ .addr (t.itable ip).inum (e / BSIZE) →
      holds t.sb.wide t.buf (t.recs ip) y ≠ 0 →
      holds t.sb.wide t.buf (t.recs ip) y ≠ (t.itable ip).addr (e / BSIZE) := by
    intro y hy hy0 he
    rw [← hx] at he
    exact hy (h.owned.inj hy0 he)
  generalize hblk : ByteBlock.splice (t.buf ((t.itable ip).addr (e / BSIZE))) (e % BSIZE) m
    (fun i => (src (e - off + i)).getD 0) = blk
  have hdin : ∀ i, i < t.sb.records →
      (t.setBuf ((t.itable ip).addr (e / BSIZE)) blk).dinode i = t.dinode i := fun i hi =>
    dinodeAt_update_of_ne t.sb _ _ (hEt.layout.inode_lt (record_lt hi) hlo hhi).ne
  have hfr : Frame ip t (t.setBuf ((t.itable ip).addr (e / BSIZE)) blk) :=
    ⟨rfl, rfl, fun _ _ => rfl, rfl, hdin⟩
  have hmod := Nat.div_add_mod e BSIZE
  have hkeep : ∀ k, k < off ∨ e + m ≤ k → (t.itable ip).addr (k / BSIZE) ≠ 0 →
      fileByte (t.setBuf ((t.itable ip).addr (e / BSIZE)) blk) ip k = fileByte t ip k := by
    intro k hk hk0
    rw [fileByte_setBuf hEt h.owned _ _ hk0]
    split_ifs with hkb
    · have hk' := Nat.div_add_mod k BSIZE
      rw [hkb] at hk'
      rw [← hblk, ByteBlock.get_splice_of_not_mem _ _ (by omega), fileByte, hkb]
    · rfl
  refine ⟨h.frame.trans hfr, h.quirks, ?_, h.addr, fun y hy hy0 => ?_, fun c hc => ?_,
    fun k hk1 hk2 => ?_, fun k hk hk0 => ?_, fun k hk hk0 hk' => ?_, fun c hc hu => ?_, h.taken⟩
  · refine h.owned.congr (fun b hb => blockUsed_update_of_ne t.sb _ _
      (hEt.layout.bitmap_lt hb hlo).ne) (fun j hj => FS.recs_congr (s := t) (t := t.setBuf _ _) rfl hdin hj)
      fun j hj => update_of_ne (hne _ (fun he => ?_) hj) _ _
    have := (Place.addr.inj he).2
    omega
  · refine Eq.trans (update_of_ne ?_ _ _) (h.other y hy hy0)
    rw [← h.holds_eq hy] at hy0 ⊢
    refine hne y (fun he => hy ?_) hy0
    rw [he]
    exact h.frame.inum ip
  · refine Eq.trans (update_of_ne ?_ _ _) (h.low c hc)
    rw [← h.frame.sb] at hc
    exact ((hc.trans_le (bmapstart_le _ t.sb)).trans (hEt.layout.bitmap_lt hhi hlo)).ne
  · by_cases hke : k < e
    · obtain ⟨h1, h2⟩ := h.inside k hk1 hke
      refine ⟨h1, ?_⟩
      rw [fileByte_setBuf hEt h.owned _ _ h1]
      split_ifs with hkb
      · have hk := Nat.div_add_mod k BSIZE
        rw [hkb] at hk
        rw [← hblk, ByteBlock.get_splice_of_not_mem _ _ (by omega), ← h2, fileByte, hkb]
      · exact h2
    · have hkb : k / BSIZE = e / BSIZE := by
        have h1 : e / BSIZE ≤ k / BSIZE := Nat.div_le_div_right (by omega)
        have h2 : k / BSIZE < e / BSIZE + 1 := by
          rw [Nat.div_lt_iff_lt_mul (by decide), Nat.add_mul, Nat.mul_comm]
          omega
        omega
      have hk := Nat.div_add_mod k BSIZE
      rw [hkb] at hk
      have hkB : k % BSIZE < BSIZE := Nat.mod_lt k (by decide)
      have hka : (t.itable ip).addr (k / BSIZE) ≠ 0 := by
        rw [hkb]
        exact ha
      refine ⟨hka, ?_⟩
      rw [fileByte_setBuf hEt h.owned _ _ hka, if_pos hkb, ← hblk,
        ByteBlock.get_splice_of_mem _ _ hkB (by omega) (by omega),
        show e - off + (k % BSIZE - e % BSIZE) = k - off by omega]
  · have hk0' : (t.itable ip).addr (k / BSIZE) ≠ 0 := by
      rw [h.addr _ hk0]
      exact hk0
    exact (hkeep k hk hk0').trans (h.outside k (by omega) hk0)
  · exact (hkeep k hk hk').trans (h.fresh k (by omega) hk0 hk')
  · refine (blockUsed_update_of_ne t.sb _ _ (hEt.layout.bitmap_lt ?_ hlo).ne).trans (h.used c hc hu)
    rwa [h.frame.sb]

end Written

/-! ## What reading and writing never change

Whatever the slots and the disk contain, reading and writing change no more of a slot than its
size and its addresses, and a branch that has been recorded stays recorded.
-/

/-- Only sizes and addresses of slots have changed, besides blocks; no recorded branch has been
forgotten. -/
structure Stays (s t : FS) : Prop where
  sb : t.sb = s.sb
  pid : t.pid = s.pid
  slot : ∀ jp, t.itable jp = { s.itable jp with
    size := (t.itable jp).size, addrs := (t.itable jp).addrs }
  quirks : s.quirks <:+ t.quirks

theorem Stays.refl (s : FS) : Stays s s := ⟨rfl, rfl, fun _ => rfl, List.suffix_refl _⟩

theorem Stays.trans {s t u : FS} (h : Stays s t) (h' : Stays t u) : Stays s u := by
  refine ⟨h'.sb.trans h.sb, h'.pid.trans h.pid, fun jp => ?_, h.quirks.trans h'.quirks⟩
  rw [h'.slot jp, h.slot jp]

theorem Stays.ne_nil {s t : FS} (h : Stays s t) (hs : s.quirks ≠ []) : t.quirks ≠ [] := by
  intro ht
  have := h.quirks
  rw [ht, List.suffix_nil] at this
  exact hs this

theorem Stays.lock {s t : FS} (h : Stays s t) (jp : Slot) :
    (t.itable jp).lock = (s.itable jp).lock := by rw [h.slot jp]

theorem stays_of_eq {s t : FS} (hsb : t.sb = s.sb) (hpid : t.pid = s.pid)
    (hit : t.itable = s.itable) (hq : s.quirks <:+ t.quirks) : Stays s t :=
  ⟨hsb, hpid, fun jp => by rw [hit], hq⟩

theorem stays_setBuf (s : FS) (b : ℕ) (c : Block) : Stays s (s.setBuf b c) :=
  stays_of_eq rfl rfl rfl (List.suffix_refl _)

theorem stays_logWrite (s : FS) (b : ℕ) : Stays s (s.logWrite b) :=
  stays_of_eq rfl rfl rfl (List.suffix_refl _)

theorem stays_setAddr (s : FS) (ip : Slot) (k a : ℕ) : Stays s (s.setAddr ip k a) := by
  refine ⟨rfl, rfl, fun jp => ?_, List.suffix_refl _⟩
  by_cases hj : jp = ip
  · subst hj
    rw [FS.setAddr, FS.setInode_same]
    rfl
  · rw [FS.setAddr, FS.setInode_of_ne _ _ _ hj]

/-- The slot after the size has been raised to at least `off`. -/
def Inode.grown (v : Inode) (off : ℕ) : Inode :=
  { v with size := if v.size.toNat < off then UInt32.ofNat off else v.size }

theorem FS.grow_eq (s : FS) (ip : Slot) (off : ℕ) :
    s.grow ip off = s.setInode ip ((s.itable ip).grown off) := by
  rw [FS.grow, Inode.grown]
  split_ifs
  · rfl
  · exact congrArg (fun f => { s with itable := f }) (update_eq_self ip s.itable).symm

theorem stays_grow (s : FS) (ip : Slot) (off : ℕ) : Stays s (s.grow ip off) := by
  rw [FS.grow]
  split_ifs
  · refine ⟨rfl, rfl, fun jp => ?_, List.suffix_refl _⟩
    by_cases hj : jp = ip
    · subst hj
      rw [FS.setInode_same]
    · rw [FS.setInode_of_ne _ _ _ hj]
  · exact .refl s

theorem mapAddr_stays (ip : Slot) (k : ℕ) (s : FS) :
    Stays s (mapAddr ip k s).2 ∧ (mapAddr ip k s).2.quirks = s.quirks := by
  have htake : ∀ b, Stays s (s.take b) := fun b => stays_of_eq rfl rfl rfl (List.suffix_refl _)
  rcases mapAddr_cases ip k s with ⟨-, h⟩ | ⟨-, b, -, -, ⟨-, h⟩ | ⟨-, h⟩⟩ | ⟨-, h⟩
  · rw [h]
    exact ⟨.refl s, rfl⟩
  · rw [h]
    exact ⟨(htake b).trans (stays_setAddr _ ip k b), rfl⟩
  · rw [h]
    exact ⟨htake 0, rfl⟩
  · rw [h]
    exact ⟨.refl s, rfl⟩

theorem balloc_stays (s : FS) : Stays s (balloc s).2 := by
  rcases balloc_cases s with ⟨b, -, -, -, h⟩ | ⟨-, h⟩
  · rw [h]
    exact stays_of_eq rfl rfl rfl (List.suffix_refl _)
  · rw [h]
    exact .refl s

theorem setBufWord_stays (s : FS) (b k : ℕ) (v : UInt32) : Stays s (setBufWord s b k v) := by
  rw [setBufWord]
  split_ifs <;> exact stays_of_eq rfl rfl rfl (List.suffix_refl _)

theorem mapEntry_stays (b k : ℕ) (s : FS) : Stays s (mapEntry b k s).2 := by
  rw [mapEntry]
  split_ifs
  · have hs := balloc_stays s
    generalize balloc s = r at hs ⊢
    rcases r with ⟨_ | a, t⟩
    · exact hs
    · exact (hs.trans (setBufWord_stays t _ _ _)).trans (stays_logWrite _ _)
  · exact .refl s

theorem bmap_stays (ip : Slot) (bn : ℕ) (s : FS) :
    Safe Freed (fun r => Stays s r.2 ∧
      (NDIRECT ≤ bn → r.2.quirks ≠ [] ∨ (r.1 = 0 ∧ r = mapAddr ip NDIRECT s))) (bmap ip bn s) := by
  by_cases hbn : bn < NDIRECT
  · rw [bmap_direct ip hbn]
    exact ⟨(mapAddr_stays ip bn s).1, fun h => absurd hbn (by omega)⟩
  · rw [bmap, if_neg hbn]
    split_ifs
    · have hs := (mapAddr_stays ip NDIRECT s).1
      generalize mapAddr ip NDIRECT s = r at hs ⊢
      rcases r with ⟨_ | b, t⟩
      · exact ⟨hs, fun _ => Or.inr ⟨rfl, rfl⟩⟩
      · have hnote : Stays t (t.note .indirect) := stays_of_eq rfl rfl rfl (List.suffix_cons _ _)
        have he := mapEntry_stays (b + 1) (bn - NDIRECT) (t.note .indirect)
        exact ⟨(hs.trans hnote).trans he, fun _ => Or.inl (he.ne_nil (List.cons_ne_nil _ _))⟩
    · rintro ⟨q, hq⟩
      cases hq

theorem writeLoop_stays (ip : Slot) (src : Source) (n fuel tot off : ℕ) (s : FS) :
    Safe Freed (fun r => Stays s r.2) (writeLoop ip src n fuel tot off s) := by
  induction fuel generalizing tot off s with
  | zero => exact .refl s
  | succ fuel ih =>
    rw [writeLoop]
    split_ifs
    · refine Safe.bind (bmap_stays ip (off / BSIZE) s) fun r hr => ?_
      have hset : ∀ c, Stays s (r.2.setBuf r.1 c) := fun c =>
        hr.1.trans (stays_setBuf _ _ c)
      dsimp only
      split_ifs
      · exact hr.1
      · exact (ih _ _ _).mono fun r' hr' => ((hset _).trans (stays_logWrite _ _)).trans hr'
      · exact hset _
    · exact .refl s

theorem stays_iupdate {ip : Slot} {s t : FS} (h : iupdate ip s = .ok t) : Stays s t := by
  obtain ⟨-, rfl⟩ := iupdate_eq_ok.mp h
  exact stays_of_eq rfl rfl rfl (List.suffix_refl _)

theorem writei_stays (ip : Slot) (src : Source) (off n : ℕ) (s : FS) :
    Safe Freed (fun r => Stays s r.2) (writei ip src off n s) := by
  rw [writei]
  split_ifs
  · exact .refl s
  · exact .refl s
  · refine Safe.bind (writeLoop_stays ip src n n 0 off s) fun r hr => ?_
    refine Safe.bind (iupdate_safe fun u hu => ?_) fun u hu => hu
    exact (hr.trans (stays_grow _ ip _)).trans (stays_iupdate hu)

/-! ## The loop -/

/-- The result of the loop: `tot` bytes are reported, and those up to `e` were copied. -/
structure LoopDone (ip : Slot) (src : Source) (off n : ℕ) (s : FS) (tot : ℕ) (t : FS) (e : ℕ) :
    Prop where
  written : Written ip src off s t e
  le : off + tot ≤ e
  le_end : e ≤ off + n
  aligned : tot = 0 ∨ (off + tot) % BSIZE = 0 ∨ tot = n
  total : (∀ i < n, (src i).isSome = true) → e = off + tot

section Loop

variable {ip : Slot} {src : Source} {off n tot fuel : ℕ} {s t : FS}

theorem writeLoop_unmapped (h : tot < n) (hm : bmap ip (off / BSIZE) s = .ok (0, t)) :
    writeLoop ip src n (fuel + 1) tot off s = .ok ((tot, off), t) := by
  rw [writeLoop, if_pos h, hm]
  rfl

/-- The part of a round's bytes that the source has. -/
abbrev reached (src : Source) (tot m : ℕ) : ℕ := copyLen (fun i => (src i).isSome) tot m

/-- The buffer of block `a` after the copy of a round. -/
abbrev FS.fill (t : FS) (a : ℕ) (src : Source) (tot m o : ℕ) : FS :=
  t.setBuf a (ByteBlock.splice (t.buf a) o (reached src tot m) fun i => (src (tot + i)).getD 0)

theorem writeLoop_mapped {a : ℕ} (h : tot < n) (hm : bmap ip (off / BSIZE) s = .ok (a, t))
    (ha : a ≠ 0) :
    writeLoop ip src n (fuel + 1) tot off s =
      if reached src tot (chunk tot off n) = chunk tot off n then
        writeLoop ip src n fuel (tot + chunk tot off n) (off + chunk tot off n)
          ((t.fill a src tot (chunk tot off n) (off % BSIZE)).logWrite a)
      else .ok ((tot, off), t.fill a src tot (chunk tot off n) (off % BSIZE)) := by
  rw [writeLoop, if_pos h, hm]
  refine (if_neg ha).trans ?_
  by_cases hok : reached src tot (chunk tot off n) = chunk tot off n
  · rw [if_pos hok]
    exact if_pos (beq_iff_eq.mpr hok)
  · rw [if_neg hok]
    exact if_neg fun h => hok (beq_iff_eq.mp h)

end Loop

/-! ## The function -/

theorem Inode.grown_size (v : Inode) {off : ℕ} (h : off < 2 ^ 32) :
    (v.grown off).size.toNat = max v.size.toNat off := by
  rw [Inode.grown]
  split_ifs with hlt
  · rw [Nat.max_eq_right hlt.le]
    exact UInt32.toNat_ofNat_of_lt h
  · rw [Nat.max_eq_left (not_lt.mp hlt)]

/-- Between `s` and `u` a call of `writei` has written the bytes from `off` up to `e`, of which
it reports `tot`. -/
structure WriteDone (ip : Slot) (src : Source) (off n : ℕ) (s : FS) (tot e : ℕ) (u : FS) :
    Prop where
  consistent : Consistent u
  quirks : u.quirks = s.quirks
  pid : u.pid = s.pid
  sb : u.sb = s.sb
  other : ∀ jp, jp ≠ ip → u.itable jp = s.itable jp
  self : u.itable ip = { s.itable ip with
    size := (u.itable ip).size, addrs := (u.itable ip).addrs }
  size : (u.itable ip).size.toNat = max (s.itable ip).size.toNat (off + tot)
  addr : ∀ k, (s.itable ip).addr k ≠ 0 → (u.itable ip).addr k = (s.itable ip).addr k
  low : ∀ b, b < s.sb.inodestart → u.buf b = s.buf b
  inside : ∀ k, off ≤ k → k < e →
    (u.itable ip).addr (k / BSIZE) ≠ 0 ∧ fileByte u ip k = (src (k - off)).getD 0
  outside : ∀ k, k < off ∨ e ≤ k → (s.itable ip).addr (k / BSIZE) ≠ 0 →
    fileByte u ip k = fileByte s ip k
  fresh : ∀ k, k < off ∨ e ≤ k → (s.itable ip).addr (k / BSIZE) = 0 → (u.itable ip).addr (k / BSIZE) ≠ 0 →
    fileByte u ip k = 0
  used : ∀ b < s.sb.size, s.used b = true → u.used b = true
  taken : ∀ k, (s.itable ip).addr k = 0 → (u.itable ip).addr k ≠ 0 → s.used ((u.itable ip).addr k) = false
  files : ∀ jp, jp ≠ ip → 0 < (s.itable jp).ref → (s.itable jp).valid = true → ∀ k,
    (s.itable jp).addr (k / BSIZE) ≠ 0 → fileByte u jp k = fileByte s jp k
  off_le : off ≤ (s.itable ip).size.toNat
  le : off + tot ≤ e
  le_end : e ≤ off + n
  aligned : tot = 0 ∨ (off + tot) % BSIZE = 0 ∨ tot = n
  total : (∀ i < n, (src i).isSome = true) → e = off + tot
  direct : off + tot ≤ max off (NDIRECT * BSIZE)
  dinode : ∀ i, i < s.sb.records → i ≠ (s.itable ip).inum → u.dinode i = s.dinode i
  data : ∀ x, inumOf x ≠ (s.itable ip).inum → holds s.sb.wide s.buf s.dinode x ≠ 0 →
    u.buf (holds s.sb.wide s.buf s.dinode x) = s.buf (holds s.sb.wide s.buf s.dinode x)

section Writei

variable {ip : Slot} {src : Source} {off n tot e : ℕ} {s t u : FS}

theorem Consistent.editable (h : Consistent s) (hpos : 0 < (s.itable ip).ref)
    (hv : (s.itable ip).valid = true) : Editable ip s :=
  ⟨h.table.layout, h.table.range ip hpos hv, (h.table.coherent ip hpos hv).2⟩

theorem fileByte_iupdate (hE : Editable ip t) (hn : iupdate ip t = .ok u) (jp : Slot) {k : ℕ}
    (hlo : t.sb.dataStart ≤ (t.itable jp).addr (k / BSIZE))
    (hhi : (t.itable jp).addr (k / BSIZE) < t.sb.size) : fileByte u jp k = fileByte t jp k := by
  obtain ⟨-, rfl⟩ := iupdate_eq_ok.mp hn
  exact congrArg (ByteBlock.get · (k % BSIZE))
    (update_of_ne (hE.layout.inode_lt (record_lt hE.inum_lt) hlo hhi).ne' _ _)

theorem Consistent.addr_range (h : Consistent s) (hpos : 0 < (s.itable ip).ref)
    (hv : (s.itable ip).valid = true) {k : ℕ} (ha : (s.itable ip).addr k ≠ 0) :
    s.sb.dataStart ≤ (s.itable ip).addr k ∧ (s.itable ip).addr k < s.sb.size := by
  have hx := (h.editable hpos hv).holds_addr k
  have hr := (h.owned_recs hpos hv).range (x := .addr (s.itable ip).inum k) (by rw [hx]; exact ha)
  rwa [hx] at hr

/-- The end of `writei`: the size is raised and the record written. -/
theorem LoopDone.finish (hd : LoopDone ip src off n s tot t e) (h : Consistent s)
    (hlock : (s.itable ip).lock = some s.pid) (hoff : off ≤ (s.itable ip).size.toNat)
    (hmax : off + n ≤ MAXFILE * BSIZE) (hdir : off + tot ≤ max off (NDIRECT * BSIZE))
    (hn : iupdate ip (t.grow ip (off + tot)) = .ok u) : WriteDone ip src off n s tot e u := by
  obtain ⟨hpos, hv⟩ := h.table.locked ip _ hlock
  have hw := hd.written
  have hE := h.editable hpos hv
  have hEt := hE.frame hw.frame
  rw [FS.grow_eq] at hn
  have hu := updated_of_iupdate hn
  have hself : u.itable ip = (t.itable ip).grown (off + tot) := by
    rw [hu.itable, FS.setInode_same]
  have hother : ∀ jp, jp ≠ ip → u.itable jp = s.itable jp := fun jp hj => by
    rw [hu.itable, FS.setInode_of_ne _ _ _ hj, hw.frame.other jp hj]
  have haddr : ∀ k, (u.itable ip).addr k = (t.itable ip).addr k := fun k => by
    rw [hself]
    rfl
  -- the bytes of a mapped block survive the final `iupdate`
  have hE' : Editable ip (t.setInode ip ((t.itable ip).grown (off + tot))) := by
    refine ⟨hEt.layout, ?_, ?_⟩
    · rw [FS.setInode_same]
      exact hEt.inum_lt
    · rw [FS.setInode_same]
      exact hEt.type_ne
  have hbyte : ∀ k, (t.itable ip).addr (k / BSIZE) ≠ 0 → fileByte u ip k = fileByte t ip k := by
    intro k hk
    have hr := hw.owned.range (x := .addr (t.itable ip).inum (k / BSIZE))
      (by rw [hEt.holds_addr]; exact hk)
    rw [hEt.holds_addr] at hr
    have := fileByte_iupdate (k := k) hE' hn ip (by rw [FS.setInode_same]; exact hr.1)
      (by rw [FS.setInode_same]; exact hr.2)
    refine this.trans ?_
    rw [fileByte, FS.setInode_same]
    rfl
  have hdata : ∀ x, inumOf x ≠ (s.itable ip).inum → holds s.sb.wide s.buf s.dinode x ≠ 0 →
      u.buf (holds s.sb.wide s.buf s.dinode x) = s.buf (holds s.sb.wide s.buf s.dinode x) := by
    intro x hx hx0
    have hrecs := h.table.recs_eq hpos hv
    have hkeep := hw.other x hx (by rwa [hrecs])
    rw [hrecs] at hkeep
    refine Eq.trans ?_ hkeep
    obtain ⟨hlo, hhi⟩ := h.owned.range hx0
    obtain ⟨-, rfl⟩ := iupdate_eq_ok.mp hn
    refine update_of_ne (hE'.layout.inode_lt (record_lt hE'.inum_lt) ?_ ?_).ne' _ _
    · rw [FS.setInode_sb, hw.frame.sb]
      exact hlo
    · rw [FS.setInode_sb, hw.frame.sb]
      exact hhi
  have hmax' : off + tot < 2 ^ 32 := by
    have := hd.le
    have := hd.le_end
    have hB : MAXFILE * BSIZE = 274432 := rfl
    omega
  refine ⟨?_, ?_, hu.pid.trans hw.frame.pid, hu.sb.trans hw.frame.sb, hother, ?_, ?_,
    fun k hk => ?_, fun b hb => ?_, fun k h1 h2 => ?_, fun k h1 h2 => ?_, fun k h1 h2 h3 => ?_,
    fun b hb hub => ?_, fun k h0 h1 => ?_, fun jp hj hjp hvj k hk => ?_, hoff, hd.le, hd.le_end, hd.aligned,
    hd.total, hdir, fun i hi hne => ?_, hdata⟩
  · refine h.finish (v := (t.itable ip).grown (off + tot)) hw.frame ?_ hEt.type_ne
      (hw.owned.setInode rfl rfl rfl) hn
    rw [hw.frame.self]
    rfl
  · obtain ⟨-, rfl⟩ := iupdate_eq_ok.mp hn
    exact hw.quirks
  · rw [hself, hw.frame.self]
    rfl
  · rw [hself, Inode.grown_size _ hmax', hw.frame.self]
  · rw [haddr, hw.addr k hk]
  · have hlt : b < s.sb.bmapstart := by
      have := record_lt hE.inum_lt
      exact (hb.trans_le (Nat.le_add_left _ _)).trans this
    refine Eq.trans ?_ (hw.low b hlt)
    obtain ⟨-, rfl⟩ := iupdate_eq_ok.mp hn
    refine update_of_ne (hb.trans_le ?_).ne _ _
    rw [← hw.frame.sb]
    exact Nat.le_add_left _ _
  · obtain ⟨h3, h4⟩ := hw.inside k h1 h2
    rw [haddr, hbyte k h3]
    exact ⟨h3, h4⟩
  · rw [hbyte k (by rw [hw.addr _ h2]; exact h2)]
    exact hw.outside k h1 h2
  · rw [haddr] at h3
    rw [hbyte k h3]
    exact hw.fresh k h1 h2 h3
  · obtain ⟨-, rfl⟩ := iupdate_eq_ok.mp hn
    exact (blockUsed_update_of_ne _ _ _ ((record_lt hE'.inum_lt).trans_le (bmapstart_le b _)).ne').trans
      (hw.used b hb hub)
  · rw [haddr] at h1 ⊢
    exact hw.taken k h0 h1
  · have hx := (h.editable hjp hvj).holds_addr (k / BSIZE)
    rw [h.table.recs_eq hjp hvj] at hx
    have hkeep := hdata (.addr (s.itable jp).inum (k / BSIZE)) (h.table.ne_inum hpos jp hj hjp) (by rwa [hx])
    rw [hx] at hkeep
    rw [fileByte, fileByte, hother jp hj, hkeep]
  · have hinum : (t.itable ip).inum = (s.itable ip).inum := hw.frame.inum ip
    rw [hu.dinode, FS.setInode_same, if_neg, FS.setInode_dinode, hw.frame.dinode i hi]
    exact fun he => hne (he.trans hinum)

theorem writei_unlocked (hlock : (s.itable ip).lock ≠ some s.pid) :
    Safe Freed (fun r => r.2 = s) (writei ip src off n s) := by
  rw [writei]
  split_ifs
  · rfl
  · rfl
  · refine Safe.bind (writeLoop_stays ip src n n 0 off s) fun r hr => ?_
    refine Safe.bind (P := fun _ => False) (iupdate_safe fun u hu => ?_) fun u hu => hu.elim
    have hst := hr.trans (stays_grow r.2 ip r.1.2)
    have hheld := (updated_of_iupdate hu).held
    rw [hst.lock, hst.pid] at hheld
    exact hlock hheld

end Writei

end RiscvOs.Fs
