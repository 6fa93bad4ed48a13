import RiscvOs.Fs.Contents
import RiscvOs.Fs.Ends

set_option autoImplicit false

/-!
# What a write reports (`kernel/disk/fs.c`)

`writei` reports the bytes of the rounds that are complete. When a byte of the source is missing in the middle
of a round, `either_copyin` has already copied the bytes before it into the buffer. They are not reported, and
the buffer is not passed to `log_write`.

A block of the file that is not mapped is zeroes to a reader: `readi` takes a free block for it, which `balloc`
has cleared.

## Main results

* `Shown.sees` — what reads return, also from a file with holes.
* `writei_exact_iff` — when a write changes exactly what it reports.
-/

namespace RiscvOs.Fs

open Function

/-- Byte `p` of the file as a read finds it: zero in a block that is not mapped. -/
def seenByte (s : FS) (ip : Slot) (p : ℕ) : UInt8 :=
  if (s.itable ip).addr (p / BSIZE) = 0 then 0 else fileByte s ip p

/-- A byte of the source is missing, and a byte before it in the same block of the file changes: the loop gets
that block. The file reaches over the byte, or the block was there before and is not in the log. -/
def Unreported (s : FS) (ip : Slot) (src : Source) (off n : ℕ) : Prop :=
  supply src n < n ∧ Gets s ip src off n ((off + supply src n) / BSIZE) ∧
    ∃ p, off ≤ p ∧ p < off + supply src n ∧ p / BSIZE = (off + supply src n) / BSIZE ∧
      (src (p - off)).getD 0 ≠ seenByte s ip p ∧
      (p < (s.itable ip).size.toNat ∨
        (s.itable ip).addr (p / BSIZE) ≠ 0 ∧ (s.itable ip).addr (p / BSIZE) ∉ s.logged)

/-- A read of the file leads from `s` to `t`. -/
def ReadStep (ip : Slot) (s t : FS) : Prop :=
  ∃ o m r, o + m < 2 ^ 32 ∧ readi ip kernelDst o m s = .ok (r, t)

/-- Every read of the file returns this contents, now and after other reads. It may end at a block that is not
mapped; where all blocks are mapped it gets the whole request, up to the end of the file. -/
def Sees (s : FS) (ip : Slot) (contents : ℕ → UInt8) : Prop :=
  ∀ t, Relation.ReflTransGen (ReadStep ip) s t → ∀ o m, o + m < 2 ^ 32 → ∃ r u,
    readi ip kernelDst o m t = .ok ((some r, (List.range r).map fun i => contents (o + i)), u) ∧
      ((∀ k, o ≤ k → k < o + m → k < (t.itable ip).size.toNat → (t.itable ip).addr (k / BSIZE) ≠ 0) →
        r = min m ((t.itable ip).size.toNat - o))

/-- Between `s` and `t` a write of `tot` bytes at `off` has happened, and nothing else: reads see the bytes of
the source there and the old ones elsewhere, and a buffer that is not as on the disk is in the log, if that was
so before. -/
structure Exact (ip : Slot) (src : Source) (off : ℕ) (s : FS) (tot : ℕ) (t : FS) : Prop where
  source : ∀ i < tot, (src i).isSome = true
  size : (t.itable ip).size.toNat = max (s.itable ip).size.toNat (off + tot)
  reads : ∀ old, Sees s ip old →
    Sees t ip fun p => if off ≤ p ∧ p < off + tot then (src (p - off)).getD 0 else old p
  logged : ∀ disk : Disk, (∀ b, s.buf b ≠ disk b → b ∈ s.logged) → ∀ b, t.buf b ≠ disk b → b ∈ t.logged

/-- The call returns, and has changed exactly what it reports. -/
def ExactCall (ip : Slot) (src : Source) (off n : ℕ) (s : FS) : Prop :=
  ∃ r t, writei ip src off n s = .ok (r, t) ∧
    ((r = none ∧ t = s) ∨ ∃ tot, r = some tot ∧ Exact ip src off s tot t)

/-! ## Reading -/

section Reading

variable {ip : Slot} {n fuel tot off o m p b : ℕ} {s t u : FS} {c old : ℕ → UInt8}

theorem seenByte_of_ne (h : (s.itable ip).addr (p / BSIZE) ≠ 0) : seenByte s ip p = fileByte s ip p := if_neg h

/-- The file of a slot has the contents `c`, as far as reads can see it. -/
structure Shown (ip : Slot) (c : ℕ → UInt8) (s : FS) : Prop where
  editable : Editable ip s
  owned : Owned s.sb.wide s.buf (s.recs ip)
  size_le : (s.itable ip).size.toNat ≤ NDIRECT * BSIZE
  bytes : ∀ p < (s.itable ip).size.toNat, (s.itable ip).addr (p / BSIZE) ≠ 0 ∨ s.free.Nonempty →
    c p = seenByte s ip p

theorem Consistent.shown (hc : Consistent s) {q : ℕ} (hlock : (s.itable ip).lock = some q)
    (hsize : (s.itable ip).size.toNat ≤ NDIRECT * BSIZE) : Shown ip (seenByte s ip) s := by
  obtain ⟨hpos, hv⟩ := hc.table.locked ip _ hlock
  exact ⟨hc.editable hpos hv, hc.owned_recs hpos hv, hsize, fun _ _ _ => rfl⟩

/-- The state after a free block was taken for block `bn` of the file. -/
abbrev FS.plug (s : FS) (ip : Slot) (bn b : ℕ) : FS := ((s.note .hole).take b).setAddr ip bn b

/-- **Taking a block for a hole** changes nothing that a read sees. -/
theorem Shown.plug (h : Shown ip c s) {bn : ℕ} (hbn : bn < NDIRECT) (h0 : (s.itable ip).addr bn = 0)
    (hb : b < s.sb.size) (hfree : s.used b = false) :
    Shown ip c (s.plug ip bn b) ∧ b ≠ 0 ∧ ((s.plug ip bn b).itable ip).addr bn = b ∧
      ((s.plug ip bn b).itable ip).size = (s.itable ip).size ∧
      ∀ k, (s.itable ip).addr k ≠ 0 → ((s.plug ip bn b).itable ip).addr k ≠ 0 := by
  have hE : Editable ip (s.note .hole) := { h.editable with }
  have hrefl : Written ip (fun _ => none) 0 (s.note .hole) (s.note .hole) 0 := .refl h.owned
  obtain ⟨hw, hb0, haddr⟩ := hrefl.map hE hbn h0 hb hfree
  have hsize : ((s.plug ip bn b).itable ip).size = (s.itable ip).size := by
    rw [hw.frame.self]
    rfl
  have hkept : ∀ k, (s.itable ip).addr k ≠ 0 → ((s.plug ip bn b).itable ip).addr k ≠ 0 := by
    intro k hk
    rw [hw.addr k hk]
    exact hk
  refine ⟨⟨hE.frame hw.frame, hw.owned, hsize ▸ h.size_le, fun p hp _ => ?_⟩, hb0, haddr, hsize, hkept⟩
  rw [hsize] at hp
  rw [h.bytes p hp (Or.inr ⟨b, mem_free.mpr ⟨hb, hfree⟩⟩)]
  by_cases hs : (s.itable ip).addr (p / BSIZE) = 0
  · rw [seenByte, if_pos hs, seenByte]
    split_ifs with ht
    · rfl
    · exact (hw.fresh p (Or.inr (Nat.zero_le p)) hs ht).symm
  · rw [seenByte_of_ne hs, seenByte_of_ne (hkept _ hs)]
    exact (hw.outside p (Or.inr (Nat.zero_le p)) hs).symm

/-- A round of `readi` at a hole: there is no free block and the read ends, or the round goes on with a block that
was taken. -/
theorem readLoop_hole (fuel : ℕ) (out : List UInt8) (h : tot < n) (hbn : off / BSIZE < NDIRECT)
    (h0 : (s.itable ip).addr (off / BSIZE) = 0) :
    (∃ b, b < s.sb.size ∧ s.used b = false ∧ (b ≠ 0 → ((s.plug ip (off / BSIZE) b).itable ip).addr (off / BSIZE) = b →
        readLoop ip kernelDst n (fuel + 1) tot off out s =
          readLoop ip kernelDst n (fuel + 1) tot off out (s.plug ip (off / BSIZE) b))) ∨
      (s.free = ∅ ∧ readLoop ip kernelDst n (fuel + 1) tot off out s = .ok ((some tot, out), s.note .hole)) := by
  have hnote : s.noteHole ip (off / BSIZE) = s.note .hole := by
    rw [FS.noteHole, Nat.min_eq_left hbn.le, if_pos h0]
  rcases mapAddr_unset (t := s.note .hole) h0 with ⟨b, hb, hfree, hc⟩ | ⟨hfull, hc⟩
  · refine Or.inl ⟨b, hb, hfree, fun hb0 haddr => ?_⟩
    have ha : ((s.plug ip (off / BSIZE) b).itable ip).addr (off / BSIZE) ≠ 0 := by
      rwa [haddr]
    rw [readLoop, if_pos h, hnote, bmap_direct ip hbn, hc hb0, readLoop, if_pos h, FS.noteHole_of_ne hbn.le ha,
      bmap_direct ip hbn, mapAddr_of_ne ha, haddr]
  · refine Or.inr ⟨hfull, ?_⟩
    rw [readLoop, if_pos h, hnote, bmap_direct ip hbn, hc]
    rfl

/-- **The loop of `readi`** returns the contents, up to a hole for which there is no block.

**Proof sketch.** Induction on the number of rounds that are left. A round at a hole takes a block and is then like a
round at a block that was there. -/
theorem readLoop_shown (fuel : ℕ) (h : Shown ip c s) (tot : ℕ) (htot : tot ≤ n) (hfuel : n ≤ tot + fuel)
    (hend : o + n ≤ (s.itable ip).size.toNat) :
    ∃ r u, readLoop ip kernelDst n fuel tot (o + tot) ((List.range tot).map fun i => c (o + i)) s =
        .ok ((some r, (List.range r).map fun i => c (o + i)), u) ∧ Shown ip c u ∧
      ((∀ k, o + tot ≤ k → k < o + n → (s.itable ip).addr (k / BSIZE) ≠ 0) → r = n) := by
  induction fuel generalizing tot s with
  | zero =>
    obtain rfl : tot = n := by omega
    exact ⟨tot, s, rfl, h, fun _ => rfl⟩
  | succ fuel ih =>
    by_cases htn : tot < n
    · have hbn : (o + tot) / BSIZE < NDIRECT :=
        (Nat.div_lt_iff_lt_mul (by decide)).mpr ((by omega : o + tot < _).trans_le h.size_le)
      -- a round at a block that is there
      have hround : ∀ v, Shown ip c v → (v.itable ip).size = (s.itable ip).size →
          (v.itable ip).addr ((o + tot) / BSIZE) ≠ 0 →
          ∃ r u, readLoop ip kernelDst n (fuel + 1) tot (o + tot) ((List.range tot).map fun i => c (o + i)) v =
              .ok ((some r, (List.range r).map fun i => c (o + i)), u) ∧ Shown ip c u ∧
            ((∀ k, o + tot ≤ k → k < o + n → (v.itable ip).addr (k / BSIZE) ≠ 0) → r = n) := by
        intro v hv hsize ha
        have hpos := chunk_pos (o + tot) htn
        have hle := chunk_le tot (o + tot) n
        have hbytes : ((List.range tot).map fun i => c (o + i)) ++
            (List.range (chunk tot (o + tot) n)).map (fun i =>
              ByteBlock.get (v.buf ((v.itable ip).addr ((o + tot) / BSIZE))) ((o + tot) % BSIZE + i)) =
            (List.range (tot + chunk tot (o + tot) n)).map fun i => c (o + i) := by
          rw [List.range_add, List.map_append, List.map_map]
          congr 1
          refine List.map_congr_left fun i hi => ?_
          have hlt := List.mem_range.mp hi
          have hdiv : (o + tot + i) / BSIZE = (o + tot) / BSIZE := chunk_div hlt
          have ha' : (v.itable ip).addr ((o + tot + i) / BSIZE) ≠ 0 := by rwa [hdiv]
          rw [Function.comp_apply, ← Nat.add_assoc, hv.bytes _ (by rw [hsize]; omega) (Or.inl ha'),
            seenByte_of_ne ha']
          exact (fileByte_chunk hlt).symm
        rw [readLoop_mapped htn hbn ha, hbytes, Nat.add_assoc]
        obtain ⟨r, u, heq, hu, hall⟩ :=
          ih hv (tot + chunk tot (o + tot) n) (by omega) (by omega) (by rw [hsize]; exact hend)
        exact ⟨r, u, heq, hu, fun hmap => hall fun k h1 h2 => hmap k (by omega) h2⟩
      by_cases h0 : (s.itable ip).addr ((o + tot) / BSIZE) = 0
      · have hnot : ¬ ∀ k, o + tot ≤ k → k < o + n → (s.itable ip).addr (k / BSIZE) ≠ 0 := fun hall =>
          hall (o + tot) le_rfl (by omega) h0
        rcases readLoop_hole _ _ htn hbn h0 with ⟨b, hb, hfree, heq⟩ | ⟨-, heq⟩
        · obtain ⟨hv, hb0, haddr, hsize, -⟩ := h.plug hbn h0 hb hfree
          obtain ⟨r, u, hrun, hu, -⟩ := hround _ hv hsize (by rwa [haddr])
          exact ⟨r, u, (heq hb0 haddr).trans hrun, hu, fun hall => absurd hall hnot⟩
        · exact ⟨tot, _, heq, { h with editable := { h.editable with } }, fun hall => absurd hall hnot⟩
      · exact hround s h rfl h0
    · obtain rfl : tot = n := by omega
      rw [readLoop, if_neg htn]
      exact ⟨tot, s, rfl, h, fun _ => rfl⟩

theorem Shown.readi (h : Shown ip c s) (hsum : o + m < 2 ^ 32) :
    ∃ r u, Fs.readi ip kernelDst o m s = .ok ((some r, (List.range r).map fun i => c (o + i)), u) ∧ Shown ip c u ∧
      ((∀ k, o ≤ k → k < o + m → k < (s.itable ip).size.toNat → (s.itable ip).addr (k / BSIZE) ≠ 0) →
        r = min m ((s.itable ip).size.toNat - o)) := by
  rw [Fs.readi, Nat.mod_eq_of_lt hsum]
  by_cases hoff : (s.itable ip).size.toNat < o
  · rw [if_pos (Or.inl hoff), Nat.sub_eq_zero_of_le hoff.le, Nat.min_zero]
    exact ⟨0, s, rfl, h, fun _ => rfl⟩
  · rw [if_neg (by omega)]
    have hmin : (if (s.itable ip).size.toNat < o + m then (s.itable ip).size.toNat - o else m) =
        min m ((s.itable ip).size.toNat - o) := by
      split_ifs <;> omega
    rw [hmin]
    obtain ⟨r, u, heq, hu, hall⟩ := readLoop_shown (min m ((s.itable ip).size.toNat - o)) h 0
      (Nat.zero_le (min m ((s.itable ip).size.toNat - o))) (by omega) (o := o) (by omega)
    exact ⟨r, u, heq, hu, fun hmap => hall fun k h1 h2 => hmap k h1 (by omega) (by omega)⟩

/-- **What reads return**, one after the other. -/
theorem Shown.sees (h : Shown ip c s) : Sees s ip c := by
  intro t ht o m hsum
  have hshown : Shown ip c t := by
    induction ht with
    | refl => exact h
    | tail _ hstep ih =>
      obtain ⟨o', m', r', hsum', hrun⟩ := hstep
      obtain ⟨r, u, heq, hu, -⟩ := ih.readi hsum'
      cases heq.symm.trans hrun
      exact hu
  obtain ⟨r, u, heq, -, hall⟩ := hshown.readi hsum
  exact ⟨r, u, heq, hall⟩

/-- A byte that a read can see is read as it is. -/
theorem Shown.readi_byte (h : Shown ip c s) (hp : p < (s.itable ip).size.toNat)
    (hv : (s.itable ip).addr (p / BSIZE) ≠ 0 ∨ s.free.Nonempty) :
    ∃ u, Fs.readi ip kernelDst p 1 s = .ok ((some 1, [c p]), u) := by
  have hmax : NDIRECT * BSIZE = 12288 := rfl
  have hle := h.size_le
  by_cases h0 : (s.itable ip).addr (p / BSIZE) = 0
  · have hbn : p / BSIZE < NDIRECT := (Nat.div_lt_iff_lt_mul (by decide)).mpr (by omega)
    have hrun : Fs.readi ip kernelDst p 1 s = readLoop ip kernelDst 1 1 0 p [] s := by
      rw [Fs.readi, Nat.mod_eq_of_lt (by omega), if_neg (by omega), if_neg (by omega)]
    rcases readLoop_hole 0 [] Nat.one_pos hbn h0 with ⟨b, hb, hfree, heq⟩ | ⟨hfull, -⟩
    · obtain ⟨hu, hb0, haddr, hsize, -⟩ := h.plug hbn h0 hb hfree
      obtain ⟨r, u, hloop, -, hall⟩ := readLoop_shown 1 (o := p) hu 0 (Nat.zero_le 1) le_rfl
        (by rw [hsize]; omega)
      have hr : r = 1 := hall fun k h1 h2 => by
        obtain rfl : k = p := by omega
        rwa [haddr]
      subst hr
      exact ⟨u, hrun.trans ((heq hb0 haddr).trans hloop)⟩
    · rw [hfull] at hv
      exact absurd (hv.resolve_left (not_not.mpr h0)) Finset.not_nonempty_empty
  · obtain ⟨r, u, heq, -, hall⟩ := h.readi (o := p) (m := 1) (by omega)
    have hr : r = min 1 ((s.itable ip).size.toNat - p) := hall fun k h1 h2 _ => by
      obtain rfl : k = p := by omega
      exact h0
    obtain rfl : r = 1 := by omega
    exact ⟨u, heq⟩

theorem Sees.eq_seenByte (hold : Sees s ip old) (h : Shown ip c s) (hp : p < (s.itable ip).size.toNat)
    (hv : (s.itable ip).addr (p / BSIZE) ≠ 0 ∨ s.free.Nonempty) : old p = seenByte s ip p := by
  have hmax : NDIRECT * BSIZE = 12288 := rfl
  have hle := h.size_le
  obtain ⟨u, hone⟩ := h.readi_byte hp hv
  obtain ⟨r, v, heq, -⟩ := hold s .refl p 1 (by omega)
  have hpair := Except.ok.inj (heq.symm.trans hone)
  have hr : r = 1 := Option.some.inj (congrArg (fun x : (Option ℕ × List UInt8) × FS => x.1.1) hpair)
  subst hr
  have hlist := congrArg (fun x : (Option ℕ × List UInt8) × FS => x.1.2) hpair
  rw [← h.bytes p hp hv]
  exact (List.cons.inj hlist).1

end Reading

/-! ## The function -/

section Writei

variable {ip : Slot} {src : Source} {off n tot e p : ℕ} {s t u : FS}

theorem iupdate_grow (hu : iupdate ip (t.grow ip e) = .ok u) :
    (∀ b, b ≠ IBLOCK (t.itable ip).inum t.sb → u.buf b = t.buf b) ∧
      u.logged = IBLOCK (t.itable ip).inum t.sb :: t.logged := by
  obtain ⟨-, rfl⟩ := iupdate_eq_ok.mp hu
  have hinum : ((t.grow ip e).itable ip).inum = (t.itable ip).inum := by rw [(stays_grow t ip e).slot ip]
  have hbuf : (t.grow ip e).buf = t.buf := by rw [FS.grow_eq]; rfl
  have hlog : (t.grow ip e).logged = t.logged := by rw [FS.grow_eq]; rfl
  constructor
  · intro b hb
    rw [← hbuf]
    refine update_of_ne ?_ _ _
    rw [hinum, (stays_grow t ip e).sb]
    exact hb
  · change IBLOCK ((t.grow ip e).itable ip).inum (t.grow ip e).sb :: (t.grow ip e).logged = _
    rw [hinum, (stays_grow t ip e).sb, hlog]

theorem WriteDone.seenByte_outside (hd : WriteDone ip src off n s tot e u) (hp : p < off ∨ e ≤ p) :
    seenByte u ip p = seenByte s ip p := by
  by_cases h0 : (s.itable ip).addr (p / BSIZE) = 0
  · rw [seenByte, seenByte, if_pos h0]
    split_ifs with hu
    · rfl
    · exact hd.fresh p hp h0 hu
  · rw [seenByte_of_ne h0, seenByte_of_ne (by rw [hd.addr _ h0]; exact h0)]
    exact hd.outside p hp h0

theorem WriteDone.shown (hd : WriteDone ip src off n s tot e u) (hlock : (s.itable ip).lock = some s.pid)
    (hsize : (s.itable ip).size.toNat ≤ NDIRECT * BSIZE) : Shown ip (seenByte u ip) u := by
  have hlock' : (u.itable ip).lock = some s.pid := by
    rw [hd.self]
    exact hlock
  refine hd.consistent.shown hlock' ?_
  have hdir := hd.direct
  rw [hd.size]
  exact Nat.max_le.mpr ⟨hsize, hdir.trans (Nat.max_le.mpr ⟨hd.off_le.trans hsize, le_rfl⟩)⟩

/-- What a read can see after a write could be seen before, unless it was written. -/
theorem WriteDone.visible (hd : WriteDone ip src off n s tot e u) (hc : Consistent u)
    (hv : (u.itable ip).addr (p / BSIZE) ≠ 0 ∨ u.free.Nonempty) {q : ℕ} (hlock : (u.itable ip).lock = some q) :
    (s.itable ip).addr (p / BSIZE) ≠ 0 ∨ s.free.Nonempty := by
  by_cases h0 : (s.itable ip).addr (p / BSIZE) = 0
  · refine Or.inr ?_
    rcases hv with hv | ⟨b, hb⟩
    · obtain ⟨hpos, hvalid⟩ := hc.table.locked ip _ hlock
      have hr := (hc.addr_range hpos hvalid hv).2
      rw [hd.sb] at hr
      exact ⟨_, mem_free.mpr ⟨hr, hd.taken _ h0 hv⟩⟩
    · obtain ⟨hlt, hfree⟩ := mem_free.mp hb
      rw [hd.sb] at hlt
      refine ⟨b, mem_free.mpr ⟨hlt, ?_⟩⟩
      by_contra hu
      rw [Bool.not_eq_false] at hu
      exact Bool.false_ne_true (hfree.symm.trans (hd.used b hlt hu))
  · exact Or.inl h0

theorem WriteDone.exact (hd : WriteDone ip src off n s tot e u) (hc : Consistent s)
    (hlock : (s.itable ip).lock = some s.pid) (hsize : (s.itable ip).size.toNat ≤ NDIRECT * BSIZE)
    (hsrc : ∀ i < tot, (src i).isSome = true)
    (hvis : ∀ p, off + tot ≤ p → p < e → p < (s.itable ip).size.toNat → (src (p - off)).getD 0 = seenByte s ip p)
    (hkept : ∀ b ∈ s.logged, b ∈ u.logged) (hlog : ∀ b, u.buf b ≠ s.buf b → b ∈ u.logged) :
    Exact ip src off s tot u where
  source := hsrc
  size := hd.size
  reads old hold := by
    have hlock' : (u.itable ip).lock = some s.pid := by
      rw [hd.self]
      exact hlock
    have hoff := hd.off_le
    have hle := hd.le
    refine Shown.sees { hd.shown hlock hsize with bytes := fun p hp hv => ?_ }
    rw [hd.size] at hp
    split_ifs with hin
    · obtain ⟨ha, hb⟩ := hd.inside p hin.1 (by omega)
      rw [seenByte_of_ne ha, hb]
    · have hps : p < (s.itable ip).size.toNat := by omega
      rw [hold.eq_seenByte (hc.shown hlock hsize) hps (hd.visible hd.consistent hv hlock')]
      by_cases hpe : off ≤ p ∧ p < e
      · obtain ⟨ha, hb⟩ := hd.inside p hpe.1 hpe.2
        rw [seenByte_of_ne ha, hb, hvis p (by omega) hpe.2 hps]
      · exact (hd.seenByte_outside (by omega)).symm
  logged disk hdisk b hb := by
    by_cases heq : u.buf b = s.buf b
    · rw [heq] at hb
      exact hkept b (hdisk b hb)
    · exact hlog b heq

theorem Progress.exact {nb : ℕ} (h : Progress ip src off s tot nb t) (hd : WriteDone ip src off n s tot (off + tot) u)
    (hc : Consistent s) (hlock : (s.itable ip).lock = some s.pid)
    (hsize : (s.itable ip).size.toNat ≤ NDIRECT * BSIZE) (hsrc : ∀ i < tot, (src i).isSome = true)
    (hu : iupdate ip (t.grow ip e) = .ok u) : Exact ip src off s tot u := by
  obtain ⟨hbuf, hlog⟩ := iupdate_grow hu
  refine hd.exact hc hlock hsize hsrc (fun p h1 h2 => absurd h2 (by omega)) (fun b hb => ?_) fun b hb => ?_
  · rw [hlog]
    exact List.mem_cons_of_mem _ (h.kept b hb)
  · rw [hlog]
    by_cases hi : b = IBLOCK (t.itable ip).inum t.sb
    · exact hi ▸ List.mem_cons_self
    · rw [hbuf b hi] at hb
      exact List.mem_cons_of_mem _ (h.tracked b hb)

end Writei

/-! ### A missing byte -/

theorem splice_same {N : ℕ} (b : ByteBlock N) (o k : ℕ) (f : ℕ → UInt8)
    (h : ∀ i < k, f i = ByteBlock.get b (o + i)) : ByteBlock.splice b o k f = b := by
  refine ByteBlock.ext_get fun i hi => ?_
  by_cases hin : o ≤ i ∧ i < o + k
  · rw [ByteBlock.get_splice_of_mem _ _ hi hin.1 hin.2, h _ (by omega)]
    congr 1
    omega
  · exact ByteBlock.get_splice_of_not_mem _ _ (by omega)

section Cut

variable {ip : Slot} {src : Source} {off n tot nb m e p : ℕ} {s t u : FS}

theorem CutAt.block_supply (h : CutAt ip src off n s tot nb m t) : (off + supply src n) / BSIZE = nb := by
  have hsame := h.same
  rw [h.supplied, h.block]
  rw [show BSIZE = 1024 from rfl] at *
  omega

theorem CutAt.mem_iff (h : CutAt ip src off n s tot nb m t) :
    (off ≤ p ∧ p < off + supply src n ∧ p / BSIZE = nb) ↔ (off + tot ≤ p ∧ p < off + supply src n) := by
  have hsame := h.same
  have hal := h.aligned
  rw [h.supplied, h.block]
  rw [show BSIZE = 1024 from rfl] at *
  omega

theorem CutAt.gets (h : CutAt ip src off n s tot nb m t) : Gets s ip src off n nb := by
  have hdm := Nat.div_add_mod' (off + tot) BSIZE
  have hcount := h.progress.count
  have hmiss := h.missing
  have hsup := h.supplied
  refine ⟨by omega, ?_, ?_⟩
  · rw [h.block]
    omega
  · rw [Nat.min_eq_left h.first]
    omega

theorem CutAt.fill_same (h : CutAt ip src off n s tot nb m t) (hs : (s.itable ip).addr nb ≠ 0)
    (hbuf : t.buf ((t.itable ip).addr nb) = s.buf ((t.itable ip).addr nb))
    (heq : ∀ p, off + tot ≤ p → p < off + supply src n → (src (p - off)).getD 0 = fileByte s ip p) :
    (t.fill ((t.itable ip).addr nb) src tot m ((off + tot) % BSIZE)).buf ((t.itable ip).addr nb) =
      s.buf ((t.itable ip).addr nb) := by
  have haddr := h.progress.written.addr nb hs
  change update t.buf _ _ _ = _
  rw [update_self, hbuf]
  refine splice_same _ _ _ _ fun i hi => ?_
  have hsame := h.same
  have hp : (off + (tot + i)) / BSIZE = nb ∧ (off + (tot + i)) % BSIZE = (off + tot) % BSIZE + i := by
    rw [h.block]
    rw [show BSIZE = 1024 from rfl] at *
    omega
  have hsup := h.supplied
  have hbyte := heq (off + (tot + i)) (by omega) (by omega)
  rw [Nat.add_sub_cancel_left] at hbyte
  rw [hbyte, fileByte, hp.1, hp.2, haddr]

/-- A missing byte does no harm if nothing changes unreported. -/
theorem CutAt.exact (h : CutAt ip src off n s tot nb m t) (hc : Consistent s)
    (hlock : (s.itable ip).lock = some s.pid) (hsize : (s.itable ip).size.toNat ≤ NDIRECT * BSIZE)
    (hno : ¬ Unreported s ip src off n) (hd : WriteDone ip src off n s tot (off + supply src n) u)
    (hu : iupdate ip ((t.fill ((t.itable ip).addr nb) src tot m ((off + tot) % BSIZE)).grow ip e) = .ok u) :
    Exact ip src off s tot u := by
  obtain ⟨hbuf, hlog⟩ := iupdate_grow hu
  -- a byte that changes is behind the end of the file, and its block is new or in the log
  have hbyte : ∀ p, off + tot ≤ p → p < off + supply src n →
      (p < (s.itable ip).size.toNat ∨ (s.itable ip).addr nb ≠ 0 ∧ (s.itable ip).addr nb ∉ s.logged) →
      (src (p - off)).getD 0 = seenByte s ip p := by
    intro p h1 h2 hor
    by_contra hne
    obtain ⟨h3, -, h4⟩ := h.mem_iff.mpr ⟨h1, h2⟩
    refine hno ⟨h.missing, h.block_supply.symm ▸ h.gets, p, h3, h2, h4.trans h.block_supply.symm, hne, ?_⟩
    rwa [h4]
  refine hd.exact hc hlock hsize h.source (fun p h1 h2 h3 => hbyte p h1 h2 (Or.inl h3)) (fun b hb => ?_)
    fun b hb => ?_
  · rw [hlog]
    exact List.mem_cons_of_mem _ (h.progress.kept b hb)
  · rw [hlog]
    by_cases hi : b = IBLOCK (t.itable ip).inum t.sb
    · exact hi ▸ List.mem_cons_self
    · refine List.mem_cons_of_mem _ ?_
      rw [hbuf b hi] at hb
      by_cases ha : b = (t.itable ip).addr nb
      · subst ha
        by_contra hnot
        -- the block was there and is not in the log, so nothing changes in it
        have hs : (s.itable ip).addr nb ≠ 0 := fun h0 =>
          hnot (h.progress.fresh nb h.first (Nat.lt_succ_self nb) h0)
        have haddr : (t.itable ip).addr nb = (s.itable ip).addr nb := h.progress.written.addr nb hs
        have hold : t.buf ((t.itable ip).addr nb) = s.buf ((t.itable ip).addr nb) := by
          by_contra hne
          exact hnot (h.progress.tracked _ hne)
        refine hb (h.fill_same hs hold fun p h1 h2 => ?_)
        obtain ⟨-, -, h4⟩ := h.mem_iff.mpr ⟨h1, h2⟩
        rw [hbyte p h1 h2 (Or.inr ⟨hs, fun hmem => hnot (h.progress.kept _ (haddr ▸ hmem))⟩)]
        exact seenByte_of_ne (by rwa [h4])
      · refine h.progress.tracked b fun heq => hb (Eq.trans ?_ heq)
        exact update_of_ne ha _ _

/-- A byte that changes unreported is seen by a read, or its block is not in the log. -/
theorem CutAt.not_exact (h : CutAt ip src off n s tot nb m t) (hc : Consistent s)
    (hlock : (s.itable ip).lock = some s.pid) (hsize : (s.itable ip).size.toNat ≤ NDIRECT * BSIZE)
    (hun : Unreported s ip src off n) (hd : WriteDone ip src off n s tot (off + supply src n) u)
    (hu : iupdate ip ((t.fill ((t.itable ip).addr nb) src tot m ((off + tot) % BSIZE)).grow ip e) = .ok u) :
    ¬ Exact ip src off s tot u := by
  obtain ⟨hpos, hv⟩ := hc.table.locked ip _ hlock
  obtain ⟨-, -, p, h1, h2, h3, hne, hor⟩ := hun
  rw [h.block_supply] at h3
  obtain ⟨h4, -⟩ := h.mem_iff.mp ⟨h1, h2, h3⟩
  obtain ⟨hua, hnew⟩ := hd.inside p h1 h2
  intro hex
  rcases hor with hps | ⟨hs, hlog⟩
  · -- a read of the file sees the byte
    have hpu : p < (u.itable ip).size.toNat := by
      have := hd.size
      omega
    have hsee := (hex.reads _ (hc.shown hlock hsize).sees).eq_seenByte (hd.shown hlock hsize) hpu (Or.inl hua)
    rw [if_neg (by omega), seenByte_of_ne hua, hnew] at hsee
    exact hne hsee.symm
  · -- the buffer differs from a disk that was up to date
    have haddr : (u.itable ip).addr (p / BSIZE) = (s.itable ip).addr (p / BSIZE) := hd.addr _ hs
    have hbuf : u.buf ((s.itable ip).addr (p / BSIZE)) ≠ s.buf ((s.itable ip).addr (p / BSIZE)) := by
      intro heq
      refine hne (hnew.symm.trans ?_)
      rw [seenByte_of_ne hs, fileByte, fileByte, haddr, heq]
    have hmem := hex.logged s.buf (fun b hb => absurd rfl hb) _ hbuf
    obtain ⟨hlo, hhi⟩ := hc.addr_range hpos hv hs
    rw [(iupdate_grow hu).2] at hmem
    have hE := (hc.editable hpos hv).frame h.progress.written.frame
    rw [h3] at hmem hs hlog hlo hhi
    rcases List.mem_cons.mp hmem with hi | hmem
    · rw [← h.progress.written.frame.sb] at hlo hhi
      exact (hE.layout.inode_lt (record_lt hE.inum_lt) hlo hhi).ne' hi
    · exact h.quiet hs hlog hmem

end Cut

/-! ### The theorem -/

section Theorem

variable {ip : Slot} {src : Source} {off n : ℕ} {s : FS}

theorem Progress.not_unreported {tot nb : ℕ} {t : FS} (h : Progress ip src off s tot nb t)
    (hsrc : ∀ i < tot, (src i).isSome = true) (hlt : tot < n) (hblock : nb = (off + tot) / BSIZE)
    (hunset : (s.itable ip).addr nb = 0) (hex : t.free = ∅) : ¬ Unreported s ip src off n := by
  rintro ⟨-, ⟨-, -, hfree⟩, -⟩
  have hle : nb ≤ (off + supply src n) / BSIZE := by
    rw [hblock]
    exact Nat.div_le_div_right (Nat.add_le_add_left (le_supply hsrc hlt.le) off)
  -- one more address is not set than there are free blocks
  have hmono : (s.itable ip).lacking (off / BSIZE) (nb + 1) ≤
      (s.itable ip).lacking (off / BSIZE) ((off + supply src n) / BSIZE + 1) := lacking_mono _ (Nat.succ_le_succ hle)
  have hcount := h.count
  rw [hex, Finset.card_empty] at hcount
  rw [lacking_succ _ h.first, if_pos hunset] at hmono
  rw [Nat.min_eq_left (h.first.trans hle)] at hfree
  omega

/-- A call that does not get to the indirect block is exact unless a byte changes unreported. -/
theorem exactCall_iff (hc : Consistent s) (hlock : (s.itable ip).lock = some s.pid)
    (hsize : (s.itable ip).size.toNat ≤ NDIRECT * BSIZE) (hacc : ¬ Refused s ip off n)
    (hno : ¬ Gets s ip src off n NDIRECT) : ExactCall ip src off n s ↔ ¬ Unreported s ip src off n := by
  obtain ⟨hpos, hv⟩ := hc.table.locked ip _ hlock
  have hE := hc.editable hpos hv
  have hoff : off ≤ (s.itable ip).size.toNat := not_lt.mp fun hlt => hacc (Or.inl hlt)
  have hmax : off + n ≤ MAXFILE * BSIZE := not_lt.mp fun hlt => hacc (Or.inr (Or.inr hlt))
  obtain ⟨tot, t, hrun, hends⟩ :=
    (writeLoop_begin hc hlock src n (hoff.trans hsize)).resolve_right fun h => hno h.1
  have hst : Stays s t := (writeLoop_stays ip src n n 0 off s).of_eq_ok hrun
  obtain ⟨u, hu, hcall⟩ := writei_accepted hacc hlock hst hrun
  have hexact : ExactCall ip src off n s ↔ Exact ip src off s tot u := by
    constructor
    · rintro ⟨r, t', heq, hres⟩
      cases hcall.symm.trans heq
      rcases hres with ⟨h1, -⟩ | ⟨tot', h1, h2⟩
      · cases h1
      · cases h1
        exact h2
    · exact fun hex => ⟨_, u, hcall, Or.inr ⟨tot, rfl, hex⟩⟩
  rw [hexact]
  cases hends with
  | all hp hsrc =>
    have hloop : LoopDone ip src off n s n t (off + n) :=
      ⟨hp.written, le_rfl, le_rfl, Or.inr (Or.inr rfl), fun _ => rfl⟩
    refine iff_of_true (hp.exact (hloop.finish hc hlock hoff hmax hp.bound hu) hc hlock hsize hsrc hu) fun hun => ?_
    have hle := le_supply hsrc le_rfl
    have hlt := hun.1
    omega
  | full hp hsrc hlt hblock hal hunset hex =>
    have hloop : LoopDone ip src off n s tot t (off + tot) :=
      ⟨hp.written, le_rfl, by omega, hal.imp_right Or.inl, fun _ => rfl⟩
    refine iff_of_true (hp.exact (hloop.finish hc hlock hoff hmax hp.bound hu) hc hlock hsize hsrc hu) fun hun => ?_
    exact hp.not_unreported hsrc hlt hblock hunset hex hun
  | cut hcut =>
    have hd := (hcut.loopDone hE).finish hc hlock hoff hmax hcut.progress.bound hu
    exact ⟨fun hex hun => hcut.not_exact hc hlock hsize hun hd hu hex,
      fun hno => hcut.exact hc hlock hsize hno hd hu⟩

/-- **When a write changes exactly what it reports.** For a locked inode in a consistent file system, and every
offset, length and source: a write that is refused does nothing. A write to a file of direct blocks that does not
get to the indirect block is exact if no byte changes unreported, and only then. -/
theorem writei_exact_iff (hc : Consistent s) (hlock : (s.itable ip).lock = some s.pid) (src : Source) (off n : ℕ) :
    (Refused s ip off n ∨ ((s.itable ip).size.toNat ≤ NDIRECT * BSIZE ∧ ¬ Gets s ip src off n NDIRECT ∧
        ¬ Unreported s ip src off n) → ExactCall ip src off n s) ∧
    ((s.itable ip).size.toNat ≤ NDIRECT * BSIZE → ¬ Gets s ip src off n NDIRECT →
      ExactCall ip src off n s → Refused s ip off n ∨ ¬ Unreported s ip src off n) := by
  constructor
  · intro h
    by_cases href : Refused s ip off n
    · exact ⟨none, s, writei_refused href, Or.inl ⟨rfl, rfl⟩⟩
    · obtain ⟨hsize, hno, hun⟩ := h.resolve_left href
      exact (exactCall_iff hc hlock hsize href hno).mpr hun
  · intro hsize hno hex
    by_cases href : Refused s ip off n
    · exact Or.inl href
    · exact Or.inr ((exactCall_iff hc hlock hsize href hno).mp hex)

end Theorem

/-! ### A short file -/

open Contents

/-- Write eight bytes to the new file, in a transaction that is committed. -/
def newShort : Except Panic FS := do
  let s ← ilock firstSlot fileFS
  let (_, s) ← writei firstSlot (kernelSrc fun _ => 1) 0 8 s
  .ok { s with logged := [] }

/-- The small file system with a file of eight bytes in the first slot, which is locked. -/
def shortFS : FS := newShort.toOption.getD smallFS

theorem newShort_eq : newShort = .ok shortFS := by
  have h : newShort.toOption.isSome = true := by decide
  rw [shortFS]
  cases hn : newShort with
  | ok s => rfl
  | error e =>
    rw [hn] at h
    cases h

theorem consistent_shortFS : Consistent shortFS := by
  obtain ⟨s₁, h1, hn⟩ := Loop.bind_eq_ok.mp newShort_eq
  obtain ⟨⟨r, s₂⟩, h2, h3⟩ := Loop.bind_eq_ok.mp hn
  have hquirks : shortFS.quirks = [] := by decide
  obtain ⟨hpos, hv⟩ := holding_fileFS.live firstSlot rfl
  have hc : Consistent s₁ := holding_fileFS.consistent.ilock (holding_fileFS.consistent.table.range _ hpos hv) h1
  rw [← Except.ok.inj h3] at hquirks ⊢
  have hc₂ : Consistent s₂ := (hc.writei).of_eq_ok h2 hquirks
  exact ⟨{ hc₂.table with }, hc₂.owned, hc₂.small⟩

/-- A source of which three bytes are mapped. -/
def threeBytes : Source := fun i => if i < 3 then some 7 else none

theorem writei_exact_iff_short :
    Consistent shortFS ∧ (shortFS.itable firstSlot).lock = some shortFS.pid ∧
    ExactCall firstSlot threeBytes 0 3 shortFS := by
  have hlock : (shortFS.itable firstSlot).lock = some shortFS.pid := by decide
  refine ⟨consistent_shortFS, hlock, (writei_exact_iff consistent_shortFS hlock threeBytes 0 3).1
    (Or.inr ⟨by decide, ?_, ?_⟩)⟩
  · rintro ⟨-, h, -⟩
    exact absurd h (by decide)
  · rintro ⟨h, -⟩
    exact absurd h (by decide)

/-- A write of eight bytes over the file, of which the source has three. It reports no byte; but three bytes of
the file have changed, in a block that is not in the log. -/
theorem unreported_bytes :
    (writei firstSlot threeBytes 0 8 shortFS).map (fun x => (x.1, x.2.logged,
      (readi firstSlot kernelDst 0 8 shortFS).map (fun y => y.1.2),
      (readi firstSlot kernelDst 0 8 x.2).map (fun y => y.1.2))) =
      .ok (some 0, [32], .ok [1, 1, 1, 1, 1, 1, 1, 1], .ok [7, 7, 7, 1, 1, 1, 1, 1]) ∧
    ¬ ExactCall firstSlot threeBytes 0 8 shortFS := by
  refine ⟨by decide, ?_⟩
  have hlock : (shortFS.itable firstSlot).lock = some shortFS.pid := by decide
  have hsize : (shortFS.itable firstSlot).size.toNat = 8 := by decide
  have hbyte : (shortFS.itable firstSlot).addr 0 ≠ 0 ∧ fileByte shortFS firstSlot 0 = 1 := by decide
  have hsup : supply threeBytes 8 = 3 := by decide
  rw [exactCall_iff consistent_shortFS hlock (by rw [hsize]; decide), not_not]
  · refine ⟨by rw [hsup]; decide, ⟨by decide, ?_, ?_⟩, 0, le_rfl, ?_, ?_, ?_, Or.inl ?_⟩
    · rw [hsup]
      decide
    · -- the block is there
      rw [hsup]
      change (shortFS.itable firstSlot).lacking 0 1 ≤ _
      rw [lacking_succ _ le_rfl, lacking_self, if_neg hbyte.1]
      exact Nat.zero_le _
    · rw [hsup]
      decide
    · rw [hsup]
      decide
    · rw [seenByte_of_ne hbyte.1, hbyte.2]
      decide
    · rw [hsize]
      decide
  · rintro (h | h | h)
    · omega
    · exact absurd h (by decide)
    · exact absurd h (by decide)
  · rintro ⟨-, h, -⟩
    exact absurd h (by decide)

end RiscvOs.Fs
