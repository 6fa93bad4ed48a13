import RiscvOs.Sys.Balance
import RiscvOs.Sys.Offset

set_option autoImplicit false

/-!
# The lengths of transfers (`kernel/disk/file.c`)

`fileread` and `filewrite` get the length as an `int`. `filewrite` does nothing for a length that is not
positive. `fileread` passes the length on to `readi`, whose parameter is a `uint`: a negative length becomes
a large one, which is cut down to the end of the file unless the sum with the offset wraps.

## Main results

* `bmap_ne_zero_iff` — when `bmap` returns a block.
* `transfer_lengths_iff` — when the lengths are respected.
-/

namespace RiscvOs.Sys.Lengths

open Fs Loop Balance

/-- The value of the `uint` that `readi` or `writei` returns as an `int`; `none` is `-1`. -/
def intValue : Option ℕ → ℤ
  | none => -1
  | some r => Int.bmod r (2 ^ 32)

/-- A read of `n` bytes has respected its length: it has written at most `max n 0` bytes, which are the
first ones at the address, it has returned at most that, and the offset has advanced by the result if that
is positive. -/
structure Respected (f f' : File) (n : ℤ) (r : Option ℕ) (bytes : List UInt8) : Prop where
  written : (bytes.length : ℤ) ≤ max n 0
  returned : intValue r ≤ max n 0
  offset : (f'.off.toNat : ℤ) = f.off.toNat + max (intValue r) 0

/-- There is a free block, and the first one is not block 0. -/
def HasFree (s : FS) : Prop := s.used 0 = true ∧ ∃ b < s.sb.size, s.used b = false

/-- `b` is the first free block. -/
def FirstFree (s : FS) (b : ℕ) : Prop :=
  b < s.sb.size ∧ s.used b = false ∧ ∀ c < b, s.used c = true

/-- Block `bn` of a file with the record `d` is there or can be allocated. Behind the direct blocks a word of
the buffer of the indirect block is looked at, which may have to be allocated first. -/
def Obtainable (s : FS) (d : Dinode) (bn : ℕ) : Prop :=
  if bn < NDIRECT then d.addr bn ≠ 0 ∨ HasFree s
  else if d.addr NDIRECT ≠ 0 then bufWord s (d.addr NDIRECT) (bn - NDIRECT) ≠ 0 ∨ HasFree s
  else ∃ b, b ≠ 0 ∧ FirstFree s b ∧ (bufWord (s.take b) b (bn - NDIRECT) ≠ 0 ∨ HasFree (s.take b))

/-- The length is negative, the offset is before the end of the file and so far from 0 that the sum does not
wrap, and the first byte can be delivered. -/
def Overreads (s : FS) (f : File) (dst : Dest) (n : ℤ) : Prop :=
  f.readable = true ∧ n < 0 ∧ (f.off.toNat : ℤ) < -n ∧ f.off.toNat < (record s f.ip).size.toNat ∧
    Obtainable s (record s f.ip) (f.off.toNat / BSIZE) ∧ dst 0 = true

/-! ## When `bmap` returns a block -/

section Bmap

variable {s t : FS} {ip : Slot} {a bn : ℕ}

theorem balloc_ne_zero_iff (s : FS) : (balloc s).1 ≠ 0 ↔ HasFree s := by
  rcases balloc_cases s with ⟨b, hb, hfree, hleast, heq⟩ | ⟨hfull, heq⟩
  · rw [heq]
    constructor
    · intro hne
      exact ⟨hleast 0 (Nat.pos_of_ne_zero hne), b, hb, hfree⟩
    · rintro ⟨hzero, -⟩ rfl
      rw [hfree] at hzero
      cases hzero
  · rw [heq]
    refine iff_of_false (fun hne => hne rfl) ?_
    rintro ⟨-, b, hb, hfree⟩
    rw [hfull b hb] at hfree
    cases hfree

theorem mapAddr_ne_zero_iff (ip : Slot) (k : ℕ) (s : FS) :
    (mapAddr ip k s).1 ≠ 0 ↔ (s.itable ip).addr k ≠ 0 ∨ HasFree s := by
  rw [← balloc_ne_zero_iff, mapAddr]
  split_ifs with h0
  · cases hb : balloc s with
    | mk b u => cases b <;> simp [h0]
  · simp [h0]

theorem mapEntry_ne_zero_iff (b k : ℕ) (s : FS) :
    (mapEntry b k s).1 ≠ 0 ↔ bufWord s b k ≠ 0 ∨ HasFree s := by
  rw [← balloc_ne_zero_iff, mapEntry]
  split_ifs with h0
  · cases hb : balloc s with
    | mk c u => cases c <;> simp [h0]
  · have hne : (bufWord s b k).toNat ≠ 0 := fun hc => h0 (UInt32.toNat_inj.mp (hc.trans UInt32.toNat_zero.symm))
    simp [h0, hne]

theorem mapAddr_first {k b : ℕ} {u : FS} (h : mapAddr ip k s = (b + 1, u))
    (h0 : (s.itable ip).addr k = 0) :
    FirstFree s (b + 1) ∧ u = (s.take (b + 1)).setAddr ip k (b + 1) := by
  rw [mapAddr, if_pos h0] at h
  rcases balloc_cases s with ⟨c, hc, hfree, hleast, heq⟩ | ⟨-, heq⟩
  · rw [heq] at h
    cases c with
    | zero => cases h
    | succ c =>
      cases h
      exact ⟨⟨hc, hfree, hleast⟩, rfl⟩
  · rw [heq] at h
    cases h

theorem FirstFree.eq {b c : ℕ} (h : FirstFree s b) (h' : FirstFree s c) : b = c := by
  rcases Nat.lt_trichotomy b c with hlt | heq | hlt
  · have hused := h'.2.2 b hlt
    rw [h.2.1] at hused
    cases hused
  · exact heq
  · have hused := h.2.2 c hlt
    rw [h'.2.1] at hused
    cases hused

/-- **When `bmap` returns a block.** -/
theorem bmap_ne_zero_iff (h : bmap ip bn s = .ok (a, t)) :
    a ≠ 0 ↔ Obtainable s (s.itable ip).toDinode bn := by
  unfold bmap at h
  unfold Obtainable
  by_cases hbn : bn < NDIRECT
  · rw [if_pos hbn] at h ⊢
    have heq := Except.ok.inj h
    rw [← mapAddr_ne_zero_iff, heq]
  · rw [if_neg hbn] at h ⊢
    split_ifs at h with hin
    have hfirst := mapAddr_ne_zero_iff ip NDIRECT s
    cases hm : mapAddr ip NDIRECT s with
    | mk b u =>
      rw [hm] at h hfirst
      by_cases haddr : (s.itable ip).addr NDIRECT = 0
      · rw [if_neg (not_not.mpr haddr)]
        cases b with
        | zero =>
          cases h
          refine iff_of_false (fun hne => hne rfl) ?_
          rintro ⟨b, hb, ⟨hlt, hfree, hleast⟩, -⟩
          exact absurd rfl (hfirst.mpr (Or.inr ⟨hleast 0 (Nat.pos_of_ne_zero hb), b, hlt, hfree⟩))
        | succ b =>
          obtain ⟨hff, rfl⟩ := mapAddr_first hm haddr
          -- the recorded branch is not looked at
          have hentry := mapEntry_ne_zero_iff (b + 1) (bn - NDIRECT)
            (((s.take (b + 1)).setAddr ip NDIRECT (b + 1)).note .indirect)
          rw [Except.ok.inj h] at hentry
          refine hentry.trans ⟨fun hor => ⟨b + 1, Nat.succ_ne_zero b, hff, hor⟩, ?_⟩
          rintro ⟨c, -, hc, hor⟩
          obtain rfl := FirstFree.eq hc hff
          exact hor
      · rw [if_pos haddr]
        have hmap := mapAddr_of_ne haddr
        rw [hm] at hmap
        obtain ⟨rfl, rfl⟩ := Prod.mk.inj hmap
        cases hb : (u.itable ip).addr NDIRECT with
        | zero => exact absurd hb haddr
        | succ b =>
          rw [hb] at h
          have hentry := mapEntry_ne_zero_iff (b + 1) (bn - NDIRECT) (u.note .indirect)
          rw [Except.ok.inj h] at hentry
          exact hentry

theorem obtainable_congr {d : Dinode} (hsb : t.sb = s.sb) (hbuf : t.buf = s.buf) (hhdr : t.hdr = s.hdr) :
    Obtainable t d bn ↔ Obtainable s d bn := by
  obtain ⟨sb, buf, hdr, itable, pid, logged, quirks⟩ := t
  obtain rfl : sb = s.sb := hsb
  obtain rfl : buf = s.buf := hbuf
  obtain rfl : hdr = s.hdr := hhdr
  exact Iff.rfl

theorem bmap_noteHole_ne_zero_iff (h : bmap ip bn (s.noteHole ip bn) = .ok (a, t)) :
    a ≠ 0 ↔ Obtainable s (s.itable ip).toDinode bn := by
  obtain ⟨q, hq⟩ := noteHole_eq s ip bn
  rw [hq] at h
  exact (bmap_ne_zero_iff h).trans (obtainable_congr rfl rfl rfl)

end Bmap

/-! ## What `readi` delivers -/

section Reading

variable {s t : FS} {ip : Slot} {dst : Dest} {n fuel tot off : ℕ} {r : Option ℕ} {out bytes : List UInt8}

theorem copyLen_pos {pos m : ℕ} (hm : 0 < m) (h : dst pos = true) : 0 < copyLen dst pos m := by
  obtain ⟨m, rfl⟩ : ∃ k, m = k + 1 := ⟨m - 1, by omega⟩
  rw [copyLen_succ, if_pos h]
  exact Nat.succ_pos _

theorem copyLen_zero {pos m : ℕ} (h : dst pos = false) : copyLen dst pos m = 0 :=
  copyLen_unique (Nat.zero_le m) (fun i hi => absurd hi (Nat.not_lt_zero i)) fun _ => h

/-- The first round decides whether anything is delivered. -/
theorem readLoop_first (hn : 0 < n) (h : readLoop ip dst n (fuel + 1) 0 off [] s = .ok ((r, bytes), t)) :
    (Obtainable s (s.itable ip).toDinode (off / BSIZE) ∧ dst 0 = true ∧ bytes ≠ []) ∨
      (¬ (Obtainable s (s.itable ip).toDinode (off / BSIZE) ∧ dst 0 = true) ∧
        bytes = [] ∧ (r = none ∨ r = some 0)) := by
  rw [readLoop, if_pos hn] at h
  obtain ⟨⟨a, u⟩, hb, h⟩ := bind_eq_ok.mp h
  have hiff := bmap_noteHole_ne_zero_iff hb
  have hpos := chunk_pos off hn
  have hlen := eitherCopyout_length dst 0 (chunk 0 off n) (off % BSIZE) (u.buf a)
  dsimp only at h
  by_cases ha : a = 0
  · rw [if_pos ha] at h
    cases h
    exact Or.inr ⟨fun hc => hiff.mpr hc.1 ha, rfl, Or.inr rfl⟩
  · rw [if_neg ha] at h
    by_cases hdst : dst 0 = true
    · have hcopy := copyLen_pos hpos hdst
      refine Or.inl ⟨hiff.mp ha, hdst, fun hnil => ?_⟩
      split_ifs at h
      · have hpre := (readLoop_append h).length_le
        rw [List.nil_append, hlen, hnil, List.length_nil] at hpre
        omega
      · cases h
        rw [List.nil_append] at hnil
        rw [hnil, List.length_nil] at hlen
        omega
    · have hcopy := copyLen_zero (m := chunk 0 off n) (Bool.eq_false_iff.mpr hdst)
      have hno : (eitherCopyout dst 0 (chunk 0 off n) (off % BSIZE) (u.buf a)).2 ≠ true := by
        intro hok
        have hall : copyLen dst 0 (chunk 0 off n) = chunk 0 off n := beq_iff_eq.mp hok
        omega
      rw [if_neg hno] at h
      cases h
      rw [hcopy] at hlen
      refine Or.inr ⟨fun hc => hdst hc.2, ?_, Or.inl rfl⟩
      rw [List.nil_append, List.length_eq_zero_iff.mp hlen]

theorem intValue_some {r : ℕ} (h : r < 2 ^ 31) : intValue (some r) = r := by
  unfold intValue
  dsimp only
  rw [Int.bmod_def]
  push_cast
  split_ifs <;> omega

theorem intValue_neg {r : ℕ} (h : 2 ^ 31 ≤ r) (h' : r < 2 ^ 32) : intValue (some r) < 0 := by
  unfold intValue
  dsimp only
  rw [Int.bmod_def]
  split_ifs <;> omega

theorem readi_result_lt {r : ℕ} (hoff : off < 2 ^ 32) (h : readi ip dst off n s = .ok ((some r, bytes), t)) :
    off + r < 2 ^ 32 := by
  have hsize := (s.itable ip).size.toNat_lt
  rcases Nat.eq_zero_or_pos r with rfl | hpos
  · exact hoff
  · have := ((readi_length h).2 r rfl).2 hpos
    omega

theorem readi_negative {m : ℕ} (hm : off + m < 2 ^ 32) (hpos : 0 < m) (hoff : off < (s.itable ip).size.toNat)
    (h : readi ip dst off m s = .ok ((r, bytes), t)) :
    (Obtainable s (s.itable ip).toDinode (off / BSIZE) ∧ dst 0 = true ∧ bytes ≠ []) ∨
      (¬ (Obtainable s (s.itable ip).toDinode (off / BSIZE) ∧ dst 0 = true) ∧
        bytes = [] ∧ (r = none ∨ r = some 0)) := by
  rw [readi, Nat.mod_eq_of_lt hm, if_neg (by omega)] at h
  obtain ⟨len, hlen, hlen0⟩ : ∃ len, (if (s.itable ip).size.toNat < off + m then
      (s.itable ip).size.toNat - off else m) = len + 1 ∧ 0 < len + 1 := by
    split_ifs
    · exact ⟨(s.itable ip).size.toNat - off - 1, by omega, by omega⟩
    · exact ⟨m - 1, by omega, by omega⟩
  rw [hlen] at h
  exact readLoop_first hlen0 h

theorem readi_nothing {m : ℕ} (hm : (s.itable ip).size.toNat ≤ off ∨ (off + m) % 2 ^ 32 < off)
    (h : readi ip dst off m s = .ok ((r, bytes), t)) : bytes = [] ∧ r = some 0 := by
  unfold readi at h
  by_cases hout : (s.itable ip).size.toNat < off ∨ (off + m) % 2 ^ 32 < off
  · rw [if_pos hout] at h
    cases h
    exact ⟨rfl, rfl⟩
  · rw [if_neg hout] at h
    have hlen : (if (s.itable ip).size.toNat < off + m then (s.itable ip).size.toNat - off else m) = 0 := by
      split_ifs <;> omega
    rw [hlen] at h
    cases h
    exact ⟨rfl, rfl⟩

/-- **When `readi` respects the length** that `fileread` was given. -/
theorem readi_respects_iff {m : ℤ} (hm : -2 ^ 31 ≤ m ∧ m < 2 ^ 31) (hoff : off < 2 ^ 32)
    (h : readi ip dst off (asUint m) s = .ok ((r, bytes), t)) :
    ((bytes.length : ℤ) ≤ max m 0 ∧ intValue r ≤ max m 0) ↔
      ¬ (m < 0 ∧ (off : ℤ) < -m ∧ off < (s.itable ip).size.toNat ∧
        Obtainable s (s.itable ip).toDinode (off / BSIZE) ∧ dst 0 = true) := by
  have hnone : intValue none = -1 := rfl
  have hzero : intValue (some 0) = 0 := rfl
  by_cases hpos : 0 ≤ m
  · -- the length is what it was
    have hval : asUint m = m.toNat := by
      unfold asUint
      omega
    obtain ⟨hbytes, hret⟩ := readi_length h
    refine iff_of_true ⟨by omega, ?_⟩ fun hc => by omega
    cases r with
    | none => omega
    | some r' =>
      have hlen := (hret r' rfl).1
      rw [intValue_some (by omega)]
      omega
  · have hval : (asUint m : ℤ) = 2 ^ 32 + m := by
      unfold asUint
      omega
    by_cases hread : (off : ℤ) < -m ∧ off < (s.itable ip).size.toNat
    · rcases readi_negative (by omega) (by omega) hread.2 h with ⟨hob, hdst, hne⟩ | ⟨hno, rfl, hr⟩
      · refine iff_of_false (fun hc => ?_) fun hc => hc ⟨by omega, hread.1, hread.2, hob, hdst⟩
        have hlen := List.length_pos_iff.mpr hne
        omega
      · refine iff_of_true ⟨by simp, ?_⟩ fun hc => hno hc.2.2.2
        rcases hr with rfl | rfl
        · omega
        · omega
    · obtain ⟨rfl, rfl⟩ := readi_nothing (by omega) h
      refine iff_of_true ⟨by simp, by omega⟩ fun hc => hread ⟨hc.2.1, hc.2.2.1⟩

end Reading

/-! ## The theorem -/

section Transfers

variable {k k' : Kernel} {devsw : DevSw} {f : FileNo} {dst : Dest} {n : ℤ} {r : Option ℕ} {bytes : List UInt8}

theorem advance_off (v : File) (hr : ∀ r', r = some r' → v.off.toNat + r' < 2 ^ 32) :
    ((v.advance r).off.toNat : ℤ) = v.off.toNat + max (intValue r) 0 := by
  cases r with
  | none => exact (add_zero _).symm
  | some r' =>
    have hlt := hr r' rfl
    unfold File.advance
    dsimp only
    split_ifs with hpos
    · rw [intValue_some hpos.2, UInt32.toNat_add, UInt32.toNat_ofNat']
      omega
    · rcases Nat.eq_zero_or_pos r' with rfl | hp
      · exact (add_zero _).symm
      · have := intValue_neg (r := r') (by omega) (by omega)
        omega

/-- **When a read respects its length.** -/
theorem fileread_respected_iff (hty : (k.file f).type = .inode) (hn : -2 ^ 31 ≤ n ∧ n < 2 ^ 31)
    (h : fileread devsw f dst n k = .ok ((r, bytes), k')) :
    Respected (k.file f) (k'.file f) n r bytes ↔ ¬ Overreads k.fs (k.file f) dst n := by
  unfold fileread at h
  by_cases hread : (k.file f).readable = false
  · rw [if_pos hread] at h
    cases h
    refine iff_of_true ⟨by simp, ?_, (add_zero _).symm⟩ fun hc => ?_
    · change (-1 : ℤ) ≤ _
      omega
    · exact Bool.false_ne_true (hread.symm.trans hc.1)
  · rw [if_neg hread, hty] at h
    obtain ⟨⟨⟨r', bytes', v⟩, k₁⟩, hcall, h⟩ := bind_eq_ok.mp h
    cases h
    obtain ⟨s, hs, rfl⟩ := call_eq_ok hcall
    unfold readInode at hs
    obtain ⟨s₁, h₁, hs⟩ := bind_eq_ok.mp hs
    obtain ⟨⟨⟨r', bytes'⟩, s₂⟩, h₂, hs⟩ := bind_eq_ok.mp hs
    obtain ⟨s₃, h₃, hs⟩ := bind_eq_ok.mp hs
    cases hs
    obtain ⟨hrec, hsb, hbuf, hhdr, -⟩ := ilock_record h₁
    have hoff := (k.file f).off.toNat_lt
    have hiff := readi_respects_iff hn hoff h₂
    rw [hrec, obtainable_congr hsb hbuf hhdr] at hiff
    have hfile : ((k.enter s).setFile f ((k.file f).advance r)).file f = (k.file f).advance r :=
      Function.update_self ..
    have hadvance := advance_off (r := r) (k.file f) fun r' hr' => by
      subst hr'
      exact readi_result_lt hoff h₂
    rw [hfile]
    refine ⟨fun hresp hover => hiff.mp ⟨hresp.written, hresp.returned⟩ hover.2, fun hno => ?_⟩
    obtain ⟨hw, hret⟩ := hiff.mpr fun hc => hno ⟨by simpa using hread, hc⟩
    exact ⟨hw, hret, hadvance⟩

theorem filewrite_nonpos (hty : (k.file f).type = .inode) (hn : n ≤ 0) (src : Source) :
    ∃ r, filewrite devsw f src n k = .ok (r, k) ∧ intValue r ≤ 0 := by
  unfold filewrite
  by_cases hw : (k.file f).writable = false
  · exact ⟨none, if_pos hw, by decide⟩
  · rw [if_neg hw, hty, Int.toNat_of_nonpos hn]
    by_cases h0 : n = 0
    · subst h0
      exact ⟨some 0, rfl, by decide⟩
    · refine ⟨none, ?_, by decide⟩
      change (Except.ok (if ((0 : ℕ) : ℤ) = n then some 0 else none, k) : Except Panic _) = _
      rw [if_neg (by omega)]

/-- **When the lengths of transfers are respected.** For every open file that is an inode, every offset and
every `int` as the length: a read that returns respects its length, whatever bytes the user can write, except
when the length is negative, the sum with the offset does not wrap, the offset is before the end of the file
and the first byte can be delivered. A write with a length that is not positive does nothing. -/
theorem transfer_lengths_iff (devsw : DevSw) (hty : (k.file f).type = .inode)
    (hn : -2 ^ 31 ≤ n ∧ n < 2 ^ 31) :
    (∀ dst r bytes k', fileread devsw f dst n k = .ok ((r, bytes), k') →
      (Respected (k.file f) (k'.file f) n r bytes ↔ ¬ Overreads k.fs (k.file f) dst n)) ∧
    (n ≤ 0 → ∀ src, ∃ r, filewrite devsw f src n k = .ok (r, k) ∧ intValue r ≤ 0) :=
  ⟨fun _ _ _ _ h => fileread_respected_iff hty hn h, fun h0 src => filewrite_nonpos hty h0 src⟩

theorem transfer_lengths_iff_five :
    ((longKernel 0).file ⟨0, by decide⟩).type = .inode ∧ (-2 ^ 31 ≤ (5 : ℤ) ∧ (5 : ℤ) < 2 ^ 31) ∧
    (∃ bytes k', fileread noDevices ⟨0, by decide⟩ (fun _ => true) 5 (longKernel 0) =
      .ok ((some 5, bytes), k')) ∧
    ∀ dst r bytes k', fileread noDevices ⟨0, by decide⟩ dst 5 (longKernel 0) = .ok ((r, bytes), k') →
      (Respected ((longKernel 0).file ⟨0, by decide⟩) (k'.file ⟨0, by decide⟩) 5 r bytes ↔
        ¬ Overreads (longKernel 0).fs ((longKernel 0).file ⟨0, by decide⟩) dst 5) := by
  refine ⟨rfl, by decide, ?_, (transfer_lengths_iff noDevices rfl (by decide)).1⟩
  have hrun : (fileread noDevices ⟨0, by decide⟩ (fun _ => true) 5 (longKernel 0)).map (fun x => x.1.1) =
      .ok (some 5) := by
    decide
  cases hread : fileread noDevices ⟨0, by decide⟩ (fun _ => true) 5 (longKernel 0) with
  | error e =>
    rw [hread] at hrun
    cases hrun
  | ok x =>
    obtain ⟨⟨r, bytes⟩, k'⟩ := x
    rw [hread] at hrun
    obtain rfl : r = some 5 := Except.ok.inj hrun
    exact ⟨bytes, k', rfl⟩

theorem negative_length_reads_file :
    (fileread noDevices ⟨0, by decide⟩ (fun _ => true) (-2 ^ 31) (longKernel (14 * 1024 - 8))).map
      (fun x => (x.1.1, x.1.2.length, (x.2.file ⟨0, by decide⟩).off)) =
      .ok (some 8, 8, 14 * 1024) := by
  decide

end Transfers

end RiscvOs.Sys.Lengths
