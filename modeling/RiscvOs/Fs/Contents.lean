import RiscvOs.Fs.Read
import RiscvOs.Lib.Overwrite
import RiscvOs.Lib.Machine

set_option autoImplicit false

/-!
# Files are byte arrays

To its users a file is an array of bytes that grows at its end. Sequences of writes to any
number of files are compared with the same writes to arrays: as long as the files stay within
their direct blocks, `readi` returns what the arrays contain.

## Main results

* `Holding.step` — a write keeps files and arrays equal.
* `readi_content` — after any sequence of direct writes, `readi` returns the
  contents of the arrays.
* `write_hits_superblock` — the first byte behind the direct blocks is
  stored in the superblock.
-/

namespace RiscvOs.Fs.Contents

open Function Overwrite Loop Machine

/-- A write of `data` at offset `off` of the file in slot `ip`, from kernel memory. -/
structure Write where
  ip : Slot
  off : ℕ
  data : List UInt8

/-- The write stays within the direct blocks. -/
def Write.Direct (w : Write) : Prop := w.off + w.data.length ≤ NDIRECT * BSIZE

/-- Why a write does not count as successful. -/
inductive Failure where
  | panic (e : Panic)
  | short

/-- `writei` of the data. -/
def Write.call (w : Write) (s : FS) : Except Panic (Option ℕ × FS) :=
  writei w.ip (kernelSrc fun i => w.data.getD i 0) w.off w.data.length s

/-- `ilock`, `writei`, `iunlock`. -/
def Write.locked (w : Write) (s : FS) : Except Panic (Option ℕ × FS) := do
  let s ← ilock w.ip s
  let (r, s) ← w.call s
  let s ← iunlock w.ip s
  .ok (r, s)

/-- A write that has to succeed: all bytes are written. -/
def next (s : FS) (w : Write) : Except Failure FS :=
  match w.locked s with
  | .ok (r, t) => if r = some w.data.length then .ok t else .error .short
  | .error e => .error (.panic e)

/-- The array of a file after a sequence of writes. -/
def content (c : Slot → List UInt8) (ws : List Write) : Slot → List UInt8 :=
  ws.foldl (fun c w => update c w.ip (overwrite (c w.ip) w.off w.data)) c

/-- The files of a set of slots contain the arrays `c`. -/
structure Holding (files : Set Slot) (c : Slot → List UInt8) (s : FS) : Prop where
  consistent : Consistent s
  quirks : s.quirks = []
  live : ∀ ip ∈ files, 0 < (s.itable ip).ref ∧ (s.itable ip).valid = true
  length : ∀ ip ∈ files, (s.itable ip).size.toNat = (c ip).length
  mapped : ∀ ip ∈ files, Mapped s ip
  bytes : ∀ ip ∈ files, ∀ k, k < (c ip).length → (c ip)[k]? = some (fileByte s ip k)

section Steps

variable {files : Set Slot} {c : Slot → List UInt8} {s t : FS} {ip : Slot} {w : Write}

theorem fileByte_setLock (s : FS) (ip : Slot) (l : Option ℕ) (jp : Slot) (k : ℕ) :
    fileByte (s.setLock ip l) jp k = fileByte s jp k := by
  obtain ⟨l', h⟩ := s.setLock_slot ip l jp
  rw [fileByte, fileByte, h]
  rfl

theorem Holding.setLock (h : Holding files c s) {l : Option ℕ}
    (hc : Consistent (s.setLock ip l)) : Holding files c (s.setLock ip l) := by
  refine ⟨hc, h.quirks, fun jp hj => ?_, fun jp hj => ?_, fun jp hj => ?_, fun jp hj k hk => ?_⟩
  · obtain ⟨l', heq⟩ := s.setLock_slot ip l jp
    rw [heq]
    exact h.live jp hj
  · obtain ⟨l', heq⟩ := s.setLock_slot ip l jp
    rw [heq]
    exact h.length jp hj
  · obtain ⟨l', heq⟩ := s.setLock_slot ip l jp
    have hm := h.mapped jp hj
    constructor
    · rw [heq]
      exact hm.size_le
    · rw [heq]
      exact hm.addr_ne
  · rw [fileByte_setLock]
    exact h.bytes jp hj k hk

theorem getElem?_data (w : Write) {k : ℕ} (hk : k < w.data.length) :
    w.data[k]? = some ((kernelSrc (fun i => w.data.getD i 0) k).getD 0) := by
  rw [kernelSrc, Option.getD_some, List.getD_eq_getElem _ _ hk, List.getElem?_eq_getElem hk]

/-- **A write keeps files and arrays equal**: in the range of the write the file has the new
bytes, elsewhere and in the other files it has the old ones. -/
theorem Holding.write (h : Holding files c s) (hip : w.ip ∈ files) (hd : w.Direct) {e : ℕ}
    (hoff : w.off ≤ (s.itable w.ip).size.toNat)
    (hw : WriteDone w.ip (kernelSrc fun i => w.data.getD i 0) w.off w.data.length s w.data.length e t) :
    Holding files (update c w.ip (overwrite (c w.ip) w.off w.data)) t := by
  have he : e = w.off + w.data.length := hw.total fun _ _ => rfl
  subst he
  have hlen := h.length w.ip hip
  have hoff' : w.off ≤ (c w.ip).length := by omega
  have hsize : (t.itable w.ip).size.toNat = (overwrite (c w.ip) w.off w.data).length := by
    rw [hw.size, hlen, length_overwrite _ hoff']
  -- a byte of the file that was there before the write
  have hold : ∀ k, k < (s.itable w.ip).size.toNat →
      (t.itable w.ip).addr (k / BSIZE) ≠ 0 ∧
        (¬ (w.off ≤ k ∧ k < w.off + w.data.length) → fileByte t w.ip k = fileByte s w.ip k) := by
    intro k hk
    have ha := (h.mapped w.ip hip).addr_ne k hk
    refine ⟨by rw [hw.addr _ ha]; exact ha, fun hno => hw.outside k (by omega) ha⟩
  refine ⟨hw.consistent, hw.quirks.trans h.quirks, fun jp hj => ?_, fun jp hj => ?_,
    fun jp hj => ?_, fun jp hj k hk => ?_⟩
  · by_cases hji : jp = w.ip
    · rw [hji, hw.self]
      exact h.live w.ip hip
    · rw [hw.other jp hji]
      exact h.live jp hj
  · by_cases hji : jp = w.ip
    · rw [hji, update_self, hsize]
    · rw [update_of_ne hji, hw.other jp hji]
      exact h.length jp hj
  · by_cases hji : jp = w.ip
    · subst hji
      refine ⟨?_, fun k hk => ?_⟩
      · rw [hw.size]
        exact max_le (h.mapped w.ip hip).size_le hd
      · by_cases hks : k < (s.itable w.ip).size.toNat
        · exact (hold k hks).1
        · rw [hw.size] at hk
          exact (hw.inside k (by omega) (by omega)).1
    · have hm := h.mapped jp hj
      exact ⟨by rw [hw.other jp hji]; exact hm.size_le, by rw [hw.other jp hji]; exact hm.addr_ne⟩
  · by_cases hji : jp = w.ip
    · subst hji
      rw [update_self] at hk ⊢
      rw [getElem?_overwrite _ hoff']
      split_ifs with hin
      · rw [(hw.inside k hin.1 hin.2).2]
        exact getElem?_data w (by omega)
      · rw [length_overwrite _ hoff'] at hk
        rw [(hold k (by omega)).2 hin]
        exact h.bytes w.ip hj k (by omega)
    · rw [update_of_ne hji] at hk ⊢
      obtain ⟨hpos, hv⟩ := h.live jp hj
      rw [hw.files jp hji hpos hv k ((h.mapped jp hj).addr_ne k (by rw [h.length jp hj]; exact hk))]
      exact h.bytes jp hj k hk

theorem next_eq_ok (hn : next s w = .ok t) :
    ∃ s₁ s₂, ilock w.ip s = .ok s₁ ∧ w.call s₁ = .ok (some w.data.length, s₂) ∧
      iunlock w.ip s₂ = .ok t := by
  rw [next] at hn
  split at hn
  · rename_i r u hu
    split_ifs at hn with hr
    cases hn
    rw [Write.locked] at hu
    obtain ⟨s₁, h1, hu⟩ := bind_eq_ok.mp hu
    obtain ⟨⟨r', s₂⟩, h2, hu⟩ := bind_eq_ok.mp hu
    obtain ⟨s₃, h3, hu⟩ := bind_eq_ok.mp hu
    cases hu
    rw [hr] at h2
    exact ⟨s₁, s₂, h1, h2, h3⟩
  · cases hn

/-- **One write** keeps files and arrays equal, and changes neither the superblock nor a file
that is open in another slot. -/
theorem Holding.step (h : Holding files c s) (hip : w.ip ∈ files) (hd : w.Direct)
    (hn : next s w = .ok t) :
    Holding files (update c w.ip (overwrite (c w.ip) w.off w.data)) t ∧
      t.sb = s.sb ∧ t.buf 1 = s.buf 1 := by
  obtain ⟨s₁, s₂, h1, h2, h3⟩ := next_eq_ok hn
  -- the slot is valid, so `ilock` only takes the lock
  obtain rfl : s₁ = s.setLock w.ip (some s.pid) := by
    rcases (ilock_cases h1).2 with ⟨-, heq⟩ | ⟨hv, -⟩
    · exact heq
    · rw [(h.live w.ip hip).2] at hv
      cases hv
  obtain ⟨hpos, hv⟩ := h.live w.ip hip
  have hL := h.setLock (h.consistent.ilock (h.consistent.table.range w.ip hpos hv) h1)
  have hlock : ((s.setLock w.ip (some s.pid)).itable w.ip).lock = some s.pid := by
    rw [FS.setLock, FS.setInode_same]
  obtain ⟨r, u, hrun, hcases⟩ := writei_writes hL.consistent hlock (Or.inr (not_gets_of_le hd))
  cases hrun.symm.trans h2
  rcases hcases with ⟨hnone, -⟩ | ⟨tot, e, htot, hw⟩
  · cases hnone
  · cases htot
    have hW := hL.write hip hd hw.off_le hw
    have hC := (hW.consistent.iunlock h3).1
    obtain ⟨-, -, rfl⟩ := iunlock_cases h3
    refine ⟨hW.setLock hC, hw.sb, hw.low 1 ?_⟩
    have h4 := h.consistent.table.layout.log_start
    have h5 := h.consistent.table.layout.log_end
    change 1 < s.sb.inodestart
    omega

/-- **A sequence of writes** keeps files and arrays equal. -/
theorem Holding.run {ws : List Write} (h : Holding files c s) (hip : ∀ w ∈ ws, w.ip ∈ files)
    (hd : ∀ w ∈ ws, w.Direct) (he : exec next s ws = .ok t) :
    Holding files (content c ws) t ∧ t.sb = s.sb ∧ t.buf 1 = s.buf 1 := by
  induction ws generalizing s c with
  | nil =>
    cases he
    exact ⟨h, rfl, rfl⟩
  | cons w ws ih =>
    rw [exec] at he
    cases hn : next s w with
    | error x =>
      rw [hn] at he
      cases he
    | ok s₁ =>
      rw [hn] at he
      obtain ⟨h1, hsb, hbuf⟩ := h.step (hip w (by simp)) (hd w (by simp)) hn
      obtain ⟨h2, hsb', hbuf'⟩ := ih h1 (fun w' hw' => hip w' (by simp [hw']))
        (fun w' hw' => hd w' (by simp [hw'])) he
      exact ⟨h2, hsb'.trans hsb, hbuf'.trans hbuf⟩

theorem Holding.readi (h : Holding files c s) (hip : ip ∈ files) {off n : ℕ}
    (hsum : off + n < 2 ^ 32) :
    Fs.readi ip kernelDst off n s =
      .ok ((some (min n ((c ip).length - off)), ((c ip).drop off).take n), s) := by
  rw [readi_eq (h.mapped ip hip) hsum, h.length ip hip]
  have hbytes : ((List.range (min n ((c ip).length - off))).map fun i => fileByte s ip (off + i)) =
      ((c ip).drop off).take n := by
    apply List.ext_getElem?
    intro k
    by_cases hk : k < min n ((c ip).length - off)
    · rw [List.getElem?_take_of_lt (by omega), List.getElem?_drop, List.getElem?_map,
        List.getElem?_range hk, h.bytes ip hip _ (by omega)]
      rfl
    · rw [List.getElem?_eq_none, List.getElem?_eq_none]
      · rw [List.length_take, List.length_drop]
        omega
      · rw [List.length_map, List.length_range]
        omega
  rw [hbytes]

end Steps

theorem holding_empty {files : Set Slot} {s : FS} (hc : Consistent s) (hq : s.quirks = [])
    (hlive : ∀ ip ∈ files, 0 < (s.itable ip).ref ∧ (s.itable ip).valid = true)
    (hsize : ∀ ip ∈ files, (s.itable ip).size = 0) : Holding files (fun _ => []) s := by
  have h0 : ∀ ip ∈ files, (s.itable ip).size.toNat = 0 := fun ip hip => by
    rw [hsize ip hip]
    rfl
  refine ⟨hc, hq, hlive, h0, fun ip hip => ⟨?_, fun k hk => ?_⟩, fun _ _ k hk => ?_⟩
  · rw [h0 ip hip]
    exact Nat.zero_le _
  · rw [h0 ip hip] at hk
    exact absurd hk (Nat.not_lt_zero k)
  · exact absurd hk (Nat.not_lt_zero k)

/-- **Files are byte arrays.** Any number of files have the contents `c` (for new files the empty
array), and any sequence of writes to them succeeds, each within the direct blocks. Then `readi`
returns, for every offset and length, the bytes of the array to which the same writes were
applied, and their number; the writes to the other files do not show. The superblock is the
same as before. -/
theorem readi_content {files : Set Slot} {c : Slot → List UInt8} {s t : FS} {ws : List Write}
    (h : Holding files c s) (hip : ∀ w ∈ ws, w.ip ∈ files) (hd : ∀ w ∈ ws, w.Direct)
    (he : exec next s ws = .ok t) :
    (∀ ip ∈ files, ∀ off n, off + n < 2 ^ 32 → readi ip kernelDst off n t =
      .ok ((some (min n ((content c ws ip).length - off)),
        ((content c ws ip).drop off).take n), t)) ∧
      t.sb = s.sb ∧ t.buf 1 = s.buf 1 := by
  obtain ⟨ht, hsb, hbuf⟩ := h.run hip hd he
  exact ⟨fun ip hip off n hsum => ht.readi hip hsum, hsb, hbuf⟩

/-! ## A new file -/

/-- Allocate a regular file, and read its record. -/
def newFile : Except Panic FS := do
  let (_, s) ← ialloc ROOTDEV T_FILE smallFS
  let s ← ilock firstSlot s
  iunlock firstSlot s

/-- The small file system with a new file in the first slot. -/
def fileFS : FS := newFile.toOption.getD smallFS

theorem newFile_eq : newFile = .ok fileFS := by
  have h : newFile.toOption.isSome = true := by decide
  rw [fileFS]
  cases hn : newFile with
  | ok s => rfl
  | error e =>
    rw [hn] at h
    cases h

theorem holding_fileFS : Holding {firstSlot} (fun _ => []) fileFS := by
  have hslot : fileFS.quirks = [] ∧ 0 < (fileFS.itable firstSlot).ref ∧
      (fileFS.itable firstSlot).valid = true ∧ (fileFS.itable firstSlot).size = 0 ∧
      (fileFS.itable firstSlot).inum < fileFS.sb.records := by
    decide
  refine holding_empty ?_ hslot.1 (fun ip hip => ?_) fun ip hip => ?_
  · obtain ⟨⟨r, s₁⟩, h1, hn⟩ := bind_eq_ok.mp newFile_eq
    obtain ⟨s₂, h2, h3⟩ := bind_eq_ok.mp hn
    have hc : Consistent s₁ := by
      cases r with
      | some ip => exact (consistent_smallFS.ialloc h1).1
      | none => exact ialloc_eq_none h1 ▸ consistent_smallFS
    have hrange := hslot.2.2.2.2
    rw [(iunlock_cases h3).2.2, FS.setLock, FS.setInode_same] at hrange
    obtain ⟨hsb, hsame⟩ := ilock_same h2
    have hi : (s₁.itable firstSlot).inum < s₁.sb.records := by
      rw [← (hsame firstSlot).2, ← hsb]
      exact hrange
    exact ((hc.ilock hi h2).iunlock h3).1
  · rw [Set.mem_singleton_iff.mp hip]
    exact ⟨hslot.2.1, hslot.2.2.1⟩
  · rw [Set.mem_singleton_iff.mp hip]
    exact hslot.2.2.2.1

/-- Three bytes at the start of the new file, then two over the last one. -/
def smallWrites : List Write := [⟨firstSlot, 0, [1, 2, 3]⟩, ⟨firstSlot, 2, [4, 5]⟩]

theorem readi_content_smallWrites :
    readi firstSlot kernelDst 1 10 (after next fileFS smallWrites) =
      .ok ((some 3, [2, 4, 5]), after next fileFS smallWrites) := by
  have he : exec next fileFS smallWrites = .ok (after next fileFS smallWrites) :=
    exec_eq_after (by decide)
  have hd : ∀ w ∈ smallWrites, w.Direct := by
    simp [smallWrites, Write.Direct]
    decide
  exact (readi_content holding_fileFS (by decide) hd he).1 firstSlot rfl 1 10 (by decide)

/-- One byte more than the direct blocks can hold. -/
def longWrite : Write := ⟨firstSlot, 0, List.replicate (NDIRECT * BSIZE + 1) 7⟩

theorem write_hits_superblock :
    Holding {firstSlot} (fun _ => []) fileFS ∧
      errorOf (exec next fileFS [longWrite]) = none ∧
      fileFS.buf 1 ⟨0, by decide⟩ = 0 ∧
      (after next fileFS [longWrite]).buf 1 ⟨0, by decide⟩ = 7 := by
  refine ⟨holding_fileFS, ?_⟩
  decide +kernel

end RiscvOs.Fs.Contents
