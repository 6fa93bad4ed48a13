import RiscvOs.Fs.Inode

set_option autoImplicit false

/-!
# Reading and writing files (`kernel/disk/fs.c`)

`readi` and `writei` walk over the blocks of a file. Each round maps one block and copies the
part of it that lies in the requested range.

The other end of the copy is memory of the kernel or of the user. A source gives the byte at
each offset, and nothing where a page of the user is not mapped; a destination only says where it
can be written. `either_copyin` and `either_copyout` copy up to the first byte they cannot
reach.

## Main results

* `bmap_direct`, `mapAddr_of_ne` — `bmap` for direct blocks.
* `chunk_pos`, `chunk_le_block` — a round copies at least one byte, and
  stays within one block.

## Implementation notes

`off` and `n` are `uint`; the sum wraps in the first test only, after which it is below
`2 ^ 32`. A loop gets `n` rounds, which is enough because each one copies at least one byte.
-/

namespace RiscvOs.Fs

/-- The bytes at a source address, `none` where the page is not mapped. -/
abbrev Source : Type := ℕ → Option UInt8

/-- Kernel memory can always be read. -/
def kernelSrc (f : ℕ → UInt8) : Source := fun i => some (f i)

/-- The part of a destination that can be written. -/
abbrev Dest : Type := ℕ → Bool

/-- Kernel memory can always be written. -/
def kernelDst : Dest := fun _ => true

/-- How many of the `m` bytes from position `pos` on are reached. -/
def copyLen (ok : ℕ → Bool) (pos m : ℕ) : ℕ :=
  ((List.range m).takeWhile fun i => ok (pos + i)).length

/-- Copy `m` bytes of the source to offset `o` of a block; also whether all were copied. -/
def eitherCopyin (src : Source) (pos m o : ℕ) (b : Block) : Block × Bool :=
  let k := copyLen (fun i => (src i).isSome) pos m
  (ByteBlock.splice b o k fun i => (src (pos + i)).getD 0, k == m)

/-- The bytes that are copied from offset `o` of a block; also whether all `m` were copied. -/
def eitherCopyout (dst : Dest) (pos m o : ℕ) (b : Block) : List UInt8 × Bool :=
  let k := copyLen dst pos m
  ((List.range k).map fun i => ByteBlock.get b (o + i), k == m)

/-- The number of bytes in one round: up to the end of the block or of the request. -/
def chunk (tot off n : ℕ) : ℕ := min (n - tot) (BSIZE - off % BSIZE)

/-- Record that `readi` meets a direct block that is not mapped, or an indirect block that is
not there. -/
def FS.noteHole (s : FS) (ip : Slot) (bn : ℕ) : FS :=
  if (s.itable ip).addr (min bn NDIRECT) = 0 then s.note .hole else s

/-- The loop of `readi`, with what has been copied so far in `out`. -/
def readLoop (ip : Slot) (dst : Dest) (n : ℕ) :
    (fuel tot off : ℕ) → List UInt8 → FS → Except Panic ((Option ℕ × List UInt8) × FS)
  | 0, tot, _, out, s => .ok ((some tot, out), s)
  | fuel + 1, tot, off, out, s =>
    if tot < n then do
      let (addr, s) ← bmap ip (off / BSIZE) (s.noteHole ip (off / BSIZE))
      if addr = 0 then .ok ((some tot, out), s)
      else
        let m := chunk tot off n
        let (bytes, ok) := eitherCopyout dst tot m (off % BSIZE) (s.buf addr)
        if ok then readLoop ip dst n fuel (tot + m) (off + m) (out ++ bytes) s
        else .ok ((none, out ++ bytes), s)
    else .ok ((some tot, out), s)

/-- Read `n` bytes from offset `off`. The result is the return value, `none` for `-1`, and the
bytes that were copied. -/
def readi (ip : Slot) (dst : Dest) (off n : ℕ) (s : FS) :
    Except Panic ((Option ℕ × List UInt8) × FS) :=
  if (s.itable ip).size.toNat < off ∨ (off + n) % 2 ^ 32 < off then .ok ((some 0, []), s)
  else
    let n := if (s.itable ip).size.toNat < off + n then (s.itable ip).size.toNat - off else n
    readLoop ip dst n n 0 off [] s

/-- The loop of `writei`; the result is the final `tot` and `off`. -/
def writeLoop (ip : Slot) (src : Source) (n : ℕ) :
    (fuel tot off : ℕ) → FS → Except Panic ((ℕ × ℕ) × FS)
  | 0, tot, off, s => .ok ((tot, off), s)
  | fuel + 1, tot, off, s =>
    if tot < n then do
      let (addr, s) ← bmap ip (off / BSIZE) s
      if addr = 0 then .ok ((tot, off), s)
      else
        let m := chunk tot off n
        let (b, ok) := eitherCopyin src tot m (off % BSIZE) (s.buf addr)
        if ok then writeLoop ip src n fuel (tot + m) (off + m) ((s.setBuf addr b).logWrite addr)
        else .ok ((tot, off), s.setBuf addr b)
    else .ok ((tot, off), s)

/-- `if(off > ip->size) ip->size = off`. -/
def FS.grow (s : FS) (ip : Slot) (off : ℕ) : FS :=
  if (s.itable ip).size.toNat < off then
    s.setInode ip { s.itable ip with size := UInt32.ofNat off }
  else s

/-- Write `n` bytes at offset `off`. The result is the return value, `none` for `-1`. -/
def writei (ip : Slot) (src : Source) (off n : ℕ) (s : FS) : Except Panic (Option ℕ × FS) :=
  if (s.itable ip).size.toNat < off ∨ (off + n) % 2 ^ 32 < off then .ok (none, s)
  else if MAXFILE * BSIZE < off + n then .ok (none, s)
  else do
    let ((tot, off), s) ← writeLoop ip src n n 0 off s
    let s ← iupdate ip (s.grow ip off)
    .ok (some tot, s)

/-- Byte `k` of the file of a slot. -/
def fileByte (s : FS) (ip : Slot) (k : ℕ) : UInt8 :=
  ByteBlock.get (s.buf ((s.itable ip).addr (k / BSIZE))) (k % BSIZE)

/-! ## Copies -/

theorem copyLen_eq {ok : ℕ → Bool} {pos m : ℕ} (h : ∀ i < m, ok (pos + i) = true) :
    copyLen ok pos m = m := by
  rw [copyLen, List.takeWhile_eq_self_iff.mpr fun i hi => h i (List.mem_range.mp hi),
    List.length_range]

theorem copyLen_le (ok : ℕ → Bool) (pos m : ℕ) : copyLen ok pos m ≤ m := by
  rw [copyLen]
  exact (List.takeWhile_sublist _).length_le.trans (by rw [List.length_range])

theorem eitherCopyout_length (dst : Dest) (pos m o : ℕ) (b : Block) :
    (eitherCopyout dst pos m o b).1.length = copyLen dst pos m := by
  simp [eitherCopyout]

section Copies

variable {ok : ℕ → Bool} {pos m k i : ℕ}

theorem copyLen_succ (ok : ℕ → Bool) (pos m : ℕ) :
    copyLen ok pos (m + 1) = if ok pos then copyLen ok (pos + 1) m + 1 else 0 := by
  unfold copyLen
  rw [List.range_succ_eq_map, List.takeWhile_cons, Nat.add_zero]
  split_ifs with h
  · have hshift : (fun i => ok (pos + i)) ∘ Nat.succ = fun i => ok (pos + 1 + i) := by
      funext i
      exact congrArg ok (by omega)
    rw [List.length_cons, List.takeWhile_map, List.length_map, hshift]
  · rfl

theorem ok_of_lt_copyLen (h : i < copyLen ok pos m) : ok (pos + i) = true := by
  induction m generalizing pos i with
  | zero => exact absurd h (Nat.not_lt_zero i)
  | succ m ih =>
    rw [copyLen_succ] at h
    split_ifs at h with h0
    · cases i with
      | zero => exact h0
      | succ i =>
        have hnext : ok (pos + 1 + i) = true := ih (by omega)
        rwa [show pos + (i + 1) = pos + 1 + i by omega]
    · exact absurd h (Nat.not_lt_zero i)

theorem copyLen_unique (hle : k ≤ m) (hok : ∀ i < k, ok (pos + i) = true) (hstop : k < m → ok (pos + k) = false) :
    copyLen ok pos m = k := by
  induction k generalizing pos m with
  | zero =>
    cases m with
    | zero => rfl
    | succ m =>
      have h0 : ok pos = false := hstop (Nat.succ_pos m)
      rw [copyLen_succ, if_neg (by rw [h0]; exact Bool.false_ne_true)]
  | succ k ih =>
    obtain ⟨m, rfl⟩ := Nat.exists_eq_succ_of_ne_zero (show m ≠ 0 by omega)
    have h0 : ok pos = true := hok 0 (by omega)
    rw [copyLen_succ, if_pos h0]
    congr 1
    refine ih (by omega) (fun i hi => ?_) fun h => ?_
    · have := hok (i + 1) (by omega)
      rwa [show pos + 1 + i = pos + (i + 1) by omega]
    · have := hstop (by omega)
      rwa [show pos + 1 + k = pos + (k + 1) by omega]

theorem not_ok_copyLen (h : copyLen ok pos m < m) : ok (pos + copyLen ok pos m) = false := by
  induction m generalizing pos with
  | zero => exact absurd h (Nat.not_lt_zero _)
  | succ m ih =>
    rw [copyLen_succ] at h ⊢
    split_ifs at h ⊢ with h0
    · have hnext : ok (pos + 1 + copyLen ok (pos + 1) m) = false := ih (by omega)
      rwa [show pos + (copyLen ok (pos + 1) m + 1) = pos + 1 + copyLen ok (pos + 1) m by omega]
    · exact Bool.eq_false_iff.mpr h0

end Copies

/-! ## Direct blocks -/

theorem bmap_direct (ip : Slot) {bn : ℕ} (h : bn < NDIRECT) (s : FS) :
    bmap ip bn s = .ok (mapAddr ip bn s) := if_pos h

theorem mapAddr_of_ne {ip : Slot} {k : ℕ} {s : FS} (h : (s.itable ip).addr k ≠ 0) :
    mapAddr ip k s = ((s.itable ip).addr k, s) := if_neg h

theorem FS.noteHole_of_ne {s : FS} {ip : Slot} {bn : ℕ} (hbn : bn ≤ NDIRECT)
    (h : (s.itable ip).addr bn ≠ 0) : s.noteHole ip bn = s := by
  refine if_neg ?_
  rwa [Nat.min_eq_left hbn]

theorem chunk_pos {tot n : ℕ} (off : ℕ) (h : tot < n) : 0 < chunk tot off n := by
  have : off % BSIZE < BSIZE := Nat.mod_lt off (by decide)
  rw [chunk]
  omega

theorem chunk_le (tot off n : ℕ) : chunk tot off n ≤ n - tot := Nat.min_le_left _ _

theorem chunk_le_block (tot off n : ℕ) : off % BSIZE + chunk tot off n ≤ BSIZE := by
  have : off % BSIZE < BSIZE := Nat.mod_lt off (by decide)
  rw [chunk]
  omega

end RiscvOs.Fs
