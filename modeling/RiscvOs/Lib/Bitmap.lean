import RiscvOs.Lib.Bytes

set_option autoImplicit false

/-!
# Bitmaps in byte blocks

A block of `N` bytes read as `8 * N` bits, bit `i` being bit `i % 8` of byte `i / 8`, with the
mask arithmetic by which C code tests, sets and clears a bit.

## Main results

* `isSet_setBit`, `isSet_clearBit` — one bit changes, the others do not.
* `isSet_foldl_setBit` — a loop that sets the first bits.
-/

namespace ByteBlock

variable {N : ℕ}

/-- `1 << (i % 8)`. -/
def bitMask (i : ℕ) : UInt8 := 1 <<< UInt8.ofNat (i % 8)

/-- `(data[i/8] & m) != 0`. -/
def isSet (b : ByteBlock N) (i : ℕ) : Bool := get b (i / 8) &&& bitMask i != 0

/-- `data[i/8] |= m`. -/
def setBit (b : ByteBlock N) (i : ℕ) : ByteBlock N :=
  splice b (i / 8) 1 fun _ => get b (i / 8) ||| bitMask i

/-- `data[i/8] &= ~m`. -/
def clearBit (b : ByteBlock N) (i : ℕ) : ByteBlock N :=
  splice b (i / 8) 1 fun _ => get b (i / 8) &&& ~~~bitMask i

theorem bitMask_toNat (i : ℕ) : (bitMask i).toNat = 2 ^ (i % 8) := by
  have h : i % 8 < 8 := Nat.mod_lt i (by omega)
  rw [bitMask]
  interval_cases i % 8 <;> rfl

theorem and_bitMask (x : UInt8) (j : ℕ) : (x &&& bitMask j != 0) = x.toNat.testBit (j % 8) := by
  have h : (x &&& bitMask j).toNat = (x.toNat.testBit (j % 8)).toNat * 2 ^ (j % 8) := by
    rw [UInt8.toNat_and, bitMask_toNat, Nat.and_two_pow]
  cases ht : x.toNat.testBit (j % 8) with
  | false =>
    rw [ht, Bool.toNat_false, Nat.zero_mul] at h
    have h0 : x &&& bitMask j = 0 := UInt8.toNat_inj.mp h
    rw [h0]
    rfl
  | true =>
    rw [ht, Bool.toNat_true, Nat.one_mul] at h
    rw [bne_iff_ne]
    intro h0
    rw [h0] at h
    exact absurd h.symm (Nat.two_pow_pos _).ne'

theorem or_bitMask (x : UInt8) (i j : ℕ) :
    ((x ||| bitMask i) &&& bitMask j != 0) = (decide (j % 8 = i % 8) || (x &&& bitMask j != 0)) := by
  rw [and_bitMask, and_bitMask, UInt8.toNat_or, bitMask_toNat, Nat.testBit_or,
    Nat.testBit_two_pow, Bool.or_comm, decide_eq_decide.mpr eq_comm]

theorem and_not_bitMask (x : UInt8) (i j : ℕ) :
    ((x &&& ~~~bitMask i) &&& bitMask j != 0) =
      (!decide (j % 8 = i % 8) && (x &&& bitMask j != 0)) := by
  have hi : 2 ^ (i % 8) < 2 ^ 8 := Nat.pow_lt_pow_right (by omega) (Nat.mod_lt i (by omega))
  have hnot : (~~~bitMask i).toNat.testBit (j % 8) = !decide (j % 8 = i % 8) := by
    have hn : (~~~bitMask i).toNat = 2 ^ 8 - (2 ^ (i % 8) + 1) := by
      rw [UInt8.toNat_not, bitMask_toNat, Nat.sub_sub, Nat.add_comm 1]
      rfl
    rw [hn, Nat.testBit_two_pow_sub_succ hi, decide_eq_true (Nat.mod_lt j (by omega)),
      Bool.true_and, Nat.testBit_two_pow, decide_eq_decide.mpr eq_comm]
  rw [and_bitMask, and_bitMask, UInt8.toNat_and, Nat.testBit_and, hnot, Bool.and_comm]

/-- **Setting a bit** sets that bit and no other. -/
theorem isSet_setBit (b : ByteBlock N) {i : ℕ} (hi : i / 8 < N) (j : ℕ) :
    isSet (setBit b i) j = (decide (j = i) || isSet b j) := by
  by_cases hj : j / 8 = i / 8
  · have hji : (j = i) ↔ (j % 8 = i % 8) := by omega
    rw [isSet, setBit, get_splice_of_mem b _ (by omega) (by omega) (by omega), or_bitMask, isSet, hj,
      decide_eq_decide.mpr hji]
  · have hne : j ≠ i := by
      rintro rfl
      exact hj rfl
    rw [isSet, setBit, get_splice_of_not_mem b _ (by omega), decide_eq_false hne, Bool.false_or,
      isSet]

/-- **Clearing a bit** clears that bit and no other. -/
theorem isSet_clearBit (b : ByteBlock N) {i : ℕ} (hi : i / 8 < N) (j : ℕ) :
    isSet (clearBit b i) j = (!decide (j = i) && isSet b j) := by
  by_cases hj : j / 8 = i / 8
  · have hji : (j = i) ↔ (j % 8 = i % 8) := by omega
    rw [isSet, clearBit, get_splice_of_mem b _ (by omega) (by omega) (by omega), and_not_bitMask,
      isSet, hj, decide_eq_decide.mpr hji]
  · have hne : j ≠ i := by
      rintro rfl
      exact hj rfl
    rw [isSet, clearBit, get_splice_of_not_mem b _ (by omega), decide_eq_false hne, Bool.not_false,
      Bool.true_and, isSet]

theorem isSet_foldl_setBit (b : ByteBlock N) {n : ℕ} (hn : n ≤ 8 * N) (j : ℕ) :
    isSet ((List.range n).foldl setBit b) j = (decide (j < n) || isSet b j) := by
  induction n with
  | zero => simp
  | succ n ih =>
    rw [List.range_succ, List.foldl_append, List.foldl_cons, List.foldl_nil,
      isSet_setBit _ (by omega), ih (by omega)]
    by_cases h : j = n
    · simp [h]
    · have : (j < n + 1) ↔ (j < n) := by omega
      simp [h, this]

end ByteBlock
