import Mathlib

set_option autoImplicit false

/-!
# Fixed-size byte blocks

A block of `N` bytes, the window of it that a copy replaces (`splice`), and the little-endian
16- and 32-bit integers that lie in it. A C structure laid over a block is read and written
through these integers; two accesses that do not overlap commute, and an access reads back
what the same access wrote.

## Main results

* `get_splice` — what a splice does to each byte.
* `u32_setU32`, `u16_setU16` — a store reads back.
* `u32_congr`, `u16_congr` — an integer depends on its own bytes only.
-/

/-- A block of `N` bytes. -/
abbrev ByteBlock (N : ℕ) : Type := Fin N → UInt8

namespace ByteBlock

variable {N : ℕ}

/-- Byte `i` of the block, read as `0` out of range. -/
def get (b : ByteBlock N) (i : ℕ) : UInt8 := if h : i < N then b ⟨i, h⟩ else 0

/-- Replace the bytes `off, …, off + len - 1` by `f 0, …, f (len - 1)`; what falls outside
the block is dropped. -/
def splice (b : ByteBlock N) (off len : ℕ) (f : ℕ → UInt8) : ByteBlock N := fun j =>
  if off ≤ j ∧ (j : ℕ) < off + len then f (j - off) else b j

theorem ext_get {b c : ByteBlock N} (h : ∀ i < N, get b i = get c i) : b = c := by
  funext j
  have := h j j.isLt
  simpa [get] using this

theorem get_splice (b : ByteBlock N) (off len : ℕ) (f : ℕ → UInt8) (i : ℕ) :
    get (splice b off len f) i =
      if i < N ∧ off ≤ i ∧ i < off + len then f (i - off) else get b i := by
  unfold get splice
  by_cases h : i < N <;> simp [h]

theorem get_splice_of_not_mem (b : ByteBlock N) {off len i : ℕ} (f : ℕ → UInt8)
    (h : i < off ∨ off + len ≤ i) : get (splice b off len f) i = get b i := by
  rw [get_splice, if_neg (by omega)]

theorem get_splice_of_mem (b : ByteBlock N) {off len i : ℕ} (f : ℕ → UInt8) (hN : i < N)
    (h₁ : off ≤ i) (h₂ : i < off + len) : get (splice b off len f) i = f (i - off) := by
  rw [get_splice, if_pos ⟨hN, h₁, h₂⟩]

/-! ## Little-endian integers -/

/-- Byte `k` of the little-endian representation of `v`. -/
def leByte (v k : ℕ) : UInt8 := UInt8.ofNat (v / 256 ^ k)

theorem leByte_toNat (v k : ℕ) : (leByte v k).toNat = v / 256 ^ k % 256 := by
  simp [leByte]

/-- The 16-bit integer at byte offset `off`. -/
def u16 (b : ByteBlock N) (off : ℕ) : UInt16 :=
  UInt16.ofNat ((get b off).toNat + 256 * (get b (off + 1)).toNat)

/-- The 32-bit integer at byte offset `off`. -/
def u32 (b : ByteBlock N) (off : ℕ) : UInt32 :=
  UInt32.ofNat ((get b off).toNat + 256 * (get b (off + 1)).toNat
    + 65536 * (get b (off + 2)).toNat + 16777216 * (get b (off + 3)).toNat)

/-- Store a 16-bit integer at byte offset `off`. -/
def setU16 (b : ByteBlock N) (off : ℕ) (v : UInt16) : ByteBlock N :=
  splice b off 2 (leByte v.toNat)

/-- Store a 32-bit integer at byte offset `off`. -/
def setU32 (b : ByteBlock N) (off : ℕ) (v : UInt32) : ByteBlock N :=
  splice b off 4 (leByte v.toNat)

theorem u16_congr {M : ℕ} {b : ByteBlock N} {c : ByteBlock M} {o p : ℕ}
    (h : ∀ i < 2, get b (o + i) = get c (p + i)) : u16 b o = u16 c p := by
  have h0 := h 0 (by omega)
  have h1 := h 1 (by omega)
  simp only [Nat.add_zero] at h0
  simp only [u16, h0, h1]

theorem u32_congr {M : ℕ} {b : ByteBlock N} {c : ByteBlock M} {o p : ℕ}
    (h : ∀ i < 4, get b (o + i) = get c (p + i)) : u32 b o = u32 c p := by
  have h0 := h 0 (by omega)
  have h1 := h 1 (by omega)
  have h2 := h 2 (by omega)
  have h3 := h 3 (by omega)
  simp only [Nat.add_zero] at h0
  simp only [u32, h0, h1, h2, h3]

theorem u32_eq_of_leByte {b : ByteBlock N} {o : ℕ} {v : UInt32}
    (h : ∀ i < 4, get b (o + i) = leByte v.toNat i) : u32 b o = v := by
  have h0 := h 0 (by omega)
  have h1 := h 1 (by omega)
  have h2 := h 2 (by omega)
  have h3 := h 3 (by omega)
  simp only [Nat.add_zero] at h0
  have hv := v.toNat_lt
  apply UInt32.toNat_inj.mp
  simp only [u32, h0, h1, h2, h3, leByte_toNat, UInt32.toNat_ofNat']
  omega

theorem u16_eq_of_leByte {b : ByteBlock N} {o : ℕ} {v : UInt16}
    (h : ∀ i < 2, get b (o + i) = leByte v.toNat i) : u16 b o = v := by
  have h0 := h 0 (by omega)
  have h1 := h 1 (by omega)
  simp only [Nat.add_zero] at h0
  have hv := v.toNat_lt
  apply UInt16.toNat_inj.mp
  simp only [u16, h0, h1, leByte_toNat, UInt16.toNat_ofNat']
  omega

@[simp] theorem u32_setU32 (b : ByteBlock N) {off : ℕ} (v : UInt32) (h : off + 4 ≤ N) :
    u32 (setU32 b off v) off = v := by
  apply u32_eq_of_leByte
  intro i hi
  rw [setU32, get_splice_of_mem b _ (by omega) (by omega) (by omega)]
  congr 1
  omega

@[simp] theorem u16_setU16 (b : ByteBlock N) {off : ℕ} (v : UInt16) (h : off + 2 ≤ N) :
    u16 (setU16 b off v) off = v := by
  apply u16_eq_of_leByte
  intro i hi
  rw [setU16, get_splice_of_mem b _ (by omega) (by omega) (by omega)]
  congr 1
  omega

theorem u32_splice (b : ByteBlock N) {off len o : ℕ} (f : ℕ → UInt8)
    (h : o + 4 ≤ off ∨ off + len ≤ o) : u32 (splice b off len f) o = u32 b o := by
  apply u32_congr
  intro i hi
  exact get_splice_of_not_mem b f (by omega)

theorem u16_splice (b : ByteBlock N) {off len o : ℕ} (f : ℕ → UInt8)
    (h : o + 2 ≤ off ∨ off + len ≤ o) : u16 (splice b off len f) o = u16 b o := by
  apply u16_congr
  intro i hi
  exact get_splice_of_not_mem b f (by omega)

theorem u32_setU32_of_disjoint (b : ByteBlock N) {off o : ℕ} (v : UInt32)
    (h : o + 4 ≤ off ∨ off + 4 ≤ o) : u32 (setU32 b off v) o = u32 b o :=
  u32_splice b _ h

theorem u16_setU32_of_disjoint (b : ByteBlock N) {off o : ℕ} (v : UInt32)
    (h : o + 2 ≤ off ∨ off + 4 ≤ o) : u16 (setU32 b off v) o = u16 b o :=
  u16_splice b _ h

theorem u16_setU16_of_disjoint (b : ByteBlock N) {off o : ℕ} (v : UInt16)
    (h : o + 2 ≤ off ∨ off + 2 ≤ o) : u16 (setU16 b off v) o = u16 b o :=
  u16_splice b _ h

end ByteBlock
