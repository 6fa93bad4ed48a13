import RiscvOs.Lib.Bitmap

set_option autoImplicit false

/-!
# Byte-addressed memory

A memory is a function from addresses to bytes. Words are little-endian. A chain of nodes in memory, each
of which holds the address of the next one, stands for a list; an area of memory stands for a bitmap.

## Main results

* `load_store`, `load_congr` — a word is what was stored last.
* `IsList.congr`, `IsList.cons` — a list of nodes after a store.
* `bit_setBit`, `bit_clearBit` — one bit changes, the others do not.
-/

namespace Memory

open Function

/-- The bytes, by address. -/
abbrev Mem : Type := ℕ → UInt8

/-! ## Words -/

/-- The word of `n` bytes at the address `a`. -/
def load (m : Mem) (a : ℕ) : ℕ → ℕ
  | 0 => 0
  | n + 1 => (m a).toNat + 256 * load m (a + 1) n

/-- Store a word of `n` bytes. -/
def store (m : Mem) (a n v : ℕ) : Mem := fun x =>
  if a ≤ x ∧ x < a + n then UInt8.ofNat (v / 256 ^ (x - a)) else m x

/-- Set `n` bytes to `c`. -/
def fill (m : Mem) (a n : ℕ) (c : UInt8) : Mem := fun x => if a ≤ x ∧ x < a + n then c else m x

/-- Write the bytes `f 0`, …, `f (n - 1)`. -/
def put (m : Mem) (a n : ℕ) (f : ℕ → UInt8) : Mem := fun x =>
  if a ≤ x ∧ x < a + n then f (x - a) else m x

section Words

variable {m m' : Mem} {a b n k x v : ℕ} {c : UInt8}

theorem store_of_not_mem (h : ¬ (a ≤ x ∧ x < a + n)) : store m a n v x = m x := if_neg h

theorem fill_of_not_mem (h : ¬ (a ≤ x ∧ x < a + n)) : fill m a n c x = m x := if_neg h

theorem fill_of_mem (h : a ≤ x ∧ x < a + n) : fill m a n c x = c := if_pos h

theorem put_of_not_mem {f : ℕ → UInt8} (h : ¬ (a ≤ x ∧ x < a + n)) : put m a n f x = m x := if_neg h

theorem put_of_mem {f : ℕ → UInt8} (h : a ≤ x ∧ x < a + n) : put m a n f x = f (x - a) := if_pos h

theorem put_congr {f g : ℕ → UInt8} (h : ∀ i < n, f i = g i) : put m a n f = put m a n g := by
  funext x
  unfold put
  split_ifs with hx
  · exact h _ (by omega)
  · rfl

@[simp] theorem put_zero (m : Mem) (a : ℕ) (f : ℕ → UInt8) : put m a 0 f = m := by
  funext x
  exact put_of_not_mem (by omega)

theorem put_append (m : Mem) (a n k : ℕ) (f : ℕ → UInt8) :
    put (put m a n f) (a + n) k (fun i => f (n + i)) = put m a (n + k) f := by
  funext x
  by_cases hx : a + n ≤ x ∧ x < a + n + k
  · rw [put_of_mem hx, put_of_mem (by omega)]
    congr 1
    omega
  · rw [put_of_not_mem hx]
    by_cases hx' : a ≤ x ∧ x < a + n
    · rw [put_of_mem hx', put_of_mem (by omega)]
    · rw [put_of_not_mem hx', put_of_not_mem (by omega)]

theorem put_first (m : Mem) (a n : ℕ) (f : ℕ → UInt8) :
    put (update m a (f 0)) (a + 1) n (fun i => f (1 + i)) = put m a (n + 1) f := by
  have hone : update m a (f 0) = put m a 1 f := by
    funext x
    by_cases hx : x = a
    · rw [hx, update_self, put_of_mem (by omega), Nat.sub_self]
    · rw [update_of_ne hx, put_of_not_mem (by omega)]
  rw [hone, put_append, Nat.add_comm 1 n]

theorem put_last (m : Mem) (a n : ℕ) (f : ℕ → UInt8) :
    put (update m (a + n) (f n)) a n f = put m a (n + 1) f := by
  funext x
  by_cases hx : a ≤ x ∧ x < a + n
  · rw [put_of_mem hx, put_of_mem (by omega)]
  · rw [put_of_not_mem hx]
    by_cases hxn : x = a + n
    · rw [hxn, update_self, put_of_mem (by omega), Nat.add_sub_cancel_left]
    · rw [update_of_ne hxn, put_of_not_mem (by omega)]

theorem load_congr (h : ∀ x, a ≤ x → x < a + n → m x = m' x) : load m a n = load m' a n := by
  induction n generalizing a with
  | zero => rfl
  | succ n ih =>
    have htail : load m (a + 1) n = load m' (a + 1) n := by
      apply ih
      intro x hx hx'
      apply h x <;> omega
    rw [load, load, htail, h a (le_refl a) (by omega)]

theorem load_lt (m : Mem) (a n : ℕ) : load m a n < 256 ^ n := by
  induction n generalizing a with
  | zero => simp [load]
  | succ n ih =>
    have htail := ih (a + 1)
    have hbyte := (m a).toNat_lt
    rw [load, Nat.pow_succ]
    omega

theorem load_eq (h : ∀ i < n, m (a + i) = UInt8.ofNat (v / 256 ^ i)) : load m a n = v % 256 ^ n := by
  induction n generalizing a v with
  | zero =>
    rw [Nat.pow_zero, Nat.mod_one]
    rfl
  | succ n ih =>
    have htail : load m (a + 1) n = v / 256 % 256 ^ n := by
      apply ih
      intro i hi
      rw [show a + 1 + i = a + (i + 1) by omega, h (i + 1) (by omega), Nat.pow_succ, Nat.mul_comm,
        Nat.div_div_eq_div_mul]
    have hhead : (m a).toNat = v % 256 := by
      rw [show m a = UInt8.ofNat (v / 256 ^ 0) from h 0 (by omega), UInt8.toNat_ofNat', Nat.pow_zero,
        Nat.div_one]
    rw [load, htail, hhead, Nat.pow_succ, Nat.mul_comm (256 ^ n), Nat.mod_mul]

/-- **A word is what was stored.** -/
theorem load_store (hv : v < 256 ^ n) : load (store m a n v) a n = v := by
  rw [load_eq (v := v), Nat.mod_eq_of_lt hv]
  intro i hi
  rw [store, if_pos (by omega), Nat.add_sub_cancel_left]

/-- **Other words stay.** -/
theorem load_store_of_disjoint (h : a + n ≤ b ∨ b + k ≤ a) : load (store m a n v) b k = load m b k := by
  apply load_congr
  intro x hx hx'
  apply store_of_not_mem
  omega

theorem load_fill_zero (h : a ≤ b ∧ b + k ≤ a + n) : load (fill m a n 0) b k = 0 := by
  rw [load_eq (v := 0), Nat.zero_mod]
  intro i hi
  rw [fill_of_mem (by omega), Nat.zero_div]
  rfl

end Words

/-! ## Lists -/

/-- The nodes from `h` on: each one holds the address of the next, and the last one `0`. -/
def IsList (m : Mem) (h : ℕ) : List ℕ → Prop
  | [] => h = 0
  | x :: l => h = x ∧ x ≠ 0 ∧ IsList m (load m x 8) l

theorem IsList.congr {m m' : Mem} {h : ℕ} {l : List ℕ} (hl : IsList m h l)
    (hm : ∀ x ∈ l, load m' x 8 = load m x 8) : IsList m' h l := by
  induction l generalizing h with
  | nil => exact hl
  | cons x l ih =>
    obtain ⟨hx, hne, htail⟩ := hl
    refine ⟨hx, hne, ?_⟩
    rw [hm x List.mem_cons_self]
    exact ih htail fun y hy => hm y (List.mem_cons_of_mem _ hy)

/-- **A node is put in front.** -/
theorem IsList.cons {m m' : Mem} {h x : ℕ} {l : List ℕ} (hl : IsList m h l) (hx : x ≠ 0)
    (hnext : load m' x 8 = h) (hm : ∀ y ∈ l, load m' y 8 = load m y 8) : IsList m' x (x :: l) := by
  refine ⟨rfl, hx, ?_⟩
  rw [hnext]
  exact hl.congr hm

theorem IsList.eq_nil_iff {m : Mem} {h : ℕ} {l : List ℕ} (hl : IsList m h l) : l = [] ↔ h = 0 := by
  cases l with
  | nil => exact ⟨fun _ => hl, fun _ => rfl⟩
  | cons x l =>
    refine ⟨fun hnil => (List.cons_ne_nil _ _ hnil).elim, fun h0 => ?_⟩
    exact absurd (hl.1.symm.trans h0) hl.2.1

/-! ## Bitmaps -/

/-- Bit `i` of the bitmap at `base`. -/
def bit (m : Mem) (base i : ℕ) : Bool := m (base + i / 8) &&& ByteBlock.bitMask i != 0

/-- Set bit `i`. -/
def setBit (m : Mem) (base i : ℕ) : Mem :=
  update m (base + i / 8) (m (base + i / 8) ||| ByteBlock.bitMask i)

/-- Clear bit `i`. -/
def clearBit (m : Mem) (base i : ℕ) : Mem :=
  update m (base + i / 8) (m (base + i / 8) &&& ~~~ByteBlock.bitMask i)

section Bitmaps

variable {m m' : Mem} {base i j : ℕ}

theorem bit_congr (h : m' (base + i / 8) = m (base + i / 8)) : bit m' base i = bit m base i := by
  rw [bit, bit, h]

/-- **Setting a bit** sets that bit and no other. -/
theorem bit_setBit : bit (setBit m base i) base j = (decide (j = i) || bit m base j) := by
  unfold bit setBit
  by_cases hb : j / 8 = i / 8
  · rw [hb, update_self, ByteBlock.or_bitMask]
    congr 1
    exact decide_eq_decide.mpr (by omega)
  · have hne : base + j / 8 ≠ base + i / 8 := by omega
    have hji : j ≠ i := by
      rintro rfl
      exact hb rfl
    rw [update_of_ne hne, decide_eq_false hji, Bool.false_or]

/-- **Clearing a bit** clears that bit and no other. -/
theorem bit_clearBit : bit (clearBit m base i) base j = (!decide (j = i) && bit m base j) := by
  unfold bit clearBit
  by_cases hb : j / 8 = i / 8
  · rw [hb, update_self, ByteBlock.and_not_bitMask]
    congr 2
    exact decide_eq_decide.mpr (by omega)
  · have hne : base + j / 8 ≠ base + i / 8 := by omega
    have hji : j ≠ i := by
      rintro rfl
      exact hb rfl
    rw [update_of_ne hne, decide_eq_false hji, Bool.not_false, Bool.true_and]

theorem bit_or {a : ℕ} {x : UInt8} (h : bit m base i = true) :
    bit (update m a (m a ||| x)) base i = true := by
  unfold bit at h ⊢
  by_cases ha : base + i / 8 = a
  · subst ha
    rw [ByteBlock.and_bitMask] at h
    rw [update_self, ByteBlock.and_bitMask, UInt8.toNat_or, Nat.testBit_or, h, Bool.true_or]
  · rw [update_of_ne ha]
    exact h

theorem bit_of_ff (h : m (base + i / 8) = 0xff) : bit m base i = true := by
  rw [bit, h, ByteBlock.and_bitMask]
  have hlt : i % 8 < 8 := Nat.mod_lt i (by omega)
  interval_cases i % 8 <;> rfl

end Bitmaps

end Memory
