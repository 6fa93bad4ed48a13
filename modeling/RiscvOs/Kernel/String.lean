import RiscvOs.Lib.Memory

set_option autoImplicit false

/-!
# Strings and memory (`kernel/lib/string.c`)

The comparison and the copy that directory entries use. A pointer to characters is a function
that gives the character at each offset. Both functions stop at the first `NUL`, and look at no
more than `n` characters.

`memmove` works on the memory itself. Its pointers have 64 bits, and a pointer behind the last byte
of the address space is `0`.

## Main results

* `strncmp_eq_zero_iff` — `strncmp` tests whether two arrays contain the same string.
* `strn_safestrcpy` — `safestrcpy` copies the string, but never its last possible
  character.
* `memmove_copies` — `memmove` copies the bytes, however the two ranges overlap.
-/

namespace RiscvOs.Str

open Function Memory

/-- The loop of `strncmp`, at offset `i` with `n` characters to go. -/
def strncmpFrom (p q : ℕ → UInt8) : (n i : ℕ) → ℤ
  | 0, _ => 0
  | n + 1, i =>
    if p i ≠ 0 ∧ p i = q i then strncmpFrom p q n (i + 1)
    else (p i).toNat - (q i).toNat

/-- Compare at most `n` characters. -/
def strncmp (p q : ℕ → UInt8) (n : ℕ) : ℤ := strncmpFrom p q n 0

/-- The loop of `safestrcpy` at offset `i`, where `n` characters of the destination are left;
the last step stores the `NUL` behind the loop. -/
def safestrcpyFrom (t : ℕ → UInt8) : (n i : ℕ) → (ℕ → UInt8) → ℕ → UInt8
  | 0, _, s => s
  | 1, i, s => update s i 0
  | n + 2, i, s =>
    if t i ≠ 0 then safestrcpyFrom t (n + 1) (i + 1) (update s i (t i))
    else update (update s i (t i)) (i + 1) 0

/-- Copy `t` to `s`, which has room for `n` characters, and always end it with a `NUL`. -/
def safestrcpy (s t : ℕ → UInt8) (n : ℕ) : ℕ → UInt8 := safestrcpyFrom t n 0 s

/-- The characters before the first `NUL`, from offset `i` on and at most `n`. -/
def strnFrom (p : ℕ → UInt8) : (n i : ℕ) → List UInt8
  | 0, _ => []
  | n + 1, i => if p i = 0 then [] else p i :: strnFrom p n (i + 1)

/-- The string in an array of `n` characters. -/
def strn (p : ℕ → UInt8) (n : ℕ) : List UInt8 := strnFrom p n 0

/-- The array with the characters of a list, and `NUL` behind them. -/
def cstr (l : List UInt8) (i : ℕ) : UInt8 := l.getD i 0

theorem strncmpFrom_eq_zero_iff (p q : ℕ → UInt8) (n i : ℕ) :
    strncmpFrom p q n i = 0 ↔ strnFrom p n i = strnFrom q n i := by
  induction n generalizing i with
  | zero => simp [strncmpFrom, strnFrom]
  | succ n ih =>
    unfold strncmpFrom strnFrom
    by_cases hp : p i = 0
    · -- the first string ends here: the difference is zero only if the second one does, too
      rw [if_neg (by simp [hp]), if_pos hp, hp]
      by_cases hq : q i = 0
      · simp [hq]
      · have hq' : (q i).toNat ≠ 0 := fun h => hq (UInt8.toNat_inj.mp h)
        simp [hq, hq']
    · by_cases hq : p i = q i
      · rw [if_pos ⟨hp, hq⟩, ih, if_neg hp, if_neg (hq ▸ hp), hq]
        simp
      · have hne : ((p i).toNat : ℤ) - (q i).toNat ≠ 0 := fun h =>
          hq (UInt8.toNat_inj.mp (by omega))
        rw [if_neg (by simp [hq]), if_neg hp]
        refine iff_of_false hne ?_
        split_ifs
        · simp
        · simp [hq]

/-- **`strncmp` returns zero if both arrays contain the same string**, and only then. -/
theorem strncmp_eq_zero_iff (p q : ℕ → UInt8) (n : ℕ) :
    strncmp p q n = 0 ↔ strn p n = strn q n := strncmpFrom_eq_zero_iff p q n 0

theorem strnFrom_congr {p q : ℕ → UInt8} {n i : ℕ} (h : ∀ j, i ≤ j → j < i + n → p j = q j) :
    strnFrom p n i = strnFrom q n i := by
  induction n generalizing i with
  | zero => rfl
  | succ n ih =>
    unfold strnFrom
    rw [h i le_rfl (by omega), ih fun j h1 h2 => h j (by omega) (by omega)]

theorem strn_congr {p q : ℕ → UInt8} {n : ℕ} (h : ∀ j < n, p j = q j) : strn p n = strn q n :=
  strnFrom_congr fun j _ hj => h j (by omega)

theorem safestrcpyFrom_of_lt (t : ℕ → UInt8) (n i : ℕ) (s : ℕ → UInt8) {j : ℕ} (hj : j < i) :
    safestrcpyFrom t n i s j = s j := by
  induction n, i, s using safestrcpyFrom.induct (t := t) with
  | case1 i s => rfl
  | case2 i s =>
    rw [safestrcpyFrom, update_of_ne (by omega)]
  | case3 n i s h ih =>
    rw [safestrcpyFrom, if_pos h, ih (by omega), update_of_ne (by omega)]
  | case4 n i s h =>
    rw [safestrcpyFrom, if_neg h, update_of_ne (by omega), update_of_ne (by omega)]

theorem strnFrom_safestrcpyFrom (t : ℕ → UInt8) (n i : ℕ) (s : ℕ → UInt8) :
    strnFrom (safestrcpyFrom t n i s) n i = (strnFrom t n i).take (n - 1) := by
  induction n, i, s using safestrcpyFrom.induct (t := t) with
  | case1 i s => rfl
  | case2 i s => simp [safestrcpyFrom, strnFrom]
  | case3 n i s h ih =>
    have hi : safestrcpyFrom t (n + 1) (i + 1) (update s i (t i)) i = t i := by
      rw [safestrcpyFrom_of_lt _ _ _ _ (Nat.lt_succ_self i), update_self]
    rw [safestrcpyFrom, if_pos h]
    unfold strnFrom
    rw [hi, ih, if_neg h, if_neg h]
    rfl
  | case4 n i s h =>
    rw [not_not] at h
    simp [safestrcpyFrom, strnFrom, h]

/-- **`safestrcpy` copies a string up to the last character of the destination**, which it needs
for the `NUL`. -/
theorem strn_safestrcpy (s t : ℕ → UInt8) (n : ℕ) :
    strn (safestrcpy s t n) n = (strn t n).take (n - 1) := strnFrom_safestrcpyFrom t n 0 s

theorem strnFrom_cstr (l : List UInt8) (h0 : 0 ∉ l) (n i : ℕ) :
    strnFrom (cstr l) n i = (l.drop i).take n := by
  induction n generalizing i with
  | zero => rfl
  | succ n ih =>
    unfold strnFrom
    rw [ih]
    by_cases hi : i < l.length
    · have hc : cstr l i = l[i] := List.getD_eq_getElem _ _ hi
      have hne : cstr l i ≠ 0 := by
        rw [hc]
        exact fun h => h0 (h ▸ List.getElem_mem hi)
      rw [if_neg hne, hc, List.drop_eq_getElem_cons hi, List.take_succ_cons]
    · have hc : cstr l i = 0 := List.getD_eq_default _ _ (not_lt.mp hi)
      rw [if_pos hc, List.drop_eq_nil_of_le (not_lt.mp hi), List.take_nil]

theorem strn_cstr {l : List UInt8} {n : ℕ} (h0 : 0 ∉ l) (hl : l.length ≤ n) :
    strn (cstr l) n = l := by
  rw [strn, strnFrom_cstr l h0, List.drop_zero, List.take_of_length_le hl]

/-! ## `memmove` -/

/-- The loop that copies upwards, `*d++ = *s++`. -/
def memmoveUp : (n d s : ℕ) → Mem → Mem
  | 0, _, _, m => m
  | n + 1, d, s, m => memmoveUp n ((d + 1) % 2 ^ 64) ((s + 1) % 2 ^ 64) (update m d (m s))

/-- The loop that copies downwards, `*--d = *--s`. -/
def memmoveDown : (n d s : ℕ) → Mem → Mem
  | 0, _, _, m => m
  | n + 1, d, s, m =>
    let d := (d + 2 ^ 64 - 1) % 2 ^ 64
    let s := (s + 2 ^ 64 - 1) % 2 ^ 64
    memmoveDown n d s (update m d (m s))

/-- Copy `n` bytes from `src` to `dst`, and return `dst`. -/
def memmove (dst src n : ℕ) (m : Mem) : ℕ × Mem :=
  if n = 0 then (dst, m)
  else if src < dst ∧ dst < (src + n) % 2 ^ 64 then
    (dst, memmoveDown n ((dst + n) % 2 ^ 64) ((src + n) % 2 ^ 64) m)
  else (dst, memmoveUp n dst src m)

section Memmove

variable {dst src n : ℕ}

/-- **Copying upwards** is right if the destination does not start inside the source: a byte is
overwritten only after it has been read. -/
theorem memmoveUp_eq (m : Mem) (hdst : dst + n ≤ 2 ^ 64) (hsrc : src + n ≤ 2 ^ 64)
    (h : dst ≤ src ∨ src + n ≤ dst) : memmoveUp n dst src m = put m dst n fun i => m (src + i) := by
  induction n generalizing dst src m with
  | zero => rw [memmoveUp, put_zero]
  | succ n ih =>
    rw [memmoveUp, ← put_first]
    cases n with
    | zero => rw [memmoveUp, put_zero, Nat.add_zero]
    | succ n =>
      rw [Nat.mod_eq_of_lt (by omega), Nat.mod_eq_of_lt (by omega),
        ih _ (by omega) (by omega) (by omega)]
      refine put_congr fun i hi => ?_
      rw [update_of_ne (by omega), Nat.add_assoc]

/-- **Copying downwards** is right if the destination starts behind the start of the source. -/
theorem memmoveDown_eq (m : Mem) (hdst : dst + n ≤ 2 ^ 64) (h : src ≤ dst) :
    memmoveDown n ((dst + n) % 2 ^ 64) ((src + n) % 2 ^ 64) m =
      put m dst n fun i => m (src + i) := by
  induction n generalizing m with
  | zero => rw [memmoveDown, put_zero]
  | succ n ih =>
    have hback : ∀ p, p + (n + 1) ≤ 2 ^ 64 →
        ((p + (n + 1)) % 2 ^ 64 + 2 ^ 64 - 1) % 2 ^ 64 = (p + n) % 2 ^ 64 := by
      intro p hp
      omega
    rw [memmoveDown, hback dst hdst, hback src (by omega), ih _ (by omega),
      Nat.mod_eq_of_lt (a := dst + n) (by omega), Nat.mod_eq_of_lt (a := src + n) (by omega),
      ← put_last]
    refine put_congr fun i hi => ?_
    rw [update_of_ne (by omega)]

theorem memmove_eq_put (m : Mem) (hdst : dst + n ≤ 2 ^ 64) (hsrc : src + n ≤ 2 ^ 64) :
    memmove dst src n m = (dst, put m dst n fun i => m (src + i)) := by
  rw [memmove]
  split_ifs with h0 h
  · rw [h0, put_zero]
  · rw [memmoveDown_eq m hdst h.1.le]
  · -- in front of the destination the source ends before the address space does
    have hend : src < dst → (src + n) % 2 ^ 64 = src + n := fun hlt => Nat.mod_eq_of_lt (by omega)
    rw [memmoveUp_eq m hdst hsrc]
    by_contra hin
    exact h ⟨by omega, by rw [hend (by omega)]; omega⟩

/-- **`memmove` is correct under overlap**: the destination has the bytes that the source had
before, and no other byte has changed. -/
theorem memmove_copies (m : Mem) (dst src n : ℕ) (hdst : dst + n ≤ 2 ^ 64)
    (hsrc : src + n ≤ 2 ^ 64) :
    (memmove dst src n m).1 = dst ∧
      (∀ i < n, (memmove dst src n m).2 (dst + i) = m (src + i)) ∧
      ∀ x, x < dst ∨ dst + n ≤ x → (memmove dst src n m).2 x = m x := by
  rw [memmove_eq_put m hdst hsrc]
  refine ⟨rfl, fun i hi => ?_, fun x hx => ?_⟩
  · dsimp only
    rw [put_of_mem (by omega), Nat.add_sub_cancel_left]
  · dsimp only
    rw [put_of_not_mem (by omega)]

end Memmove

theorem memmove_copies_byOne :
    (∀ i < 3, (memmove 5 4 3 fun a => UInt8.ofNat a).2 (5 + i) = UInt8.ofNat (4 + i)) ∧
      (memmove 5 4 3 fun a => UInt8.ofNat a).2 4 = 4 := by
  obtain ⟨-, hin, hout⟩ := memmove_copies (fun a => UInt8.ofNat a) 5 4 3 (by decide) (by decide)
  exact ⟨hin, hout 4 (by decide)⟩

end RiscvOs.Str
