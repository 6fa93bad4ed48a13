import RiscvOs.Lib.Loop

set_option autoImplicit false

/-!
# Printing numbers (`user/printf.c`)

`printint` stores the digits of a number in a buffer of 20 bytes, the last digit first, and prints the buffer
from its end. The number is negated in 64 bits, so `-2 ^ 63` becomes `2 ^ 63`. The model stops at an access behind
the buffer.

## Main results

* `printint_eq` — what `printint` writes, if the buffer is large enough.
* `vprintf_prints_number` — the buffer is large enough for every call in `vprintf`.
-/

namespace RiscvOs.User

open Function

/-! ## The code -/

/-- The size of `buf`. -/
def BUFSIZE : ℕ := 20

/-- An access to `buf` at an index that is not below its size. -/
structure Overrun where
  index : ℕ

/-- The characters that were written, each with its file descriptor. -/
abbrev Output : Type := List (ℤ × Char)

/-- The array `digits`; behind the digits there is a `NUL`. -/
def digit (k : ℕ) : Char := "0123456789ABCDEF".toList.getD k '\x00'

@[inherit_doc Output] def putc (fd : ℤ) (c : Char) (out : Output) : Output := out ++ [(fd, c)]

/-- The loop that stores the digits of `x` from index `i` on. `room` is the number of bytes from `i` to the end of
the buffer; with none left the next store is at `buf[20]`. -/
def storeDigits (base : ℕ) : (room x i : ℕ) → (ℕ → Char) → Except Overrun (ℕ × (ℕ → Char))
  | 0, _, i, _ => .error ⟨i⟩
  | room + 1, x, i, buf =>
    let buf := update buf i (digit (x % base))
    if x / base ≠ 0 then storeDigits base room (x / base) (i + 1) buf else .ok (i + 1, buf)

/-- The loop `while(--i >= 0) putc(fd, buf[i])`. -/
def putDown (fd : ℤ) (buf : ℕ → Char) : ℕ → Output → Except Overrun Output
  | 0, out => .ok out
  | i + 1, out => if i < BUFSIZE then putDown fd buf i (putc fd (buf i) out) else .error ⟨i⟩

/-- Print a number. The buffer is not initialised, so it contains anything. -/
def printint (fd : ℤ) (xx : BitVec 64) (base : ℕ) (sgn : Bool) (buf : ℕ → Char) (out : Output) :
    Except Overrun Output := do
  let neg := sgn && xx.slt 0
  let x := if neg then -xx else xx
  let (i, buf) ← storeDigits base BUFSIZE x.toNat 0 buf
  if neg then
    if i < BUFSIZE then putDown fd (update buf i '-') (i + 1) out else .error ⟨i⟩
  else putDown fd buf i out

/-- The conversions of `vprintf` for numbers. -/
inductive Conversion where
  | d | ld | lld | u | lu | llu | x | lx | llx
  deriving DecidableEq

/-- The call of `printint` in `vprintf`, where `w` is the next word of the argument list: `va_arg` takes an `int`,
a `uint32` or a `uint64` from it. -/
def Conversion.print (c : Conversion) (fd : ℤ) (w : BitVec 64) : (ℕ → Char) → Output → Except Overrun Output :=
  match c with
  | .d => printint fd ((w.truncate 32).signExtend 64) 10 true
  | .ld | .lld => printint fd w 10 true
  | .u => printint fd ((w.truncate 32).zeroExtend 64) 10 false
  | .lu | .llu => printint fd w 10 false
  | .x => printint fd ((w.truncate 32).zeroExtend 64) 16 false
  | .lx | .llx => printint fd w 16 false

/-! ## The representation of a number -/

/-- The base of a conversion. -/
def Conversion.base : Conversion → ℕ
  | .d | .ld | .lld | .u | .lu | .llu => 10
  | .x | .lx | .llx => 16

/-- The number that a conversion is to print. -/
def Conversion.value (c : Conversion) (w : BitVec 64) : ℤ :=
  match c with
  | .d => (w.truncate 32).toInt
  | .ld | .lld => w.toInt
  | .u | .x => (w.truncate 32).toNat
  | .lu | .llu | .lx | .llx => w.toNat

/-- The characters are the representation of the number `z` in the base `b`: a sign if it is negative, and the
digits of its absolute value without leading zeros. -/
def Represents (b : ℕ) (z : ℤ) (l : List Char) : Prop :=
  ∃ ds : List ℕ, l = (if z < 0 then ['-'] else []) ++ ds.map digit ∧ (∀ k ∈ ds, k < b) ∧
    (ds.head? = some 0 → ds = [0]) ∧ ds ≠ [] ∧ Nat.ofDigits b ds.reverse = z.natAbs

/-- The digits of `x` in the order in which `printint` stores them. -/
def places (b x : ℕ) : List ℕ := if x = 0 then [0] else Nat.digits b x

/-- The representation of `z`. -/
def numeral (b : ℕ) (z : ℤ) : List Char :=
  (if z < 0 then ['-'] else []) ++ (places b z.natAbs).reverse.map digit

section Places

variable {b x : ℕ}

theorem places_eq (hb : 1 < b) (x : ℕ) :
    places b x = x % b :: if x / b = 0 then [] else places b (x / b) := by
  by_cases h0 : x = 0
  · rw [h0, Nat.zero_div, if_pos rfl, Nat.zero_mod]
    rfl
  · rw [places, if_neg h0, Nat.digits_def' hb (Nat.pos_of_ne_zero h0)]
    split_ifs with hq
    · rw [hq, Nat.digits_zero]
    · rw [places, if_neg hq]

theorem places_length_le {n : ℕ} (hb : 1 < b) (hn : 0 < n) (h : x < b ^ n) : (places b x).length ≤ n := by
  rw [places]
  split_ifs
  · exact hn
  · exact (Nat.digits_length_le_iff hb x).mpr h

/-- **A number has one representation.** -/
theorem represents_iff (hb : 1 < b) (z : ℤ) (l : List Char) : Represents b z l ↔ l = numeral b z := by
  rw [numeral]
  constructor
  · rintro ⟨ds, rfl, hlt, hhead, hne, hval⟩
    suffices h : places b z.natAbs = ds.reverse by rw [h, List.reverse_reverse]
    rw [← hval, places]
    by_cases h0 : ds = [0]
    · subst h0
      rfl
    · have hdig : Nat.digits b (Nat.ofDigits b ds.reverse) = ds.reverse := by
        refine Nat.digits_ofDigits b hb _ (fun k hk => hlt k (List.mem_reverse.mp hk)) fun h hlast => ?_
        rw [List.getLast_reverse] at hlast
        exact h0 (hhead (by rw [← hlast, List.head?_eq_some_head hne]))
      rw [if_neg, hdig]
      intro hz
      rw [hz, Nat.digits_zero] at hdig
      exact hne (List.reverse_eq_nil_iff.mp hdig.symm)
  · rintro rfl
    refine ⟨_, rfl, fun k hk => ?_, fun hhead => ?_, ?_, ?_⟩
    · rw [List.mem_reverse, places] at hk
      split_ifs at hk
      · rw [List.mem_singleton.mp hk]
        omega
      · exact Nat.digits_lt_base hb hk
    · rw [places] at hhead ⊢
      split_ifs at hhead ⊢ with h0
      · rfl
      · rw [List.head?_reverse] at hhead
        rw [List.getLast?_eq_some_getLast (Nat.digits_ne_nil_iff_ne_zero.mpr h0)] at hhead
        exact absurd (Option.some.inj hhead) (Nat.getLast_digit_ne_zero b h0)
    · rw [places_eq hb]
      simp
    · rw [List.reverse_reverse, places]
      split_ifs with h0
      · rw [h0]
        simp
      · exact Nat.ofDigits_digits b _

end Places

/-! ## What `printint` writes -/

section Printint

variable {fd : ℤ} {base : ℕ} (buf : ℕ → Char) {out : Output}

theorem storeDigits_eq (hb : 1 < base) {room x : ℕ} (i : ℕ) (h : (places base x).length ≤ room) :
    ∃ buf', storeDigits base room x i buf = .ok (i + (places base x).length, buf') ∧
      (List.range' i (places base x).length).map buf' = (places base x).map digit ∧
      ∀ j < i, buf' j = buf j := by
  induction room generalizing x i buf with
  | zero =>
    rw [places_eq hb] at h
    exact absurd h (by simp)
  | succ room ih =>
    rw [places_eq hb] at h ⊢
    rw [storeDigits]
    by_cases hq : x / base = 0
    · rw [if_neg (not_not.mpr hq), if_pos hq]
      refine ⟨_, rfl, ?_, fun j hj => update_of_ne hj.ne _ _⟩
      simp
    · rw [if_neg hq, List.length_cons] at h
      obtain ⟨buf', hrun, hmap, hlow⟩ :=
        ih (update buf i (digit (x % base))) (i + 1) (x := x / base) (by omega)
      rw [if_pos hq, if_neg hq, hrun, List.length_cons, Nat.add_assoc, Nat.add_comm 1]
      refine ⟨buf', rfl, ?_, fun j hj => ?_⟩
      · rw [List.range'_succ, List.map_cons, hmap, hlow i (Nat.lt_succ_self i), update_self, List.map_cons]
      · rw [hlow j (by omega), update_of_ne hj.ne]

variable {buf}

theorem putDown_eq {i : ℕ} (hi : i ≤ BUFSIZE) :
    putDown fd buf i out = .ok (out ++ ((List.range i).map buf).reverse.map (Prod.mk fd)) := by
  induction i generalizing out with
  | zero => simp [putDown]
  | succ i ih =>
    rw [putDown, if_pos (Nat.lt_of_succ_le hi), ih (by omega), putc, List.range_succ, List.map_append,
      List.reverse_append]
    simp

/-- **What `printint` writes**, if the digits and the sign have room in the buffer. -/
theorem printint_eq (hb : 1 < base) {xx : BitVec 64} {sgn : Bool} {z : ℤ}
    (hneg : (sgn && xx.slt 0) = decide (z < 0))
    (habs : (if sgn && xx.slt 0 then -xx else xx).toNat = z.natAbs)
    (hroom : (places base z.natAbs).length + (if z < 0 then 1 else 0) ≤ BUFSIZE) :
    printint fd xx base sgn buf out = .ok (out ++ (numeral base z).map (Prod.mk fd)) := by
  obtain ⟨buf', hrun, hmap, -⟩ := storeDigits_eq buf hb 0
    (le_trans (Nat.le_add_right _ _) hroom : (places base z.natAbs).length ≤ BUFSIZE)
  rw [Nat.zero_add] at hrun
  rw [← List.range_eq_range'] at hmap
  rw [printint, numeral]
  dsimp only
  rw [habs, hneg, hrun, Loop.ok_bind]
  by_cases hz : z < 0
  · rw [if_pos hz] at hroom ⊢
    -- the sign is stored behind the digits
    have hdigits : (List.range (places base z.natAbs).length).map
        (update buf' (places base z.natAbs).length '-') = (places base z.natAbs).map digit := by
      rw [← hmap]
      refine List.map_congr_left fun j hj => update_of_ne (List.mem_range.mp hj).ne _ _
    rw [if_pos (decide_eq_true hz), if_pos (by omega), putDown_eq hroom, List.range_succ, List.map_append, hdigits]
    simp
  · rw [if_neg hz, Nat.add_zero] at hroom
    rw [if_neg (by simpa using hz), putDown_eq hroom, hmap, if_neg hz]
    simp

theorem printint_signed (xx : BitVec 64) :
    printint fd xx 10 true buf out = .ok (out ++ (numeral 10 xx.toInt).map (Prod.mk fd)) := by
  have hint := BitVec.toInt_eq_toNat_cond xx
  have hslt : xx.slt 0 = decide (xx.toInt < 0) := rfl
  refine printint_eq (by decide) (by rw [hslt, Bool.true_and]) ?_ ?_
  · rw [hslt, Bool.true_and]
    by_cases hz : xx.toInt < 0
    · rw [if_pos (decide_eq_true hz), BitVec.toNat_neg]
      omega
    · rw [if_neg (by simpa using hz)]
      omega
  · have hlen := places_length_le (b := 10) (n := 19) (x := xx.toInt.natAbs) (by decide) (by decide) (by omega)
    rw [BUFSIZE]
    split_ifs <;> omega

theorem printint_unsigned (hb : 10 ≤ base) (xx : BitVec 64) :
    printint fd xx base false buf out = .ok (out ++ (numeral base xx.toNat).map (Prod.mk fd)) := by
  refine printint_eq (by omega) (by simp) (by simp) ?_
  refine places_length_le (by omega) (by decide) (xx.isLt.trans_le ?_)
  calc 2 ^ 64 ≤ 10 ^ BUFSIZE := by decide
    _ ≤ base ^ BUFSIZE := Nat.pow_le_pow_left hb _

end Printint

theorem Conversion.print_eq (c : Conversion) (fd : ℤ) (w : BitVec 64) (buf : ℕ → Char) (out : Output) :
    c.print fd w buf out = .ok (out ++ (numeral c.base (c.value w)).map (Prod.mk fd)) := by
  have hzero : ((w.truncate 32).zeroExtend 64).toNat = (w.truncate 32).toNat :=
    BitVec.toNat_setWidth_of_le (by decide)
  have hsign : ((w.truncate 32).signExtend 64).toInt = (w.truncate 32).toInt :=
    BitVec.toInt_signExtend_of_le (by decide)
  cases c with
  | d => exact (printint_signed _).trans (by rw [hsign]; rfl)
  | ld | lld => exact printint_signed w
  | u | x => exact (printint_unsigned (by decide) _).trans (by rw [hzero]; rfl)
  | lu | llu | lx | llx => exact printint_unsigned (by decide) w

/-- **`printint` prints the number and stays in its buffer**: for every conversion of `vprintf` and every argument,
no index is behind the buffer, and the characters written are the only representation of the number in the base of
the conversion. -/
theorem vprintf_prints_number (c : Conversion) (fd : ℤ) (w : BitVec 64) (buf : ℕ → Char) (out : Output) :
    ∃ l, c.print fd w buf out = .ok (out ++ l.map (Prod.mk fd)) ∧ Represents c.base (c.value w) l ∧
      ∀ l', Represents c.base (c.value w) l' → l' = l := by
  have hb : 1 < c.base := by cases c <;> decide
  exact ⟨_, c.print_eq fd w buf out, (represents_iff hb _ _).mpr rfl, fun l' => (represents_iff hb _ _).mp⟩

example : (Conversion.ld.print 1 (BitVec.ofNat 64 (2 ^ 63)) (fun _ => 'z') []).toOption.map (List.map Prod.snd) =
    some "-9223372036854775808".toList := by decide

end RiscvOs.User
