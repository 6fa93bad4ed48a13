import RiscvOs.Lib.CInt
import RiscvOs.Fs.State

set_option autoImplicit false

/-!
# `balloc` on a bitmap of any size (`kernel/disk/fs.c`)

`Fs/State` has `balloc` for disks of fewer than `2 ^ 31` blocks. The variable `b` of its outer loop is an
`int`, and `sb.size` is a `uint`: on a larger disk `b` becomes negative after `2 ^ 18` blocks of the bitmap,
and `BBLOCK(b, sb)` is then a block below the bitmap. Here the loop is modelled with these conversions.

## Main results

* `returns_iff` — what `balloc` returns.
* `balloc_takes_iff` — `balloc` takes the first free block exactly under the condition,
  and under it no block is handed out twice.

## Implementation notes

`bread` and `brelse` are a transparent cache, as in `Fs/State`. `bfree` is that of `Fs/State`: its argument is
an `int` too, but it is only called for blocks below `2 ^ 31` here.
-/

namespace RiscvOs.Fs.Balloc

open Function CInt

/-! ## The code -/

/-- `BBLOCK(b, sb)` for a variable of type `int`. -/
def bblock (b : ℤ) (sb : Superblock) : ℕ := uint (b.tdiv BPB + sb.bmapstart)

/-- The inner loop: the first clear bit, as long as `b + bi < sb.size`. -/
@[irreducible] def scan (c : Block) (b : ℤ) (size : ℕ) : Option ℕ :=
  ((List.range BPB).takeWhile fun bi : ℕ => uint (b + bi) < size).find? fun bi => !ByteBlock.isSet c bi

/-- Bit `bi` of block `B` is set, and block `r` is zeroed. -/
def take (B bi r : ℕ) (s : FS) : FS :=
  bzero r ((s.setBuf B (ByteBlock.setBit (s.buf B) bi)).logWrite B)

/-- The outer loop. -/
def ballocLoop : (fuel : ℕ) → (b : ℤ) → FS → Option (ℕ × FS)
  | 0, _, _ => none
  | fuel + 1, b, s =>
    if uint b < s.sb.size then
      match scan (s.buf (bblock b s.sb)) b s.sb.size with
      | some bi => some (uint (b + bi), take (bblock b s.sb) bi (uint (b + bi)) s)
      | none => ballocLoop fuel (int (b + BPB)) s
    else some (0, s)

/-- `balloc` returns `r`, and the state is then `t`. -/
def Returns (s : FS) (r : ℕ) (t : FS) : Prop := ∃ fuel, ballocLoop fuel 0 s = some (r, t)

/-! ## The rounds of the outer loop -/

/-- `b` in round `j`. -/
def round (j : ℕ) : ℤ := int (j * BPB)

/-- The block that is read in round `j`. -/
def blockAt (sb : Superblock) (j : ℕ) : ℕ := bblock (round j) sb

/-- The bit at which `balloc` looks for block `c`. -/
def seen (s : FS) (c : ℕ) : Bool := ByteBlock.isSet (s.buf (blockAt s.sb (c / BPB))) (c % BPB)

theorem BPB_eq : BPB = 8192 := rfl

theorem div_mod_BPB {bi : ℕ} (j : ℕ) (h : bi < BPB) :
    (j * BPB + bi) / BPB = j ∧ (j * BPB + bi) % BPB = bi := by
  rw [BPB_eq] at *
  omega

theorem uint_round {j bi : ℕ} (hj : j < 2 ^ 19) (hbi : bi < BPB) : uint (round j + bi) = j * BPB + bi := by
  rw [BPB_eq] at hbi
  rw [round, uint_int_add, BPB_eq, uint_of_nonneg (by omega) (by omega)]
  omega

theorem round_succ (j : ℕ) : int (round j + BPB) = round (j + 1) := by
  rw [round, int_add_int, round, Nat.cast_succ, Int.add_mul, Int.one_mul]

theorem blockAt_of_lt {sb : Superblock} {j : ℕ} (hj : j < 2 ^ 18) (hmap : sb.bmapstart + j < 2 ^ 32) :
    blockAt sb j = BBLOCK (j * BPB) sb := by
  have hround : round j = j * 8192 := int_eq (by rw [BPB_eq]; omega) (by rw [BPB_eq]; omega)
  have hdiv : (round j).tdiv BPB = j := by
    rw [hround, BPB_eq]
    exact Int.mul_tdiv_cancel j (by decide)
  rw [blockAt, bblock, hdiv, uint_of_nonneg (by omega) (by omega), BBLOCK, BPB_eq]
  omega

theorem blockAt_of_ge {sb : Superblock} {j : ℕ} (hj : 2 ^ 18 ≤ j) (hj' : j < 2 ^ 19) :
    blockAt sb j ≠ BBLOCK (j * BPB) sb := by
  have hround : round j = (j - 2 ^ 19) * 8192 := by
    rw [round, int_of_ge (by rw [BPB_eq]; omega) (by rw [BPB_eq]; omega), BPB_eq]
    omega
  have hdiv : (round j).tdiv BPB = j - 2 ^ 19 := by
    rw [hround, BPB_eq]
    exact Int.mul_tdiv_cancel _ (by decide)
  rw [blockAt, bblock, hdiv, BBLOCK, BPB_eq]
  unfold uint
  omega

theorem seen_of_lt {s : FS} {c : ℕ} (hc : c < 2 ^ 31) (hmap : s.sb.bmapstart + c / BPB < 2 ^ 32) :
    seen s c = s.used c := by
  have hj : c / BPB < 2 ^ 18 := by
    rw [BPB_eq]
    omega
  rw [seen, blockAt_of_lt hj hmap, isSet_eq_blockUsed _ _ (Nat.mod_lt c (by decide)), eq_mul_BPB_add]
  rfl

theorem seen_eq_used {s : FS} {c : ℕ} (hmap : s.sb.bmapstart + s.sb.size / BPB < 2 ^ 32) (hc : c < s.sb.size)
    (hlt : c < 2 ^ 31) : seen s c = s.used c := by
  have := Nat.div_le_div_right (c := BPB) hc.le
  exact seen_of_lt hlt (by omega)

theorem takeWhile_range {n m : ℕ} {p : ℕ → Bool} (hp : ∀ x < n, p x = decide (x < m)) :
    (List.range n).takeWhile p = List.range (min n m) := by
  induction n with
  | zero =>
    rfl
  | succ n ih =>
    have hn := hp n (Nat.lt_succ_self n)
    rw [List.range_succ, List.takeWhile_append, ih fun x hx => hp x (by omega), List.length_range,
      List.length_range]
    by_cases hlt : n < m
    · rw [if_pos (by omega), List.takeWhile_cons, hn, if_pos (by simpa using hlt), List.takeWhile_nil,
        ← List.range_succ, Nat.min_eq_left (by omega)]
    · rcases Nat.eq_or_lt_of_le (Nat.le_of_not_lt hlt) with rfl | hlt'
      · rw [if_pos (by omega), List.takeWhile_cons, hn, if_neg (by simp), List.append_nil,
          Nat.min_eq_right (by omega)]
      · rw [if_neg (by omega), Nat.min_eq_right (by omega), Nat.min_eq_right (by omega)]

theorem scan_round {c : Block} {j size : ℕ} (hj : j < 2 ^ 19) :
    scan c (round j) size = ballocScan c (j * BPB) size := by
  have hrange : ((List.range BPB).takeWhile fun bi : ℕ => uint (round j + bi) < size) =
      List.range (min BPB (size - j * BPB)) := by
    apply takeWhile_range
    intro bi hbi
    rw [uint_round hj hbi]
    exact decide_eq_decide.mpr (by omega)
  unfold scan
  rw [hrange, ballocScan]

theorem ballocLoop_round {s : FS} {j : ℕ} (hj : j < 2 ^ 19) (fuel : ℕ) :
    ballocLoop (fuel + 1) (round j) s =
      if j * BPB < s.sb.size then
        match ballocScan (s.buf (blockAt s.sb j)) (j * BPB) s.sb.size with
        | some bi => some (j * BPB + bi, take (blockAt s.sb j) bi (j * BPB + bi) s)
        | none => ballocLoop fuel (round (j + 1)) s
      else some (0, s) := by
  have hpos : 0 < BPB := by decide
  have hzero : uint (round j) = j * BPB := by
    have h := uint_round hj hpos
    rwa [Nat.cast_zero, Int.add_zero, Nat.add_zero] at h
  have hscan : scan (s.buf (blockAt s.sb j)) (round j) s.sb.size = _ := scan_round hj
  rw [ballocLoop, hzero, round_succ, ← blockAt, hscan]
  split_ifs with hlt
  · cases hfound : ballocScan (s.buf (blockAt s.sb j)) (j * BPB) s.sb.size with
    | none => rfl
    | some bi =>
      have hbi : bi < BPB := by
        rw [ballocScan, List.find?_range_eq_some] at hfound
        have := List.mem_range.mp hfound.2.1
        omega
      dsimp only
      rw [uint_round hj hbi]
  · rfl

/-! ## What `balloc` returns -/

section Returns

variable {s t : FS} {r j : ℕ}

theorem ballocLoop_mono {fuel : ℕ} {b : ℤ} {x : ℕ × FS} (h : ballocLoop fuel b s = some x) (n : ℕ) :
    ballocLoop (fuel + n) b s = some x := by
  induction fuel generalizing b with
  | zero => cases h
  | succ fuel ih =>
    rw [Nat.add_right_comm, ballocLoop] at *
    split_ifs at h ⊢ with hlt
    · cases hscan : scan (s.buf (bblock b s.sb)) b s.sb.size with
      | some bi =>
        rw [hscan] at h
        exact h
      | none =>
        rw [hscan] at h
        exact ih h
    · exact h

theorem Returns.unique {r' : ℕ} {t' : FS} (h : Returns s r t) (h' : Returns s r' t') : r' = r ∧ t' = t := by
  obtain ⟨n, hn⟩ := h
  obtain ⟨n', hn'⟩ := h'
  have h₁ := ballocLoop_mono hn n'
  have h₂ := ballocLoop_mono hn' n
  rw [Nat.add_comm, h₁] at h₂
  exact Prod.mk.inj (Option.some.inj h₂.symm)

theorem scan_none (h : ∀ c, c / BPB = j → c < s.sb.size → seen s c = true) :
    ballocScan (s.buf (blockAt s.sb j)) (j * BPB) s.sb.size = none := by
  rw [ballocScan, List.find?_eq_none]
  intro bi hbi
  have hlt := List.mem_range.mp hbi
  have hbit : bi < BPB := by omega
  obtain ⟨hdiv, hmod⟩ := div_mod_BPB j hbit
  have hseen := h (j * BPB + bi) hdiv (by omega)
  rw [seen, hdiv, hmod] at hseen
  simp [hseen]

theorem scan_some (hr : r < s.sb.size) (hclear : seen s r = false) (hbefore : ∀ c < r, seen s c = true) :
    ballocScan (s.buf (blockAt s.sb (r / BPB))) (r / BPB * BPB) s.sb.size = some (r % BPB) := by
  have hdiv := eq_mul_BPB_add r
  have hpos : 0 < BPB := by decide
  have hmod := Nat.mod_lt r hpos
  rw [ballocScan, List.find?_range_eq_some]
  refine ⟨?_, List.mem_range.mpr (by omega), fun c hc => ?_⟩
  · rw [seen] at hclear
    rw [hclear]
    rfl
  · obtain ⟨hq, hm⟩ := div_mod_BPB (r / BPB) (hc.trans hmod)
    have hseen := hbefore (r / BPB * BPB + c) (by omega)
    rw [seen, hq, hm] at hseen
    rw [hseen]
    rfl

theorem ballocLoop_skip (fuel n : ℕ) (hn : n ≤ 2 ^ 19) (hsize : ∀ i < n, i * BPB < s.sb.size)
    (hseen : ∀ c < n * BPB, c < s.sb.size → seen s c = true) :
    ballocLoop (fuel + n) 0 s = ballocLoop fuel (round n) s := by
  induction n generalizing fuel with
  | zero =>
    have hzero : round 0 = 0 := by decide +kernel
    rw [hzero]
    rfl
  | succ n ih =>
    have hle : n * BPB ≤ (n + 1) * BPB := Nat.mul_le_mul_right BPB (Nat.le_succ n)
    have hnone : ballocScan (s.buf (blockAt s.sb n)) (n * BPB) s.sb.size = none := by
      apply scan_none
      intro c hc hlt
      refine hseen c ?_ hlt
      have hdiv := eq_mul_BPB_add c
      have hmod : c % BPB < BPB := Nat.mod_lt c (by decide)
      rw [hc] at hdiv
      rw [Nat.add_mul]
      omega
    have hround := ih (fuel + 1) (by omega) (fun i hi => hsize i (by omega))
      fun c hc hlt => hseen c (hc.trans_le hle) hlt
    rw [show fuel + (n + 1) = fuel + 1 + n by omega, hround, ballocLoop_round hn,
      if_pos (hsize n (Nat.lt_succ_self n)), hnone]

/-- **`balloc` returns the first block whose bit it sees clear.** -/
theorem returns_of_clear (hr : r < s.sb.size) (hsize : s.sb.size < 2 ^ 32) (hclear : seen s r = false)
    (hbefore : ∀ c < r, seen s c = true) :
    Returns s r (take (blockAt s.sb (r / BPB)) (r % BPB) r s) := by
  have hdiv := eq_mul_BPB_add r
  have hj : r / BPB < 2 ^ 19 := by
    rw [BPB_eq]
    omega
  have hle : r / BPB * BPB < s.sb.size := by omega
  refine ⟨1 + r / BPB, ?_⟩
  rw [ballocLoop_skip 1 (r / BPB) hj.le ?_ fun c hc _ => hbefore c (by omega), ballocLoop_round hj, if_pos hle,
    scan_some hr hclear hbefore]
  · dsimp only
    rw [hdiv]
  · intro i hi
    exact (Nat.mul_le_mul_right BPB hi.le).trans_lt hle

theorem returns_of_full (hsize : s.sb.size ≤ 2 ^ 32 - BPB) (hfull : ∀ c < s.sb.size, seen s c = true) :
    Returns s 0 s := by
  have hn : (s.sb.size + BPB - 1) / BPB < 2 ^ 19 := by
    rw [BPB_eq] at *
    omega
  refine ⟨1 + (s.sb.size + BPB - 1) / BPB, ?_⟩
  rw [ballocLoop_skip 1 _ hn.le ?_ fun c _ hc => hfull c hc, ballocLoop_round hn, if_neg ?_]
  · rw [BPB_eq]
    omega
  · intro i hi
    rw [BPB_eq] at *
    omega

theorem not_returns (hsize : 2 ^ 32 - BPB < s.sb.size) (hfull : ∀ c < s.sb.size, seen s c = true) :
    ¬ Returns s r t := by
  have hnone : ∀ fuel j, j < 2 ^ 19 → ballocLoop fuel (round j) s = none := by
    intro fuel
    induction fuel with
    | zero => exact fun j _ => rfl
    | succ fuel ih =>
      intro j hj
      have hlt : j * BPB < s.sb.size := by
        rw [BPB_eq] at *
        omega
      rw [ballocLoop_round hj, if_pos hlt, scan_none fun c _ hc => hfull c hc]
      by_cases hlast : j + 1 < 2 ^ 19
      · exact ih (j + 1) hlast
      · obtain rfl : j = 2 ^ 19 - 1 := by omega
        have hwrap : round (2 ^ 19 - 1 + 1) = round 0 := by decide +kernel
        rw [hwrap]
        exact ih 0 (by decide)
  rintro ⟨fuel, hfuel⟩
  have hzero : round 0 = 0 := by decide +kernel
  rw [← hzero, hnone fuel 0 (by decide)] at hfuel
  cases hfuel

/-- **What `balloc` returns**, in terms of the bits that it sees. -/
theorem returns_iff (hsize : s.sb.size < 2 ^ 32) : Returns s r t ↔
    (r < s.sb.size ∧ seen s r = false ∧ (∀ c < r, seen s c = true) ∧
      t = take (blockAt s.sb (r / BPB)) (r % BPB) r s) ∨
    ((∀ c < s.sb.size, seen s c = true) ∧ s.sb.size ≤ 2 ^ 32 - BPB ∧ r = 0 ∧ t = s) := by
  by_cases hfull : ∀ c < s.sb.size, seen s c = true
  · by_cases hwrap : s.sb.size ≤ 2 ^ 32 - BPB
    · have hret := returns_of_full hwrap hfull
      refine ⟨fun h => Or.inr ⟨hfull, hwrap, hret.unique h⟩, ?_⟩
      rintro (⟨hr, hclear, -, -⟩ | ⟨-, -, rfl, rfl⟩)
      · rw [hfull r hr] at hclear
        cases hclear
      · exact hret
    · refine ⟨fun h => absurd h (not_returns (by omega) hfull), ?_⟩
      rintro (⟨hr, hclear, -, -⟩ | ⟨-, hle, -, -⟩)
      · rw [hfull r hr] at hclear
        cases hclear
      · exact absurd hle hwrap
  · push Not at hfull
    -- the first clear bit
    obtain ⟨c, ⟨hc, hclear⟩, hmin⟩ := Nat.findX hfull
    rw [ne_eq, Bool.not_eq_true] at hclear
    have hbefore : ∀ d < c, seen s d = true := by
      intro d hd
      by_contra hne
      exact hmin d hd ⟨hd.trans hc, hne⟩
    have hret := returns_of_clear hc hsize hclear hbefore
    constructor
    · intro h
      obtain ⟨rfl, rfl⟩ := hret.unique h
      exact Or.inl ⟨hc, hclear, hbefore, rfl⟩
    · rintro (⟨hr, hclear', hbefore', rfl⟩ | ⟨hfull', -, -, -⟩)
      · exact returns_of_clear hr hsize hclear' hbefore'
      · rw [hfull' c hc] at hclear
        cases hclear

end Returns

/-! ## Taking the first free block -/

/-- Exactly the bit of block `r` has been set, exactly block `r` has been zeroed, and nothing else has
changed but the list of logged blocks. -/
structure Taken (s : FS) (r : ℕ) (t : FS) : Prop where
  bits : ∀ c < s.sb.size, t.used c = (decide (c = r) || s.used c)
  zero : t.buf r = fun _ => 0
  others : ∀ B, B ≠ r → t.buf B = setUsed s.sb s.buf r B
  rest : t = { s with buf := t.buf, logged := t.logged }

/-- `balloc` takes the first free block, which `bfree` can give back, or finds that there is none. -/
def Takes (s : FS) : Prop :=
  ∃ r t, Returns s r t ∧
    ((∀ c < s.sb.size, s.used c = true) ∧ r = 0 ∧ t = s ∨
      r < s.sb.size ∧ s.used r = false ∧ (∀ c < r, s.used c = true) ∧ Taken s r t ∧
        ∃ u, bfree r t = .ok u ∧ ∀ c < s.sb.size, u.used c = s.used c)

/-- The condition: the first free block is below `2 ^ 31`, and it is not a block of the bitmap with set bits
or with its own bit; or all blocks are in use, `b` does not come back to 0, and the bits that are looked at
instead of those at and above `2 ^ 31` are set. -/
def Finds (s : FS) : Prop :=
  (∃ r, r < s.sb.size ∧ r < 2 ^ 31 ∧ s.used r = false ∧ (∀ c < r, s.used c = true) ∧
      ∀ c < s.sb.size, BBLOCK c s.sb = r → s.used c = false ∧ c ≠ r) ∨
    (∀ c < s.sb.size, s.used c = true) ∧ s.sb.size ≤ 2 ^ 32 - BPB ∧
      ∀ c, 2 ^ 31 ≤ c → c < s.sb.size → seen s c = true

section Take

variable {s t : FS} {r : ℕ}

theorem isSet_zero (i : ℕ) : ByteBlock.isSet (fun _ => 0 : Block) i = false := by
  simp [ByteBlock.isSet, ByteBlock.get]

theorem used_zeroed {c : ℕ} (B bi : ℕ) (hc : BBLOCK c s.sb = r) : (take B bi r s).used c = false := by
  have hbuf : (take B bi r s).buf r = fun _ => 0 := update_self ..
  have hsb : (take B bi r s).sb = s.sb := rfl
  rw [FS.used, blockUsed, hsb, hc, hbuf, isSet_zero]

theorem used_take (c : ℕ) : (take (BBLOCK r s.sb) (r % BPB) r s).used c =
    if BBLOCK c s.sb = r then false else decide (c = r) || s.used c := by
  split_ifs with hc
  · exact used_zeroed _ _ hc
  · change blockUsed s.sb (update (setUsed s.sb s.buf r) r fun _ => 0) c = _
    rw [blockUsed_update_of_ne s.sb _ _ hc, blockUsed_setUsed]
    rfl

theorem taken_take (hkeep : ∀ c < s.sb.size, BBLOCK c s.sb = r → s.used c = false ∧ c ≠ r) :
    Taken s r (take (BBLOCK r s.sb) (r % BPB) r s) := by
  refine ⟨fun c hc => ?_, update_self .., fun B hB => update_of_ne hB _ _, rfl⟩
  rw [used_take]
  split_ifs with heq
  · obtain ⟨hclear, hne⟩ := hkeep c hc heq
    rw [hclear, decide_eq_false hne]
    rfl
  · rfl

theorem Taken.bfree (h : Taken s r t) (hr : r < s.sb.size) (hfree : s.used r = false) :
    ∃ u, Fs.bfree r t = .ok u ∧ ∀ c < s.sb.size, u.used c = s.used c := by
  have hused : t.used r = true := by
    rw [h.bits r hr, decide_eq_true rfl]
    rfl
  refine ⟨_, if_pos hused, fun c hc => ?_⟩
  change blockUsed t.sb (clearUsed t.sb t.buf r) c = _
  rw [blockUsed_clearUsed]
  change (!decide (c = r) && t.used c) = _
  rw [h.bits c hc]
  by_cases hcr : c = r
  · subst hcr
    rw [hfree]
    simp
  · simp [hcr]

/-- **The condition is enough.** -/
theorem Finds.returns (h : Finds s) (hsize : s.sb.size < 2 ^ 32)
    (hmap : s.sb.bmapstart + s.sb.size / BPB < 2 ^ 32) :
    (∃ r, Returns s r (take (BBLOCK r s.sb) (r % BPB) r s) ∧ r < s.sb.size ∧ s.used r = false ∧
        (∀ c < r, s.used c = true) ∧ Taken s r (take (BBLOCK r s.sb) (r % BPB) r s)) ∨
      (∀ c < s.sb.size, s.used c = true) ∧ Returns s 0 s := by
  have hlow : ∀ c < s.sb.size, c < 2 ^ 31 → seen s c = s.used c := fun c hc hlt => seen_eq_used hmap hc hlt
  rcases h with ⟨r, hr, hlt, hfree, hbefore, hkeep⟩ | ⟨hfull, hwrap, hstray⟩
  · have hblock : blockAt s.sb (r / BPB) = BBLOCK r s.sb := by
      have := Nat.div_le_div_right (c := BPB) hr.le
      have hj : r / BPB < 2 ^ 18 := by
        rw [BPB_eq]
        omega
      rw [blockAt_of_lt hj (by omega), BBLOCK, BBLOCK, Nat.mul_div_cancel _ (by decide)]
    have hret := returns_of_clear hr hsize (by rw [hlow r hr hlt, hfree]) fun c hc => by
      rw [hlow c (hc.trans hr) (hc.trans hlt), hbefore c hc]
    rw [hblock] at hret
    exact Or.inl ⟨r, hret, hr, hfree, hbefore, taken_take hkeep⟩
  · refine Or.inr ⟨hfull, returns_of_full hwrap fun c hc => ?_⟩
    by_cases hlt : c < 2 ^ 31
    · rw [hlow c hc hlt, hfull c hc]
    · exact hstray c (by omega) hc

theorem Finds.takes (h : Finds s) (hsize : s.sb.size < 2 ^ 32)
    (hmap : s.sb.bmapstart + s.sb.size / BPB < 2 ^ 32) : Takes s := by
  rcases h.returns hsize hmap with ⟨r, hret, hr, hfree, hbefore, htaken⟩ | ⟨hfull, hret⟩
  · exact ⟨r, _, hret, Or.inr ⟨hr, hfree, hbefore, htaken, htaken.bfree hr hfree⟩⟩
  · exact ⟨0, s, hret, Or.inl ⟨hfull, rfl, rfl⟩⟩

theorem not_used_of_ge (hr : 2 ^ 31 ≤ r) (hr' : r < 2 ^ 32) (hfree : s.used r = false) :
    (take (blockAt s.sb (r / BPB)) (r % BPB) r s).used r = false := by
  have hj : 2 ^ 18 ≤ r / BPB ∧ r / BPB < 2 ^ 19 := by
    rw [BPB_eq]
    omega
  have hne : BBLOCK r s.sb ≠ blockAt s.sb (r / BPB) := by
    have h : blockAt s.sb (r / BPB) ≠ BBLOCK (r / BPB * BPB) s.sb := blockAt_of_ge hj.1 hj.2
    rw [BBLOCK, Nat.mul_div_cancel _ (by decide)] at h
    exact h.symm
  by_cases hself : BBLOCK r s.sb = r
  · exact used_zeroed _ _ hself
  · have hbuf : (take (blockAt s.sb (r / BPB)) (r % BPB) r s).buf (BBLOCK r s.sb) = s.buf (BBLOCK r s.sb) :=
      (update_of_ne hself _ _).trans (update_of_ne hne _ _)
    have hsb : (take (blockAt s.sb (r / BPB)) (r % BPB) r s).sb = s.sb := rfl
    rw [FS.used, blockUsed, hsb, hbuf]
    exact hfree

/-- **The condition is necessary**, if block 0 is in use. -/
theorem Takes.finds (h : Takes s) (hsize : s.sb.size < 2 ^ 32)
    (hmap : s.sb.bmapstart + s.sb.size / BPB < 2 ^ 32) (hzero : s.used 0 = true) : Finds s := by
  have hlow : ∀ c < s.sb.size, c < 2 ^ 31 → seen s c = s.used c := fun c hc hlt => seen_eq_used hmap hc hlt
  obtain ⟨r, t, hret, ⟨hfull, rfl, rfl⟩ | ⟨hr, hfree, hbefore, htaken, -⟩⟩ := h
  · rcases (returns_iff hsize).mp hret with ⟨hpos, hclear, -⟩ | ⟨hseen, hwrap, -⟩
    · rw [hlow 0 hpos (by decide), hzero] at hclear
      cases hclear
    · exact Or.inr ⟨hfull, hwrap, fun c _ hc => hseen c hc⟩
  · rcases (returns_iff hsize).mp hret with ⟨-, -, -, rfl⟩ | ⟨-, -, rfl, -⟩
    · have hused := htaken.bits r hr
      rw [decide_eq_true rfl, Bool.true_or] at hused
      have hlt : r < 2 ^ 31 := by
        by_contra hge
        rw [not_used_of_ge (by omega) (by omega) hfree] at hused
        cases hused
      refine Or.inl ⟨r, hr, hlt, hfree, hbefore, fun c hc heq => ?_⟩
      have hbits := htaken.bits c hc
      rw [used_zeroed _ _ heq, eq_comm, Bool.or_eq_false_iff, decide_eq_false_iff_not] at hbits
      exact ⟨hbits.2, hbits.1⟩
    · rw [hzero] at hfree
      cases hfree

end Take

/-! ## Interleaved calls -/

/-- The file system, and the blocks that have been handed out and not been freed. -/
structure Ledger where
  fs : FS
  out : List ℕ

/-- A call of `balloc`, in a state that meets the condition, or of `bfree` for a block that was handed out. -/
inductive Call : Ledger → Ledger → Prop where
  | balloc {x : Ledger} {r : ℕ} {t : FS} : Finds x.fs → Returns x.fs r t →
      Call x ⟨t, if r = 0 then x.out else r :: x.out⟩
  | bfree {x : Ledger} {b : ℕ} {t : FS} : b ∈ x.out → Fs.bfree b x.fs = .ok t →
      Call x ⟨t, x.out.erase b⟩

/-- The blocks that were handed out are marked as used, and so is block 0. -/
structure Kept (sb : Superblock) (x : Ledger) : Prop where
  sb_eq : x.fs.sb = sb
  zero : x.fs.used 0 = true
  nodup : x.out.Nodup
  used : ∀ b ∈ x.out, b < sb.size ∧ b ≠ 0 ∧ x.fs.used b = true

section Calls

variable {sb : Superblock} {x y : Ledger}

theorem Kept.balloc (h : Kept sb x) (hsize : sb.size < 2 ^ 32) (hmap : sb.bmapstart + sb.size / BPB < 2 ^ 32)
    (hfinds : Finds x.fs) {r : ℕ} {t : FS} (hret : Returns x.fs r t) :
    (r ≠ 0 → r ∉ x.out) ∧ Kept sb ⟨t, if r = 0 then x.out else r :: x.out⟩ := by
  obtain ⟨rfl, hzero, hnd, hused⟩ := h
  rcases hfinds.returns hsize hmap with ⟨b, hret', hb, hfree, -, htaken⟩ | ⟨-, hret'⟩
  · obtain ⟨rfl, rfl⟩ := hret'.unique hret
    have hr : r ≠ 0 := by
      rintro rfl
      rw [hzero] at hfree
      cases hfree
    have hout : r ∉ x.out := by
      intro hmem
      rw [(hused r hmem).2.2] at hfree
      cases hfree
    rw [if_neg hr]
    refine ⟨fun _ => hout, rfl, ?_, List.nodup_cons.mpr ⟨hout, hnd⟩, fun c hc => ?_⟩
    · rw [htaken.bits 0 (by omega), hzero, Bool.or_true]
    · rcases List.mem_cons.mp hc with rfl | hc
      · exact ⟨hb, hr, by rw [htaken.bits c hb, decide_eq_true rfl, Bool.true_or]⟩
      · obtain ⟨hlt, hne, hset⟩ := hused c hc
        exact ⟨hlt, hne, by rw [htaken.bits c hlt, hset, Bool.or_true]⟩
  · obtain ⟨rfl, rfl⟩ := hret'.unique hret
    exact ⟨fun hne => absurd rfl hne, rfl, hzero, hnd, hused⟩

theorem Kept.bfree (h : Kept sb x) {b : ℕ} (hb : b ∈ x.out) {t : FS} (hfree : Fs.bfree b x.fs = .ok t) :
    Kept sb ⟨t, x.out.erase b⟩ := by
  obtain ⟨rfl, hzero, hnd, hused⟩ := h
  rw [Fs.bfree, if_pos (hused b hb).2.2] at hfree
  cases hfree
  have hbits : ∀ c, c ≠ b → x.fs.used c = true →
      blockUsed x.fs.sb (clearUsed x.fs.sb x.fs.buf b) c = true := by
    intro c hne hc
    rw [blockUsed_clearUsed, decide_eq_false hne]
    exact hc
  refine ⟨rfl, hbits 0 (hused b hb).2.1.symm hzero, hnd.erase b, fun c hc => ?_⟩
  have hmem := (hnd.mem_erase_iff).mp hc
  obtain ⟨hlt, hne, hset⟩ := hused c hmem.2
  exact ⟨hlt, hne, hbits c hmem.1 hset⟩

theorem Kept.call (h : Kept sb x) (hsize : sb.size < 2 ^ 32) (hmap : sb.bmapstart + sb.size / BPB < 2 ^ 32)
    (hcall : Call x y) : Kept sb y := by
  cases hcall with
  | balloc hfinds hret => exact (h.balloc hsize hmap hfinds hret).2
  | bfree hb hfree => exact h.bfree hb hfree

theorem Kept.calls (h : Kept sb x) (hsize : sb.size < 2 ^ 32) (hmap : sb.bmapstart + sb.size / BPB < 2 ^ 32)
    (hcalls : Relation.ReflTransGen Call x y) : Kept sb y := by
  induction hcalls with
  | refl => exact h
  | tail _ hcall ih => exact ih.call hsize hmap hcall

end Calls

/-- **`balloc` takes the first free block exactly under the condition.** For every size of the disk and every
bitmap in which bit 0 is set: `balloc` takes the first free block, or finds that there is none, if and only
if the condition holds; and in every run of calls that meet it, a block that is handed out was not handed out
before without having been freed, and every block that was handed out can be freed. -/
theorem balloc_takes_iff {s : FS} (hsize : s.sb.size < 2 ^ 32)
    (hmap : s.sb.bmapstart + s.sb.size / BPB < 2 ^ 32) (hzero : s.used 0 = true) :
    (Takes s ↔ Finds s) ∧
      ∀ x, Relation.ReflTransGen Call ⟨s, []⟩ x → x.out.Nodup ∧
        (∀ r t, Finds x.fs → Returns x.fs r t → r ≠ 0 → r ∉ x.out) ∧
        ∀ b ∈ x.out, ∃ t, bfree b x.fs = .ok t := by
  refine ⟨⟨fun h => h.finds hsize hmap hzero, fun h => h.takes hsize hmap⟩, fun x hx => ?_⟩
  have hstart : Kept s.sb ⟨s, []⟩ := ⟨rfl, hzero, List.nodup_nil, fun b hb => absurd hb List.not_mem_nil⟩
  have hkept := hstart.calls hsize hmap hx
  refine ⟨hkept.nodup, fun r t hfinds hret => (hkept.balloc hsize hmap hfinds hret).1, fun b hb => ?_⟩
  exact ⟨_, if_pos (hkept.used b hb).2.2⟩

theorem balloc_takes_iff_smallFS : Takes smallFS := by
  refine (balloc_takes_iff (s := smallFS) (by decide) (by decide) (by decide)).1.mpr (Or.inl ⟨40, ?_⟩)
  decide

/-! ## A larger disk -/

/-- A disk of `2 ^ 31 + 1` blocks, of which only the last one is free; the bitmap starts in block 2. -/
def wideFS : FS :=
  { smallFS with
    sb := { smallSb with size := 2 ^ 31 + 1, bmapstart := 2 }
    buf := fun B => if 2 ≤ B ∧ B < 2 + 2 ^ 18 then fun _ => 255 else fun _ => 0 }

theorem isSet_ones {i : ℕ} (hi : i < BPB) : ByteBlock.isSet (fun _ => 255 : Block) i = true := by
  have hbyte : i / 8 < BSIZE := by
    rw [BPB_eq] at hi
    rw [show BSIZE = 1024 from rfl]
    omega
  have hbits : ∀ j < 8, (255 : UInt8).toNat.testBit j = true := by decide
  rw [ByteBlock.isSet, ByteBlock.get, dif_pos hbyte, ByteBlock.and_bitMask]
  exact hbits _ (Nat.mod_lt i (by decide))

theorem used_wideFS {c : ℕ} (hc : c < 2 ^ 31) : wideFS.used c = true := by
  have hblock : 2 ≤ BBLOCK c wideFS.sb ∧ BBLOCK c wideFS.sb < 2 + 2 ^ 18 := by
    change 2 ≤ c / 8192 + 2 ∧ c / 8192 + 2 < 2 + 2 ^ 18
    omega
  have hbuf : wideFS.buf (BBLOCK c wideFS.sb) = fun _ => 255 := if_pos hblock
  rw [FS.used, blockUsed, hbuf]
  exact isSet_ones (Nat.mod_lt c (by decide))

/-- **The last block is handed out but not marked**: the bit is set in block `2 ^ 32 - 2 ^ 18 + 2`. -/
theorem wide_disk_not_marked : wideFS.used 0 = true ∧ wideFS.used (2 ^ 31) = false ∧
    (∃ t, Returns wideFS (2 ^ 31) t ∧ t.used (2 ^ 31) = false) ∧ ¬ Takes wideFS := by
  have hsize : wideFS.sb.size = 2 ^ 31 + 1 := rfl
  have hmap : wideFS.sb.bmapstart + wideFS.sb.size / BPB < 2 ^ 32 := by decide
  have hlast : wideFS.used (2 ^ 31) = false := by decide
  have hzero : wideFS.used 0 = true := used_wideFS (by decide)
  have hbefore : ∀ c < 2 ^ 31, seen wideFS c = true := by
    intro c hc
    rw [seen_of_lt hc ?_, used_wideFS hc]
    change 2 + c / 8192 < 2 ^ 32
    omega
  have hret := returns_of_clear (r := 2 ^ 31) (by rw [hsize]; decide) (by rw [hsize]; decide)
    (by decide +kernel) hbefore
  refine ⟨hzero, hlast, ⟨_, hret, not_used_of_ge (le_refl _) (by decide) hlast⟩, fun htakes => ?_⟩
  rcases htakes.finds (by rw [hsize]; decide) hmap hzero with ⟨r, -, hr, hfree, -⟩ | ⟨hfull, -⟩
  · rw [used_wideFS hr] at hfree
    cases hfree
  · rw [hfull (2 ^ 31) (by rw [hsize]; decide)] at hlast
    cases hlast

end RiscvOs.Fs.Balloc
