import Mathlib

set_option autoImplicit false

/-!
# Counting over processes when one process moves

A global count is a sum over the processes of what each one contributes. When a single process
changes its contribution, the sum changes by the difference.

## Main results

* `sum_add_of_eq_off`, `sum_update` — the exchange law for two contributions that agree off `p`.
* `exists_of_sum_pos`, `le_sum` — reading a count back.
-/

namespace Counting

open Function

variable {P : Type} [Fintype P]

theorem sum_add_of_eq_off [DecidableEq P] {f g : P → ℕ} (p : P) (h : ∀ q, q ≠ p → g q = f q) :
    ∑ q, g q + f p = ∑ q, f q + g p := by
  have hs : ∑ q ∈ Finset.univ.erase p, g q = ∑ q ∈ Finset.univ.erase p, f q :=
    Finset.sum_congr rfl fun q hq => h q (Finset.ne_of_mem_erase hq)
  rw [← Finset.add_sum_erase _ g (Finset.mem_univ p), ← Finset.add_sum_erase _ f (Finset.mem_univ p),
    hs]
  omega

theorem sum_update [DecidableEq P] {α : Type} (f : α → ℕ) (v : P → α) (p : P) (c : α) :
    ∑ q, f (update v p c q) + f (v p) = ∑ q, f (v q) + f c := by
  have h := sum_add_of_eq_off (f := fun q => f (v q)) (g := fun q => f (update v p c q)) p
    fun q hq => by rw [update_of_ne hq]
  rwa [update_self] at h

theorem exists_of_sum_pos {f : P → ℕ} (h : 0 < ∑ q, f q) : ∃ q, 0 < f q := by
  by_contra hn
  push Not at hn
  have : ∑ q, f q = 0 := Finset.sum_eq_zero fun q _ => Nat.le_zero.mp (hn q)
  omega

theorem le_sum (f : P → ℕ) (p : P) : f p ≤ ∑ q, f q :=
  Finset.single_le_sum (fun _ _ => Nat.zero_le _) (Finset.mem_univ p)

theorem update_eq_cases {P α : Type} [DecidableEq P] {f : P → α} {p q : P} {v c : α}
    (h : update f p v q = c) : (q = p ∧ v = c) ∨ (q ≠ p ∧ f q = c) := by
  by_cases hq : q = p
  · rw [hq, update_self] at h
    exact Or.inl ⟨hq, h⟩
  · rw [update_of_ne hq] at h
    exact Or.inr ⟨hq, h⟩

theorem eq_of_update_eq {P α : Type} [DecidableEq P] {f : P → α} {p q : P} {v c : α}
    (h : update f p v q = c) (hv : v ≠ c) : f q = c :=
  ((update_eq_cases h).resolve_left fun hq => hv hq.2).2

end Counting
