import Mathlib

set_option autoImplicit false

/-!
# Overwriting part of a sequence

An array that grows at its end: a write replaces the elements from a position on, and may reach
past the end.

## Main results

* `length_overwrite`, `getElem?_overwrite` — the length and the elements.
-/

namespace Overwrite

variable {α : Type}

/-- Replace the elements of `a` from position `off` on by those of `d`. -/
def overwrite (a : List α) (off : ℕ) (d : List α) : List α :=
  a.take off ++ d ++ a.drop (off + d.length)

theorem length_overwrite {a : List α} {off : ℕ} (d : List α) (h : off ≤ a.length) :
    (overwrite a off d).length = max a.length (off + d.length) := by
  simp only [overwrite, List.length_append, List.length_take, List.length_drop]
  omega

/-- **The elements after a write**: those of `d` in its range, and the old ones elsewhere. -/
theorem getElem?_overwrite {a : List α} {off : ℕ} (d : List α) (h : off ≤ a.length) (k : ℕ) :
    (overwrite a off d)[k]? = if off ≤ k ∧ k < off + d.length then d[k - off]? else a[k]? := by
  have htake : (a.take off).length = off := by
    rw [List.length_take]
    omega
  rw [overwrite, List.append_assoc]
  rcases Nat.lt_or_ge k off with hk | hk
  · rw [if_neg (by omega), List.getElem?_append_left (by omega), List.getElem?_take_of_lt hk]
  · rw [List.getElem?_append_right (by omega), htake]
    rcases Nat.lt_or_ge k (off + d.length) with hk' | hk'
    · rw [if_pos ⟨hk, hk'⟩, List.getElem?_append_left (by omega)]
    · rw [if_neg (by omega), List.getElem?_append_right (by omega), List.getElem?_drop]
      congr 1
      omega

end Overwrite
