import Mathlib

set_option autoImplicit false

/-!
# Rings with free-running indices

A ring of `N` slots that one party fills and another one empties. Each party has a 16-bit index that
counts all its entries and is never reduced; the slot of an entry is the index modulo `N`. If `N` divides
`2 ^ 16` the slots do not notice that an index wraps around.

## Main results

* `Queue.push`, `Queue.pop` — the two ends.
* `Queue.next` — an entry that the indices announce is in its slot.
-/

namespace IndexRing

open Function

variable {α : Type} {N : ℕ} [NeZero N]

/-- The slot of an index. -/
def slot (N : ℕ) [NeZero N] (i : UInt16) : Fin N := Fin.ofNat N i.toNat

/-- The entries of the history `l` that have the numbers `n` and above are in their slots. -/
def Holds (ring : Fin N → α) (l : List α) (n : ℕ) : Prop :=
  ∀ k (hk : k < l.length), n ≤ k → ring (Fin.ofNat N k) = l[k]

theorem slot_ofNat (hN : N ∣ 2 ^ 16) (k : ℕ) : slot N (UInt16.ofNat k) = Fin.ofNat N k := by
  apply Fin.ext
  exact Nat.mod_mod_of_dvd k hN

theorem ofNat_ne {j k n : ℕ} (hj : n ≤ j) (hjk : j < k) (hk : k < n + N) :
    Fin.ofNat N j ≠ Fin.ofNat N k := by
  intro h
  have hmod : j % N = k % N := congrArg Fin.val h
  have hdvd : N ∣ k - j := (Nat.modEq_iff_dvd' hjk.le).mp hmod
  have hle := Nat.le_of_dvd (by omega) hdvd
  omega

/-- **An entry is added** to a ring with a free slot; no entry that is still needed is overwritten. -/
theorem Holds.push {ring : Fin N → α} {l : List α} {n : ℕ} (h : Holds ring l n)
    (hroom : l.length < n + N) (v : α) :
    Holds (update ring (Fin.ofNat N l.length) v) (l ++ [v]) n := by
  intro k hk hn
  rw [List.length_append, List.length_singleton] at hk
  rcases Nat.lt_or_ge k l.length with hlt | hge
  · rw [update_of_ne (ofNat_ne hn hlt hroom), List.getElem_append_left hlt]
    exact h k hlt hn
  · obtain rfl : k = l.length := by omega
    simp

/-- **The test for an empty ring** compares the indices. -/
theorem index_eq_iff {n m : ℕ} (hnm : n ≤ m) (hroom : m < n + 2 ^ 16) :
    UInt16.ofNat n = UInt16.ofNat m ↔ n = m := by
  refine ⟨fun h => ?_, fun h => h ▸ rfl⟩
  have hmod := congrArg UInt16.toNat h
  simp only [UInt16.toNat_ofNat'] at hmod
  omega

/-- A ring with the indices of the two parties: the entries of the history `l` have been added, and `n` of them
have been read. -/
structure Queue (ring : Fin N → α) (idx seen : UInt16) (l : List α) (n : ℕ) : Prop where
  idx_eq : idx = UInt16.ofNat l.length
  seen_eq : seen = UInt16.ofNat n
  le : n ≤ l.length
  holds : Holds ring l n

section Queue

variable {ring : Fin N → α} {idx seen : UInt16} {l : List α} {n : ℕ}

theorem queue_nil (ring : Fin N → α) : Queue ring 0 0 [] 0 :=
  ⟨rfl, rfl, le_rfl, fun k hk => absurd hk (Nat.not_lt_zero k)⟩

/-- **An entry is added.** -/
theorem Queue.push {v : α} (h : Queue ring idx seen l n) (hN : N ∣ 2 ^ 16) (hroom : (l ++ [v]).length ≤ n + N) :
    Queue (update ring (slot N idx) v) (idx + 1) seen (l ++ [v]) n := by
  rw [List.length_append, List.length_singleton] at hroom
  refine ⟨?_, h.seen_eq, ?_, ?_⟩
  · rw [h.idx_eq, List.length_append, UInt16.ofNat_add]
    rfl
  · rw [List.length_append]
    exact h.le.trans (Nat.le_add_right _ _)
  · rw [h.idx_eq, slot_ofNat hN]
    exact h.holds.push hroom v

/-- **An entry is read.** -/
theorem Queue.pop (h : Queue ring idx seen l n) (hn : n < l.length) : Queue ring idx (seen + 1) l (n + 1) := by
  refine ⟨h.idx_eq, ?_, hn, fun k hk hm => h.holds k hk (by omega)⟩
  rw [h.seen_eq, UInt16.ofNat_add]
  rfl

/-- **The next entry** is there if the indices differ, and is in its slot. -/
theorem Queue.next (h : Queue ring idx seen l n) (hN : N ∣ 2 ^ 16) (hroom : l.length < n + 2 ^ 16)
    (hne : seen ≠ idx) : ∃ hn : n < l.length, ring (slot N seen) = l[n] := by
  rw [h.seen_eq, h.idx_eq, Ne, index_eq_iff h.le hroom] at hne
  have hn : n < l.length := lt_of_le_of_ne h.le hne
  refine ⟨hn, ?_⟩
  rw [h.seen_eq, slot_ofNat hN]
  exact h.holds n hn le_rfl

end Queue

end IndexRing
