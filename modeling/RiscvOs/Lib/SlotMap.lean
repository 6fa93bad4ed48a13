import Mathlib

set_option autoImplicit false

/-!
# Maps in unordered slots

A table of slots, each of which is free or contains a key with a value, is a finite map if no
key occurs twice. Keys are added in any free slot, and removed by freeing their slot.

## Main results

* `Distinct.put`, `Distinct.clear` — adding a key that is absent, and freeing a
  slot, keep keys distinct.
* `maps_put`, `Distinct.maps_clear` — what the table contains afterwards.
-/

namespace SlotMap

open Function

variable {K V : Type*} {t : ℕ → Option (K × V)} {k k' : K} {v v' : V} {j : ℕ}

/-- No key is in two slots. -/
def Distinct (t : ℕ → Option (K × V)) : Prop :=
  ∀ ⦃i j k v w⦄, t i = some (k, v) → t j = some (k, w) → i = j

/-- Some slot contains the key `k` with the value `v`. -/
def Maps (t : ℕ → Option (K × V)) (k : K) (v : V) : Prop := ∃ i, t i = some (k, v)

/-- No slot contains the key. -/
def Absent (t : ℕ → Option (K × V)) (k : K) : Prop := ∀ v, ¬ Maps t k v

theorem Distinct.value_unique (h : Distinct t) (hv : Maps t k v) (hv' : Maps t k v') : v = v' := by
  obtain ⟨i, hi⟩ := hv
  obtain ⟨j, hj⟩ := hv'
  obtain rfl := h hi hj
  rw [hi] at hj
  simpa using hj

theorem distinct_empty (h : ∀ i, t i = none) : Distinct t := by
  intro i j k v w hi
  rw [h i] at hi
  cases hi

theorem Distinct.put (h : Distinct t) (hk : Absent t k) :
    Distinct (update t j (some (k, v))) := by
  -- the new slot is the only one with the key `k`
  have hnew : ∀ i w, update t j (some (k, v)) i = some (k, w) → i = j := by
    intro i w hi
    by_contra hne
    rw [update_of_ne hne] at hi
    exact hk w ⟨i, hi⟩
  intro a b c x y ha hb
  by_cases haj : a = j
  · subst haj
    rw [update_self] at ha
    cases ha
    exact (hnew b y hb).symm
  · by_cases hbj : b = j
    · subst hbj
      rw [update_self] at hb
      cases hb
      exact hnew a x ha
    · rw [update_of_ne haj] at ha
      rw [update_of_ne hbj] at hb
      exact h ha hb

theorem maps_put (hj : t j = none) :
    Maps (update t j (some (k, v))) k' v' ↔ Maps t k' v' ∨ (k' = k ∧ v' = v) := by
  constructor
  · rintro ⟨i, hi⟩
    by_cases hij : i = j
    · subst hij
      rw [update_self] at hi
      cases hi
      exact Or.inr ⟨rfl, rfl⟩
    · rw [update_of_ne hij] at hi
      exact Or.inl ⟨i, hi⟩
  · rintro (⟨i, hi⟩ | ⟨rfl, rfl⟩)
    · have hij : i ≠ j := by
        rintro rfl
        rw [hj] at hi
        cases hi
      exact ⟨i, by rw [update_of_ne hij, hi]⟩
    · exact ⟨j, update_self ..⟩

theorem Distinct.clear (h : Distinct t) : Distinct (update t j none) := by
  intro a b c x y ha hb
  by_cases haj : a = j
  · subst haj
    rw [update_self] at ha
    cases ha
  · by_cases hbj : b = j
    · subst hbj
      rw [update_self] at hb
      cases hb
    · rw [update_of_ne haj] at ha
      rw [update_of_ne hbj] at hb
      exact h ha hb

theorem Distinct.maps_clear (h : Distinct t) (hj : t j = some (k, v)) :
    Maps (update t j none) k' v' ↔ Maps t k' v' ∧ k' ≠ k := by
  constructor
  · rintro ⟨i, hi⟩
    by_cases hij : i = j
    · subst hij
      rw [update_self] at hi
      cases hi
    · rw [update_of_ne hij] at hi
      refine ⟨⟨i, hi⟩, ?_⟩
      rintro rfl
      exact hij (h hi hj)
  · rintro ⟨⟨i, hi⟩, hne⟩
    have hij : i ≠ j := by
      rintro rfl
      rw [hj] at hi
      cases hi
      exact hne rfl
    exact ⟨i, by rw [update_of_ne hij, hi]⟩

end SlotMap
