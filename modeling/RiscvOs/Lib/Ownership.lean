import Mathlib

set_option autoImplicit false

/-!
# Ownership of allocation units

Units (blocks, pages) numbered from `0` are handed out to *places*, which are of any type. A
place holds the number of a unit, or `0` for none. Units below `lo` are reserved, units from
`lo` to `hi` are allocated and freed, and a predicate says which units are marked as used.

## Main results

* `Owns.alloc`, `Owns.release` — handing a unit out, and taking units back.
* `Owns.used_of_ne_zero` — a held unit is marked as used.
-/

namespace Ownership

open Function

variable {ι : Type} {lo hi : ℕ} {used used' : ℕ → Prop} {addr : ι → ℕ}

/-- The units between `lo` and `hi` that are used are those that a place holds; no two places
hold one unit, and the reserved units count as used. -/
structure Owns (lo hi : ℕ) (used : ℕ → Prop) (addr : ι → ℕ) : Prop where
  range : ∀ i, addr i ≠ 0 → lo ≤ addr i ∧ addr i < hi
  inj : ∀ i j, addr i ≠ 0 → addr i = addr j → i = j
  used_iff : ∀ b, lo ≤ b → b < hi → (used b ↔ ∃ i, addr i = b)
  reserved : ∀ b, b < lo → used b

theorem Owns.used_of_ne_zero (h : Owns lo hi used addr) {i : ι} (hi : addr i ≠ 0) :
    used (addr i) := by
  obtain ⟨h1, h2⟩ := h.range i hi
  exact (h.used_iff _ h1 h2).mpr ⟨i, rfl⟩

theorem Owns.ne_of_not_used (h : Owns lo hi used addr) {b : ℕ} (hb : ¬ used b) (hb0 : b ≠ 0)
    (i : ι) : addr i ≠ b := by
  rintro rfl
  exact hb (h.used_of_ne_zero hb0)

theorem Owns.congr_used (h : Owns lo hi used addr) (hlo : lo ≤ hi)
    (hu : ∀ b, b < hi → (used' b ↔ used b)) : Owns lo hi used' addr :=
  ⟨h.range, h.inj, fun b h1 h2 => (hu b h2).trans (h.used_iff b h1 h2),
    fun b hb => (hu b (by omega)).mpr (h.reserved b hb)⟩

/-- **Taking back** the units of the places `P`, which hold none afterwards. -/
theorem Owns.release {addr' : ι → ℕ} (h : Owns lo hi used addr) (hlo : 0 < hi → 0 < lo) {P : ι → Prop}
    (hP : ∀ i, P i → addr' i = 0) (hne : ∀ i, ¬ P i → addr' i = addr i)
    (hu : ∀ b, used' b ↔ used b ∧ ∀ i, P i → addr i = b → b = 0) : Owns lo hi used' addr' := by
  have hkeep : ∀ i, addr' i ≠ 0 → ¬ P i ∧ addr' i = addr i := fun i hi =>
    have hi' : ¬ P i := fun hp => hi (hP i hp)
    ⟨hi', hne i hi'⟩
  refine ⟨fun i hi => ?_, fun i j hi hij => ?_, fun b h1 h2 => ?_, fun b hb => ?_⟩
  · have he := (hkeep i hi).2
    rw [he] at hi ⊢
    exact h.range i hi
  · have he := (hkeep i hi).2
    have hj := (hkeep j (hij ▸ hi)).2
    rw [he] at hi hij
    exact h.inj i j hi (hij.trans hj)
  · have := hlo (by omega)
    rw [hu b, h.used_iff b h1 h2]
    constructor
    · rintro ⟨⟨i, rfl⟩, hno⟩
      refine ⟨i, hne i fun hp => ?_⟩
      have := hno i hp rfl
      omega
    · rintro ⟨i, rfl⟩
      obtain ⟨hi, he⟩ := hkeep i (by omega)
      refine ⟨⟨i, he.symm⟩, fun j hj hji => ?_⟩
      obtain rfl : j = i := h.inj j i (by omega) (hji.trans he)
      exact absurd hj hi
  · rw [hu]
    refine ⟨h.reserved b hb, fun i _ hi => ?_⟩
    by_contra h0
    have := (h.range i (hi ▸ h0)).1
    omega

variable [DecidableEq ι]

/-- **Handing out** a free unit to a place that holds none. -/
theorem Owns.alloc (h : Owns lo hi used addr) (hlo : 0 < lo) {i : ι} (hi0 : addr i = 0) {b : ℕ}
    (hb : ¬ used b) (hbhi : b < hi) :
    Owns lo hi (fun x => x = b ∨ used x) (update addr i b) := by
  have hblo : lo ≤ b := by
    by_contra hlt
    exact hb (h.reserved b (by omega))
  refine ⟨fun j hj => ?_, fun j k hj hjk => ?_, fun x h1 h2 => ?_,
    fun x hx => Or.inr (h.reserved x hx)⟩
  · by_cases hji : j = i
    · rw [hji, update_self]
      exact ⟨hblo, hbhi⟩
    · rw [update_of_ne hji] at hj ⊢
      exact h.range j hj
  · by_cases hji : j = i <;> by_cases hki : k = i
    · rw [hji, hki]
    · rw [hji, update_self, update_of_ne hki] at hjk
      exact absurd hjk.symm (h.ne_of_not_used hb (by omega) k)
    · rw [hki, update_self, update_of_ne hji] at hjk
      exact absurd hjk (h.ne_of_not_used hb (by omega) j)
    · rw [update_of_ne hji] at hj hjk
      rw [update_of_ne hki] at hjk
      exact h.inj j k hj hjk
  · constructor
    · rintro (rfl | hx)
      · exact ⟨i, update_self ..⟩
      · obtain ⟨j, hj⟩ := (h.used_iff x h1 h2).mp hx
        have hji : j ≠ i := by
          rintro rfl
          omega
        exact ⟨j, by rw [update_of_ne hji, hj]⟩
    · rintro ⟨j, hj⟩
      by_cases hji : j = i
      · rw [hji, update_self] at hj
        exact Or.inl hj.symm
      · rw [update_of_ne hji] at hj
        exact Or.inr ((h.used_iff x h1 h2).mpr ⟨j, hj⟩)

end Ownership
