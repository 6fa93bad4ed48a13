import Mathlib

set_option autoImplicit false

/-!
# Computations and loops that can stop with an error

Sequential composition in `Except`, and counted loops whose body may stop.

## Main results

* `bind_eq_ok` — a sequence succeeds if its parts do.
* `foldlM_range_ok` — the invariant rule for a loop that has succeeded.
* `Safe.bind`, `Safe.foldlM_range` — the rules for sequences and for counted loops.
* `Post.bind`, `Post.foldlM`, `Sim.bind`, `Sim.foldlM` — the rules for sequences and for loops over a list.
-/

namespace Loop

variable {σ α β π : Type}

theorem bind_eq_ok {x : Except π α} {f : α → Except π β} {r : β} :
    (x >>= f) = .ok r ↔ ∃ a, x = .ok a ∧ f a = .ok r := by
  cases x with
  | ok a => simp [bind, Except.bind]
  | error e => simp [bind, Except.bind]

theorem ok_bind (a : α) (f : α → Except π β) : (Except.ok a >>= f) = f a := rfl

theorem mapError_eq_ok {ρ : Type} {x : Except π α} {g : π → ρ} {a : α} :
    x.mapError g = .ok a ↔ x = .ok a := by
  cases x with
  | ok b => simp [Except.mapError]
  | error e => simp [Except.mapError]

theorem foldlM_range_succ (f : σ → ℕ → Except π σ) (s : σ) (n : ℕ) :
    (List.range (n + 1)).foldlM f s = (List.range n).foldlM f s >>= fun s => f s n := by
  rw [List.range_succ, List.foldlM_append]
  simp

/-- **The invariant rule** for a counted loop that has succeeded: `P k` holds after `k`
rounds. -/
theorem foldlM_range_ok {f : σ → ℕ → Except π σ} {s s' : σ} {n : ℕ} (P : ℕ → σ → Prop)
    (h : (List.range n).foldlM f s = .ok s') (h₀ : P 0 s)
    (hs : ∀ k < n, ∀ {s₁ s₂}, P k s₁ → f s₁ k = .ok s₂ → P (k + 1) s₂) : P n s' := by
  induction n generalizing s' with
  | zero =>
    cases h
    exact h₀
  | succ n ih =>
    rw [foldlM_range_succ, bind_eq_ok] at h
    obtain ⟨s₁, h1, h2⟩ := h
    exact hs n (by omega) (ih h1 fun k hk => hs k (by omega)) h2

/-! ## Postconditions -/

/-- `x` does not stop with a `bad` error, and if it succeeds the result satisfies `Q`. -/
def Safe (bad : π → Prop) (Q : α → Prop) : Except π α → Prop
  | .ok r => Q r
  | .error e => ¬ bad e

section Safe

variable {bad : π → Prop} {P : α → Prop} {Q : β → Prop}

theorem Safe.of_eq_ok {x : Except π α} {r : α} (h : Safe bad P x) (hx : x = .ok r) : P r := by
  subst hx
  exact h

theorem Safe.ne_error {x : Except π α} {e : π} (h : Safe bad P x) (he : bad e) : x ≠ .error e := by
  rintro rfl
  exact h he

theorem Safe.exists_ok {x : Except π α} (h : Safe (fun _ => True) P x) : ∃ r, x = .ok r ∧ P r := by
  cases x with
  | ok r => exact ⟨r, rfl, h⟩
  | error e => exact absurd trivial h

theorem Safe.mono {P' : α → Prop} {x : Except π α} (h : Safe bad P x) (hP : ∀ r, P r → P' r) :
    Safe bad P' x := by
  cases x with
  | ok r => exact hP r h
  | error e => exact h

theorem Safe.and_of_ok {R : α → Prop} {x : Except π α} (h : Safe bad P x)
    (h' : ∀ r, x = .ok r → R r) : Safe bad (fun r => P r ∧ R r) x := by
  cases x with
  | ok r => exact ⟨h, h' r rfl⟩
  | error e => exact h

/-- **The rule for sequences.** -/
theorem Safe.bind {x : Except π α} {f : α → Except π β} (hx : Safe bad P x)
    (hf : ∀ r, P r → Safe bad Q (f r)) : Safe bad Q (x >>= f) := by
  cases x with
  | ok r => exact hf r hx
  | error e => exact hx

/-- **The rule for counted loops**: `I k` holds after `k` rounds. -/
theorem Safe.foldlM_range {f : σ → ℕ → Except π σ} {s : σ} {n : ℕ} (I : ℕ → σ → Prop)
    (h₀ : I 0 s) (hs : ∀ k < n, ∀ s, I k s → Safe bad (I (k + 1)) (f s k)) :
    Safe bad (I n) ((List.range n).foldlM f s) := by
  induction n with
  | zero => exact h₀
  | succ n ih =>
    rw [foldlM_range_succ]
    exact (ih fun k hk => hs k (by omega)).bind fun s h => hs n (by omega) s h

end Safe

/-- If `x` succeeds, the result satisfies `Q`. -/
def Post (Q : α → Prop) (x : Except π α) : Prop := ∀ r, x = .ok r → Q r

section Post

variable {P : α → Prop} {Q : β → Prop}

theorem Safe.post {bad : π → Prop} {x : Except π α} (h : Safe bad P x) : Post P x :=
  fun _ hx => h.of_eq_ok hx

theorem Post.ok {r : α} (h : P r) : Post P (.ok r : Except π α) := by
  intro r' hr
  cases hr
  exact h

theorem Post.error (e : π) : Post P (.error e) := by
  intro r hr
  cases hr

theorem Post.mono {P' : α → Prop} {x : Except π α} (h : Post P x) (hP : ∀ r, P r → P' r) :
    Post P' x := fun r hx => hP r (h r hx)

theorem Post.bind {x : Except π α} {f : α → Except π β} (hx : Post P x)
    (hf : ∀ r, P r → Post Q (f r)) : Post Q (x >>= f) := by
  intro r hr
  obtain ⟨a, ha, hr⟩ := bind_eq_ok.mp hr
  exact hf a (hx a ha) r hr

theorem Post.mapError {ρ : Type} {x : Except π α} (h : Post P x) (g : π → ρ) :
    Post P (x.mapError g) := by
  cases x with
  | ok a => exact Post.ok (h a rfl)
  | error e => exact Post.error _

/-- **The rule for loops over a list**: `I l` holds while the elements of `l` are left. -/
theorem Post.foldlM {f : σ → α → Except π σ} (I : List α → σ → Prop)
    (hs : ∀ a l s, I (a :: l) s → Post (I l) (f s a)) {l : List α} {s : σ} (h₀ : I l s) :
    Post (I []) (l.foldlM f s) := by
  induction l generalizing s with
  | nil => exact Post.ok h₀
  | cons a l ih =>
    rw [List.foldlM_cons]
    exact (hs a l s h₀).bind fun t ht => ih ht

end Post

/-! ## Simulation -/

section Sim

variable {ρ γ δ : Type} {R : α → γ → Prop} {S : β → δ → Prop} {x : Except π α} {y : Except ρ γ}

/-- If `x` succeeds, then `y` succeeds with a related result. -/
def Sim (R : α → γ → Prop) (x : Except π α) (y : Except ρ γ) : Prop := ∀ a, x = .ok a → ∃ c, y = .ok c ∧ R a c

theorem Sim.ok {a : α} {c : γ} (h : R a c) : Sim R (.ok a : Except π α) (.ok c : Except ρ γ) := by
  intro a' ha
  cases ha
  exact ⟨c, rfl, h⟩

theorem Sim.error (e : π) : Sim R (.error e) y := by
  intro a ha
  cases ha

theorem Sim.bind {f : α → Except π β} {g : γ → Except ρ δ} (hx : Sim R x y)
    (hf : ∀ a c, R a c → Sim S (f a) (g c)) : Sim S (x >>= f) (y >>= g) := by
  intro b hb
  obtain ⟨a, ha, hb⟩ := bind_eq_ok.mp hb
  obtain ⟨c, rfl, hac⟩ := hx a ha
  exact hf a c hac b hb

theorem Sim.bind_ok {f : α → Except π β} {c : γ} {z : Except ρ δ} (hx : Sim R x (.ok c : Except ρ γ))
    (hf : ∀ a, R a c → Sim S (f a) z) : Sim S (x >>= f) z := by
  intro b hb
  obtain ⟨a, ha, hb⟩ := bind_eq_ok.mp hb
  obtain ⟨c', hc, hac⟩ := hx a ha
  cases hc
  exact hf a hac b hb

theorem Sim.foldlM {ι : Type} {f : α → ι → Except π α} {g : γ → ι → Except ρ γ}
    (hs : ∀ a c i, R a c → Sim R (f a i) (g c i)) {l : List ι} {a : α} {c : γ} (h : R a c) :
    Sim R (l.foldlM f a) (l.foldlM g c) := by
  induction l generalizing a c with
  | nil => exact Sim.ok h
  | cons i l ih =>
    rw [List.foldlM_cons, List.foldlM_cons]
    exact (hs a c i h).bind fun _ _ => ih

end Sim

end Loop
