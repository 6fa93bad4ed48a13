import Mathlib

set_option autoImplicit false

/-!
# Machines that step or stop

A machine has states, events and a function `next` that either moves to a new state or stops
with an error. A discipline `legal` says which events may be issued in which state. Runs of any
length and any choice of legal events are the reachable states; an error can stop a run only at
a reachable state.

## Main results

* `Reach.invariant` — the induction rule for reachable states.
* `exec_ne_error_iff` — a run avoids an error exactly if it avoids the events that
  raise it.
-/

namespace Machine

variable {σ ε π : Type} {next : σ → ε → Except π σ}

/-- The states reachable from `s₀` by events that are legal when they are issued. -/
inductive Reach (next : σ → ε → Except π σ) (legal : σ → ε → Prop) (s₀ : σ) : σ → Prop where
  | refl : Reach next legal s₀ s₀
  | step {s s' : σ} {e : ε} : Reach next legal s₀ s → legal s e → next s e = .ok s' →
      Reach next legal s₀ s'

/-- **The invariant rule**: what holds at the start and is preserved by every legal step holds
in every reachable state. -/
theorem Reach.invariant {legal : σ → ε → Prop} {s₀ s : σ} {I : σ → Prop}
    (hr : Reach next legal s₀ s) (h₀ : I s₀)
    (hs : ∀ {s e s'}, I s → legal s e → next s e = .ok s' → I s') : I s := by
  induction hr with
  | refl => exact h₀
  | step _ hl hn ih => exact hs ih hl hn

theorem Reach.trans {legal : σ → ε → Prop} {s₀ s₁ s₂ : σ} (h₁ : Reach next legal s₀ s₁)
    (h₂ : Reach next legal s₁ s₂) : Reach next legal s₀ s₂ := by
  induction h₂ with
  | refl => exact h₁
  | step _ hl hn ih => exact .step ih hl hn

/-- The result of a list of events, the first one first. -/
def exec (next : σ → ε → Except π σ) (s : σ) : List ε → Except π σ
  | [] => .ok s
  | e :: es => match next s e with
    | .ok s' => exec next s' es
    | .error x => .error x

theorem exec_singleton (s : σ) (e : ε) : exec next s [e] = next s e := by
  rw [exec]
  cases next s e with
  | ok s' => rfl
  | error x => rfl

/-- The error a run stops with, if it does. -/
def errorOf : Except π σ → Option π
  | .ok _ => none
  | .error x => some x

theorem eq_error_of_errorOf {r : Except π σ} {x : π} (h : errorOf r = some x) : r = .error x := by
  cases r with
  | ok s => cases h
  | error y =>
    cases h
    rfl

/-- The state at the end of a run that does not stop. -/
def after (next : σ → ε → Except π σ) (s : σ) (es : List ε) : σ :=
  match exec next s es with
  | .ok s' => s'
  | .error _ => s

theorem exec_eq_after {s : σ} {es : List ε} (h : errorOf (exec next s es) = none) :
    exec next s es = .ok (after next s es) := by
  rw [after]
  cases he : exec next s es with
  | ok s' => rfl
  | error x =>
    rw [he] at h
    cases h

/-- `ok` holds at every event of the list, in the state in which the event is issued. -/
def Along (next : σ → ε → Except π σ) (ok : σ → ε → Prop) (s : σ) : List ε → Prop
  | [] => True
  | e :: es => ok s e ∧ match next s e with
    | .ok s' => Along next ok s' es
    | .error _ => True

instance decidableAlong (next : σ → ε → Except π σ) (ok : σ → ε → Prop)
    [∀ s e, Decidable (ok s e)] : ∀ s es, Decidable (Along next ok s es)
  | _, [] => .isTrue trivial
  | s, e :: es =>
    match h : next s e with
    | .ok s' =>
      have := decidableAlong next ok s' es
      decidable_of_iff (ok s e ∧ Along next ok s' es) (by rw [Along, h])
    | .error _ => decidable_of_iff (ok s e) (by rw [Along, h]; simp)

theorem reach_of_exec {legal : σ → ε → Prop} {s s' : σ} {es : List ε}
    (hl : Along next legal s es) (he : exec next s es = .ok s') : Reach next legal s s' := by
  induction es generalizing s with
  | nil =>
    cases he
    exact .refl
  | cons e es ih =>
    rw [exec] at he
    rw [Along] at hl
    cases hn : next s e with
    | error x =>
      rw [hn] at he
      cases he
    | ok s₁ =>
      rw [hn] at he hl
      exact (Reach.step .refl hl.1 hn).trans (ih hl.2 he)

/-- A run of legal events from `s` to `s'`. -/
structure Runs (next : σ → ε → Except π σ) (legal : σ → ε → Prop) (s : σ) (es : List ε)
    (s' : σ) : Prop where
  along : Along next legal s es
  exec_eq : exec next s es = .ok s'

theorem Runs.nil {legal : σ → ε → Prop} (s : σ) : Runs next legal s [] s := ⟨trivial, rfl⟩

theorem Runs.cons {legal : σ → ε → Prop} {s s₁ s' : σ} {e : ε} {es : List ε} (hl : legal s e)
    (hn : next s e = .ok s₁) (h : Runs next legal s₁ es s') : Runs next legal s (e :: es) s' := by
  refine ⟨?_, ?_⟩
  · rw [Along, hn]
    exact ⟨hl, h.along⟩
  · rw [exec, hn]
    exact h.exec_eq

theorem Runs.append {legal : σ → ε → Prop} {s s₁ s' : σ} {es es' : List ε}
    (h : Runs next legal s es s₁) (h' : Runs next legal s₁ es' s') :
    Runs next legal s (es ++ es') s' := by
  induction es generalizing s with
  | nil =>
    cases h.exec_eq
    exact h'
  | cons e es ih =>
    obtain ⟨ha, he⟩ := h
    rw [exec] at he
    rw [Along] at ha
    cases hn : next s e with
    | error x =>
      rw [hn] at he
      cases he
    | ok s₂ =>
      rw [hn] at he ha
      exact .cons ha.1 hn (ih ⟨ha.2, he⟩)

theorem Runs.iterate {legal : σ → ε → Prop} (S : ℕ → σ) (f : ℕ → List ε) (n : ℕ)
    (h : ∀ i < n, Runs next legal (S i) (f i) (S (i + 1))) :
    Runs next legal (S 0) ((List.range n).flatMap f) (S n) := by
  induction n with
  | zero => exact .nil _
  | succ n ih =>
    rw [List.range_succ, List.flatMap_append]
    refine (ih fun i hi => h i (by omega)).append ?_
    simpa using h n (by omega)

theorem Runs.reach {legal : σ → ε → Prop} {s s' : σ} {es : List ε}
    (h : Runs next legal s es s') : Reach next legal s s' :=
  reach_of_exec h.along h.exec_eq

/-- **A run avoids an error exactly if it avoids the events that raise it**, where in every
state with the invariant a legal event raises the error exactly if it is `bad`. -/
theorem exec_ne_error_iff {legal bad : σ → ε → Prop} {I : σ → Prop} {x : π}
    (hs : ∀ {s e s'}, I s → legal s e → next s e = .ok s' → I s')
    (hx : ∀ {s e}, I s → legal s e → (next s e = .error x ↔ bad s e)) {s : σ} (h₀ : I s)
    {es : List ε} (hl : Along next legal s es) :
    exec next s es ≠ .error x ↔ Along next (fun s e => ¬ bad s e) s es := by
  induction es generalizing s with
  | nil => simp [exec, Along]
  | cons e es ih =>
    rw [Along] at hl ⊢
    rw [exec, ← hx h₀ hl.1]
    cases hn : next s e with
    | ok s' =>
      rw [hn] at hl
      simpa using ih (hs h₀ hl.1 hn) hl.2
    | error y => simp

end Machine
