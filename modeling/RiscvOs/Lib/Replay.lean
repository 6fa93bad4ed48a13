import Mathlib

set_option autoImplicit false

/-!
# Replaying a list of writes

A store is a function from addresses to contents, and a program is seen through the list of
writes it issues, in program order. Stopping the program between two writes leaves the store
that the issued prefix produces.

## Main results

* `replay_congr` — what an address holds depends on the address alone.
* `replay_of_not_mem` — an address that is not written keeps its contents.
* `replay_map_of_mem` — writes to distinct addresses: each address holds what was written.
* `replay_append_cons_of_forall` — the last write to an address decides.
* `replay_map_self` — writes of what is already there change nothing.
-/

variable {ι α β : Type} [DecidableEq ι]

/-- The store `d` after the writes `ws`, in order. -/
def replay (d : ι → α) (ws : List (ι × α)) : ι → α :=
  ws.foldl (fun d w => Function.update d w.1 w.2) d

@[simp] theorem replay_nil (d : ι → α) : replay d [] = d := rfl

@[simp] theorem replay_cons (d : ι → α) (w : ι × α) (ws : List (ι × α)) :
    replay d (w :: ws) = replay (Function.update d w.1 w.2) ws := rfl

theorem replay_append (d : ι → α) (ws ws' : List (ι × α)) :
    replay d (ws ++ ws') = replay (replay d ws) ws' := List.foldl_append

theorem replay_of_not_mem (d : ι → α) {ws : List (ι × α)} {a : ι} (h : a ∉ ws.map Prod.fst) :
    replay d ws a = d a := by
  induction ws generalizing d with
  | nil => rfl
  | cons w ws ih =>
    simp only [List.map_cons, List.mem_cons, not_or] at h
    rw [replay_cons, ih _ h.2, Function.update_of_ne h.1]

theorem replay_congr {d d' : ι → α} {a : ι} (h : d a = d' a) (ws : List (ι × α)) :
    replay d ws a = replay d' ws a := by
  induction ws generalizing d d' with
  | nil => exact h
  | cons w ws ih =>
    rw [replay_cons, replay_cons]
    refine ih ?_
    by_cases ha : a = w.1
    · simp [ha]
    · rw [Function.update_of_ne ha, Function.update_of_ne ha, h]

theorem replay_map_of_mem (d : ι → α) {l : List β} {f : β → ι} {g : β → α}
    (hnd : (l.map f).Nodup) {x : β} (hx : x ∈ l) :
    replay d (l.map fun y => (f y, g y)) (f x) = g x := by
  induction l generalizing d with
  | nil => simp at hx
  | cons y l ih =>
    simp only [List.map_cons, List.nodup_cons] at hnd
    rw [List.map_cons, replay_cons]
    rcases List.mem_cons.mp hx with rfl | hx
    · rw [replay_of_not_mem, Function.update_self]
      simpa [List.map_map, Function.comp_def] using hnd.1
    · exact ih _ hnd.2 hx

theorem replay_append_cons_of_forall (d : ι → α) (ws : List (ι × α)) {ws' : List (ι × α)} {a : ι}
    {v : α} (h : ∀ w ∈ ws', w.1 = a → w.2 = v) : replay d (ws ++ (a, v) :: ws') a = v := by
  rw [replay_append, replay_cons]
  have hv : Function.update (replay d ws) a v a = v := by rw [Function.update_self]
  generalize Function.update (replay d ws) a v = e at hv
  induction ws' generalizing e with
  | nil => exact hv
  | cons w ws' ih =>
    rw [replay_cons]
    refine ih (fun u hu => h u (List.mem_cons_of_mem w hu)) _ ?_
    by_cases hw : w.1 = a
    · rw [← hw, Function.update_self, h w List.mem_cons_self hw]
    · rw [Function.update_of_ne (Ne.symm hw), hv]

theorem replay_map_self (d : ι → α) {l : List β} {f : β → ι} {g : β → α}
    (h : ∀ x ∈ l, d (f x) = g x) : replay d (l.map fun y => (f y, g y)) = d := by
  induction l with
  | nil => rfl
  | cons y l ih =>
    have hy : Function.update d (f y) (g y) = d := by
      rw [← h y List.mem_cons_self, Function.update_eq_self]
    rw [List.map_cons, replay_cons, hy]
    exact ih fun x hx => h x (List.mem_cons_of_mem y hx)
