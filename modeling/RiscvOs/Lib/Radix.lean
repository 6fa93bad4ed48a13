import Mathlib

set_option autoImplicit false

/-!
# Trees with indexed children

A tree is given by its root and by a function that says which child a node has at an index. A path is a
list of indices, the last one first. A tree of depth `d` has its inner nodes at the paths that are shorter
than `d`; what the function says about the nodes at the paths of length `d` does not matter.

## Main results

* `node_congr` — the children of inner nodes decide.
* `node_link` — a new node without children is linked into the tree.
* `Unshared.link` — and the nodes still have one path each.
* `under_iff`, `Unshared.under_inj` — a subtree is a node and the subtrees of its children,
  which are disjoint.
-/

namespace Radix

variable {α ι : Type} {c c' : α → ι → Option α} {root : α} {d : ℕ}

/-- The node at a path. -/
def node (c : α → ι → Option α) (root : α) : List ι → Option α
  | [] => some root
  | i :: path => (node c root path).bind fun p => c p i

/-- Different paths lead to different nodes. -/
def Unshared (c : α → ι → Option α) (root : α) (d : ℕ) : Prop :=
  ∀ path path' p, path.length ≤ d → path'.length ≤ d → node c root path = some p →
    node c root path' = some p → path = path'

theorem node_cons {p : α} {i : ι} {path : List ι} (h : node c root path = some p) :
    node c root (i :: path) = c p i := by
  rw [node, h, Option.bind_some]

theorem node_append_eq_none {path : List ι} (h : node c root path = none) (front : List ι) :
    node c root (front ++ path) = none := by
  induction front with
  | nil => exact h
  | cons i front ih => rw [List.cons_append, node, ih, Option.bind_none]

/-- **The children of inner nodes decide.** -/
theorem node_congr
    (h : ∀ path p i, path.length < d → node c root path = some p → c' p i = c p i) (path : List ι)
    (hlen : path.length ≤ d) : node c' root path = node c root path := by
  induction path with
  | nil => rfl
  | cons i path ih =>
    rw [List.length_cons] at hlen
    rw [node, node, ih (by omega)]
    cases hp : node c root path with
    | none => rfl
    | some p =>
      rw [Option.bind_some, Option.bind_some]
      exact h path p i (by omega) hp

/-! ## Subtrees -/

/-- The nodes below a path. -/
def Under (c : α → ι → Option α) (root : α) (d : ℕ) (n : List ι) (x : α) : Prop :=
  ∃ path, path.length ≤ d ∧ n <:+ path ∧ node c root path = some x

section Subtree

variable {n : List ι} {p x : α} {i j : ι}

theorem under_self (hlen : n.length ≤ d) (hn : node c root n = some p) : Under c root d n p :=
  ⟨n, hlen, List.suffix_refl n, hn⟩

theorem Under.of_cons (h : Under c root d (i :: n) x) : Under c root d n x := by
  obtain ⟨path, hlen, hsuf, hx⟩ := h
  exact ⟨path, hlen, (List.suffix_cons i n).trans hsuf, hx⟩

theorem under_iff (hlen : n.length ≤ d) (hn : node c root n = some p) :
    Under c root d n x ↔ x = p ∨ ∃ i, Under c root d (i :: n) x := by
  constructor
  · rintro ⟨path, hle, ⟨front, rfl⟩, hx⟩
    rcases List.eq_nil_or_concat front with rfl | ⟨front, i, rfl⟩
    · rw [List.nil_append, hn] at hx
      exact Or.inl (Option.some.inj hx).symm
    · rw [List.concat_append] at hle hx
      exact Or.inr ⟨i, _, hle, ⟨front, rfl⟩, hx⟩
  · rintro (rfl | ⟨i, hx⟩)
    · exact under_self hlen hn
    · exact hx.of_cons

theorem Unshared.under_inj (hu : Unshared c root d) (hi : Under c root d (i :: n) x)
    (hj : Under c root d (j :: n) x) : i = j := by
  obtain ⟨path, hlen, hsuf, hx⟩ := hi
  obtain ⟨path', hlen', hsuf', hx'⟩ := hj
  obtain rfl := hu path path' x hlen hlen' hx hx'
  have heq := (List.suffix_of_suffix_length_le hsuf hsuf' le_rfl).eq_of_length rfl
  exact (List.cons.inj heq).1

theorem Unshared.not_under (hu : Unshared c root d) (hlen : n.length ≤ d) (hn : node c root n = some p) :
    ¬ Under c root d (i :: n) p := by
  rintro ⟨path, hle, hsuf, hp⟩
  obtain rfl := hu path n p hle hlen hp hn
  have hlt := hsuf.length_le
  rw [List.length_cons] at hlt
  omega

end Subtree

section Link

variable [DecidableEq ι] {n : List ι} {p q : α} {i : ι}

/-- **A new node is linked into the tree.** Only the child of `p` at `i` changes, and the new node has no
children. -/
theorem node_link (hn : node c root n = some p) (hnone : c p i = none) (hnew : c' p i = some q)
    (hq : ∀ b, c' q b = none)
    (h : ∀ path r b, path.length < d → node c root path = some r → ¬ (path = n ∧ b = i) → c' r b = c r b)
    (path : List ι) (hlen : path.length ≤ d) :
    node c' root path = if path = i :: n then some q else node c root path := by
  induction path with
  | nil => simp [node]
  | cons b path ih =>
    rw [List.length_cons] at hlen
    rw [node, ih (by omega)]
    by_cases hpath : path = i :: n
    · -- the new node has no children, and there was nothing at its path
      subst hpath
      have hne : b :: i :: n ≠ i :: n := fun he => by simpa using congrArg List.length he
      rw [if_pos rfl, if_neg hne, Option.bind_some, hq, node, node_cons hn, hnone, Option.bind_none]
    · rw [if_neg hpath]
      by_cases hcons : b :: path = i :: n
      · obtain ⟨rfl, rfl⟩ := List.cons.inj hcons
        rw [if_pos rfl, hn, Option.bind_some, hnew]
      · rw [if_neg hcons, node]
        cases hr : node c root path with
        | none => rfl
        | some r =>
          rw [Option.bind_some, Option.bind_some]
          apply h path r b (by omega) hr
          rintro ⟨rfl, rfl⟩
          exact hcons rfl

/-- **The nodes still have one path each**, if the new one was not in the tree. -/
theorem Unshared.link (hu : Unshared c root d)
    (hnode : ∀ path : List ι, path.length ≤ d →
      node c' root path = if path = i :: n then some q else node c root path)
    (hfresh : ∀ path : List ι, path.length ≤ d → node c root path ≠ some q) : Unshared c' root d := by
  intro path path' r hlen hlen' hp hp'
  rw [hnode path hlen] at hp
  rw [hnode path' hlen'] at hp'
  split_ifs at hp hp' with h1 h2 h2
  · rw [h1, h2]
  · cases hp
    exact absurd hp' (hfresh path' hlen')
  · cases hp'
    exact absurd hp (hfresh path hlen)
  · exact hu path path' r hlen hlen' hp hp'

end Link

end Radix
