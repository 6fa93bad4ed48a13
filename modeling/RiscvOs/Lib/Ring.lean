import Mathlib

set_option autoImplicit false

/-!
# Circular doubly linked lists

A circular list through a sentinel: the nodes are `Option α`, with `none` for the sentinel, and
the links are the two functions `next` and `prev`. The list operations are the sequences of
pointer assignments that implement them; `Linked` says that the links trace a given list
between two nodes, and `IsRing` that they trace a whole ring.

## Main results

* `IsRing.pushFront` — putting a new node in front.
* `IsRing.moveToFront` — taking a node out and putting it in front.
* `IsRing.scan` — a scan is `List.find?` on the list of the ring.
-/

namespace Ring

open Function

variable {α : Type}

/-- The `next` and `prev` pointers of the nodes; `none` is the sentinel. -/
structure Links (α : Type) where
  next : Option α → Option α
  prev : Option α → Option α

/-- The links of a sentinel alone: both of its pointers lead back to it. The pointers of the
other nodes are null until they are first assigned; no list traces them. -/
def Links.empty : Links α where
  next := fun _ => none
  prev := fun _ => none

section Assign

variable [DecidableEq α]

/-- `x->next = y`. -/
def Links.setNext (L : Links α) (x y : Option α) : Links α :=
  { L with next := update L.next x y }

/-- `x->prev = y`. -/
def Links.setPrev (L : Links α) (x y : Option α) : Links α :=
  { L with prev := update L.prev x y }

/-- `b->next->prev = b->prev; b->prev->next = b->next;` -/
def Links.unlink (L : Links α) (b : α) : Links α :=
  let L₁ := L.setPrev (L.next (some b)) (L.prev (some b))
  L₁.setNext (L₁.prev (some b)) (L₁.next (some b))

/-- `b->next = head.next; b->prev = &head; head.next->prev = b; head.next = b;` -/
def Links.pushFront (L : Links α) (b : α) : Links α :=
  let L₁ := L.setNext (some b) (L.next none)
  let L₂ := L₁.setPrev (some b) none
  let L₃ := L₂.setPrev (L₂.next none) (some b)
  L₃.setNext none (some b)

end Assign

/-- `for (b = x; b != &head; b = b->next) if (p(b)) …`: the first node from `x` on that passes
the test, `some none` if the sentinel is reached first, `none` if the fuel runs out. -/
def Links.scan (L : Links α) (p : α → Bool) : ℕ → Option α → Option (Option α)
  | _, none => some none
  | 0, some _ => none
  | n + 1, some a => if p a then some (some a) else L.scan p n (L.next (some a))

/-- The links trace the nodes of `l` from `u` to `v`, forwards and backwards. -/
def Linked (L : Links α) (u : Option α) : List α → Option α → Prop
  | [], v => L.next u = v ∧ L.prev v = u
  | a :: l, v => L.next u = some a ∧ L.prev (some a) = u ∧ Linked L (some a) l v

/-- The links form one ring through the sentinel and the elements of `l`, each once. -/
structure IsRing (L : Links α) (l : List α) : Prop where
  nodup : l.Nodup
  linked : Linked L none l none

/-! ## Tracing -/

theorem linked_append {L : Links α} {u v : Option α} {l l' : List α} {a : α} :
    Linked L u (l ++ a :: l') v ↔ Linked L u l (some a) ∧ Linked L (some a) l' v := by
  induction l generalizing u with
  | nil => simp [Linked, and_assoc]
  | cons c l ih => simp only [List.cons_append, Linked, ih, and_assoc]

theorem Linked.congr {L L' : Links α} {u v : Option α} {l : List α} (h : Linked L u l v)
    (hn : ∀ x ∈ u :: l.map some, L'.next x = L.next x)
    (hp : ∀ x ∈ v :: l.map some, L'.prev x = L.prev x) : Linked L' u l v := by
  induction l generalizing u with
  | nil =>
    obtain ⟨h1, h2⟩ := h
    exact ⟨by rw [hn u (by simp), h1], by rw [hp v (by simp), h2]⟩
  | cons a l ih =>
    obtain ⟨h1, h2, h3⟩ := h
    refine ⟨by rw [hn u (by simp), h1], by rw [hp (some a) (by simp), h2], ih h3 ?_ ?_⟩
    · intro x hx
      exact hn x (List.mem_cons_of_mem u hx)
    · intro x hx
      rcases List.mem_cons.mp hx with rfl | hx
      · exact hp x List.mem_cons_self
      · exact hp x (by simp only [List.map_cons, List.mem_cons]; exact Or.inr (Or.inr hx))

theorem Linked.prev_mem {L : Links α} {u v : Option α} {l : List α} (h : Linked L u l v) :
    L.prev v ∈ u :: l.map some := by
  induction l generalizing u with
  | nil => simp [h.2]
  | cons a l ih =>
    have := ih h.2.2
    exact List.mem_cons_of_mem u this

theorem Linked.next_mem {L : Links α} {u v : Option α} {l : List α} (h : Linked L u l v) :
    L.next u ∈ v :: l.map some := by
  cases l with
  | nil => simp [h.1]
  | cons a l => simp [h.1]

theorem Linked.scan {L : Links α} {u : Option α} {l : List α} (h : Linked L u l none)
    (p : α → Bool) {n : ℕ} (hn : l.length ≤ n) :
    L.scan p n (L.next u) = some (l.find? p) := by
  induction l generalizing u n with
  | nil =>
    rw [h.1]
    cases n <;> rfl
  | cons a l ih =>
    obtain ⟨h1, -, h3⟩ := h
    cases n with
    | zero => simp at hn
    | succ n =>
      rw [h1, Links.scan, List.find?_cons]
      split_ifs with hp
      · simp [hp]
      · simpa [hp] using ih h3 (by simpa using hn)

theorem IsRing.scan {L : Links α} {l : List α} (h : IsRing L l) (p : α → Bool) {n : ℕ}
    (hn : l.length ≤ n) : L.scan p n (L.next none) = some (l.find? p) :=
  h.linked.scan p hn

theorem isRing_empty : IsRing (Links.empty : Links α) [] := ⟨List.nodup_nil, rfl, rfl⟩

/-! ## The operations -/

section Operations

variable [DecidableEq α]

/-- **Taking a node out** of a traced list joins its two neighbours.

**Proof sketch.** Induction on the part `l` before the node. If it is empty, the predecessor is
`u`: it now leads to the successor, and the rest is traced as before because the two assigned
pointers are not read there. Otherwise the first link is not touched, since the predecessor and
the successor of the node lie further on. -/
theorem Linked.unlink {L : Links α} {u : Option α} {l l' : List α} {b : α}
    (h : Linked L u l (some b)) (h' : Linked L (some b) l' none)
    (hnd : (u :: (l ++ b :: l').map some).Nodup) : Linked (L.unlink b) u (l ++ l') none := by
  have hne : L.next (some b) ≠ some b := by
    intro he
    have hm := h'.next_mem
    rw [he] at hm
    simp only [List.mem_cons, reduceCtorEq, false_or, List.mem_map, Option.some.injEq,
      exists_eq_right] at hm
    simp only [List.map_append, List.map_cons, List.nodup_cons, List.nodup_append,
      List.mem_map, Option.some.injEq, exists_eq_right] at hnd
    exact hnd.2.2.1.1 hm
  have hL : L.unlink b = (L.setPrev (L.next (some b)) (L.prev (some b))).setNext
      (L.prev (some b)) (L.next (some b)) := by
    simp only [Links.unlink, Links.setPrev]
    rw [update_of_ne (Ne.symm hne)]
  rw [hL]
  induction l generalizing u with
  | nil =>
    obtain ⟨h1, h2⟩ := h
    rw [h2]
    have hu : ∀ a ∈ l', some a ≠ u := by
      intro a ha hau
      simp only [List.nil_append, List.map_cons, List.nodup_cons, List.mem_cons] at hnd
      exact hnd.1 (Or.inr (hau ▸ List.mem_map_of_mem ha))
    cases l' with
    | nil => exact ⟨by simp [Links.setNext, Links.setPrev, h'.1], by
        simp [Links.setNext, Links.setPrev, h'.1]⟩
    | cons a l' =>
      obtain ⟨h1', -, h3'⟩ := h'
      refine ⟨by simp [Links.setNext, Links.setPrev, h1'], by
        simp [Links.setNext, Links.setPrev, h1'], h3'.congr ?_ ?_⟩
      · intro x hx
        have hxu : x ≠ u := by
          obtain ⟨c, hc, rfl⟩ : ∃ c ∈ a :: l', some c = x := List.mem_map.mp hx
          exact hu c hc
        simp [Links.setNext, Links.setPrev, update_of_ne hxu]
      · intro x hx
        have hxa : x ≠ some a := by
          rintro rfl
          simp only [List.nil_append, List.map_cons, List.nodup_cons] at hnd
          exact hnd.2.2.1 (by simpa using hx)
        simp [Links.setNext, Links.setPrev, h1', update_of_ne hxa]
  | cons c l ih =>
    obtain ⟨h1, h2, h3⟩ := h
    simp only [List.cons_append, List.map_cons] at hnd
    have hnd' := (List.nodup_cons.mp hnd).2
    have hpu : u ≠ L.prev (some b) := by
      intro he
      have hm := h3.prev_mem
      rw [← he, ← List.map_cons] at hm
      refine (List.nodup_cons.mp hnd).1 ?_
      rw [List.map_append]
      rcases List.mem_cons.mp hm with hm | hm
      · exact hm ▸ List.mem_cons_self
      · exact List.mem_cons_of_mem _ (List.mem_append_left _ hm)
    have hnc : some c ≠ L.next (some b) := by
      intro he
      have hm := h'.next_mem
      rw [← he] at hm
      simp only [List.mem_cons, reduceCtorEq, false_or] at hm
      refine (List.nodup_cons.mp hnd').1 ?_
      rw [List.map_append, List.map_cons]
      exact List.mem_append_right _ (List.mem_cons_of_mem _ hm)
    refine ⟨?_, ?_, ih h3 hnd'⟩
    · simp [Links.setNext, Links.setPrev, update_of_ne hpu, h1]
    · simp [Links.setNext, Links.setPrev, update_of_ne hnc, h2]

/-- **Putting a new node in front** of a ring. -/
theorem IsRing.pushFront {L : Links α} {l : List α} (h : IsRing L l) {b : α} (hb : b ∉ l) :
    IsRing (L.pushFront b) (b :: l) := by
  refine ⟨List.nodup_cons.mpr ⟨hb, h.nodup⟩, ?_⟩
  have hne : L.next none ≠ some b := by
    intro he
    have hm := h.linked.next_mem
    rw [he] at hm
    exact hb (by simpa using hm)
  have hL : L.pushFront b =
      ⟨update (update L.next (some b) (L.next none)) none (some b),
        update (update L.prev (some b) none) (L.next none) (some b)⟩ := by
    simp [Links.pushFront, Links.setNext, Links.setPrev]
  rw [hL]
  have hl := h.linked
  refine ⟨by simp, by simp [update_of_ne (Ne.symm hne)], ?_⟩
  cases l with
  | nil => exact ⟨by simp [hl.1], by simp [hl.1]⟩
  | cons a l =>
    obtain ⟨h1, -, h3⟩ := hl
    have hal : a ∉ l := (List.nodup_cons.mp h.nodup).1
    refine ⟨by simp [h1], by simp [h1], h3.congr ?_ ?_⟩
    · intro x hx
      obtain ⟨c, hc, rfl⟩ : ∃ c ∈ a :: l, some c = x := List.mem_map.mp hx
      have hcb : some c ≠ some b := fun he => hb (Option.some.inj he ▸ hc)
      simp [update_of_ne hcb]
    · intro x hx
      have hxa : x ≠ some a := by
        rintro rfl
        exact hal (by simpa using hx)
      have hxb : x ≠ some b := by
        rintro rfl
        exact hb (List.mem_cons_of_mem a (by simpa using hx))
      simp only [h1]
      rw [update_of_ne hxa, update_of_ne hxb]

/-- **Moving a node to the front** of a ring: taking it out, then putting it in front. -/
theorem IsRing.moveToFront {L : Links α} {l l' : List α} {b : α} (h : IsRing L (l ++ b :: l')) :
    IsRing ((L.unlink b).pushFront b) (b :: (l ++ l')) := by
  have hnd := h.nodup
  obtain ⟨h1, h2⟩ := linked_append.mp h.linked
  have hu : (none :: (l ++ b :: l').map some).Nodup := by
    rw [List.nodup_cons]
    exact ⟨by simp, hnd.map (Option.some_injective α)⟩
  have hb : b ∉ l ++ l' := by
    have := List.nodup_middle.mp hnd
    exact (List.nodup_cons.mp this).1
  have hll : (l ++ l').Nodup := (List.nodup_cons.mp (List.nodup_middle.mp hnd)).2
  exact IsRing.pushFront ⟨hll, h1.unlink h2 hu⟩ hb

end Operations

end Ring
