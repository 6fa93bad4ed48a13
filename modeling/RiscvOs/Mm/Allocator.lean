import RiscvOs.Mm.Kalloc

set_option autoImplicit false

/-!
# Runs of the allocator

Any sequence of calls of `kalloc` and `kfree` after `kinit`, while the owners of the pages write to them.
The list and the bitmap stay in step, and every page is either free or held by exactly one caller.

## Main results

* `Inv.step` — every step keeps the invariant.
* `allocator_in_step` — the laws of the allocator in every reachable state.
-/

namespace RiscvOs.Mm.Allocator

open Machine Memory

/-- The allocator, the pages that are allocated, and all pages that `kalloc` has ever returned. -/
structure State where
  phys : Phys
  held : Finset ℕ
  got : Finset ℕ

/-- The steps. -/
inductive Event where
  | kalloc
  | kfree (pa : ℕ)
  | write (m : Mem)

/-- One step. -/
def next (kend : ℕ) (s : State) : Event → Except Panic State
  | .kalloc =>
    let (r, t) := Mm.kalloc s.phys
    if r = 0 then .ok { s with phys := t }
    else .ok ⟨t, insert r s.held, insert r s.got⟩
  | .kfree pa => do
    let t ← Mm.kfree kend pa s.phys
    .ok { s with phys := t, held := s.held.erase pa }
  | .write m => .ok { s with phys := { s.phys with mem := m } }

/-- Only what `kalloc` has returned is freed, perhaps more than once. The owners of pages write to them,
and the kernel writes to its own memory. -/
def Legal (kend : ℕ) (s : State) : Event → Prop
  | .kalloc => True
  | .kfree pa => pa ∈ s.got
  | .write m => ∀ a, m a ≠ s.phys.mem a → a < base kend ∨ ∃ f ∈ s.held, InPage f a

/-- The invariant: a page is free or held. -/
structure Inv (kend : ℕ) (s : State) (l : List ℕ) : Prop where
  alloc : Alloc kend s.phys l
  held_iff : ∀ f, f ∈ s.held ↔ Frame kend f ∧ f ∉ l
  got : ∀ f ∈ s.got, Frame kend f

section Steps

variable {kend : ℕ} {s t : State} {l : List ℕ}

theorem Inv.kalloc_cons {f : ℕ} (h : Inv kend s (f :: l)) : ∃ t, next kend s .kalloc = .ok t ∧ Inv kend t l := by
  have hf := h.alloc.frames f List.mem_cons_self
  have hnd := List.nodup_cons.mp h.alloc.nodup
  obtain ⟨u, hu, hau, -⟩ := h.alloc.kalloc_cons
  refine ⟨⟨u, insert f s.held, insert f s.got⟩, ?_, hau, fun g => ?_, fun g hg => ?_⟩
  · simp only [next, hu, if_neg hf.ne_zero]
  · rw [Finset.mem_insert, h.held_iff, List.mem_cons, not_or]
    constructor
    · rintro (rfl | ⟨hg, -, hgl⟩)
      · exact ⟨hf, hnd.1⟩
      · exact ⟨hg, hgl⟩
    · rintro ⟨hg, hgl⟩
      by_cases hgf : g = f
      · exact Or.inl hgf
      · exact Or.inr ⟨hg, hgf, hgl⟩
  · rcases Finset.mem_insert.mp hg with rfl | hg
    · exact hf
    · exact h.got g hg

theorem Inv.kalloc (h : Inv kend s l) (hk : kend < PHYSTOP) (hn : next kend s .kalloc = .ok t) :
    ∃ l', Inv kend t l' := by
  cases l with
  | nil =>
    obtain ⟨u, hu, hau, -⟩ := h.alloc.kalloc_nil hk
    simp only [next, hu] at hn
    cases hn
    exact ⟨[], hau, h.held_iff, h.got⟩
  | cons f l =>
    obtain ⟨u, hu, hinv⟩ := h.kalloc_cons
    cases hu.symm.trans hn
    exact ⟨l, hinv⟩

theorem Inv.kfree (h : Inv kend s l) {pa : ℕ} (hpa : pa ∈ s.got) (hn : next kend s (.kfree pa) = .ok t) :
    ∃ l', Inv kend t l' := by
  have hf := h.got pa hpa
  by_cases hmem : pa ∈ l
  · -- a page that is already free
    simp only [next, h.alloc.kfree_free hmem] at hn
    cases hn
  · obtain ⟨u, hu, hau, -⟩ := h.alloc.kfree hf hmem
    simp only [next, hu] at hn
    cases hn
    refine ⟨pa :: l, hau, fun g => ?_, h.got⟩
    rw [Finset.mem_erase, h.held_iff, List.mem_cons]
    tauto

theorem Inv.write (h : Inv kend s l) {m : Mem} (hm : Legal kend s (.write m)) :
    Inv kend { s with phys := { s.phys with mem := m } } l := by
  have hsame : ∀ a, base kend ≤ a → (∀ f ∈ s.held, ¬ InPage f a) → m a = s.phys.mem a := by
    intro a ha hno
    by_contra hne
    rcases hm a hne with hlt | ⟨f, hf, hin⟩
    · omega
    · exact hno f hf hin
  refine ⟨h.alloc.congr (fun a hb hlt => ?_) (fun f hf a hin => ?_), h.held_iff, h.got⟩
  · apply hsame a hb
    intro g hg hin
    have hgl := ((h.held_iff g).mp hg).1.first_le
    simp only [InPage] at hin
    omega
  · have hff := h.alloc.frames f hf
    apply hsame a
    · have hb := base_le_first kend
      have hfl := hff.first_le
      simp only [InPage] at hin
      omega
    · intro g hg
      obtain ⟨hgf, hgl⟩ := (h.held_iff g).mp hg
      have hne : f ≠ g := by
        rintro rfl
        exact hgl hf
      exact hff.disjoint hgf hne hin

/-- **Every step keeps the invariant.** -/
theorem Inv.step (h : Inv kend s l) (hk : kend < PHYSTOP) {e : Event} (he : Legal kend s e)
    (hn : next kend s e = .ok t) : ∃ l', Inv kend t l' := by
  cases e with
  | kalloc => exact h.kalloc hk hn
  | kfree pa => exact h.kfree he hn
  | write m =>
    cases hn
    exact ⟨l, h.write he⟩

theorem Inv.reach {s₀ : State} {l₀ : List ℕ} (h : Inv kend s₀ l₀) (hk : kend < PHYSTOP)
    (hr : Reach (next kend) (Legal kend) s₀ s) : ∃ l, Inv kend s l :=
  hr.invariant (I := fun s => ∃ l, Inv kend s l) ⟨l₀, h⟩ fun ⟨_, hl⟩ he hn => hl.step hk he hn

theorem exists_inv (hk : kend < PHYSTOP) (mem : Mem) :
    ∃ s₀ l₀, kinit kend mem = .ok s₀ ∧ Inv kend ⟨s₀, ∅, ∅⟩ l₀ := by
  obtain ⟨s₀, l₀, hinit, halloc, hall⟩ := kinit_alloc hk mem
  refine ⟨s₀, l₀, hinit, halloc, fun f => ?_, fun f hf => absurd hf (Finset.notMem_empty f)⟩
  simp only [Finset.notMem_empty, false_iff, not_and, not_not]
  exact hall f

end Steps

/-- The laws of a state: the free list `l` and the bitmap, and what the functions do. -/
structure Laws (kend : ℕ) (s : State) (l : List ℕ) : Prop where
  list : IsList s.phys.mem s.phys.freelist l
  nodup : l.Nodup
  frames : ∀ f ∈ l, Frame kend f
  bits : ∀ f, Frame kend f → (listBitIsset (pageIndex s.phys.addrBase f) s.phys = false ↔ f ∈ l)
  kalloc : ∀ r t, Mm.kalloc s.phys = (r, t) →
    (r = 0 ∧ ∀ f, Frame kend f → f ∈ s.held) ∨ (Frame kend r ∧ r ∉ s.held)
  kfree_free : ∀ f ∈ l, Mm.kfree kend f s.phys = .error .kfreeTwice
  kfree_held : ∀ f ∈ s.held, ∃ t, Mm.kfree kend f s.phys = .ok t

theorem Inv.laws {kend : ℕ} {s : State} {l : List ℕ} (h : Inv kend s l) (hk : kend < PHYSTOP) :
    Laws kend s l where
  list := h.alloc.list
  nodup := h.alloc.nodup
  frames := h.alloc.frames
  bits f hf := by
    rw [h.alloc.pageIndex_eq hf, listBitIsset_eq h.alloc.bitmap]
    exact h.alloc.bits f hf
  kalloc r t hr := by
    cases l with
    | nil =>
      obtain ⟨u, hu, -, -⟩ := h.alloc.kalloc_nil hk
      cases hu.symm.trans hr
      exact Or.inl ⟨rfl, fun f hf => (h.held_iff f).mpr ⟨hf, List.not_mem_nil⟩⟩
    | cons f l =>
      obtain ⟨u, hu, -, -⟩ := h.alloc.kalloc_cons
      have hfr : f = r := (Prod.mk.inj (hu.symm.trans hr)).1
      subst hfr
      refine Or.inr ⟨h.alloc.frames f List.mem_cons_self, fun hheld => ?_⟩
      exact ((h.held_iff f).mp hheld).2 List.mem_cons_self
  kfree_free f hf := h.alloc.kfree_free hf
  kfree_held f hf := by
    obtain ⟨hff, hfl⟩ := (h.held_iff f).mp hf
    obtain ⟨t, ht, -, -⟩ := h.alloc.kfree hff hfl
    exact ⟨t, ht⟩

/-- **The list and the bitmap stay in step.** For every end of the kernel below `PHYSTOP` and every contents
of the memory, `kinit` returns, and after any sequence of calls the laws of the allocator hold. -/
theorem allocator_in_step {kend : ℕ} (hk : kend < PHYSTOP) (mem : Mem) :
    ∃ s₀, kinit kend mem = .ok s₀ ∧
      ∀ s, Reach (next kend) (Legal kend) ⟨s₀, ∅, ∅⟩ s → ∃ l, Laws kend s l := by
  obtain ⟨s₀, l₀, hinit, hinv⟩ := exists_inv hk mem
  refine ⟨s₀, hinit, fun s hs => ?_⟩
  obtain ⟨l, hl⟩ := hinv.reach hk hs
  exact ⟨l, hl.laws hk⟩

theorem allocator_in_step_threePages :
    ∃ s₀, kinit (PHYSTOP - 4 * PGSIZE) (fun _ => 0) = .ok s₀ ∧
      ∀ s, Reach (next (PHYSTOP - 4 * PGSIZE)) (Legal (PHYSTOP - 4 * PGSIZE)) ⟨s₀, ∅, ∅⟩ s →
        ∃ l, Laws (PHYSTOP - 4 * PGSIZE) s l := by
  apply allocator_in_step
  rw [PHYSTOP_eq]
  decide

end RiscvOs.Mm.Allocator
