import RiscvOs.Mm.UserVm

set_option autoImplicit false

/-!
# Freeing an address space

`freePgtbl` frees the pages of a table by recursion, `uVmFree` the memory below `sz` before that, and
`uFreeUserVM` unmaps the pages of the trap code first.

A process has in its table the memory below its size, some of which may not be there yet, and the two
pages of the trap code. Then `uFreeUserVM` returns, frees the pages of the memory and those of the table,
and changes no other page.

## Main results

* `Bare.freePgtbl` — `freePgtbl` frees the pages of a table.
* `ProcSpace.uFreeUserVM` — `uFreeUserVM` frees the address space of a process.
-/

namespace RiscvOs.Mm

open Memory Radix

/-! ## Sets of pages -/

/-- The pages of a set have been freed, and no other page has changed. -/
structure Freed (kend : ℕ) (T : ℕ → Prop) (s : Phys) (l : List ℕ) (t : Phys) (l' : List ℕ) : Prop where
  alloc : Alloc kend t l'
  list : ∀ f, f ∈ l' ↔ f ∈ l ∨ T f
  data : ∀ f, Frame kend f → f ∉ l' → ∀ a, InPage f a → t.mem a = s.mem a

theorem Alloc.kfree_freed {kend f : ℕ} {s : Phys} {l : List ℕ} (h : Alloc kend s l) (hf : Frame kend f)
    (hfl : f ∉ l) : ∃ t l', Mm.kfree kend f s = .ok t ∧ Freed kend (· = f) s l t l' := by
  obtain ⟨t, ht, hat, hsame⟩ := h.kfree hf hfl
  refine ⟨t, f :: l, ht, hat, fun g => ?_, fun g hg hgl a ha => ?_⟩
  · rw [List.mem_cons, or_comm]
  · have hne : g ≠ f := fun he => hgl (he ▸ List.mem_cons_self)
    exact hsame a (hg.first_le.trans ha.1) (hg.disjoint hf hne ha)

/-! ## The pages of a table -/

/-- The bits by which `freePgtbl` knows a leaf entry. -/
def RWX : ℕ := PTE_R ||| PTE_W ||| PTE_X

/-- A table without leaf entries. -/
structure Bare (kend root : ℕ) (m : Mem) : Prop where
  unshared : Unshared (child m) root 2
  frame : ∀ path p, path.length ≤ 2 → tablePage m root path = some p → Frame kend p
  inner : ∀ path p i e, path.length < 2 → tablePage m root path = some p → entry m p i = some e →
    e &&& RWX = 0
  leaf : ∀ path p i, path.length = 2 → tablePage m root path = some p → entry m p i = none

/-- The pages of a table below a path. -/
abbrev PagesUnder (m : Mem) (root : ℕ) (n : List (Fin 512)) : ℕ → Prop := Under (child m) root 2 n

section FreePgtbl

variable {kend root p : ℕ} {m : Mem} {n : List (Fin 512)}

/-- The pages below a path are as in `m`, and not free. -/
def Intact (m : Mem) (root : ℕ) (n : List (Fin 512)) (s : Phys) (l : List ℕ) : Prop :=
  ∀ f, PagesUnder m root n f → f ∉ l ∧ ∀ a, InPage f a → s.mem a = m a

/-- What the loop of `freePgtbl` has done before the entry `k`: the subtrees of the first entries are
freed, and the other entries of the page are still there. -/
structure Partly (kend : ℕ) (m : Mem) (root : ℕ) (n : List (Fin 512)) (p : ℕ) (s : Phys) (l : List ℕ)
    (k : ℕ) (t : Phys) (l' : List ℕ) : Prop where
  alloc : Alloc kend t l'
  list : ∀ f, f ∈ l' ↔ f ∈ l ∨ ∃ i : Fin 512, i.val < k ∧ PagesUnder m root (i :: n) f
  data : ∀ f, Frame kend f → f ≠ p → f ∉ l' → ∀ a, InPage f a → t.mem a = s.mem a
  rest : ∀ a, p + 8 * k ≤ a → a < p + PGSIZE → t.mem a = s.mem a

variable {s t : Phys} {l l' : List ℕ} {k : ℕ}

theorem Partly.zero (h : Alloc kend s l) : Partly kend m root n p s l 0 s l where
  alloc := h
  list f := by simp
  data _ _ _ _ _ _ := rfl
  rest _ _ _ := rfl

theorem Partly.page_not_mem (h : Partly kend m root n p s l k t l') (hb : Bare kend root m)
    (hn : tablePage m root n = some p) (hlen : n.length ≤ 2) (hs : Intact m root n s l) : p ∉ l' := by
  rw [h.list, not_or]
  refine ⟨(hs p (under_self hlen hn)).1, ?_⟩
  rintro ⟨i, -, hi⟩
  exact hb.unshared.not_under hlen hn hi

theorem Partly.intact (h : Partly kend m root n p s l k t l') (hb : Bare kend root m)
    (hn : tablePage m root n = some p) (hlen : n.length ≤ 2) (hs : Intact m root n s l) {i : Fin 512}
    (hi : i.val = k) : Intact m root (i :: n) t l' := by
  intro f hf
  obtain ⟨hfl, hbytes⟩ := hs f hf.of_cons
  have hne : f ≠ p := by
    rintro rfl
    exact hb.unshared.not_under hlen hn hf
  have hfl' : f ∉ l' := by
    rw [h.list, not_or]
    refine ⟨hfl, fun ⟨j, hj, hfj⟩ => ?_⟩
    have heq := hb.unshared.under_inj hfj hf
    omega
  have hframe : Frame kend f := by
    obtain ⟨path, hle, -, hpath⟩ := hf
    exact hb.frame path f hle hpath
  refine ⟨hfl', fun a ha => ?_⟩
  rw [h.data f hframe hne hfl' a ha, hbytes a ha]

theorem Partly.load_eq (h : Partly kend m root n p s l k t l') (hn : tablePage m root n = some p)
    (hlen : n.length ≤ 2) (hs : Intact m root n s l) (hk : k < 512) :
    load t.mem (p + 8 * k) 8 = load m (p + 8 * k) 8 := by
  have hpage : PGSIZE = 8 * 512 := rfl
  apply load_congr
  intro a ha ha'
  rw [h.rest a ha (by omega)]
  apply (hs p (under_self hlen hn)).2
  simp only [InPage]
  omega

theorem Partly.skip (h : Partly kend m root n p s l k t l') (hn : tablePage m root n = some p)
    {i : Fin 512} (hi : i.val = k) (hnone : entry m p i = none) :
    Partly kend m root n p s l (k + 1) t l' where
  alloc := h.alloc
  list f := by
    -- no page is below an entry that is not valid
    have hempty : ¬ PagesUnder m root (i :: n) f := by
      rintro ⟨path, -, ⟨front, rfl⟩, hpath⟩
      have hchild : node (child m) root (i :: n) = none := by
        rw [node_cons hn, child, hnone]
        rfl
      rw [node_append_eq_none hchild] at hpath
      cases hpath
    rw [h.list]
    refine or_congr_right (exists_congr fun j => and_congr_left fun hf => ?_)
    have hne : j.val ≠ k := fun hj => hempty (Fin.ext (hj.trans hi.symm) ▸ hf)
    omega
  data := h.data
  rest a ha ha' := h.rest a (by omega) ha'

/-- The subtree of the next entry is freed and the entry is cleared. -/
theorem Partly.next (h : Partly kend m root n p s l k t l') (hb : Bare kend root m)
    (hn : tablePage m root n = some p) (hlen : n.length ≤ 2) (hs : Intact m root n s l) {i : Fin 512}
    (hi : i.val = k) {u : Phys} {l'' : List ℕ} (hu : Freed kend (PagesUnder m root (i :: n)) t l' u l'') :
    Partly kend m root n p s l (k + 1) { u with mem := store u.mem (p + 8 * k) 8 0 } l'' := by
  have hpf := hb.frame n p hlen hn
  have hfirst := hpf.first_le
  have hpl : p ∉ l'' := by
    rw [hu.list, not_or]
    exact ⟨h.page_not_mem hb hn hlen hs, hb.unshared.not_under hlen hn⟩
  have hpage : PGSIZE = 8 * 512 := rfl
  have hstore : ∀ a, ¬ InPage p a → store u.mem (p + 8 * k) 8 0 a = u.mem a := by
    intro a ha
    apply store_of_not_mem
    simp only [InPage] at ha
    omega
  refine ⟨hu.alloc.congr (fun a hlo hhi => hstore a ?_) (fun g hg a ha => hstore a ?_), fun f => ?_,
    fun f hf hne hfl a ha => ?_, fun a ha ha' => ?_⟩
  · simp only [InPage]
    omega
  · have hgp : g ≠ p := fun he => hpl (he ▸ hg)
    exact (hu.alloc.frames g hg).disjoint hpf hgp ha
  · rw [hu.list, h.list, or_assoc]
    refine or_congr_right ⟨?_, ?_⟩
    · rintro (⟨j, hj, hf⟩ | hf)
      · exact ⟨j, by omega, hf⟩
      · exact ⟨i, by omega, hf⟩
    · rintro ⟨j, hj, hf⟩
      by_cases hlt : j.val < k
      · exact Or.inl ⟨j, hlt, hf⟩
      · have heq : j = i := Fin.ext (by omega)
        exact Or.inr (heq ▸ hf)
  · change store u.mem (p + 8 * k) 8 0 a = _
    have hfl' : f ∉ l' := fun hmem => hfl ((hu.list f).mpr (Or.inl hmem))
    rw [hstore a (hf.disjoint hpf hne ha), hu.data f hf hfl a ha, h.data f hf hne hfl' a ha]
  · change store u.mem (p + 8 * k) 8 0 a = _
    rw [store_of_not_mem (by omega), hu.data p hpf hpl a ⟨by omega, ha'⟩]
    exact h.rest a (by omega) ha'

theorem Bare.freeLoop (hb : Bare kend root m) (hn : tablePage m root n = some p) (hlen : n.length ≤ 2)
    {free : ℕ → Phys → Except VmPanic Phys}
    (hfree : ∀ i e t l', entry m p i = some e → Alloc kend t l' → Intact m root (i :: n) t l' →
      e &&& RWX = 0 ∧ ∃ u l'', free (pte2pa e) t = .ok u ∧
        Freed kend (PagesUnder m root (i :: n)) t l' u l'')
    (ha : Alloc kend s l) (hs : Intact m root n s l) (k : ℕ) (hk : k ≤ 512) :
    ∃ t l', (List.range k).foldlM (freeEntry free p) s = .ok t ∧ Partly kend m root n p s l k t l' := by
  induction k with
  | zero => exact ⟨s, l, rfl, Partly.zero ha⟩
  | succ k ih =>
    obtain ⟨t, l', ht, hpart⟩ := ih (by omega)
    let i : Fin 512 := ⟨k, hk⟩
    have hload := hpart.load_eq hn hlen hs hk
    rw [List.range_succ, List.foldlM_append, ht]
    change ∃ u l'', (freeEntry free p t k >>= pure) = _ ∧ _
    rw [bind_pure, freeEntry, hload]
    by_cases hv : load m (p + 8 * k) 8 &&& PTE_V ≠ 0
    · -- a valid entry has none of the three bits, so that it leads to the next level
      obtain ⟨hrwx, u, l'', hu, hfreed⟩ :=
        hfree i _ t l' (if_pos hv) hpart.alloc (hpart.intact hb hn hlen hs rfl)
      refine ⟨_, l'', ?_, hpart.next hb hn hlen hs (i := i) rfl hfreed⟩
      rw [if_pos ⟨hv, hrwx⟩]
      rw [show free (pte2pa (load m (p + 8 * k) 8)) t = .ok u from hu]
      rfl
    · refine ⟨t, l', ?_, hpart.skip hn (i := i) rfl (if_neg hv)⟩
      rw [if_neg fun hc => hv hc.1, if_neg hv]

theorem Bare.freePage (hb : Bare kend root m) (hn : tablePage m root n = some p) (hlen : n.length ≤ 2)
    {fuel : ℕ}
    (hfree : ∀ i e t l', entry m p i = some e → Alloc kend t l' → Intact m root (i :: n) t l' →
      e &&& RWX = 0 ∧ ∃ u l'', Mm.freePgtbl kend fuel (pte2pa e) t = .ok u ∧
        Freed kend (PagesUnder m root (i :: n)) t l' u l'')
    (ha : Alloc kend s l) (hs : Intact m root n s l) :
    ∃ t l', Mm.freePgtbl kend (fuel + 1) p s = .ok t ∧ Freed kend (PagesUnder m root n) s l t l' := by
  obtain ⟨t, l', ht, hpart⟩ := hb.freeLoop hn hlen hfree ha hs 512 le_rfl
  have hpf := hb.frame n p hlen hn
  obtain ⟨u, l'', hu, hfreed⟩ := hpart.alloc.kfree_freed hpf (hpart.page_not_mem hb hn hlen hs)
  have hunder : ∀ f, PagesUnder m root n f ↔ f = p ∨ ∃ i, PagesUnder m root (i :: n) f :=
    fun f => under_iff hlen hn
  refine ⟨u, l'', ?_, hfreed.alloc, fun f => ?_, fun f hf hfl a hfa => ?_⟩
  · rw [Mm.freePgtbl, ht]
    change onPages (Mm.kfree kend p t) = _
    rw [hu]
    rfl
  · rw [hfreed.list, hpart.list, hunder]
    constructor
    · rintro ((hf | ⟨i, -, hf⟩) | rfl)
      · exact Or.inl hf
      · exact Or.inr (Or.inr ⟨i, hf⟩)
      · exact Or.inr (Or.inl rfl)
    · rintro (hf | rfl | ⟨i, hf⟩)
      · exact Or.inl (Or.inl hf)
      · exact Or.inr rfl
      · exact Or.inl (Or.inr ⟨i, i.isLt, hf⟩)
  · rw [hfreed.data f hf hfl a hfa]
    rw [hfreed.list, not_or] at hfl
    exact hpart.data f hf hfl.2 hfl.1 a hfa

/-- **`freePgtbl` frees the pages of a table**, here below a path of it; the recursion is as deep as
the table. -/
theorem Bare.freePgtbl (hb : Bare kend root m) (d fuel : ℕ) (hd : n.length + d = 2)
    (hn : tablePage m root n = some p) (ha : Alloc kend s l) (hs : Intact m root n s l) :
    ∃ t l', Mm.freePgtbl kend (fuel + d + 1) p s = .ok t ∧
      Freed kend (PagesUnder m root n) s l t l' := by
  induction d generalizing n p s l with
  | zero =>
    refine hb.freePage hn (by omega) (fun i e t l' he => ?_) ha hs
    rw [hb.leaf n p i (by omega) hn] at he
    cases he
  | succ d ih =>
    refine hb.freePage hn (by omega) (fun i e t l' he hat hit => ?_) ha hs
    refine ⟨hb.inner n p i e (by omega) hn he, ih ?_ ?_ hat hit⟩
    · rw [List.length_cons]
      omega
    · rw [tablePage, node_cons hn, child, he]
      rfl

end FreePgtbl

/-! ## Words -/

/-- The word at an address. -/
def Phys.word (s : Phys) (a : ℕ) : ℕ := load s.mem a 8

/-- The state after a store of a word. -/
def Phys.setWord (s : Phys) (a v : ℕ) : Phys := { s with mem := store s.mem a 8 v }

section Words

variable {kend f a b v : ℕ} {s t : Phys} {l : List ℕ}

theorem word_setWord (hv : v < 256 ^ 8) : (s.setWord a v).word a = v := load_store hv

theorem word_setWord_of_disjoint (h : a + 8 ≤ b ∨ b + 8 ≤ a) : (s.setWord a v).word b = s.word b :=
  load_store_of_disjoint h

theorem setWord_of_not_inPage (ha : f ≤ a) (ha' : a + 8 ≤ f + PGSIZE) {x : ℕ} (hx : ¬ InPage f x) :
    (s.setWord a v).mem x = s.mem x := by
  apply store_of_not_mem
  simp only [InPage] at hx
  omega

theorem word_congr (ha : f ≤ a) (ha' : a + 8 ≤ f + PGSIZE) (h : ∀ x, InPage f x → t.mem x = s.mem x) :
    t.word a = s.word a := by
  apply load_congr
  intro x hx hx'
  exact h x ⟨by omega, by omega⟩

theorem Alloc.of_page (h : Alloc kend s l) (hf : Frame kend f) (hfl : f ∉ l) {m : Mem}
    (hm : ∀ x, ¬ InPage f x → m x = s.mem x) : Alloc kend { s with mem := m } l := by
  have hfirst := hf.first_le
  refine h.congr (fun x hlo hhi => hm x ?_) (fun g hg x hx => hm x ?_)
  · simp only [InPage]
    omega
  · have hne : g ≠ f := fun he => hfl (he ▸ hg)
    exact (h.frames g hg).disjoint hf hne hx

end Words

/-! ## The address space of a process -/

/-- The address space of a process of `sz` bytes: below its size it has pages of its own, which may not
all be there yet, and elsewhere only those of the trap code. -/
structure ProcSpace (kend root sz : ℕ) (s : Phys) (l : List ℕ) : Prop where
  wf : WellFormed kend s l root
  size : pgRoundUp sz ≤ TRAPFRAME
  pages : Freeable kend root s l 0 (pgRoundUp sz / PGSIZE)
  rest : ∀ va, pgRoundUp sz ≤ va → va < TRAPFRAME → translate s root va = none
  inner : ∀ path p i e, path.length < 2 → tablePage s.mem root path = some p → entry s.mem p i = some e →
    e &&& RWX = 0
  low : ∀ path i, path.length = 2 → leaf s.mem root path i ≠ none →
    ∃ va, va < MAXVA ∧ pathOf va = path ∧ px 0 va = i

/-- The pages of the address space of a process. -/
def ProcPage (root sz : ℕ) (s : Phys) (f : ℕ) : Prop :=
  (∃ path, path.length ≤ 2 ∧ tablePage s.mem root path = some f) ∨
    ∃ va perm, va % PGSIZE = 0 ∧ va < sz ∧ translate s root va = some (f, perm)

/-- An empty table is an address space of no bytes. -/
theorem procSpace_of_empty {kend root : ℕ} {s : Phys} {l : List ℕ} (h : WellFormed kend s l root)
    (hempty : ∀ path, path ≠ [] → tablePage s.mem root path = none) : ProcSpace kend root 0 s l := by
  have hround : pgRoundUp 0 = 0 := rfl
  have hnone : ∀ va, translate s root va = none := by
    intro va
    by_cases hva : va < MAXVA
    · rw [translate_eq_none hva, leaf, hempty _ (by simp [pathOf]), Option.bind_none]
    · exact translate_ge (by omega)
  have hroot : ∀ path p, tablePage s.mem root path = some p → path = [] ∧ p = root := by
    intro path p hp
    by_cases hnil : path = []
    · subst hnil
      exact ⟨rfl, (Option.some.inj hp).symm⟩
    · rw [hempty path hnil] at hp
      cases hp
  refine ⟨h, by rw [hround]; exact Nat.zero_le _, ⟨?_, ?_, ?_⟩, fun va _ _ => hnone va, ?_, ?_⟩
  · intro va pa perm _ _ _ htr
    rw [hnone va] at htr
    cases htr
  · intro va pa perm _ _ _ htr
    rw [hnone va] at htr
    cases htr
  · intro va va' pa perm perm' _ _ _ _ _ _ htr
    rw [hnone va] at htr
    cases htr
  · intro path p i e _ hp he
    obtain ⟨-, rfl⟩ := hroot path p hp
    have hchild : tablePage s.mem p [i] = some (pte2pa e) := by
      rw [tablePage, Radix.node_cons rfl, child, he, Option.map_some]
    rw [hempty [i] (by simp)] at hchild
    cases hchild
  · intro path i hlen hleaf
    have hne : path ≠ [] := by
      rintro rfl
      cases hlen
    rw [leaf, hempty path hne, Option.bind_none] at hleaf
    exact absurd rfl hleaf

section Congr

variable {kend root sz : ℕ} {s t : Phys} {l l' : List ℕ}

/-- **The address space of a process does not change** as long as the pages of its table do not. -/
theorem ProcSpace.congr (h : ProcSpace kend root sz s l) (ht : Alloc kend t l') (hsub : ∀ f ∈ l', f ∈ l)
    (hsame : ∀ path p, path.length ≤ 2 → tablePage s.mem root path = some p →
      ∀ a, InPage p a → t.mem a = s.mem a) :
    ProcSpace kend root sz t l' ∧ ∀ f, ProcPage root (pgRoundUp sz) t f ↔ ProcPage root (pgRoundUp sz) s f := by
  have hent : SameEntries root s t := fun path p i hlen hp => entry_of_same (hsame path p hlen hp) i
  have hpage := hent.pages
  have htr : ∀ va, translate t root va = translate s root va :=
    translate_congr fun path i hlen => leaf_congr hent hlen
  refine ⟨⟨h.wf.congr ht hent fun path p hlen hp hmem => (h.wf.owned path p hlen hp).2 (hsub p hmem), h.size,
    h.pages.of_mapped (fun va pa perm hlo hhi hva => ⟨⟨hlo, hhi⟩, perm, (htr va).symm.trans hva⟩) hpage
      fun _ pa _ _ _ _ _ hl hmem => hl (hsub pa hmem), fun va hlo hhi => ?_,
    fun path p i e hlen hp he => ?_, fun path i hlen hleaf => ?_⟩, fun f => ?_⟩
  · rw [htr]
    exact h.rest va hlo hhi
  · rw [hpage path hlen.le] at hp
    rw [hent path p i hlen.le hp] at he
    exact h.inner path p i e hlen hp he
  · rw [leaf_congr hent hlen] at hleaf
    exact h.low path i hlen hleaf
  · refine or_congr (exists_congr fun path => and_congr_right fun hlen => ?_)
      (exists_congr fun va => exists_congr fun perm => ?_)
    · rw [hpage path hlen]
    · rw [htr]

theorem Built.peek_congr {s₀ : Phys} {l₀ : List ℕ} (h : Built kend root sz s₀ l₀ s l)
    (hsame : ∀ f, Frame kend f → f ∈ l₀ → f ∉ l → ∀ a, InPage f a → t.mem a = s.mem a) {x : ℕ} (hx : x < sz) :
    peek t root x = peek s root x := by
  have hent : SameEntries root s t := by
    intro path p i hlen hp
    obtain ⟨hf, hfl⟩ := h.wf.owned path p hlen hp
    exact entry_of_same (hsame p hf (h.table path p hlen hp) hfl) i
  obtain ⟨f, perm, hdown, hat, hf, hfl, -⟩ := h.page hx
  have hf₀ : f ∈ l₀ := by
    refine h.data _ f perm (pgRoundDown_mod x) ?_ hdown
    exact (Nat.sub_le _ _).trans_lt hx
  rw [peek, peek, translate_congr fun path i hlen => leaf_congr hent hlen, hat, Option.map_some, Option.map_some]
  congr 1
  apply hsame f hf hf₀ hfl
  have hmod := Nat.mod_lt x (show 0 < PGSIZE by decide)
  exact ⟨by omega, by omega⟩

end Congr

section FreeUser

variable {kend root sz a : ℕ} {s t u : Phys} {l : List ℕ}

/-- Leaf entries of the table have been cleared, and nothing else has changed. -/
structure Stripped (kend root : ℕ) (s : Phys) (l : List ℕ) (t : Phys) : Prop where
  wf : WellFormed kend t l root
  cleared : Cleared root s t
  data : ∀ f, Frame kend f → OffTable s root f → ∀ x, InPage f x → t.mem x = s.mem x

theorem Stripped.trans (h : Stripped kend root s l t) (h' : Stripped kend root t l u) :
    Stripped kend root s l u where
  wf := h'.wf
  cleared := h.cleared.trans h'.cleared
  data f hf hno x hx := by
    have hno' : OffTable t root f := by
      intro path hlen
      rw [h.cleared.tablePage_eq hlen]
      exact hno path hlen
    rw [h'.data f hf hno' x hx, h.data f hf hno x hx]

theorem WellFormed.unmapKeep (h : WellFormed kend s l root) (ha : a < MAXVA) (hal : a % PGSIZE = 0) :
    ∃ t, uVmUnmap kend root a 1 false s = .ok t ∧ Stripped kend root s l t ∧
      Unmapped root a PGSIZE s t := by
  have hend : a + (0 + 1) * PGSIZE ≤ MAXVA := by
    rw [MAXVA_eq] at ha ⊢
    simp only [PGSIZE] at hal ⊢
    omega
  obtain ⟨t, l', ht, hwf, hun, hcl, -, hkeep⟩ :=
    h.unmapOne hal hend (fun hd : false = true => absurd hd Bool.false_ne_true)
  obtain ⟨rfl, hdata⟩ := hkeep rfl
  refine ⟨t, ?_, ⟨hwf, hcl, hdata⟩, hun⟩
  rw [uVmUnmap, if_neg (not_not.mpr hal), ht, Mm.unmapLoop]

/-- What is mapped in a process after the pages of the trap code have been unmapped. -/
structure Trapless (kend root sz : ℕ) (s : Phys) (l : List ℕ) (t : Phys) : Prop
    extends Stripped kend root s l t where
  below : ∀ va, va < pgRoundUp sz → translate t root va = translate s root va
  above : ∀ va, pgRoundUp sz ≤ va → va < MAXVA → translate t root va = none

theorem ProcSpace.unmapTrap (h : ProcSpace kend root sz s l) :
    ∃ t u, uVmUnmap kend root TRAMPOLINE 1 false s = .ok t ∧
      uVmUnmap kend root TRAPFRAME 1 false t = .ok u ∧ Trapless kend root sz s l u := by
  have hsz := h.size
  have hframe := TRAPFRAME_eq
  have htramp := TRAMPOLINE_eq
  have hmax := MAXVA_eq
  have hpage : PGSIZE = 4096 := rfl
  obtain ⟨t, ht, hst, hunt⟩ := h.wf.unmapKeep (a := TRAMPOLINE) (by omega) (by rw [htramp]; rfl)
  obtain ⟨u, hu, hsu, hunu⟩ := hst.wf.unmapKeep (a := TRAPFRAME) (by omega) (by rw [hframe]; rfl)
  refine ⟨t, u, ht, hu, hst.trans hsu, fun va hva => ?_, fun va hlo hhi => ?_⟩
  · rw [hunu va (by omega), if_neg (by omega), hunt va (by omega), if_neg (by omega)]
  · rw [hunu va hhi, hunt va hhi]
    by_cases hrest : va < TRAPFRAME
    · rw [if_neg (by omega), if_neg (by omega), h.rest va hlo hrest]
    · by_cases hfr : va < TRAMPOLINE
      · rw [if_pos (by omega)]
      · rw [if_neg (by omega), if_pos (by omega)]

theorem pgRoundUp_div (sz : ℕ) : pgRoundUp sz / PGSIZE * PGSIZE = pgRoundUp sz := by
  simp only [pgRoundUp, pgRoundDown, PGSIZE]
  omega

theorem ProcSpace.freeable (h : ProcSpace kend root sz s l) (ht : Trapless kend root sz s l t) :
    Freeable kend root t l 0 (pgRoundUp sz / PGSIZE) := by
  have hpg := pgRoundUp_div sz
  exact h.pages.of_mapped
    (fun va pa perm hlo hhi htr => ⟨⟨hlo, hhi⟩, perm, (ht.below va (by omega)).symm.trans htr⟩)
    (fun path hlen => ht.cleared.tablePage_eq hlen) fun _ _ _ _ _ _ _ hl => hl

theorem ProcSpace.bare (h : ProcSpace kend root sz s l) {l' : List ℕ} (hwf : WellFormed kend t l' root)
    (hc : Cleared root s t) (hun : ∀ va, va < MAXVA → translate t root va = none) :
    Bare kend root t.mem where
  unshared := hwf.unshared
  frame path p hlen hp := (hwf.owned path p hlen hp).1
  inner path p i e hlen hp he := by
    rw [hc.tablePage_eq hlen.le] at hp
    rw [hc.inner hlen hp i] at he
    exact h.inner path p i e hlen hp he
  leaf path p i hlen hp := by
    have hps : tablePage s.mem root path = some p := by rw [← hc.tablePage_eq hlen.le, hp]
    by_contra hsome
    have heq : entry t.mem p i = entry s.mem p i := by
      rcases hc path p i hlen.le hps with heq | ⟨-, hnone⟩
      · exact heq
      · exact absurd hnone hsome
    have hleaf : leaf s.mem root path i ≠ none := by
      rw [leaf, hps, Option.bind_some, ← heq]
      exact hsome
    obtain ⟨va, hva, rfl, rfl⟩ := h.low path i hlen hleaf
    have hnone := (translate_eq_none hva).mp (hun va hva)
    rw [leaf, hp, Option.bind_some] at hnone
    exact hsome hnone

/-- **`uFreeUserVM` frees the address space of a process**: its pages and those of its table. No other page
changes. -/
theorem ProcSpace.uFreeUserVM (h : ProcSpace kend root sz s l) :
    ∃ t l', Mm.uFreeUserVM kend root sz s = .ok t ∧
      Freed kend (ProcPage root (pgRoundUp sz) s) s l t l' := by
  have hpg := pgRoundUp_div sz
  have hsz := h.size
  have hmax := MAXVA_eq
  have hframe := TRAPFRAME_eq
  obtain ⟨t, u, ht, hu, htrap⟩ := h.unmapTrap
  obtain ⟨v, l', hv, hwf, hun, hcl, hrel⟩ := htrap.wf.unmapLoop (pgRoundUp sz / PGSIZE) (Nat.zero_mod PGSIZE)
    (by omega) fun _ : true = true => h.freeable htrap
  replace hrel := hrel rfl
  have hnone : ∀ va, va < MAXVA → translate v root va = none := by
    intro va hva
    rw [hun va hva]
    split_ifs with hin
    · rfl
    · exact htrap.above va (by omega) hva
  have hpages : SamePages root s v :=
    fun path hlen => (htrap.cleared.trans hcl).tablePage_eq hlen
  have htable : ∀ f, PagesUnder v.mem root [] f ↔ ∃ path, path.length ≤ 2 ∧ tablePage s.mem root path = some f := by
    intro f
    constructor
    · rintro ⟨path, hlen, -, hp⟩
      exact ⟨path, hlen, (hpages path hlen).symm.trans hp⟩
    · rintro ⟨path, hlen, hp⟩
      exact ⟨path, hlen, List.nil_suffix, (hpages path hlen).trans hp⟩
  have hmem : uVmFree kend root sz u = Mm.freePgtbl kend freeDepth root v := by
    rw [uVmFree]
    split_ifs with hpos
    · rw [uVmUnmap, if_neg (by decide), hv]
      dsimp only [onPages, Except.mapError, bind, Except.bind]
    · obtain rfl : sz = 0 := by omega
      cases hv
      dsimp only [bind, Except.bind]
  have hbare := h.bare hwf (htrap.cleared.trans hcl) hnone
  obtain ⟨fuel, hfuel⟩ : ∃ fuel, freeDepth = fuel + 2 + 1 := ⟨2 ^ 20 - 3, by norm_num [freeDepth]⟩
  have hintact : Intact v.mem root [] v l' := by
    rintro f ⟨path, hlen, -, hp⟩
    exact ⟨(hwf.owned path f hlen hp).2, fun _ _ => rfl⟩
  obtain ⟨w, l'', hw, hfreed⟩ := hbare.freePgtbl 2 fuel rfl rfl hwf.alloc hintact
  refine ⟨w, l'', ?_, hfreed.alloc, fun f => ?_, fun f hf hfl a hfa => ?_⟩
  · rw [Mm.uFreeUserVM, ht]
    dsimp only [onPages, Except.mapError, bind, Except.bind]
    rw [hu]
    dsimp only
    rw [hmem, hfuel, hw]
  · rw [hfreed.list, ProcPage]
    constructor
    · rintro (hf | hf)
      · rcases hrel.only f hf with hf | ⟨va, perm, hva, -, hlt, htr⟩
        · exact Or.inl hf
        · rw [htrap.below va (by omega)] at htr
          exact Or.inr (Or.inr ⟨va, perm, hva, by omega, htr⟩)
      · exact Or.inr (Or.inl ((htable f).mp hf))
    · rintro (hf | hf | ⟨va, perm, hva, hlt, htr⟩)
      · exact Or.inl (hrel.keep f hf)
      · exact Or.inr ((htable f).mpr hf)
      · rw [← htrap.below va (by omega)] at htr
        exact Or.inl (hrel.freed va f perm hva (by omega) (by omega) htr)
  · rw [hfreed.data f hf hfl a hfa]
    rw [hfreed.list, not_or, htable] at hfl
    have hno : OffTable s root f := fun path hlen hp => hfl.2 ⟨path, hlen, hp⟩
    have hnou : OffTable u root f := by
      intro path hlen
      rw [htrap.cleared.tablePage_eq hlen]
      exact hno path hlen
    rw [hrel.data f hf hfl.1 hnou a hfa, htrap.data f hf hno a hfa]

end FreeUser

end RiscvOs.Mm
