import RiscvOs.Mm.Vm

set_option autoImplicit false

/-!
# The pages of a page table

`walk` makes the pages of a table that are missing. The table stays well formed, its leaf entries stay what
they are, and so do all pages that belong to somebody else.

## Main results

* `WellFormed.walk` — a walk only makes pages.
* `WellFormed.leaf_setPte` — a store to a leaf entry changes that entry only.
-/

namespace RiscvOs.Mm

open Memory Radix

section Frames

variable {kend root : ℕ} {s t : Phys} {l l' : List ℕ} {path : List (Fin 512)} {p f : ℕ} {i : Fin 512}

theorem entry_of_same {m m' : Mem} (h : ∀ a, InPage p a → m' a = m a) (i : Fin 512) :
    entry m' p i = entry m p i := by
  have hin := pteAddr_inPage p i
  apply entry_congr
  apply load_congr
  intro a ha ha'
  apply h
  simp only [InPage]
  omega

theorem WellFormed.path_unique (h : WellFormed kend s l root) {path' : List (Fin 512)}
    (hlen : path.length ≤ 2) (hlen' : path'.length ≤ 2) (hp : tablePage s.mem root path = some p)
    (hp' : tablePage s.mem root path' = some p) : path = path' :=
  h.unshared path path' p hlen hlen' hp hp'

/-- The pages of the table are the same. -/
abbrev SamePages (root : ℕ) (s t : Phys) : Prop :=
  ∀ path : List (Fin 512), path.length ≤ 2 → tablePage t.mem root path = tablePage s.mem root path

/-- The entries of the pages of the table are the same. -/
abbrev SameEntries (root : ℕ) (s t : Phys) : Prop :=
  ∀ path p i, path.length ≤ 2 → tablePage s.mem root path = some p → entry t.mem p i = entry s.mem p i

theorem tablePage_congr
    (h : ∀ path p i, path.length < 2 → tablePage s.mem root path = some p →
      entry t.mem p i = entry s.mem p i) (hlen : path.length ≤ 2) :
    tablePage t.mem root path = tablePage s.mem root path := by
  refine node_congr (fun path p i hlt hp => ?_) path hlen
  exact child_congr (h path p i hlt hp)

theorem SameEntries.pages (h : SameEntries root s t) : SamePages root s t :=
  fun _ hlen => tablePage_congr (fun path p i hlt => h path p i hlt.le) hlen

theorem leaf_congr (h : SameEntries root s t) (hlen : path.length = 2) :
    leaf t.mem root path i = leaf s.mem root path i := by
  rw [leaf, leaf, h.pages path hlen.le]
  cases hp : tablePage s.mem root path with
  | none => rw [Option.bind_none, Option.bind_none]
  | some p => exact h path p i hlen.le hp

/-- **The table does not change** while the allocator works on other pages. -/
theorem WellFormed.congr (h : WellFormed kend s l root) (ht : Alloc kend t l') (hent : SameEntries root s t)
    (hl' : ∀ path p, path.length ≤ 2 → tablePage s.mem root path = some p → p ∉ l') :
    WellFormed kend t l' root := by
  have hpage := hent.pages
  refine ⟨ht, fun path path' p hlen hlen' hp hp' => ?_, fun path p hlen hp => ?_⟩
  · have h1 : tablePage s.mem root path = some p := (hpage path hlen).symm.trans hp
    have h2 : tablePage s.mem root path' = some p := (hpage path' hlen').symm.trans hp'
    exact h.path_unique hlen hlen' h1 h2
  · rw [hpage path hlen] at hp
    exact ⟨(h.owned path p hlen hp).1, hl' path p hlen hp⟩

/-- A page that is not part of the table. -/
abbrev OffTable (s : Phys) (root f : ℕ) : Prop :=
  ∀ path : List (Fin 512), path.length ≤ 2 → tablePage s.mem root path ≠ some f

/-- Between `s` and `t` only free pages and pages of the table have changed. The table may have got new pages,
which were free. -/
structure Kept (kend root : ℕ) (s : Phys) (l : List ℕ) (t : Phys) (l' : List ℕ) : Prop where
  wf : WellFormed kend t l' root
  sub : ∀ f ∈ l', f ∈ l
  table : ∀ path p, path.length ≤ 2 → tablePage t.mem root path = some p →
    tablePage s.mem root path = some p ∨ p ∈ l
  data : ∀ f, Frame kend f → f ∉ l → OffTable s root f → ∀ a, InPage f a → t.mem a = s.mem a

theorem Kept.refl (h : WellFormed kend s l root) : Kept kend root s l s l :=
  ⟨h, fun _ hf => hf, fun _ _ _ hp => Or.inl hp, fun _ _ _ _ _ _ => rfl⟩

theorem Kept.not_page (h : Kept kend root s l t l') (hfl : f ∉ l) (hno : OffTable s root f) :
    OffTable t root f := by
  intro path hlen hp
  rcases h.table path f hlen hp with hp | hmem
  · exact hno path hlen hp
  · exact hfl hmem

theorem Kept.trans {u : Phys} {l'' : List ℕ} (h : Kept kend root s l t l') (h' : Kept kend root t l' u l'') :
    Kept kend root s l u l'' where
  wf := h'.wf
  sub f hf := h.sub f (h'.sub f hf)
  table path p hlen hp := by
    rcases h'.table path p hlen hp with hp | hp
    · exact h.table path p hlen hp
    · exact Or.inr (h.sub p hp)
  data f hf hfl hno a ha := by
    rw [h'.data f hf (fun hmem => hfl (h.sub f hmem)) (h.not_page hfl hno) a ha, h.data f hf hfl hno a ha]

/-- `t` is the state after a walk from `s`: the table has the pages that it had, and its leaf entries are the
same. -/
structure Grown (kend root : ℕ) (s : Phys) (l : List ℕ) (t : Phys) (l' : List ℕ) : Prop
    extends Kept kend root s l t l' where
  pages : ∀ path p, path.length ≤ 2 → tablePage s.mem root path = some p →
    tablePage t.mem root path = some p
  leaf : ∀ path i, path.length = 2 → leaf t.mem root path i = leaf s.mem root path i

theorem Grown.refl (h : WellFormed kend s l root) : Grown kend root s l s l :=
  ⟨.refl h, fun _ _ _ hp => hp, fun _ _ _ => rfl⟩

theorem Grown.trans {u : Phys} {l'' : List ℕ} (h : Grown kend root s l t l')
    (h' : Grown kend root t l' u l'') : Grown kend root s l u l'' where
  toKept := h.toKept.trans h'.toKept
  pages path p hlen hp := h'.pages path p hlen (h.pages path p hlen hp)
  leaf path i hlen := (h'.leaf path i hlen).trans (h.leaf path i hlen)

end Frames

/-- The pages that were free, and are not free any more, are pages of the table. -/
def Used (root : ℕ) (l : List ℕ) (t : Phys) (l' : List ℕ) : Prop :=
  ∀ f ∈ l, f ∈ l' ∨ ∃ path, path.length ≤ 2 ∧ tablePage t.mem root path = some f

theorem Used.refl (root : ℕ) (l : List ℕ) (t : Phys) : Used root l t l := fun _ hf => Or.inl hf

theorem Used.trans {kend root : ℕ} {s t : Phys} {l l' l'' : List ℕ} (h : Used root l s l')
    (hg : Grown kend root s l' t l'') (h' : Used root l' t l'') : Used root l t l'' := by
  intro f hf
  rcases h f hf with hf | ⟨path, hlen, hp⟩
  · exact h' f hf
  · exact Or.inr ⟨path, hlen, hg.pages path f hlen hp⟩

/-! ## Walks -/

section Walks

variable {kend root va level : ℕ} {s t : Phys} {l l' : List ℕ} {path : List (Fin 512)} {p f : ℕ}
  {i : Fin 512}

theorem WellFormed.sameEntries (h : WellFormed kend s l root)
    (hmem : ∀ a, first kend ≤ a → t.mem a = s.mem a) : SameEntries root s t := by
  intro path p i hlen hp
  apply entry_of_same
  intro a ha
  exact hmem a ((h.owned path p hlen hp).1.first_le.trans ha.1)

theorem WellFormed.grown_nil (h : WellFormed kend s [] root) (ht : Alloc kend t [])
    (hmem : ∀ a, first kend ≤ a → t.mem a = s.mem a) : Grown kend root s [] t [] := by
  have hent := h.sameEntries hmem
  have hpage := hent.pages
  refine ⟨⟨h.congr ht hent fun _ _ _ _ => List.not_mem_nil, fun f hf => hf, fun path p hlen hp => Or.inl ?_,
    fun f hf _ _ a ha => ?_⟩, fun path p hlen hp => ?_, fun path i hlen => leaf_congr hent hlen⟩
  · rw [← hpage path hlen, hp]
  · exact hmem a (hf.first_le.trans ha.1)
  · rw [hpage path hlen, hp]

/-- The state after a new page `f` has been linked into the table, at entry `i` of page `p`. -/
def Phys.link (s : Phys) (p : ℕ) (i : Fin 512) (f : ℕ) : Phys :=
  { s with mem := store (fill s.mem f PGSIZE 0) (pteAddr p i) 8 (pa2pte f ||| PTE_V) }

theorem Frame.link_entry (hf : Frame kend f) :
    pa2pte f ||| PTE_V < 256 ^ 8 ∧ (pa2pte f ||| PTE_V) % 2 ≠ 0 ∧ pte2pa (pa2pte f ||| PTE_V) = f := by
  have hlt : f < 2 ^ 64 := by
    have hs := hf.le_stop
    rw [PHYSTOP_eq] at hs
    omega
  rw [pa2pte_or (v := PTE_V) (by decide)]
  refine ⟨pte_lt hlt (by decide), ?_, pte2pa_eq hlt hf.aligned (by decide)⟩
  rw [pte_valid]
  decide

/-- `kalloc` has returned the page `f` for the entry `i` of page `p`, at `path`, in the state `u`. -/
structure Linking (kend root : ℕ) (s : Phys) (l : List ℕ) (u : Phys) (path : List (Fin 512)) (p : ℕ)
    (i : Fin 512) (f : ℕ) : Prop where
  wf : WellFormed kend s (f :: l) root
  alloc : Alloc kend u l
  same : SameBut kend f s u
  len : path.length < 2
  page : tablePage s.mem root path = some p
  none : entry s.mem p i = none

section Linking

variable {u : Phys} (h : Linking kend root s l u path p i f)

include h

theorem Linking.frame : Frame kend f := h.wf.alloc.frames f List.mem_cons_self

theorem Linking.page_frame : Frame kend p := (h.wf.owned path p h.len.le h.page).1

theorem Linking.page_not_mem : p ∉ f :: l := (h.wf.owned path p h.len.le h.page).2

theorem Linking.bytes {g a : ℕ} (hg : Frame kend g) (hgf : g ≠ f) (hgp : g ≠ p) (ha : InPage g a) :
    (u.link p i f).mem a = s.mem a := by
  have hin := pteAddr_inPage p i
  have hna := hg.disjoint h.frame hgf ha
  have hnp := hg.disjoint h.page_frame hgp ha
  have hn8 : ¬ (pteAddr p i ≤ a ∧ a < pteAddr p i + 8) := by
    simp only [InPage] at hnp
    omega
  change store _ _ _ _ a = _
  rw [store_of_not_mem hn8, fill_of_not_mem hna]
  exact h.same a (hg.first_le.trans ha.1) hna

theorem Linking.entry_old {path' : List (Fin 512)} {r : ℕ} {b : Fin 512} (hlen : path'.length ≤ 2)
    (hr : tablePage s.mem root path' = some r) (hne : ¬ (path' = path ∧ b = i)) :
    entry (u.link p i f).mem r b = entry s.mem r b := by
  obtain ⟨hrf, hrl⟩ := h.wf.owned path' r hlen hr
  have hrne : r ≠ f := fun he => hrl (he ▸ List.mem_cons_self)
  change entry (store _ _ _ _) r b = _
  rw [entry_store h.page_frame hrf h.frame.link_entry.1, if_neg]
  · apply entry_of_same
    intro a ha
    have hna := hrf.disjoint h.frame hrne ha
    rw [fill_of_not_mem hna]
    exact h.same a (hrf.first_le.trans ha.1) hna
  · rintro ⟨rfl, rfl⟩
    exact hne ⟨h.wf.path_unique hlen h.len.le hr h.page, rfl⟩

theorem Linking.entry_new (b : Fin 512) : entry (u.link p i f).mem f b = Option.none := by
  have hne : ¬ (f = p ∧ b = i) := fun he => h.page_not_mem (he.1 ▸ List.mem_cons_self)
  change entry (store _ _ _ _) f b = Option.none
  rw [entry_store h.page_frame h.frame h.frame.link_entry.1, if_neg hne, entry_fill_zero]

theorem Linking.child_eq : child (u.link p i f).mem p i = some f := by
  obtain ⟨hv, hodd, hback⟩ := h.frame.link_entry
  rw [child]
  change (entry (store _ _ _ _) p i).map _ = _
  rw [entry_store h.page_frame h.page_frame hv, if_pos ⟨rfl, rfl⟩, if_pos hodd, Option.map_some, hback]

theorem Linking.tablePage_eq (path' : List (Fin 512)) (hlen : path'.length ≤ 2) :
    tablePage (u.link p i f).mem root path' =
      if path' = i :: path then some f else tablePage s.mem root path' := by
  refine node_link h.page (by rw [child, h.none, Option.map_none]) h.child_eq (fun b => ?_)
    (fun path'' r b hlt hr hne => ?_) path' hlen
  · rw [child, h.entry_new, Option.map_none]
  · exact child_congr (h.entry_old hlt.le hr hne)

theorem Linking.tablePage_none : tablePage s.mem root (i :: path) = Option.none := by
  rw [tablePage, node_cons h.page, child, h.none, Option.map_none]

theorem Linking.alloc_link : Alloc kend (u.link p i f) l := by
  have hin := pteAddr_inPage p i
  have hpfirst := h.page_frame.first_le
  have hffirst := h.frame.first_le
  refine h.alloc.congr (fun a hb hlt => ?_) (fun g hg a ha => ?_)
  · rw [store_of_not_mem (by omega), fill_of_not_mem (by omega)]
  · have hgf := h.alloc.frames g hg
    have hgne : g ≠ f := fun he => (List.nodup_cons.mp h.wf.alloc.nodup).1 (he ▸ hg)
    have hgp : g ≠ p := fun he => h.page_not_mem (List.mem_cons_of_mem _ (he ▸ hg))
    rw [h.same a (hgf.first_le.trans ha.1) (hgf.disjoint h.frame hgne ha)]
    exact h.bytes hgf hgne hgp ha

theorem Linking.wellFormed : WellFormed kend (u.link p i f) l root := by
  refine ⟨h.alloc_link, h.wf.unshared.link h.tablePage_eq fun path' hlen hr => ?_,
    fun path' r hlen hr => ?_⟩
  · exact (h.wf.owned path' f hlen hr).2 List.mem_cons_self
  · rw [h.tablePage_eq path' hlen] at hr
    split_ifs at hr
    · cases hr
      exact ⟨h.frame, (List.nodup_cons.mp h.wf.alloc.nodup).1⟩
    · obtain ⟨hrf, hrl⟩ := h.wf.owned path' r hlen hr
      exact ⟨hrf, fun hmem => hrl (List.mem_cons_of_mem _ hmem)⟩

theorem Linking.leaf_eq {path' : List (Fin 512)} (hlen : path'.length = 2) (b : Fin 512) :
    leaf (u.link p i f).mem root path' b = leaf s.mem root path' b := by
  rw [leaf, leaf, h.tablePage_eq path' hlen.le]
  split_ifs with he
  · rw [he, h.tablePage_none, Option.bind_some, Option.bind_none, h.entry_new]
  · cases hr : tablePage s.mem root path' with
    | none => rw [Option.bind_none, Option.bind_none]
    | some r =>
      rw [Option.bind_some, Option.bind_some]
      refine h.entry_old hlen.le hr ?_
      rintro ⟨rfl, -⟩
      exact absurd h.len (by omega)

/-- **A new page is linked into the table.** -/
theorem Linking.grown : Grown kend root s (f :: l) (u.link p i f) l := by
  refine ⟨⟨h.wellFormed, fun g hg => List.mem_cons_of_mem _ hg, fun path' r hlen hr => ?_,
    fun g hg hgl hno a ha => ?_⟩, fun path' r hlen hr => ?_, fun path' b hlen => h.leaf_eq hlen b⟩
  · rw [h.tablePage_eq path' hlen] at hr
    split_ifs at hr
    · cases hr
      exact Or.inr List.mem_cons_self
    · exact Or.inl hr
  · refine h.bytes hg (fun he => hgl (he ▸ List.mem_cons_self)) (fun he => ?_) ha
    exact hno path h.len.le (he ▸ h.page)
  · rw [h.tablePage_eq path' hlen, if_neg, hr]
    rintro rfl
    rw [h.tablePage_none] at hr
    cases hr

end Linking

/-- How many pages the table needs for a path. -/
def need (m : Mem) (root : ℕ) (path : List (Fin 512)) : ℕ :=
  match tablePage m root path with
  | none => 1
  | some _ => 0

theorem need_le_one (m : Mem) (root : ℕ) (path : List (Fin 512)) : need m root path ≤ 1 := by
  unfold need
  split <;> omega

theorem need_of_none {m : Mem} (h : tablePage m root path = none) : need m root path = 1 := by
  simp [need, h]

theorem Grown.eq_nil (h : Grown kend root s l t l') (hl : l = []) : l' = [] := by
  subst hl
  exact List.eq_nil_iff_forall_not_mem.mpr fun f hf => List.not_mem_nil (h.sub f hf)

/-- A round of the loop of `walk`: it makes the page at the next path if there is none, and fails if there
is no free page for it. -/
theorem WellFormed.walkLevel (h : WellFormed kend s l root) (hk : kend < PHYSTOP) (hlen : path.length < 2)
    (hp : tablePage s.mem root path = some p) (va level : ℕ) :
    ∃ r t l', walkLevel true va level p s = (r, t) ∧ Grown kend root s l t l' ∧
      tablePage t.mem root (px level va :: path) = r ∧
      (∀ path', path'.length ≤ 2 → path' ≠ px level va :: path →
        tablePage t.mem root path' = tablePage s.mem root path') ∧
      (r = none ↔ l.length < need s.mem root (px level va :: path)) ∧
      (r ≠ none → l'.length + need s.mem root (px level va :: path) = l.length) ∧ Used root l t l' := by
  have hchild : tablePage s.mem root (px level va :: path) = child s.mem p (px level va) := node_cons hp
  unfold Mm.walkLevel
  by_cases hv : load s.mem (pteAddr p (px level va)) 8 &&& PTE_V ≠ 0
  · have hsome : tablePage s.mem root (px level va :: path) =
        some (pte2pa (load s.mem (pteAddr p (px level va)) 8)) := by
      rw [hchild, child, entry, if_pos hv, Option.map_some]
    refine ⟨_, s, l, if_pos hv, .refl h, hsome, fun _ _ _ => rfl, ?_, ?_, .refl root l s⟩
    · simp [need, hsome]
    · simp [need, hsome]
  · have hnone : entry s.mem p (px level va) = none := if_neg hv
    have hpage : tablePage s.mem root (px level va :: path) = none := by
      rw [hchild, child, hnone, Option.map_none]
    simp only [if_neg hv]
    cases l with
    | nil =>
      obtain ⟨u, hu, hau, hmem⟩ := h.alloc.kalloc_nil hk
      have hgrown := h.grown_nil hau hmem
      have hsame := (h.sameEntries hmem).pages
      refine ⟨none, u, [], by simp [hu], hgrown, ?_, fun path' hlen' _ => hsame path' hlen', ?_, ?_,
        .refl root [] u⟩
      · rw [hsame _ (by rw [List.length_cons]; omega), hpage]
      · simp [need, hpage]
      · simp
    | cons f l =>
      obtain ⟨u, hu, hau, hsame⟩ := h.alloc.kalloc_cons
      have hlink : Linking kend root s l u path p (px level va) f := ⟨h, hau, hsame, hlen, hp, hnone⟩
      have hf := hlink.frame.ne_zero
      have hnew : tablePage (u.link p (px level va) f).mem root (px level va :: path) = some f := by
        rw [hlink.tablePage_eq _ (by rw [List.length_cons]; omega), if_pos rfl]
      refine ⟨some f, u.link p (px level va) f, l, by simp [hu, hf, Phys.link], hlink.grown, hnew,
        fun path' hlen' hne => ?_, ?_, ?_, fun g hg => ?_⟩
      · rw [hlink.tablePage_eq _ hlen', if_neg hne]
      · simp [need, hpage]
      · simp [need, hpage]
      · rcases List.mem_cons.mp hg with rfl | hg
        · exact Or.inr ⟨_, by rw [List.length_cons]; omega, hnew⟩
        · exact Or.inl hg

/-- How many pages the table needs for an address. -/
def missing (m : Mem) (root va : ℕ) : ℕ := need m root [px 2 va] + need m root (pathOf va)

theorem missing_congr (va : ℕ) {m m' : Mem}
    (h : ∀ path, path.length ≤ 2 → tablePage m' root path = tablePage m root path) :
    missing m' root va = missing m root va := by
  rw [missing, missing, need, need, need, need, h _ (by simp), h _ (by simp [pathOf])]

/-- **`walk` only makes pages**, as many as the table needs for the address, and returns the address of an
entry of the lowest level; it fails if there are not so many free pages, and has then used all of them. -/
theorem WellFormed.walk (h : WellFormed kend s l root) (hk : kend < PHYSTOP) (hva : va < MAXVA) :
    ∃ r t l', walk true root va s = .ok (r, t) ∧ Grown kend root s l t l' ∧
      (∀ pte, r = some pte →
        ∃ p, tablePage t.mem root (pathOf va) = some p ∧ pte = pteAddr p (px 0 va)) ∧
      (r = none ↔ l.length < missing s.mem root va) ∧
      (r = none → l' = [] ∧ 0 < missing t.mem root va) ∧ Used root l t l' := by
  have hroot : tablePage s.mem root [] = some root := rfl
  obtain ⟨r1, u, l1, h1, hg1, hp1, hother, hnone1, hlen1, hused1⟩ := h.walkLevel hk (by simp) hroot va 2
  -- the second page is missing if the first one is
  have hneed : need s.mem root [px 2 va] ≤ need s.mem root (pathOf va) := by
    cases hpage : tablePage s.mem root [px 2 va] with
    | some q => simp [need, hpage]
    | none =>
      have hlow : tablePage s.mem root (pathOf va) = none := by
        rw [pathOf, tablePage, node]
        change (tablePage s.mem root [px 2 va]).bind _ = _
        rw [hpage, Option.bind_none]
      simp [need, hpage, hlow]
  have hsame : need u.mem root (pathOf va) = need s.mem root (pathOf va) := by
    rw [need, need, hother (pathOf va) (by simp [pathOf]) (by simp [pathOf])]
  unfold Mm.walk missing
  rw [if_neg (by omega), h1]
  cases r1 with
  | none =>
    have hlt := hnone1.mp rfl
    have hle := need_le_one s.mem root [px 2 va]
    refine ⟨none, u, l1, rfl, hg1, (fun pte hpte => by cases hpte), ?_, fun _ => ⟨?_, by omega⟩, hused1⟩
    · simp only [true_iff]
      omega
    · exact hg1.eq_nil (List.length_eq_zero_iff.mp (by omega))
  | some p1 =>
    have hl1 := hlen1 (by simp)
    obtain ⟨r2, t, l2, h2, hg2, hp2, -, hnone2, -, hused2⟩ := hg1.wf.walkLevel hk (by simp) hp1 va 1
    change r2 = none ↔ l1.length < need u.mem root (pathOf va) at hnone2
    dsimp only
    rw [h2]
    cases r2 with
    | none =>
      have hlt := hnone2.mp rfl
      have hle := need_le_one u.mem root (pathOf va)
      have hone : need t.mem root (pathOf va) = 1 := need_of_none hp2
      refine ⟨none, t, l2, rfl, hg1.trans hg2, (fun pte hpte => by cases hpte), ?_,
        fun _ => ⟨?_, by omega⟩, hused1.trans hg2 hused2⟩
      · simp only [true_iff]
        omega
      · exact hg2.eq_nil (List.length_eq_zero_iff.mp (by omega))
    | some p0 =>
      have hge : ¬ l1.length < need u.mem root (pathOf va) := fun hlt => by
        cases hnone2.mpr hlt
      refine ⟨_, t, l2, rfl, hg1.trans hg2, fun pte hpte => ⟨p0, hp2, ?_⟩, ?_,
        (fun hnone => by cases hnone), hused1.trans hg2 hused2⟩
      · cases hpte
        rfl
      · simp only [reduceCtorEq, false_iff]
        omega

end Walks

/-! ## Leaf entries -/

section Leaves

variable {kend root : ℕ} {s : Phys} {l : List ℕ} {path : List (Fin 512)} {p v : ℕ} {i : Fin 512}

/-- The state after a store to an entry. -/
def Phys.setPte (s : Phys) (p : ℕ) (i : Fin 512) (v : ℕ) : Phys :=
  { s with mem := store s.mem (pteAddr p i) 8 v }

theorem setPte_of_not_inPage {a : ℕ} (ha : ¬ InPage p a) : (s.setPte p i v).mem a = s.mem a := by
  have hin := pteAddr_inPage p i
  apply store_of_not_mem
  simp only [InPage] at ha
  omega

theorem WellFormed.tablePage_setPte (h : WellFormed kend s l root) (hlen : path.length = 2)
    (hp : tablePage s.mem root path = some p) (hv : v < 256 ^ 8) {path' : List (Fin 512)}
    (hlen' : path'.length ≤ 2) :
    tablePage (s.setPte p i v).mem root path' = tablePage s.mem root path' := by
  refine tablePage_congr (fun path'' r b hlt hr => ?_) hlen'
  have hpf := (h.owned path p hlen.le hp).1
  have hrf := (h.owned path'' r hlt.le hr).1
  change entry (store _ _ _ _) r b = _
  rw [entry_store hpf hrf hv, if_neg]
  rintro ⟨rfl, -⟩
  have heq := h.path_unique hlt.le hlen.le hr hp
  rw [heq, hlen] at hlt
  omega

theorem WellFormed.alloc_setPte (h : WellFormed kend s l root) (hlen : path.length = 2)
    (hp : tablePage s.mem root path = some p) : Alloc kend (s.setPte p i v) l := by
  obtain ⟨hpf, hpl⟩ := h.owned path p hlen.le hp
  have hfirst := hpf.first_le
  refine h.alloc.congr (fun a hb hlt => ?_) (fun g hg a ha => ?_)
  · apply setPte_of_not_inPage
    simp only [InPage]
    omega
  · have hgp : g ≠ p := fun he => hpl (he ▸ hg)
    exact setPte_of_not_inPage ((h.alloc.frames g hg).disjoint hpf hgp ha)

theorem WellFormed.setPte (h : WellFormed kend s l root) (hlen : path.length = 2)
    (hp : tablePage s.mem root path = some p) (hv : v < 256 ^ 8) :
    WellFormed kend (s.setPte p i v) l root := by
  have hpage : ∀ path' : List (Fin 512), path'.length ≤ 2 →
      tablePage (s.setPte p i v).mem root path' = tablePage s.mem root path' :=
    fun path' hlen' => h.tablePage_setPte hlen hp hv hlen'
  refine ⟨h.alloc_setPte hlen hp, fun path' path'' r hlen' hlen'' hr hr' => ?_, fun path' r hlen' hr => ?_⟩
  · have h1 : tablePage s.mem root path' = some r := (hpage path' hlen').symm.trans hr
    have h2 : tablePage s.mem root path'' = some r := (hpage path'' hlen'').symm.trans hr'
    exact h.path_unique hlen' hlen'' h1 h2
  · rw [hpage path' hlen'] at hr
    exact h.owned path' r hlen' hr

/-- **A store to a leaf entry changes that entry only.** -/
theorem WellFormed.leaf_setPte (h : WellFormed kend s l root) (hlen : path.length = 2)
    (hp : tablePage s.mem root path = some p) (hv : v < 256 ^ 8) {path' : List (Fin 512)}
    (hlen' : path'.length = 2) (b : Fin 512) :
    leaf (s.setPte p i v).mem root path' b =
      if path' = path ∧ b = i then (if v % 2 ≠ 0 then some v else none)
      else leaf s.mem root path' b := by
  have hpf := (h.owned path p hlen.le hp).1
  rw [leaf, h.tablePage_setPte hlen hp hv hlen'.le]
  by_cases heq : path' = path
  · subst heq
    rw [hp, Option.bind_some, leaf, hp, Option.bind_some]
    change entry (store _ _ _ _) p b = _
    rw [entry_store hpf hpf hv]
    simp
  · rw [if_neg fun he => heq he.1, leaf]
    cases hr : tablePage s.mem root path' with
    | none => rw [Option.bind_none, Option.bind_none]
    | some r =>
      have hrf := (h.owned path' r hlen'.le hr).1
      rw [Option.bind_some, Option.bind_some]
      change entry (store _ _ _ _) r b = _
      rw [entry_store hpf hrf hv, if_neg]
      rintro ⟨rfl, -⟩
      exact heq (h.path_unique hlen'.le hlen.le hr hp)

theorem WellFormed.setPte_data (h : WellFormed kend s l root) (hlen : path.length ≤ 2)
    (hp : tablePage s.mem root path = some p) {g x : ℕ} (hg : Frame kend g)
    (hno : OffTable s root g) (hx : InPage g x) :
    (s.setPte p i v).mem x = s.mem x := by
  have hne : g ≠ p := fun he => hno path hlen (he ▸ hp)
  exact setPte_of_not_inPage (hg.disjoint (h.owned path p hlen hp).1 hne hx)

theorem Kept.setPte {s₀ : Phys} {l₀ : List ℕ} (h : Kept kend root s₀ l₀ s l) (hlen : path.length = 2)
    (hp : tablePage s.mem root path = some p) (hv : v < 256 ^ 8) : Kept kend root s₀ l₀ (s.setPte p i v) l := by
  refine ⟨h.wf.setPte hlen hp hv, h.sub, fun path' q hlen' hq => ?_, fun f hf hfl hno a ha => ?_⟩
  · rw [h.wf.tablePage_setPte hlen hp hv hlen'] at hq
    exact h.table path' q hlen' hq
  · rw [h.wf.setPte_data hlen.le hp hf (h.not_page hfl hno) ha, h.data f hf hfl hno a ha]

end Leaves

/-! ## A new table -/

section Create

variable {kend root : ℕ} {s : Phys} {l : List ℕ}

theorem tablePage_of_empty {m : Mem} (h : ∀ i, entry m root i = none) {path : List (Fin 512)}
    (hne : path ≠ []) : tablePage m root path = none := by
  induction path with
  | nil => exact absurd rfl hne
  | cons i path ih =>
    rw [tablePage, node]
    by_cases hnil : path = []
    · subst hnil
      rw [node, Option.bind_some, child, h, Option.map_none]
    · have hnone : node (child m) root path = none := ih hnil
      rw [hnone, Option.bind_none]

/-- **`uVmCreate` makes an empty table.** -/
theorem Alloc.uVmCreate (h : Alloc kend s (root :: l)) :
    ∃ t, uVmCreate s = (root, t) ∧ WellFormed kend t l root ∧
      ∀ path, path ≠ [] → tablePage t.mem root path = none := by
  have hf := h.frames root List.mem_cons_self
  have hnd := List.nodup_cons.mp h.nodup
  have hfirst := hf.first_le
  obtain ⟨u, hu, hau, -⟩ := h.kalloc_cons
  have hempty : ∀ path : List (Fin 512), path ≠ [] →
      tablePage (fill u.mem root PGSIZE 0) root path = none := by
    intro path hne
    exact tablePage_of_empty (entry_fill_zero root) hne
  have hpage : ∀ (path : List (Fin 512)) p, tablePage (fill u.mem root PGSIZE 0) root path = some p →
      path = [] ∧ p = root := by
    intro path p hp
    by_cases hnil : path = []
    · subst hnil
      exact ⟨rfl, (Option.some.inj hp).symm⟩
    · rw [hempty path hnil] at hp
      cases hp
  refine ⟨{ u with mem := fill u.mem root PGSIZE 0 }, ?_, ⟨?_, fun path path' p _ _ hp hp' => ?_,
    fun path p _ hp => ?_⟩, hempty⟩
  · simp [Mm.uVmCreate, hu, hf.ne_zero]
  · refine hau.congr (fun a hb hlt => fill_of_not_mem (by omega)) (fun g hg a ha => ?_)
    have hne : g ≠ root := fun he => hnd.1 (he ▸ hg)
    exact fill_of_not_mem ((hau.frames g hg).disjoint hf hne ha)
  · rw [(hpage path p hp).1, (hpage path' p hp').1]
  · obtain ⟨-, rfl⟩ := hpage path p hp
    exact ⟨hf, hnd.1⟩

theorem exists_empty_table {f : ℕ} (hk : kend < PHYSTOP) (hf : Frame kend f) :
    ∃ s l root, WellFormed kend s l root ∧ (∀ f, Frame kend f → f ∈ root :: l) ∧
      ∀ path, path ≠ [] → tablePage s.mem root path = none := by
  obtain ⟨s, l, -, halloc, hall⟩ := kinit_alloc hk fun _ => 0
  cases l with
  | nil => exact absurd (hall f hf) List.not_mem_nil
  | cons root l =>
    obtain ⟨t, -, hwf, hempty⟩ := halloc.uVmCreate
    exact ⟨t, l, root, hwf, hall, hempty⟩

end Create

end RiscvOs.Mm
