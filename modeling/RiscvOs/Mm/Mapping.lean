import RiscvOs.Mm.PageTable

set_option autoImplicit false

/-!
# Page tables are maps

What `mapPages` and `uVmUnmap` do to a well-formed table, seen as the map from addresses to physical
addresses and flags.

## Main results

* `WellFormed.mapLoop`, `WellFormed.unmapLoop` — the loops.
* `page_tables_are_maps` — mapping and unmapping.
-/

namespace RiscvOs.Mm

open Memory Radix

section Map

variable {kend root : ℕ} {s t : Phys} {l l' : List ℕ} {a pa perm : ℕ}

theorem Grown.translate_eq (h : Grown kend root s l t l') {va : ℕ} (hva : va < MAXVA) :
    translate t root va = translate s root va := by
  rw [Mm.translate_eq hva, Mm.translate_eq hva, h.leaf (pathOf va) (px 0 va) rfl]

theorem translate_eq_none {va : ℕ} (hva : va < MAXVA) :
    translate s root va = none ↔ leaf s.mem root (pathOf va) (px 0 va) = none := by
  rw [translate_eq hva, Option.map_eq_none_iff]

theorem WellFormed.translate_setPte (h : WellFormed kend s l root) {p v : ℕ} (ha : a < MAXVA)
    (hp : tablePage s.mem root (pathOf a) = some p) (hv : v < 256 ^ 8) {va : ℕ} (hva : va < MAXVA) :
    translate (s.setPte p (px 0 a) v) root va =
      if va / PGSIZE = a / PGSIZE then
        (if v % 2 ≠ 0 then some (pte2pa v + va % PGSIZE, pteFlags v) else none)
      else translate s root va := by
  rw [translate_eq hva, h.leaf_setPte rfl hp hv rfl, translate_eq hva]
  by_cases hpage : va / PGSIZE = a / PGSIZE
  · rw [if_pos ((same_indices_iff hva ha).mpr hpage), if_pos hpage]
    split_ifs <;> rfl
  · rw [if_neg fun he => hpage ((same_indices_iff hva ha).mp he), if_neg hpage]

theorem WellFormed.walk_unmapped (h : WellFormed kend s l root) (hk : kend < PHYSTOP) (ha : a < MAXVA)
    (hun : translate s root a = none) :
    ∃ t l', Grown kend root s l t l' ∧ Used root l t l' ∧
      ((l.length < missing s.mem root a ∧ Mm.walk true root a s = .ok (none, t) ∧ l' = [] ∧
          0 < missing t.mem root a) ∨
        ∃ p, ¬ l.length < missing s.mem root a ∧ Mm.walk true root a s = .ok (some (pteAddr p (px 0 a)), t) ∧
          tablePage t.mem root (pathOf a) = some p ∧
          ¬ load t.mem (pteAddr p (px 0 a)) 8 &&& PTE_V ≠ 0) := by
  obtain ⟨r, t, l', hw, hg, hpte, hfail, hall, hused⟩ := h.walk hk ha
  refine ⟨t, l', hg, hused, ?_⟩
  cases r with
  | none => exact Or.inl ⟨hfail.mp rfl, hw, hall rfl⟩
  | some pte =>
    obtain ⟨p, hp, rfl⟩ := hpte pte rfl
    refine Or.inr ⟨p, (fun hlt => by cases hfail.mpr hlt), hw, hp, fun hvalid => ?_⟩
    rw [← hg.translate_eq ha, translate_eq_none ha, leaf, hp, Option.bind_some, entry, if_pos hvalid] at hun
    cases hun

variable (pa) in
/-- **`mapPages` for one page.** -/
theorem WellFormed.mapOne (h : WellFormed kend s l root) (hk : kend < PHYSTOP) (ha : a < MAXVA)
    (hun : translate s root a = none) (hperm : perm < 1024) (last fuel : ℕ) :
    ∃ t l', Grown kend root s l t l' ∧ Used root l t l' ∧
      ((l.length < missing s.mem root a ∧ Mm.mapLoop root last perm (fuel + 1) a pa s = .ok (-1, t) ∧
          l' = [] ∧ 0 < missing t.mem root a) ∨
        ∃ p, ¬ l.length < missing s.mem root a ∧ tablePage t.mem root (pathOf a) = some p ∧
          Mm.mapLoop root last perm (fuel + 1) a pa s =
            if a = last then .ok (0, t.setPte p (px 0 a) (pa / 4096 * 1024 + (perm ||| PTE_V)))
            else Mm.mapLoop root last perm fuel ((a + PGSIZE) % 2 ^ 64) ((pa + PGSIZE) % 2 ^ 64)
              (t.setPte p (px 0 a) (pa / 4096 * 1024 + (perm ||| PTE_V)))) := by
  obtain ⟨t, l', hg, hused, ⟨hlt, hw, hall⟩ | ⟨p, hge, hw, hp, hinvalid⟩⟩ := h.walk_unmapped hk ha hun
  · refine ⟨t, l', hg, hused, Or.inl ⟨hlt, ?_, hall⟩⟩
    rw [Mm.mapLoop, hw]
    rfl
  · refine ⟨t, l', hg, hused, Or.inr ⟨p, hge, hp, ?_⟩⟩
    rw [Mm.mapLoop, hw]
    dsimp only [bind, Except.bind]
    rw [if_neg hinvalid, pte_eq hperm]
    rfl

/-- The result of `mapPages` for `size` bytes. -/
def Mapped (root a size pa perm : ℕ) (s t : Phys) : Prop :=
  ∀ va, va < MAXVA → translate t root va =
    if a ≤ va ∧ va < a + size then some ((pa + (va - a)) % 2 ^ 64, perm ||| PTE_V)
    else translate s root va

theorem WellFormed.mapped_setPte (h : WellFormed kend s l root) {p : ℕ} (ha : a < MAXVA)
    (hal : a % PGSIZE = 0) (hp : tablePage s.mem root (pathOf a) = some p) (hpa : pa < 2 ^ 64)
    (hpal : pa % PGSIZE = 0) (hperm : perm < 1024) :
    Mapped root a PGSIZE pa perm s (s.setPte p (px 0 a) (pa / 4096 * 1024 + (perm ||| PTE_V))) := by
  intro va hva
  have hlt := perm_or_lt hperm
  rw [h.translate_setPte ha hp (pte_lt hpa hlt) hva]
  have hodd : (pa / 4096 * 1024 + (perm ||| PTE_V)) % 2 ≠ 0 := by
    rw [pte_valid, or_PTE_V_mod]
    decide
  rw [if_pos hodd, pte2pa_eq hpa hpal hlt, pteFlags_eq hlt]
  have hiff : va / PGSIZE = a / PGSIZE ↔ a ≤ va ∧ va < a + PGSIZE := by
    simp only [PGSIZE] at *
    omega
  by_cases hin : a ≤ va ∧ va < a + PGSIZE
  · rw [if_pos (hiff.mpr hin), if_pos hin]
    have hsum : (pa + (va - a)) % 2 ^ 64 = pa + va % PGSIZE := by
      simp only [PGSIZE] at *
      omega
    rw [hsum]
  · rw [if_neg (fun he => hin (hiff.mp he)), if_neg hin]

/-- **The loop of `mapPages`**, for `n + 1` pages. -/
theorem WellFormed.mapLoop (h : WellFormed kend s l root) (hk : kend < PHYSTOP) (n : ℕ)
    (hal : a % PGSIZE = 0) (hend : a + (n + 1) * PGSIZE ≤ MAXVA)
    (hun : ∀ va, a ≤ va → va < a + (n + 1) * PGSIZE → translate s root va = none) (hpa : pa < 2 ^ 64)
    (hpal : pa % PGSIZE = 0) (hperm : perm < 1024) :
    ∃ r t l', Mm.mapLoop root (a + n * PGSIZE) perm (n + 1) a pa s = .ok (r, t) ∧ WellFormed kend t l' root ∧
      ((r = 0 ∧ Mapped root a ((n + 1) * PGSIZE) pa perm s t) ∨
        (r = -1 ∧ (n = 0 → ∀ va, va < MAXVA → translate t root va = translate s root va))) := by
  induction n generalizing s l a pa with
  | zero =>
    have ha : a < MAXVA := by
      simp only [PGSIZE] at hend
      omega
    have hua := hun a (le_refl a) (by simp only [PGSIZE]; omega)
    obtain ⟨t, l', hg, -, ⟨-, hmap, -⟩ | ⟨p, -, hp, hmap⟩⟩ := h.mapOne pa hk ha hua hperm (a + 0 * PGSIZE) 0
    · exact ⟨-1, t, l', hmap, hg.wf, Or.inr ⟨rfl, fun _ va hva => hg.translate_eq hva⟩⟩
    · rw [if_pos (by omega)] at hmap
      refine ⟨0, _, l', hmap, hg.wf.setPte rfl hp (pte_lt hpa (perm_or_lt hperm)), Or.inl ⟨rfl, ?_⟩⟩
      intro va hva
      rw [hg.wf.mapped_setPte ha hal hp hpa hpal hperm va hva, hg.translate_eq hva, Nat.zero_add,
        Nat.one_mul]
  | succ n ih =>
    have ha : a < MAXVA := by
      simp only [PGSIZE] at hend
      omega
    have hua := hun a (le_refl a) (by simp only [PGSIZE]; omega)
    obtain ⟨t, l', hg, -, ⟨-, hmap, -⟩ | ⟨p, -, hp, hmap⟩⟩ :=
      h.mapOne pa hk ha hua hperm (a + (n + 1) * PGSIZE) (n + 1)
    · exact ⟨-1, t, l', hmap, hg.wf, Or.inr ⟨rfl, fun hn => by omega⟩⟩
    · have hne : ¬ a = a + (n + 1) * PGSIZE := by
        simp only [PGSIZE]
        omega
      have hwrap : (a + PGSIZE) % 2 ^ 64 = a + PGSIZE := by
        rw [MAXVA_eq] at hend
        simp only [PGSIZE] at *
        omega
      rw [if_neg hne, hwrap] at hmap
      have hfirst := hg.wf.mapped_setPte ha hal hp hpa hpal hperm
      have hwf := hg.wf.setPte (i := px 0 a) rfl hp (pte_lt hpa (perm_or_lt hperm))
      have hlast : a + (n + 1) * PGSIZE = a + PGSIZE + n * PGSIZE := by ring
      have hsize : (n + 1 + 1) * PGSIZE = PGSIZE + (n + 1) * PGSIZE := by ring
      obtain ⟨r, u, l'', hr, hwu, hres⟩ := ih (a := a + PGSIZE) hwf
        (by rw [Nat.add_mod_right, hal]) (by omega)
        (fun va hva hva' => by
          rw [hfirst va (by omega), if_neg (by omega), hg.translate_eq (by omega)]
          exact hun va (by omega) (by omega))
        (show (pa + PGSIZE) % 2 ^ 64 < 2 ^ 64 from Nat.mod_lt _ (by decide)) (by simp only [PGSIZE] at *; omega)
      rw [← hlast] at hr
      refine ⟨r, u, l'', hmap.trans hr, hwu, ?_⟩
      rcases hres with ⟨rfl, hmapped⟩ | ⟨rfl, -⟩
      · refine Or.inl ⟨rfl, fun va hva => ?_⟩
        rw [hmapped va hva, hfirst va hva, hg.translate_eq hva]
        by_cases h1 : a + PGSIZE ≤ va ∧ va < a + PGSIZE + (n + 1) * PGSIZE
        · rw [if_pos h1, if_pos (by omega)]
          have hsum : ((pa + PGSIZE) % 2 ^ 64 + (va - (a + PGSIZE))) % 2 ^ 64 = (pa + (va - a)) % 2 ^ 64 := by
            omega
          rw [hsum]
        · rw [if_neg h1]
          by_cases h2 : a ≤ va ∧ va < a + PGSIZE
          · rw [if_pos h2, if_pos (by omega)]
          · rw [if_neg h2, if_neg (by omega)]
      · exact Or.inr ⟨rfl, fun hn => by omega⟩

end Map

section Unmap

variable {kend root : ℕ} {s t : Phys} {l l' : List ℕ} {a n : ℕ}

/-- The pages that are mapped in a range can be freed: they are allocated, they are not part of the table,
and none of them is mapped twice in the range. -/
structure Freeable (kend root : ℕ) (s : Phys) (l : List ℕ) (a n : ℕ) : Prop where
  frame : ∀ va pa perm, va % PGSIZE = 0 → a ≤ va → va < a + n * PGSIZE →
    translate s root va = some (pa, perm) → Frame kend pa ∧ pa ∉ l
  data : ∀ va pa perm, va % PGSIZE = 0 → a ≤ va → va < a + n * PGSIZE →
    translate s root va = some (pa, perm) → OffTable s root pa
  once : ∀ va va' pa perm perm', va % PGSIZE = 0 → va' % PGSIZE = 0 → a ≤ va → va < a + n * PGSIZE →
    a ≤ va' → va' < a + n * PGSIZE → translate s root va = some (pa, perm) →
    translate s root va' = some (pa, perm') → va = va'

theorem SameBut.entry_eq {pa p : ℕ} (h : SameBut kend pa s t) (hf : Frame kend pa) (hp : Frame kend p)
    (hne : p ≠ pa) (i : Fin 512) : entry t.mem p i = entry s.mem p i := by
  apply entry_of_same
  intro x hx
  exact h x (hp.first_le.trans hx.1) (hp.disjoint hf hne hx)

theorem WellFormed.free {pa : ℕ} (h : WellFormed kend s l root) (hf : Frame kend pa) (hfl : pa ∉ l)
    (hdata : OffTable s root pa) :
    ∃ t, kfree kend pa s = .ok t ∧ WellFormed kend t (pa :: l) root ∧ SameBut kend pa s t ∧
      SamePages root s t ∧
      ∀ path i, path.length = 2 → leaf t.mem root path i = leaf s.mem root path i := by
  obtain ⟨t, ht, hat, hsame⟩ := h.alloc.kfree hf hfl
  have hne : ∀ path p, path.length ≤ 2 → tablePage s.mem root path = some p → p ≠ pa := by
    rintro path p hlen hp rfl
    exact hdata path hlen hp
  have hent : SameEntries root s t := by
    intro path p i hlen hp
    exact hsame.entry_eq hf (h.owned path p hlen hp).1 (hne path p hlen hp) i
  refine ⟨t, ht, h.congr hat hent fun path p hlen hp => ?_, hsame, hent.pages, fun path i hlen => leaf_congr hent hlen⟩
  rw [List.mem_cons, not_or]
  exact ⟨hne path p hlen hp, (h.owned path p hlen hp).2⟩

/-- The pages that are mapped in a range have been freed, and no others. -/
structure Released (kend root : ℕ) (s : Phys) (l : List ℕ) (t : Phys) (l' : List ℕ) (a n : ℕ) : Prop where
  pages : SamePages root s t
  keep : ∀ f ∈ l, f ∈ l'
  freed : ∀ va pa perm, va % PGSIZE = 0 → a ≤ va → va < a + n * PGSIZE →
    translate s root va = some (pa, perm) → pa ∈ l'
  only : ∀ f ∈ l', f ∈ l ∨ ∃ va perm, va % PGSIZE = 0 ∧ a ≤ va ∧ va < a + n * PGSIZE ∧
    translate s root va = some (f, perm)
  data : ∀ f, Frame kend f → f ∉ l' → OffTable s root f → ∀ x, InPage f x → t.mem x = s.mem x

/-- The pages that are mapped in a range of `t` are pages that are mapped in a range of `s`. -/
theorem Freeable.of_mapped {a' n' : ℕ} (h : Freeable kend root s l a n)
    (htr : ∀ va pa perm, a' ≤ va → va < a' + n' * PGSIZE → translate t root va = some (pa, perm) →
      (a ≤ va ∧ va < a + n * PGSIZE) ∧ ∃ perm', translate s root va = some (pa, perm'))
    (hpage : SamePages root s t)
    (hl : ∀ va pa perm, va % PGSIZE = 0 → a' ≤ va → va < a' + n' * PGSIZE →
      translate s root va = some (pa, perm) → pa ∉ l → pa ∉ l') : Freeable kend root t l' a' n' := by
  refine ⟨fun va pa perm hal hlo hhi hva => ?_, fun va pa perm hal hlo hhi hva path hlen => ?_,
    fun va va' pa perm perm' hal hal' hlo hhi hlo' hhi' hva hva' => ?_⟩
  · obtain ⟨hin, q, hq⟩ := htr va pa perm hlo hhi hva
    obtain ⟨hf, hfl⟩ := h.frame va pa q hal hin.1 hin.2 hq
    exact ⟨hf, hl va pa q hal hlo hhi hq hfl⟩
  · obtain ⟨hin, q, hq⟩ := htr va pa perm hlo hhi hva
    rw [hpage path hlen]
    exact h.data va pa q hal hin.1 hin.2 hq path hlen
  · obtain ⟨hin, q, hq⟩ := htr va pa perm hlo hhi hva
    obtain ⟨hin', q', hq'⟩ := htr va' pa perm' hlo' hhi' hva'
    exact h.once va va' pa q q' hal hal' hin.1 hin.2 hin'.1 hin'.2 hq hq'

/-- The result of `uVmUnmap` for `size` bytes. -/
def Unmapped (root a size : ℕ) (s t : Phys) : Prop :=
  ∀ va, va < MAXVA → translate t root va = if a ≤ va ∧ va < a + size then none else translate s root va

theorem WellFormed.unmapped_setPte (h : WellFormed kend s l root) {p : ℕ} (ha : a < MAXVA)
    (hal : a % PGSIZE = 0) (hp : tablePage s.mem root (pathOf a) = some p) :
    Unmapped root a PGSIZE s (s.setPte p (px 0 a) 0) := by
  intro va hva
  have hiff : va / PGSIZE = a / PGSIZE ↔ a ≤ va ∧ va < a + PGSIZE := by
    simp only [PGSIZE] at *
    omega
  rw [h.translate_setPte ha hp (by decide) hva]
  by_cases hin : a ≤ va ∧ va < a + PGSIZE
  · rw [if_pos (hiff.mpr hin), if_pos hin, if_neg (by decide)]
  · rw [if_neg (fun he => hin (hiff.mp he)), if_neg hin]

theorem unmapped_none (ha : a < MAXVA) (hal : a % PGSIZE = 0) (hun : translate s root a = none) :
    Unmapped root a PGSIZE s s := by
  intro va hva
  by_cases hin : a ≤ va ∧ va < a + PGSIZE
  · have hpage : va / PGSIZE = a / PGSIZE := by
      simp only [PGSIZE] at *
      omega
    obtain ⟨hpath, hidx⟩ := (same_indices_iff hva ha).mpr hpage
    rw [if_pos hin, translate_eq_none hva, hpath, hidx]
    exact (translate_eq_none ha).mp hun
  · rw [if_neg hin]

theorem Unmapped.append {u : Phys} (h : Unmapped root a PGSIZE s t)
    (h' : Unmapped root (a + PGSIZE) (n * PGSIZE) t u) : Unmapped root a ((n + 1) * PGSIZE) s u := by
  have hsize : (n + 1) * PGSIZE = PGSIZE + n * PGSIZE := by ring
  intro va hva
  rw [h' va hva, h va hva, hsize]
  split_ifs <;> first | rfl | omega

/-- Some leaf entries have been cleared, and no other entry of the table has changed. -/
def Cleared (root : ℕ) (s t : Phys) : Prop :=
  ∀ path p i, path.length ≤ 2 → tablePage s.mem root path = some p →
    entry t.mem p i = entry s.mem p i ∨ path.length = 2 ∧ entry t.mem p i = none

theorem Cleared.refl (root : ℕ) (s : Phys) : Cleared root s s := fun _ _ _ _ _ => Or.inl rfl

theorem Cleared.inner (h : Cleared root s t) {path : List (Fin 512)} {p : ℕ} (hlen : path.length < 2)
    (hp : tablePage s.mem root path = some p) (i : Fin 512) : entry t.mem p i = entry s.mem p i := by
  rcases h path p i hlen.le hp with heq | ⟨hleaf, -⟩
  · exact heq
  · omega

theorem Cleared.tablePage_eq (h : Cleared root s t) {path : List (Fin 512)} (hlen : path.length ≤ 2) :
    tablePage t.mem root path = tablePage s.mem root path :=
  tablePage_congr (fun _ _ i hlt hp => h.inner hlt hp i) hlen

theorem Cleared.trans {u : Phys} (h : Cleared root s t) (h' : Cleared root t u) : Cleared root s u := by
  intro path p i hlen hp
  have hpt : tablePage t.mem root path = some p := by rw [h.tablePage_eq hlen, hp]
  rcases h' path p i hlen hpt with heq | hnone
  · rw [heq]
    exact h path p i hlen hp
  · exact Or.inr hnone

theorem WellFormed.cleared_setPte (h : WellFormed kend s l root) {path : List (Fin 512)} {p : ℕ}
    (hlen : path.length = 2) (hp : tablePage s.mem root path = some p) (i : Fin 512) :
    Cleared root s (s.setPte p i 0) := by
  intro path' q j hlen' hq
  have hpf := (h.owned path p hlen.le hp).1
  have hqf := (h.owned path' q hlen' hq).1
  change entry (store _ _ _ _) q j = _ ∨ _ ∧ entry (store _ _ _ _) q j = _
  rw [entry_store hpf hqf (by decide)]
  by_cases heq : q = p ∧ j = i
  · obtain ⟨rfl, rfl⟩ := heq
    right
    rw [if_pos ⟨rfl, rfl⟩, h.path_unique hlen' hlen.le hq hp]
    exact ⟨hlen, rfl⟩
  · exact Or.inl (if_neg heq)

theorem eq_of_first {va : ℕ} (hal : a % PGSIZE = 0) (hva : va % PGSIZE = 0) (hlo : a ≤ va)
    (hhi : va < a + PGSIZE) : va = a := by
  simp only [PGSIZE] at *
  omega

theorem released_none (hal : a % PGSIZE = 0) (hun : translate s root a = none) :
    Released kend root s l s l a 1 := by
  refine ⟨fun _ _ => rfl, fun _ hf => hf, fun va pa perm hva hlo hhi htr => ?_, fun f hf => Or.inl hf,
    fun _ _ _ _ _ _ => rfl⟩
  obtain rfl := eq_of_first hal hva hlo (by rwa [Nat.one_mul] at hhi)
  rw [hun] at htr
  cases htr

theorem Released.append {u : Phys} {l'' : List ℕ} (h : Released kend root s l t l' a 1)
    (hend : a + (n + 1) * PGSIZE ≤ MAXVA) (hun : Unmapped root a PGSIZE s t)
    (h' : Released kend root t l' u l'' (a + PGSIZE) n) : Released kend root s l u l'' a (n + 1) := by
  have hsize : (n + 1) * PGSIZE = PGSIZE + n * PGSIZE := by ring
  have hrest : ∀ va, a + PGSIZE ≤ va → va < a + (n + 1) * PGSIZE →
      translate t root va = translate s root va := by
    intro va hlo hhi
    rw [hun va (by omega), if_neg (by omega)]
  refine ⟨fun path hlen => (h'.pages path hlen).trans (h.pages path hlen),
    fun f hf => h'.keep f (h.keep f hf), fun va pa perm hva hlo hhi htr => ?_, fun f hf => ?_,
    fun f hf hfl hno x hx => ?_⟩
  · by_cases hfirst : va < a + PGSIZE
    · exact h'.keep pa (h.freed va pa perm hva hlo (by omega) htr)
    · rw [← hrest va (by omega) hhi] at htr
      exact h'.freed va pa perm hva (by omega) (by omega) htr
  · rcases h'.only f hf with hf | ⟨va, perm, hva, hlo, hhi, htr⟩
    · rcases h.only f hf with hf | ⟨va, perm, hva, hlo, hhi, htr⟩
      · exact Or.inl hf
      · exact Or.inr ⟨va, perm, hva, hlo, by omega, htr⟩
    · rw [hrest va hlo (by omega)] at htr
      exact Or.inr ⟨va, perm, hva, by omega, by omega, htr⟩
  · rw [h'.data f hf hfl (fun path hlen => by rw [h.pages path hlen]; exact hno path hlen) x hx]
    exact h.data f hf (fun hmem => hfl (h'.keep f hmem)) hno x hx

theorem Freeable.skip (h : Freeable kend root s l a (n + 1)) : Freeable kend root s l (a + PGSIZE) n := by
  have hsize : (n + 1) * PGSIZE = PGSIZE + n * PGSIZE := by ring
  exact h.of_mapped (fun va pa perm _ _ hva => ⟨⟨by omega, by omega⟩, perm, hva⟩) (fun _ _ => rfl)
    fun _ _ _ _ _ _ _ hl => hl

/-- A page is freed and its entry is cleared. -/
theorem WellFormed.unmapFree (h : WellFormed kend s l root) (hal : a % PGSIZE = 0)
    (hend : a + (n + 1) * PGSIZE ≤ MAXVA) {p e : ℕ}
    (hp : tablePage s.mem root (pathOf a) = some p) (he : entry s.mem p (px 0 a) = some e)
    (hfree : Freeable kend root s l a (n + 1)) :
    ∃ u, kfree kend (pte2pa e) s = .ok u ∧
      WellFormed kend (u.setPte p (px 0 a) 0) (pte2pa e :: l) root ∧
      Unmapped root a PGSIZE s (u.setPte p (px 0 a) 0) ∧ Cleared root s (u.setPte p (px 0 a) 0) ∧
      Freeable kend root (u.setPte p (px 0 a) 0) (pte2pa e :: l) (a + PGSIZE) n ∧
      Released kend root s l (u.setPte p (px 0 a) 0) (pte2pa e :: l) a 1 := by
  have hsize : (n + 1) * PGSIZE = PGSIZE + n * PGSIZE := by ring
  have hpos : 0 < PGSIZE := by decide
  have ha : a < MAXVA := by omega
  have htr : translate s root a = some (pte2pa e, pteFlags e) := by
    rw [translate_eq ha, leaf, hp, Option.bind_some, he, hal]
    rfl
  obtain ⟨hf, hfl⟩ := hfree.frame a _ _ hal (le_refl a) (by omega) htr
  obtain ⟨u, hu, hwu, hsame, hpage, hleaf⟩ :=
    h.free hf hfl (hfree.data a _ _ hal (le_refl a) (by omega) htr)
  have hpu : tablePage u.mem root (pathOf a) = some p := by rw [hpage _ (by simp [pathOf]), hp]
  have hcu : Cleared root s u := by
    intro path q i hlen hq
    left
    apply hsame.entry_eq hf (h.owned path q hlen hq).1
    rintro rfl
    exact hfree.data a _ _ hal (le_refl a) (by omega) htr path hlen hq
  have hsu : ∀ va, va < MAXVA → translate u root va = translate s root va := by
    intro va hva
    rw [translate_eq hva, translate_eq hva, hleaf _ _ rfl]
  have hone : Unmapped root a PGSIZE s (u.setPte p (px 0 a) 0) := by
    intro va hva
    rw [hwu.unmapped_setPte ha hal hpu va hva, hsu va hva]
  have hpages : SamePages root s (u.setPte p (px 0 a) 0) := by
    intro path hlen
    rw [hwu.tablePage_setPte rfl hpu (by decide) hlen, hpage path hlen]
  refine ⟨u, hu, hwu.setPte rfl hpu (by decide), hone, hcu.trans (hwu.cleared_setPte rfl hpu (px 0 a)),
    hfree.of_mapped (fun va pa perm hlo hhi htrva => ⟨⟨by omega, by omega⟩, perm, ?_⟩) hpages
    (fun va pa perm hva hlo hhi htrva hl => ?_), hpages, fun f => List.mem_cons_of_mem _,
    fun va pa perm hva hlo hhi htrva => ?_, fun f hfm => ?_, fun f hff hfm hno x hx => ?_⟩
  · rwa [hone va (by omega), if_neg (by omega)] at htrva
  · rw [List.mem_cons, not_or]
    refine ⟨?_, hl⟩
    rintro rfl
    have heq := hfree.once a va _ _ _ hal hva (le_refl a) (by omega) (by omega) (by omega) htr htrva
    omega
  · obtain rfl := eq_of_first hal hva hlo (by omega)
    rw [htr] at htrva
    cases htrva
    exact List.mem_cons_self
  · rcases List.mem_cons.mp hfm with rfl | hfm
    · exact Or.inr ⟨a, _, hal, le_refl a, by omega, htr⟩
    · exact Or.inl hfm
  · have hne : f ≠ pte2pa e := fun he => hfm (he ▸ List.mem_cons_self)
    rw [hwu.setPte_data le_rfl hpu hff (fun path hlen => by rw [hpage path hlen]; exact hno path hlen) hx]
    exact hsame x (hff.first_le.trans hx.1) (hff.disjoint hf hne hx)

/-- A round of the loop of `uVmUnmap`. A page that is not freed keeps its bytes. -/
theorem WellFormed.unmapOne (h : WellFormed kend s l root) (hal : a % PGSIZE = 0)
    (hend : a + (n + 1) * PGSIZE ≤ MAXVA) {doFree : Bool} (hfree : doFree = true → Freeable kend root s l a (n + 1)) :
    ∃ t l', unmapLoop kend root doFree (n + 1) a s = unmapLoop kend root doFree n (a + PGSIZE) t ∧
      WellFormed kend t l' root ∧ Unmapped root a PGSIZE s t ∧ Cleared root s t ∧
      (doFree = true → Freeable kend root t l' (a + PGSIZE) n ∧ Released kend root s l t l' a 1) ∧
      (doFree = false → l' = l ∧
        ∀ f, Frame kend f → OffTable s root f → ∀ x, InPage f x → t.mem x = s.mem x) := by
  have ha : a < MAXVA := by
    simp only [PGSIZE] at hend
    omega
  rw [Mm.unmapLoop, walk_false ha]
  dsimp only [bind, Except.bind]
  cases hp : tablePage s.mem root (pathOf a) with
  | none =>
    have hun : translate s root a = none := by
      rw [translate_eq_none ha, leaf, hp, Option.bind_none]
    exact ⟨s, l, rfl, h, unmapped_none ha hal hun, Cleared.refl root s,
      fun hd => ⟨(hfree hd).skip, released_none hal hun⟩, fun _ => ⟨rfl, fun _ _ _ _ _ => rfl⟩⟩
  | some p =>
    rw [Option.map_some]
    dsimp only
    by_cases hv : load s.mem (pteAddr p (px 0 a)) 8 &&& PTE_V = 0
    · rw [if_pos hv]
      have hun : translate s root a = none := by
        rw [translate_eq_none ha, leaf, hp, Option.bind_some, entry, if_neg (not_not.mpr hv)]
      exact ⟨s, l, rfl, h, unmapped_none ha hal hun, Cleared.refl root s,
        fun hd => ⟨(hfree hd).skip, released_none hal hun⟩, fun _ => ⟨rfl, fun _ _ _ _ _ => rfl⟩⟩
    · rw [if_neg hv]
      cases doFree with
      | false =>
        refine ⟨s.setPte p (px 0 a) 0, l, rfl, h.setPte rfl hp (by decide), h.unmapped_setPte ha hal hp,
          h.cleared_setPte rfl hp (px 0 a), fun hd => absurd hd Bool.false_ne_true,
          fun _ => ⟨rfl, fun f hf hno x hx => h.setPte_data le_rfl hp hf hno hx⟩⟩
      | true =>
        obtain ⟨u, hu, hwf, hun, hcl, hrest⟩ := h.unmapFree hal hend hp (if_pos hv) (hfree rfl)
        refine ⟨u.setPte p (px 0 a) 0, _, ?_, hwf, hun, hcl, fun _ => hrest, fun hd => by cases hd⟩
        rw [if_pos rfl, hu]
        rfl

/-- **The loop of `uVmUnmap`.** -/
theorem WellFormed.unmapLoop (h : WellFormed kend s l root) (n : ℕ) (hal : a % PGSIZE = 0)
    (hend : a + n * PGSIZE ≤ MAXVA) {doFree : Bool} (hfree : doFree = true → Freeable kend root s l a n) :
    ∃ t l', Mm.unmapLoop kend root doFree n a s = .ok t ∧ WellFormed kend t l' root ∧
      Unmapped root a (n * PGSIZE) s t ∧ Cleared root s t ∧
      (doFree = true → Released kend root s l t l' a n) := by
  induction n generalizing s l a with
  | zero =>
    refine ⟨s, l, rfl, h, fun va hva => ?_, Cleared.refl root s, fun _ => ⟨fun _ _ => rfl, fun _ hf => hf,
      fun va pa perm _ hlo hhi => ?_, fun f hf => Or.inl hf, fun _ _ _ _ _ _ => rfl⟩⟩
    · rw [if_neg (by omega)]
    · omega
  | succ n ih =>
    have hsize : (n + 1) * PGSIZE = PGSIZE + n * PGSIZE := by ring
    obtain ⟨t, l', ht, hwf, hone, hcl, hrest, -⟩ := h.unmapOne hal hend hfree
    obtain ⟨u, l'', hu, hwu, hun, hclu, hrel⟩ :=
      ih hwf (by rw [Nat.add_mod_right, hal]) (by omega) fun hd => (hrest hd).1
    exact ⟨u, l'', ht.trans hu, hwu, hone.append hun, hcl.trans hclu,
      fun hd => (hrest hd).2.append hend hone (hrel hd)⟩

end Unmap

/-! ## The theorem -/

/-- **Page tables are maps.** For every well-formed table: `mapPages` of a range without mapped pages
returns; if it returns 0, the addresses of the range are mapped to `pa` and the following ones, with the
flags, and all others to what they were; if it fails for a single page, nothing has changed. `uVmUnmap`
removes the pages of its range, and no others. The table stays well formed. -/
theorem page_tables_are_maps {kend root : ℕ} {s : Phys} {l : List ℕ} (hk : kend < PHYSTOP)
    (h : WellFormed kend s l root) :
    (∀ va size pa perm, va % PGSIZE = 0 → size % PGSIZE = 0 → 0 < size → va + size ≤ MAXVA →
      (∀ x, va ≤ x → x < va + size → translate s root x = none) →
      pa % PGSIZE = 0 → pa < 2 ^ 64 → perm < 1024 →
      ∃ r t l', mapPages root va size pa perm s = .ok (r, t) ∧ WellFormed kend t l' root ∧
        ((r = 0 ∧ Mapped root va size pa perm s t) ∨
          (r = -1 ∧ (size = PGSIZE → ∀ x, x < MAXVA → translate t root x = translate s root x)))) ∧
    ∀ va npages doFree, va % PGSIZE = 0 → va + npages * PGSIZE ≤ MAXVA →
      (doFree = true → Freeable kend root s l va npages) →
      ∃ t l', uVmUnmap kend root va npages doFree s = .ok t ∧ WellFormed kend t l' root ∧
        Unmapped root va (npages * PGSIZE) s t := by
  refine ⟨fun va size pa perm hva hsize hpos hend hun hpal hpa hperm => ?_,
    fun va npages doFree hva hend hfree => ?_⟩
  · obtain ⟨n, rfl⟩ : ∃ n, size = (n + 1) * PGSIZE := by
      refine ⟨size / PGSIZE - 1, ?_⟩
      simp only [PGSIZE] at *
      omega
    have hlast : va + (n + 1) * PGSIZE - PGSIZE = va + n * PGSIZE := by
      simp only [PGSIZE]
      omega
    have hcount : (n + 1) * PGSIZE / PGSIZE = n + 1 := Nat.mul_div_cancel _ (by decide)
    obtain ⟨r, t, l', hmap, hwf, hres⟩ := h.mapLoop hk n hva hend hun hpa hpal hperm
    refine ⟨r, t, l', ?_, hwf, hres.imp_right fun hfail => ⟨hfail.1, fun hone => hfail.2 ?_⟩⟩
    · rw [mapPages, if_neg (not_not.mpr hva), if_neg (not_not.mpr hsize), if_neg (by omega), hlast,
        hcount, hmap]
    · simp only [PGSIZE] at hone
      omega
  · obtain ⟨t, l', ht, hwf, hun, -⟩ := h.unmapLoop npages hva hend hfree
    refine ⟨t, l', ?_, hwf, hun⟩
    rw [uVmUnmap, if_neg (not_not.mpr hva), ht]

theorem page_tables_are_maps_firstPage :
    ∃ s l root, WellFormed (PHYSTOP - 4 * PGSIZE) s l root ∧
      ∃ r t l', mapPages root 0 PGSIZE KERNBASE PTE_R s = .ok (r, t) ∧
        WellFormed (PHYSTOP - 4 * PGSIZE) t l' root ∧
        ((r = 0 ∧ Mapped root 0 PGSIZE KERNBASE PTE_R s t) ∨
          (r = -1 ∧ (PGSIZE = PGSIZE → ∀ x, x < MAXVA → translate t root x = translate s root x))) := by
  have hk : PHYSTOP - 4 * PGSIZE < PHYSTOP := sub_pages_lt_PHYSTOP (by decide)
  have hframe : Frame (PHYSTOP - 4 * PGSIZE) (PHYSTOP - PGSIZE) := by
    refine ⟨?_, ?_, ?_⟩
    · rw [PHYSTOP_eq]
      decide
    · simp only [first, base, pgRoundUp, pgRoundDown, metaSz, pageCnt, PHYSTOP_eq, PGSIZE]
      decide
    · rw [PHYSTOP_eq]
      decide
  obtain ⟨s, l, root, hwf, -, hempty⟩ := exists_empty_table hk hframe
  refine ⟨s, l, root, hwf, (page_tables_are_maps hk hwf).1 0 PGSIZE KERNBASE PTE_R (by decide) (by decide)
    (by decide) ?_ (fun x _ hx => ?_) (by decide) (by decide) (by decide)⟩
  · rw [MAXVA_eq]
    decide
  · have hlt : x < MAXVA := by
      rw [MAXVA_eq]
      simp only [PGSIZE] at hx
      omega
    rw [translate_eq_none hlt, leaf, hempty _ (by simp [pathOf]), Option.bind_none]

end RiscvOs.Mm
