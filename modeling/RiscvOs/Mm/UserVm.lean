import RiscvOs.Lib.Loop
import RiscvOs.Mm.Copyin

set_option autoImplicit false

/-!
# Building an address space

`kernel/mm/vm.c` and `kernel/proc/proc.c`: a table for a new program with the two pages of the trap
code (`procPagetable`), the pages of its memory (`uVmAlloc`), the page below its stack (`uvmclear`), and
how all of it is given back (`uVmFree`, `uFreeUserVM`).

What is proved here is about calls that succeed. Then the memory of the program is one range of
addresses from `0` on, every page of it was free before, and is mapped once.

## Main results

* `Space.put` — writing to a page.
* `procPagetable_built` — a new table has only the pages of the trap code.
* `Built.uVmAlloc` — the new pages are zero, and the others are as they were.
* `Built.copyoutLoop` — a copy to the memory that succeeds.
-/

namespace RiscvOs.Mm

open Memory Radix

/-! ## The code -/

/-- The page of the saved registers. -/
@[irreducible] def TRAPFRAME : ℕ := TRAMPOLINE - PGSIZE

/-- The panics of the functions on address spaces. -/
inductive VmPanic where
  | mm (x : Panic)
  | freePgtbl
  | uvmclear
  deriving DecidableEq

/-- A computation on pages, among those on address spaces. -/
def onPages {α : Type} (x : Except Panic α) : Except VmPanic α := x.mapError .mm

theorem onPages_ok {α : Type} (a : α) : onPages (.ok a) = .ok a := rfl

/-- An entry of the loop of `freePgtbl`; `free` is the call for the page of the next level. -/
def freeEntry (free : ℕ → Phys → Except VmPanic Phys) (pagetable : ℕ) (s : Phys) (i : ℕ) :
    Except VmPanic Phys :=
  let pte := load s.mem (pagetable + 8 * i) 8
  if pte &&& PTE_V ≠ 0 ∧ pte &&& (PTE_R ||| PTE_W ||| PTE_X) = 0 then do
    let s ← free (pte2pa pte) s
    .ok { s with mem := store s.mem (pagetable + 8 * i) 8 0 }
  else if pte &&& PTE_V ≠ 0 then .error .freePgtbl
  else .ok s

/-- Free the pages of a table; `fuel` bounds the depth of the recursion. -/
def freePgtbl (kend : ℕ) : (fuel pagetable : ℕ) → Phys → Except VmPanic Phys
  | 0, _, _ => .error (.mm .loop)
  | fuel + 1, pagetable, s => do
    let s ← (List.range 512).foldlM (freeEntry (freePgtbl kend fuel) pagetable) s
    onPages (kfree kend pagetable s)

/-- The depth of the recursion of `freePgtbl`: more than the number of pages of the memory. -/
@[irreducible] def freeDepth : ℕ := 2 ^ 20

/-- Free the memory below `sz` and the table. -/
def uVmFree (kend pagetable sz : ℕ) (s : Phys) : Except VmPanic Phys := do
  let s ← if sz > 0 then onPages (uVmUnmap kend pagetable 0 (pgRoundUp sz / PGSIZE) true s) else .ok s
  freePgtbl kend freeDepth pagetable s

/-- The end of `uVmAlloc` when there is no page. -/
def uVmAllocFail (kend pagetable oldsz : ℕ) (s : Phys) : Except VmPanic (ℕ × Phys) := do
  let s ← uVmFree kend pagetable oldsz s
  .ok (0, s)

/-- The loop of `uVmAlloc`. -/
def uVmAllocLoop (kend pagetable oldsz newsz xperm : ℕ) :
    (fuel a : ℕ) → Phys → Except VmPanic (ℕ × Phys)
  | 0, _, _ => .error (.mm .loop)
  | fuel + 1, a, s =>
    if a < newsz then
      let (mem, s) := kalloc s
      if mem = 0 then uVmAllocFail kend pagetable oldsz s
      else do
        let (r, s) ← onPages (mapPages pagetable a PGSIZE mem (PTE_U ||| PTE_R ||| xperm)
          { s with mem := fill s.mem mem PGSIZE 0 })
        if r ≠ 0 then do
          let s ← onPages (kfree kend mem s)
          uVmAllocFail kend pagetable oldsz s
        else uVmAllocLoop kend pagetable oldsz newsz xperm fuel ((a + PGSIZE) % 2 ^ 64) s
    else .ok (newsz, s)

/-- Grow the memory of a user from `oldsz` to `newsz` bytes; `0` if there are not enough pages. -/
def uVmAlloc (kend pagetable oldsz newsz xperm : ℕ) (s : Phys) : Except VmPanic (ℕ × Phys) :=
  if newsz < oldsz then .ok (oldsz, s)
  else
    let oldsz := pgRoundUp oldsz % 2 ^ 64
    uVmAllocLoop kend pagetable oldsz newsz xperm (newsz / PGSIZE + 2) oldsz s

/-- Take a page away from the user, who has it no longer in the table. -/
def uvmclear (pagetable va : ℕ) (s : Phys) : Except VmPanic Phys := do
  let (pte, s) ← onPages (walk false pagetable va s)
  match pte with
  | none => .error .uvmclear
  | some pte =>
    let e := load s.mem pte 8
    .ok { s with mem := store s.mem pte 8 (e - (e &&& PTE_U)) }

/-- A table with the pages of the trap code; `0` if there are not enough pages. -/
def procPagetable (kend trampoline trapframe : ℕ) (s : Phys) : Except VmPanic (ℕ × Phys) :=
  let (pagetable, s) := uVmCreate s
  if pagetable = 0 then .ok (0, s)
  else do
    let (r, s) ← onPages (mapPages pagetable TRAMPOLINE PGSIZE trampoline (PTE_R ||| PTE_X) s)
    if r < 0 then do
      let s ← uVmFree kend pagetable 0 s
      .ok (0, s)
    else do
      let (r, s) ← onPages (mapPages pagetable TRAPFRAME PGSIZE trapframe (PTE_R ||| PTE_W) s)
      if r < 0 then do
        let s ← onPages (uVmUnmap kend pagetable TRAMPOLINE 1 false s)
        let s ← uVmFree kend pagetable 0 s
        .ok (0, s)
      else .ok (pagetable, s)

/-- Free the address space of a process of `sz` bytes. -/
def uFreeUserVM (kend pagetable sz : ℕ) (s : Phys) : Except VmPanic Phys := do
  let s ← onPages (uVmUnmap kend pagetable TRAMPOLINE 1 false s)
  let s ← onPages (uVmUnmap kend pagetable TRAPFRAME 1 false s)
  uVmFree kend pagetable sz s

theorem TRAPFRAME_eq : TRAPFRAME = 274877898752 := by
  unfold TRAPFRAME
  rw [TRAMPOLINE_eq]
  rfl

/-! ## Address spaces -/

/-- The memory of a program: all pages from `0` to `sz` are mapped, and below the pages of the trap code
nothing else is. -/
structure Space (kend root sz : ℕ) (s : Phys) (l : List ℕ) : Prop where
  wf : WellFormed kend s l root
  aligned : sz % PGSIZE = 0
  pages : Freeable kend root s l 0 (sz / PGSIZE)
  full : ∀ va < sz, translate s root va ≠ none
  rest : ∀ va, sz ≤ va → va < TRAPFRAME → translate s root va = none

/-- Everything that the address space has was in the list `l₀` of the free pages of `s₀`, and no other page
has changed since. -/
structure Fresh (kend root sz : ℕ) (s₀ : Phys) (l₀ : List ℕ) (s : Phys) (l : List ℕ) : Prop where
  sub : ∀ f ∈ l, f ∈ l₀
  table : ∀ path p, path.length ≤ 2 → tablePage s.mem root path = some p → p ∈ l₀
  data : ∀ va f perm, va % PGSIZE = 0 → va < sz → translate s root va = some (f, perm) → f ∈ l₀
  others : ∀ f, Frame kend f → f ∉ l₀ → ∀ a, InPage f a → s.mem a = s₀.mem a
  room : sz + PGSIZE * l.length ≤ PGSIZE * l₀.length

/-- An address space that is being built from free pages. -/
structure Built (kend root sz : ℕ) (s₀ : Phys) (l₀ : List ℕ) (s : Phys) (l : List ℕ) : Prop
    extends Space kend root sz s l, Fresh kend root sz s₀ l₀ s l

/-- The byte at an address of the user. -/
def peek (s : Phys) (root va : ℕ) : Option UInt8 := (translate s root va).map fun x => s.mem x.1

/-- `n` bytes were written at the address `va`, and nothing else below `sz`. -/
def Wrote (root sz va n : ℕ) (src : ℕ → UInt8) (s t : Phys) : Prop :=
  ∀ x < sz, peek t root x = if va ≤ x ∧ x < va + n then some (src (x - va)) else peek s root x

/-! ## One page is mapped -/

section MapPage

variable {kend root va pa perm : ℕ} {s : Phys} {l : List ℕ}

/-- The page of `va` is mapped to `pa`, in a table that may have got new pages. -/
structure PageMapped (kend root va pa perm : ℕ) (s : Phys) (l : List ℕ) (t : Phys) (l' : List ℕ) : Prop
    extends Kept kend root s l t l' where
  mapped : Mapped root va PGSIZE pa perm s t

theorem WellFormed.mapPage (h : WellFormed kend s l root) (hk : kend < PHYSTOP) (hva : va < MAXVA)
    (hal : va % PGSIZE = 0) (hun : translate s root va = none) (hpa : pa < 2 ^ 64)
    (hpal : pa % PGSIZE = 0) (hperm : perm < 1024) :
    (∃ t, mapPages root va PGSIZE pa perm s = .ok (-1, t)) ∨
      ∃ t l', mapPages root va PGSIZE pa perm s = .ok (0, t) ∧
        PageMapped kend root va pa perm s l t l' := by
  rw [mapPages_one hal]
  obtain ⟨t, l', hg, -, ⟨-, hmap, -⟩ | ⟨p, -, hp, hmap⟩⟩ := h.mapOne pa hk hva hun hperm va 0
  · exact Or.inl ⟨t, hmap⟩
  · rw [if_pos rfl] at hmap
    refine Or.inr ⟨_, l', hmap, hg.toKept.setPte rfl hp (pte_lt hpa (perm_or_lt hperm)), fun x hx => ?_⟩
    rw [hg.wf.mapped_setPte hva hal hp hpa hpal hperm x hx, hg.translate_eq hx]

end MapPage

/-! ## Reading and writing the memory -/

section Bytes

variable {kend root sz va : ℕ} {s t : Phys} {l : List ℕ}

theorem exists_of_map_fst {x y : Option (ℕ × ℕ)} (h : x.map Prod.fst = y.map Prod.fst) {pa perm : ℕ}
    (hx : x = some (pa, perm)) : ∃ perm', y = some (pa, perm') := by
  rw [hx] at h
  obtain ⟨z, hz, hfst⟩ := Option.map_eq_some_iff.mp h.symm
  exact ⟨z.2, hz.trans (congrArg some (Prod.ext hfst rfl))⟩

theorem Space.lt_MAXVA (h : Space kend root sz s l) (hva : va < sz) : va < MAXVA := by
  by_contra hge
  exact h.full va hva (translate_ge (by omega))

theorem Space.lt_range (h : Space kend root sz s l) (hva : va < sz) : va < 0 + sz / PGSIZE * PGSIZE := by
  have hal := h.aligned
  simp only [PGSIZE] at *
  omega

theorem Space.leaf (h : Space kend root sz s l) (hva : va < sz) :
    ∃ e, Mm.leaf s.mem root (pathOf va) (px 0 va) = some e := by
  have hsome := h.full va hva
  rwa [Ne, translate_eq_none (h.lt_MAXVA hva), ← Ne, Option.ne_none_iff_exists'] at hsome

theorem Space.page (h : Space kend root sz s l) (hva : va < sz) :
    ∃ f perm, translate s root (pgRoundDown va) = some (f, perm) ∧
      translate s root va = some (f + va % PGSIZE, perm) ∧ Frame kend f ∧ f ∉ l ∧ OffTable s root f := by
  have hdown : pgRoundDown va ≤ va := Nat.sub_le _ _
  have hmod := pgRoundDown_mod va
  have hmax := h.lt_MAXVA hva
  have hmax' : pgRoundDown va < MAXVA := by omega
  have hlt := h.lt_range (show pgRoundDown va < sz by omega)
  obtain ⟨e, he⟩ := h.leaf (show pgRoundDown va < sz by omega)
  have htr := translate_in_page hmax' (pgRoundDown_of_mod hmod) hmax' he
  rw [hmod, Nat.add_zero] at htr
  refine ⟨pte2pa e, pteFlags e, htr, translate_in_page hmax rfl hmax' he, ?_⟩
  obtain ⟨hf, hfl⟩ := h.pages.frame _ _ _ hmod (Nat.zero_le _) hlt htr
  exact ⟨hf, hfl, h.pages.data _ _ _ hmod (Nat.zero_le _) hlt htr⟩

theorem Space.page_eq (h : Space kend root sz s l) {x y f perm perm' : ℕ} (hx : x < sz) (hy : y < sz)
    (htx : translate s root (pgRoundDown x) = some (f, perm))
    (hty : translate s root (pgRoundDown y) = some (f, perm')) : pgRoundDown x = pgRoundDown y := by
  have hdx : pgRoundDown x ≤ x := Nat.sub_le _ _
  have hdy : pgRoundDown y ≤ y := Nat.sub_le _ _
  exact h.pages.once _ _ f perm perm' (pgRoundDown_mod x) (pgRoundDown_mod y) (Nat.zero_le _)
    (h.lt_range (by omega)) (Nat.zero_le _) (h.lt_range (by omega)) htx hty

/-- **The address space stays** if its pages and those of the table do. -/
theorem Space.congr (h : Space kend root sz s l) (hwf : WellFormed kend t l root)
    (hpage : SamePages root s t)
    (hsame : ∀ x, (translate t root x).map Prod.fst = (translate s root x).map Prod.fst) :
    Space kend root sz t l where
  wf := hwf
  aligned := h.aligned
  pages := h.pages.of_mapped (fun x pa perm hlo hhi hx => ⟨⟨hlo, hhi⟩, exists_of_map_fst (hsame x) hx⟩) hpage
    fun _ _ _ _ _ _ _ hl => hl
  full x hx hnone := h.full x hx (Option.map_eq_none_iff.mp ((hsame x).symm.trans (by rw [hnone]; rfl)))
  rest x hlo hhi := Option.map_eq_none_iff.mp ((hsame x).trans (by rw [h.rest x hlo hhi]; rfl))

/-- **A write to a page**: the address space stays, and the bytes are there. -/
theorem Space.put (h : Space kend root sz s l) (hva : va < sz) {pa perm n : ℕ}
    (htr : translate s root va = some (pa, perm)) (hn : va % PGSIZE + n ≤ PGSIZE) (src : ℕ → UInt8) :
    Space kend root sz (s.put pa n src) l ∧ Wrote root sz va n src s (s.put pa n src) ∧
      (∀ x, translate (s.put pa n src) root x = translate s root x) ∧
      SamePages root s (s.put pa n src) ∧
      ∃ f, pgRoundDown va < sz ∧ translate s root (pgRoundDown va) = some (f, perm) ∧
        ∀ a, ¬ InPage f a → (s.put pa n src).mem a = s.mem a := by
  obtain ⟨f, p, hdown, hat, hf, hfl, hdata⟩ := h.page hva
  obtain ⟨rfl, rfl⟩ := Prod.mk.inj (Option.some.inj (hat.symm.trans htr))
  have hle : pgRoundDown va ≤ va := Nat.sub_le _ _
  obtain ⟨hwf, hpage, hleaf⟩ := h.wf.put hf hfl hdata (a := f + va % PGSIZE) (n := n)
    ⟨Nat.le_add_right _ _, by omega⟩ src
  have hsame := translate_congr hleaf
  refine ⟨h.congr hwf hpage fun x => by rw [hsame], fun x hx => ?_, hsame, hpage, f, by omega, hdown,
    fun a ha => ?_⟩
  · -- a byte of the range is in the page, and the bytes of other pages are elsewhere
    obtain ⟨g, q, hdown', hat', hg, -⟩ := h.page hx
    rw [peek, peek, hsame, hat', Option.map_some, Option.map_some]
    change some (Memory.put s.mem (f + va % PGSIZE) n src (g + x % PGSIZE)) = _
    by_cases hpg : pgRoundDown va = pgRoundDown x
    · rw [← hpg, hdown] at hdown'
      cases hdown'
      have hiff : (f + va % PGSIZE ≤ f + x % PGSIZE ∧ f + x % PGSIZE < f + va % PGSIZE + n) ↔
          va ≤ x ∧ x < va + n := by
        simp only [pgRoundDown, PGSIZE] at *
        omega
      by_cases hin : va ≤ x ∧ x < va + n
      · rw [put_of_mem (hiff.mpr hin), if_pos hin]
        congr 2
        simp only [pgRoundDown, PGSIZE] at *
        omega
      · rw [put_of_not_mem fun h => hin (hiff.mp h), if_neg hin]
    · have hfg : g ≠ f := by
        rintro rfl
        exact hpg (h.page_eq hva hx hdown hdown')
      have hout : ¬ (va ≤ x ∧ x < va + n) := by
        simp only [pgRoundDown, PGSIZE] at *
        omega
      have hmod : x % PGSIZE < PGSIZE := Nat.mod_lt _ (by decide)
      have hnin : ¬ InPage f (g + x % PGSIZE) :=
        hg.disjoint hf hfg ⟨Nat.le_add_right _ _, by omega⟩
      rw [if_neg hout, put_of_not_mem fun hin => hnin ⟨by omega, by omega⟩]
  · exact put_of_not_mem fun hin => ha ⟨by omega, by omega⟩

theorem Wrote.zero (root sz va : ℕ) (src : ℕ → UInt8) (s : Phys) : Wrote root sz va 0 src s s := by
  intro x _
  rw [if_neg (by omega)]

theorem Wrote.append {n k : ℕ} {src : ℕ → UInt8} {u : Phys} (h : Wrote root sz va n src s t)
    (h' : Wrote root sz (va + n) k (fun i => src (n + i)) t u) : Wrote root sz va (n + k) src s u := by
  intro x hx
  rw [h' x hx, h x hx]
  by_cases h1 : va + n ≤ x ∧ x < va + n + k
  · rw [if_pos h1, if_pos (by omega)]
    dsimp only
    rw [show n + (x - (va + n)) = x - va by omega]
  · rw [if_neg h1]
    by_cases h2 : va ≤ x ∧ x < va + n
    · rw [if_pos h2, if_pos (by omega)]
    · rw [if_neg h2, if_neg (by omega)]

variable {s₀ : Phys} {l₀ : List ℕ}

theorem Fresh.congr (h : Fresh kend root sz s₀ l₀ s l)
    (hpage : SamePages root s t)
    (hsame : ∀ x, (translate t root x).map Prod.fst = (translate s root x).map Prod.fst)
    (hothers : ∀ f, Frame kend f → f ∉ l₀ → ∀ a, InPage f a → t.mem a = s.mem a) :
    Fresh kend root sz s₀ l₀ t l where
  sub := h.sub
  table path p hlen hp := h.table path p hlen ((hpage path hlen).symm.trans hp)
  data x f perm hal hx htx := by
    obtain ⟨q, hq⟩ := exists_of_map_fst (hsame x) htx
    exact h.data x f q hal hx hq
  others f hf hfl a ha := (hothers f hf hfl a ha).trans (h.others f hf hfl a ha)
  room := h.room

theorem Built.put (h : Built kend root sz s₀ l₀ s l) (hva : va < sz) {pa perm n : ℕ}
    (htr : translate s root va = some (pa, perm)) (hn : va % PGSIZE + n ≤ PGSIZE) (src : ℕ → UInt8) :
    Built kend root sz s₀ l₀ (s.put pa n src) l ∧ Wrote root sz va n src s (s.put pa n src) := by
  obtain ⟨hspace, hwrote, hsame, hpage, f, hlt, hdown, hout⟩ := h.toSpace.put hva htr hn src
  have hf₀ : f ∈ l₀ := h.data _ f perm (pgRoundDown_mod va) hlt hdown
  obtain ⟨g, q, hdown', -, hg, -⟩ := h.page hva
  obtain ⟨rfl, rfl⟩ := Prod.mk.inj (Option.some.inj (hdown.symm.trans hdown'))
  refine ⟨⟨hspace, h.toFresh.congr hpage (fun x => by rw [hsame]) fun f' hf' hfl a ha => ?_⟩, hwrote⟩
  have hne : f' ≠ f := fun he => hfl (he ▸ hf₀)
  exact hout a (hf'.disjoint hg hne ha)

variable {etext psz len fuel : ℕ} {src : ℕ → UInt8}

/-- The first page of a copy to an address space that succeeds: it is mapped, so `vmfault` is of no use, and the
bytes are stored. -/
theorem Built.copy_page (h : Built kend root sz s₀ l₀ s l) (hva : va < sz) (hlen : len ≠ 0)
    (hc : copyoutLoop (vmfault kend psz root) etext root (fuel + 1) va len src s = .ok (0, t)) :
    ∃ pa perm, translate s root va = some (pa, perm) ∧
      copyoutLoop (vmfault kend psz root) etext root fuel (pgRoundDown va + PGSIZE) (len - chunk va len)
        (fun i => src (chunk va len + i)) (s.put pa (chunk va len) src) = .ok (0, t) := by
  have hmax := h.lt_MAXVA hva
  have hdn : pgRoundDown va ≤ va := Nat.sub_le _ _
  have hmax' : pgRoundDown va < MAXVA := by omega
  obtain ⟨e, he⟩ := h.leaf (show pgRoundDown va < sz by omega)
  have hat := translate_in_page hmax rfl hmax' he
  have hoff : va - pgRoundDown va = va % PGSIZE := by
    simp only [pgRoundDown, PGSIZE]
    omega
  refine ⟨_, _, hat, ?_⟩
  obtain ⟨f, perm, hdown, -, hf, -⟩ := h.page hva
  have hfe : pte2pa e = f := by
    have htr := translate_in_page hmax' (pgRoundDown_of_mod (pgRoundDown_mod va)) hmax' he
    rw [pgRoundDown_mod, Nat.add_zero, hdown] at htr
    exact (congrArg Prod.fst (Option.some.inj htr)).symm
  obtain ⟨p, hwalk, hload⟩ := walk_of_leaf hmax' he
  rw [copyoutLoop, if_neg hlen] at hc
  rw [if_neg (by omega), uVA2PA_eq hmax', he] at hc
  dsimp only [bind, Except.bind] at hc
  by_cases hu : e &&& PTE_U = 0
  · have hzero := vmfault_zero kend root psz s hmax' (pgRoundDown_mod va) (Or.inr (by rw [he]; simp))
    rw [if_pos hu, faultIn, if_pos rfl, hzero] at hc
    cases hc
  · rw [if_neg hu, hfe, faultIn, if_neg hf.ne_zero] at hc
    dsimp only at hc
    rw [if_neg hf.ne_zero, hwalk] at hc
    dsimp only at hc
    split_ifs at hc with hw
    · cases hc
    · rw [memmove] at hc
      split_ifs at hc with hk
      rw [hfe, ← hoff]
      exact hc

theorem copyoutLoop_result {r : ℤ}
    (hc : copyoutLoop (vmfault kend psz root) etext root fuel va len src s = .ok (r, t)) : r = 0 ∨ r = -1 := by
  induction fuel generalizing va len src s with
  | zero => cases hc
  | succ fuel ih =>
    rw [Mm.copyoutLoop] at hc
    dsimp only at hc
    split_ifs at hc with hlen hmax
    · cases hc
      exact Or.inl rfl
    · cases hc
      exact Or.inr rfl
    · obtain ⟨pa0, -, hc⟩ := Loop.bind_eq_ok.mp hc
      obtain ⟨⟨q, u⟩, -, hc⟩ := Loop.bind_eq_ok.mp hc
      split_ifs at hc with hq
      · cases hc
        exact Or.inr rfl
      · obtain ⟨⟨_ | pte, v⟩, -, hc⟩ := Loop.bind_eq_ok.mp hc
        · cases hc
        · dsimp only at hc
          split_ifs at hc with hw
          · cases hc
            exact Or.inr rfl
          · obtain ⟨w, -, hc⟩ := Loop.bind_eq_ok.mp hc
            exact ih hc

/-- **A copy to the address space that succeeds.** -/
theorem Built.copyoutLoop (h : Built kend root sz s₀ l₀ s l) (hsz : va + len ≤ sz)
    (hc : copyoutLoop (vmfault kend psz root) etext root fuel va len src s = .ok (0, t)) :
    Built kend root sz s₀ l₀ t l ∧ Wrote root sz va len src s t := by
  induction fuel generalizing va len src s with
  | zero => cases hc
  | succ fuel ih =>
    by_cases hlen : len = 0
    · subst hlen
      obtain rfl : s = t := congrArg Prod.snd (Except.ok.inj hc)
      exact ⟨h, Wrote.zero root sz va src s⟩
    · have hva : va < sz := by omega
      obtain ⟨pa, perm, htr, hc'⟩ := h.copy_page hva hlen hc
      have hfits : va % PGSIZE + chunk va len ≤ PGSIZE := by
        simp only [chunk, pgRoundDown, PGSIZE]
        omega
      have hle : chunk va len ≤ len := min_le_right _ _
      obtain ⟨hb, hw⟩ := h.put hva htr hfits src
      by_cases hlast : chunk va len < len
      · have hsum := add_chunk va len hlast
        obtain ⟨hb', hw'⟩ := ih hb (by omega) hc'
        rw [← hsum] at hw'
        refine ⟨hb', ?_⟩
        have := hw.append hw'
        rwa [Nat.add_sub_cancel' hle] at this
      · have hall : chunk va len = len := by omega
        rw [hall, Nat.sub_self] at hc'
        rw [hall] at hb hw
        have hend : s.put pa len src = t := by
          cases fuel with
          | zero => cases hc'
          | succ fuel =>
            exact congrArg Prod.snd (Except.ok.inj hc')
        rw [← hend]
        exact ⟨hb, hw⟩

end Bytes

/-! ## Growing the memory -/

section Grow

variable {kend root a : ℕ} {s s₀ : Phys} {l l₀ : List ℕ}

theorem Alloc.length_le (h : Alloc kend s l) : PGSIZE * l.length ≤ PHYSTOP := by
  have hsub : l ⊆ (List.range (PHYSTOP / PGSIZE)).map (PGSIZE * ·) := by
    intro f hf
    have hfr := h.frames f hf
    have h1 := hfr.aligned
    have h2 := hfr.le_stop
    refine List.mem_map.mpr ⟨f / PGSIZE, List.mem_range.mpr ?_, ?_⟩
    all_goals
      simp only [PGSIZE] at *
      omega
  have hlen := (h.nodup.subperm hsub).length_le
  rw [List.length_map, List.length_range] at hlen
  calc PGSIZE * l.length ≤ PGSIZE * (PHYSTOP / PGSIZE) := Nat.mul_le_mul_left _ hlen
    _ ≤ PHYSTOP := Nat.mul_div_le _ _

theorem Built.lt_TRAPFRAME (h : Built kend root a s₀ l₀ s l) (h₀ : Alloc kend s₀ l₀) :
    a + PGSIZE * l.length < TRAPFRAME := by
  have h1 := h.room
  have h2 := h₀.length_le
  rw [PHYSTOP_eq] at h2
  rw [TRAPFRAME_eq]
  omega

/-- A round of `uVmAlloc`: the page `f` has been taken and cleared, and mapped at `a`. -/
structure NewPage (kend root a perm : ℕ) (s₀ : Phys) (l₀ : List ℕ) (s : Phys) (f : ℕ) (l : List ℕ)
    (t : Phys) (l' : List ℕ) : Prop extends PageMapped kend root a f perm s (f :: l) t l' where
  built : Built kend root a s₀ l₀ s (f :: l)
  start : Alloc kend s₀ l₀
  not_mem : f ∉ l'
  not_page : OffTable t root f
  zero : ∀ x, InPage f x → t.mem x = 0

namespace NewPage

variable {perm f : ℕ} {t : Phys} {l' : List ℕ} (h : NewPage kend root a perm s₀ l₀ s f l t l')
include h

theorem frame : Frame kend f := h.built.wf.alloc.frames f List.mem_cons_self

theorem lt_TRAPFRAME : a + PGSIZE < TRAPFRAME := by
  have hlt := h.built.lt_TRAPFRAME h.start
  rw [List.length_cons, Nat.mul_add, Nat.mul_one] at hlt
  omega

omit h in
theorem lt_MAXVA_of_lt {x : ℕ} (hx : x < TRAPFRAME) : x < MAXVA := by
  rw [TRAPFRAME_eq] at hx
  rw [MAXVA_eq]
  omega

theorem translate_new {x : ℕ} (hlo : a ≤ x) (hhi : x < a + PGSIZE) :
    translate t root x = some (f + (x - a), perm ||| PTE_V) := by
  have hstop := h.frame.le_stop
  have hlt := h.lt_TRAPFRAME
  rw [PHYSTOP_eq] at hstop
  rw [h.mapped x (lt_MAXVA_of_lt (by omega)), if_pos ⟨hlo, hhi⟩, Nat.mod_eq_of_lt (by omega)]

theorem translate_at : translate t root a = some (f, perm ||| PTE_V) := by
  rw [h.translate_new (le_refl a) (by simp only [PGSIZE]; omega), Nat.sub_self, Nat.add_zero]

theorem translate_old {x : ℕ} (hx : x < a ∨ a + PGSIZE ≤ x) (hlt : x < TRAPFRAME) :
    translate t root x = translate s root x := by
  rw [h.mapped x (lt_MAXVA_of_lt hlt), if_neg (by omega)]

theorem eq_or_lt {va : ℕ} (hva : va % PGSIZE = 0) (hlt : va < a + PGSIZE) : va = a ∨ va < a := by
  have hal := h.built.aligned
  simp only [PGSIZE] at *
  omega

theorem old_page {va pa q : ℕ} (hva : va % PGSIZE = 0) (hlt : va < a)
    (htr : translate t root va = some (pa, q)) :
    translate s root va = some (pa, q) ∧ Frame kend pa ∧ pa ∉ f :: l ∧ OffTable s root pa := by
  have hmax := h.lt_TRAPFRAME
  have hhi := h.built.lt_range hlt
  rw [h.translate_old (Or.inl hlt) (by omega)] at htr
  obtain ⟨hf, hfl⟩ := h.built.pages.frame va pa q hva (Nat.zero_le _) hhi htr
  exact ⟨htr, hf, hfl, h.built.pages.data va pa q hva (Nat.zero_le _) hhi htr⟩

/-- **One more page** in the address space. -/
theorem space : Space kend root (a + PGSIZE) t l' := by
  have hal := h.built.aligned
  have hmax := h.lt_TRAPFRAME
  have hrange : ∀ va, va < 0 + (a + PGSIZE) / PGSIZE * PGSIZE → va < a + PGSIZE := by
    intro va hva
    simp only [PGSIZE] at *
    omega
  refine ⟨h.wf, ?_, ⟨fun va pa q hva hlo hhi htr => ?_, fun va pa q hva hlo hhi htr => ?_,
    fun va va' pa q q' hva hva' hlo hhi hlo' hhi' htr htr' => ?_⟩, fun va hva => ?_, fun va hlo hhi => ?_⟩
  · simp only [PGSIZE] at *
    omega
  · rcases h.eq_or_lt hva (hrange va hhi) with rfl | hlt
    · rw [h.translate_at] at htr
      cases htr
      exact ⟨h.frame, h.not_mem⟩
    · obtain ⟨-, hf, hfl, -⟩ := h.old_page hva hlt htr
      exact ⟨hf, fun hmem => hfl (h.sub pa hmem)⟩
  · rcases h.eq_or_lt hva (hrange va hhi) with rfl | hlt
    · rw [h.translate_at] at htr
      cases htr
      exact h.not_page
    · obtain ⟨-, -, hfl, hno⟩ := h.old_page hva hlt htr
      exact h.toKept.not_page hfl hno
  · -- the new page was free, so it is not one of the others
    have hnew : ∀ va q q', va % PGSIZE = 0 → va < a → translate t root va = some (pa, q) →
        translate t root a ≠ some (pa, q') := by
      intro va q q' hva hlt htr hat
      rw [h.translate_at] at hat
      cases hat
      exact (h.old_page hva hlt htr).2.2.1 List.mem_cons_self
    rcases h.eq_or_lt hva (hrange va hhi) with rfl | hlt <;>
      rcases h.eq_or_lt hva' (hrange va' hhi') with rfl | hlt'
    · rfl
    · exact absurd htr (hnew va' q' q hva' hlt' htr')
    · exact absurd htr' (hnew va q q' hva hlt htr)
    · have hs := (h.old_page hva hlt htr).1
      have hs' := (h.old_page hva' hlt' htr').1
      exact h.built.pages.once va va' pa q q' hva hva' hlo (h.built.lt_range hlt) hlo'
        (h.built.lt_range hlt') hs hs'
  · by_cases hlt : va < a
    · rw [h.translate_old (Or.inl hlt) (by omega)]
      exact h.built.full va hlt
    · rw [h.translate_new (by omega) hva]
      exact Option.some_ne_none _
  · rw [h.translate_old (Or.inr hlo) hhi]
    exact h.built.rest va (by omega) hhi

theorem fresh : Fresh kend root (a + PGSIZE) s₀ l₀ t l' := by
  have hlen : (f :: l').length ≤ (f :: l).length := by
    refine ((List.nodup_cons.mpr ⟨h.not_mem, h.wf.alloc.nodup⟩).subperm ?_).length_le
    exact List.cons_subset.mpr ⟨List.mem_cons_self, h.sub⟩
  have hroom := h.built.room
  rw [List.length_cons, List.length_cons] at hlen
  rw [List.length_cons] at hroom
  have hroom' : a + PGSIZE + PGSIZE * l'.length ≤ PGSIZE * l₀.length := by
    simp only [PGSIZE] at hroom ⊢
    omega
  refine ⟨fun g hg => h.built.sub g (h.sub g hg), fun path p hlen hp => ?_, fun va g q hva hlt htr => ?_,
    fun g hg hgl x hx => ?_, ?_⟩
  · rcases h.table path p hlen hp with hp | hmem
    · exact h.built.table path p hlen hp
    · exact h.built.sub p hmem
  · rcases h.eq_or_lt hva hlt with rfl | hlt
    · rw [h.translate_at] at htr
      cases htr
      exact h.built.sub f List.mem_cons_self
    · exact h.built.data va g q hva hlt (h.old_page hva hlt htr).1
  · rw [h.toKept.data g hg (fun hmem => hgl (h.built.sub g hmem))
      (fun path hlen hp => hgl (h.built.table path g hlen hp)) x hx]
    exact h.built.others g hg hgl x hx
  · exact hroom'

theorem peek_old {x : ℕ} (hx : x < a) : peek t root x = peek s root x := by
  have hmax := h.lt_TRAPFRAME
  obtain ⟨g, q, -, hat, hg, hgl, hno⟩ := h.built.page hx
  rw [peek, peek, h.translate_old (Or.inl hx) (by omega), hat, Option.map_some, Option.map_some]
  have hmod : x % PGSIZE < PGSIZE := Nat.mod_lt _ (by decide)
  rw [h.toKept.data g hg hgl hno _ ⟨Nat.le_add_right _ _, by omega⟩]

theorem peek_new {x : ℕ} (hlo : a ≤ x) (hhi : x < a + PGSIZE) : peek t root x = some 0 := by
  rw [peek, h.translate_new hlo hhi, Option.map_some, h.zero _ ⟨Nat.le_add_right _ _, by omega⟩]

end NewPage

theorem Built.allocPage {f perm : ℕ} (h : Built kend root a s₀ l₀ s (f :: l)) (h₀ : Alloc kend s₀ l₀)
    (hk : kend < PHYSTOP) (hperm : perm < 1024) :
    ∃ u, kalloc s = (f, u) ∧ f ≠ 0 ∧
      ((∃ t, mapPages root a PGSIZE f perm { u with mem := fill u.mem f PGSIZE 0 } = .ok (-1, t)) ∨
        ∃ t l', mapPages root a PGSIZE f perm { u with mem := fill u.mem f PGSIZE 0 } = .ok (0, t) ∧
          NewPage kend root a perm s₀ l₀ s f l t l') := by
  have hf : Frame kend f := h.wf.alloc.frames f List.mem_cons_self
  have hlt := h.lt_TRAPFRAME h₀
  have hva : a < TRAPFRAME := by omega
  have hmax := NewPage.lt_MAXVA_of_lt hva
  have hv := pte_lt hf.lt_word (perm_or_lt hperm)
  obtain ⟨u, hu, -, hmake⟩ := h.wf.makePage hk hmax h.aligned (h.rest a le_rfl hva) hperm
  refine ⟨u, hu, hf.ne_zero, ?_⟩
  rcases hmake _ fun x hx => fill_of_not_mem hx with
    ⟨w, -, -, hw, -⟩ | ⟨w, l', p, -, hw, hg, -, hp, hfl, hno, hbytes⟩
  · exact Or.inl ⟨w, hw⟩
  · refine Or.inr ⟨_, l', hw, ⟨hg.toKept.setPte rfl hp hv, fun x hx => ?_⟩, h, h₀, hfl, fun path hlen => ?_,
      fun x hx => ?_⟩
    · rw [hg.wf.mapped_setPte hmax h.aligned hp hf.lt_word hf.aligned hperm x hx, hg.translate_eq hx]
    · rw [hg.wf.tablePage_setPte rfl hp hv hlen]
      exact hno path hlen
    · rw [hg.wf.setPte_data le_rfl hp hf hno hx, hbytes x hx]
      exact fill_of_mem hx

theorem uVmAllocFail_zero {oldsz r : ℕ} {t : Phys} (h : uVmAllocFail kend root oldsz s = .ok (r, t)) :
    r = 0 := by
  obtain ⟨u, -, hu⟩ := Loop.bind_eq_ok.mp h
  exact (congrArg Prod.fst (Except.ok.inj hu)).symm

/-- The memory has grown to `sz`: the new bytes are zero, the others are the same. -/
structure Grew (root a sz : ℕ) (s t : Phys) : Prop where
  old : ∀ x < a, peek t root x = peek s root x
  new : ∀ x, a ≤ x → x < sz → peek t root x = some 0

theorem pgRoundUp_of_le {newsz : ℕ} (hal : a % PGSIZE = 0) (h1 : a ≤ pgRoundUp newsz) (h2 : newsz ≤ a) :
    a = pgRoundUp newsz := by
  simp only [pgRoundUp, pgRoundDown, PGSIZE] at *
  omega

theorem pgRoundUp_ge {newsz : ℕ} (hal : a % PGSIZE = 0) (h : a < newsz) : a + PGSIZE ≤ pgRoundUp newsz := by
  simp only [pgRoundUp, pgRoundDown, PGSIZE] at *
  omega

/-- **The loop of `uVmAlloc`**, if it succeeds. -/
theorem Built.uVmAllocLoop {oldsz newsz xperm fuel r : ℕ} {t : Phys} (h : Built kend root a s₀ l₀ s l)
    (h₀ : Alloc kend s₀ l₀) (hk : kend < PHYSTOP) (hperm : PTE_U ||| PTE_R ||| xperm < 1024)
    (ha : a ≤ pgRoundUp newsz)
    (hr : uVmAllocLoop kend root oldsz newsz xperm fuel a s = .ok (r, t)) (hr0 : r ≠ 0) :
    ∃ l', r = newsz ∧ Built kend root (pgRoundUp newsz) s₀ l₀ t l' ∧
      Grew root a (pgRoundUp newsz) s t := by
  induction fuel generalizing a s l with
  | zero => cases hr
  | succ fuel ih =>
    rw [Mm.uVmAllocLoop] at hr
    by_cases hlt : a < newsz
    · rw [if_pos hlt] at hr
      cases l with
      | nil =>
        obtain ⟨u, hu, -⟩ := h.wf.alloc.kalloc_nil hk
        rw [hu] at hr
        exact absurd (uVmAllocFail_zero hr) hr0
      | cons f l =>
        obtain ⟨u, hu, hf0, ⟨v, hv⟩ | ⟨v, l', hv, hnew⟩⟩ := h.allocPage h₀ hk hperm
        · rw [hu] at hr
          dsimp only at hr
          rw [if_neg hf0, hv] at hr
          obtain ⟨w, hw, hrest⟩ := Loop.bind_eq_ok.mp hr
          cases hw
          rw [if_pos (show (-1 : ℤ) ≠ 0 by decide)] at hrest
          obtain ⟨w, -, hfail⟩ := Loop.bind_eq_ok.mp hrest
          exact absurd (uVmAllocFail_zero hfail) hr0
        · rw [hu] at hr
          dsimp only at hr
          rw [if_neg hf0, hv] at hr
          have hwrap : (a + PGSIZE) % 2 ^ 64 = a + PGSIZE := by
            have hmax := hnew.lt_TRAPFRAME
            rw [TRAPFRAME_eq] at hmax
            exact Nat.mod_eq_of_lt (by omega)
          have hr' : Mm.uVmAllocLoop kend root oldsz newsz xperm fuel ((a + PGSIZE) % 2 ^ 64) v = .ok (r, t) := hr
          rw [hwrap] at hr'
          obtain ⟨l'', rfl, hb, hgrew⟩ := ih ⟨hnew.space, hnew.fresh⟩ (pgRoundUp_ge h.aligned hlt) hr'
          refine ⟨l'', rfl, hb, fun x hx => ?_, fun x hlo hhi => ?_⟩
          · rw [hgrew.old x (by omega), hnew.peek_old hx]
          · by_cases hx : x < a + PGSIZE
            · rw [hgrew.old x hx, hnew.peek_new hlo hx]
            · exact hgrew.new x (by omega) hhi
    · rw [if_neg hlt] at hr
      obtain ⟨rfl, rfl⟩ := Prod.mk.inj (Except.ok.inj hr)
      rw [← pgRoundUp_of_le h.aligned ha (by omega)]
      exact ⟨l, rfl, h, fun x _ => rfl, fun x hlo hhi => absurd hhi (by omega)⟩

theorem pgRoundUp_mono {x y : ℕ} (h : x ≤ y) : pgRoundUp x ≤ pgRoundUp y := by
  simp only [pgRoundUp, pgRoundDown, PGSIZE] at *
  omega

/-- **`uVmAlloc`**, if it succeeds. -/
theorem Built.uVmAlloc {oldsz newsz xperm r : ℕ} {t : Phys}
    (h : Built kend root (pgRoundUp oldsz) s₀ l₀ s l) (h₀ : Alloc kend s₀ l₀) (hk : kend < PHYSTOP)
    (hperm : PTE_U ||| PTE_R ||| xperm < 1024)
    (hr : uVmAlloc kend root oldsz newsz xperm s = .ok (r, t)) (hr0 : r ≠ 0) :
    ∃ l', r = max oldsz newsz ∧ Built kend root (pgRoundUp r) s₀ l₀ t l' ∧
      Grew root (pgRoundUp oldsz) (pgRoundUp r) s t := by
  rw [Mm.uVmAlloc] at hr
  by_cases hlt : newsz < oldsz
  · rw [if_pos hlt] at hr
    obtain ⟨rfl, rfl⟩ := Prod.mk.inj (Except.ok.inj hr)
    exact ⟨l, by omega, h, fun x _ => rfl, fun x hlo hhi => absurd hhi (by omega)⟩
  · rw [if_neg hlt] at hr
    have hwrap : pgRoundUp oldsz % 2 ^ 64 = pgRoundUp oldsz := by
      have hmax := h.lt_TRAPFRAME h₀
      rw [TRAPFRAME_eq] at hmax
      exact Nat.mod_eq_of_lt (by omega)
    dsimp only at hr
    rw [hwrap] at hr
    obtain ⟨l', rfl, hb, hg⟩ := h.uVmAllocLoop h₀ hk hperm (pgRoundUp_mono (by omega)) hr hr0
    exact ⟨l', by omega, hb, hg⟩

end Grow

/-! ## The page below the stack -/

section Clear

variable {kend root sz va : ℕ} {s s₀ t : Phys} {l l₀ : List ℕ}

theorem clear_PTE_U (e : ℕ) :
    (e - (e &&& PTE_U)) % 2 = e % 2 ∧ pte2pa (e - (e &&& PTE_U)) = pte2pa e := by
  have hand : e &&& PTE_U = (e.testBit 4).toNat * 2 ^ 4 := Nat.and_two_pow e 4
  have hle : e &&& PTE_U ≤ e % 2 ^ 10 := by
    rw [← and_PTE_U, pteFlags]
    exact Nat.and_le_left
  refine ⟨by omega, ?_⟩
  rw [pte2pa, pte2pa]
  have : (e - (e &&& PTE_U)) / 2 ^ 10 = e / 2 ^ 10 := by omega
  rw [this]

/-- **`uvmclear`** changes the flags of a page, and no byte of the memory. -/
theorem Built.uvmclear (h : Built kend root sz s₀ l₀ s l) (hva : va < sz)
    (hc : uvmclear root va s = .ok t) :
    Built kend root sz s₀ l₀ t l ∧ ∀ x < sz, peek t root x = peek s root x := by
  have hmax := h.lt_MAXVA hva
  obtain ⟨e, he⟩ := h.leaf hva
  obtain ⟨p, hp, hent⟩ := Option.bind_eq_some_iff.mp he
  have hload : load s.mem (pteAddr p (px 0 va)) 8 = e ∧ e % 2 ≠ 0 := by
    unfold entry at hent
    split_ifs at hent with hv
    obtain rfl := Option.some.inj hent
    exact ⟨rfl, by rwa [and_PTE_V] at hv⟩
  have hlt : e - (e &&& PTE_U) < 256 ^ 8 := by
    have := load_lt s.mem (pteAddr p (px 0 va)) 8
    omega
  have ht : t = s.setPte p (px 0 va) (e - (e &&& PTE_U)) := by
    rw [Mm.uvmclear, walk_false hmax, hp, Option.map_some] at hc
    have hc' : Except.ok (s.setPte p (px 0 va) (load s.mem (pteAddr p (px 0 va)) 8 -
        (load s.mem (pteAddr p (px 0 va)) 8 &&& PTE_U))) = (Except.ok t : Except VmPanic Phys) := hc
    rw [hload.1] at hc'
    exact (Except.ok.inj hc').symm
  subst ht
  have hpage : SamePages root s (s.setPte p (px 0 va) (e - (e &&& PTE_U))) :=
    fun path hlen => h.wf.tablePage_setPte rfl hp hlt hlen
  obtain ⟨hodd, hpa⟩ := clear_PTE_U e
  -- every address has the physical address that it had
  have hsame : ∀ x, (translate (s.setPte p (px 0 va) (e - (e &&& PTE_U))) root x).map Prod.fst =
      (translate s root x).map Prod.fst := by
    intro x
    by_cases hx : x < MAXVA
    · rw [h.wf.translate_setPte hmax hp hlt hx]
      split_ifs with hpg hv
      · obtain ⟨hpath, hidx⟩ := (same_indices_iff hx hmax).mpr hpg
        rw [translate_eq hx, hpath, hidx, he, Option.map_some, Option.map_some, Option.map_some, hpa]
      · exact absurd (not_not.mp hv) (by rw [hodd]; exact hload.2)
      · rfl
    · rw [translate_ge (by omega), translate_ge (by omega)]
  refine ⟨⟨h.toSpace.congr (h.wf.setPte rfl hp hlt) hpage hsame, h.toFresh.congr hpage hsame fun f hf hfl a ha => ?_⟩,
    fun x hx => ?_⟩
  · exact h.wf.setPte_data le_rfl hp hf (fun path hlen hpath => hfl (h.table path f hlen hpath)) ha
  · obtain ⟨f, q, -, hat, hf, -, hno⟩ := h.page hx
    obtain ⟨q', hq'⟩ := exists_of_map_fst (hsame x).symm hat
    have hmod : x % PGSIZE < PGSIZE := Nat.mod_lt _ (by decide)
    rw [peek, peek, hat, hq', Option.map_some, Option.map_some]
    exact congrArg some (h.wf.setPte_data le_rfl hp hf hno ⟨Nat.le_add_right _ _, by omega⟩)

end Clear

/-! ## A new table -/

section Create

variable {kend : ℕ} {s₀ : Phys} {l₀ : List ℕ}

theorem uVmCreate_bytes {root : ℕ} {l : List ℕ} {t : Phys} (h : Alloc kend s₀ (root :: l))
    (ht : uVmCreate s₀ = (root, t)) {f : ℕ} (hf : Frame kend f) (hne : f ≠ root) {a : ℕ}
    (ha : InPage f a) : t.mem a = s₀.mem a := by
  have hroot := h.frames root List.mem_cons_self
  obtain ⟨u, hu, -, hsame⟩ := h.kalloc_cons
  rw [uVmCreate, hu] at ht
  dsimp only at ht
  rw [if_neg hroot.ne_zero] at ht
  obtain ⟨-, rfl⟩ := Prod.mk.inj ht
  have hnot := hf.disjoint hroot hne ha
  change fill u.mem root PGSIZE 0 a = _
  rw [fill_of_not_mem hnot]
  exact hsame a (hf.first_le.trans ha.1) hnot

/-- The two pages of the trap code in a table without other pages. -/
theorem built_of_mapped {trampoline trapframe root perm perm' : ℕ} {l l₁ l₂ : List ℕ} {u t₁ t₂ : Phys}
    (h₀ : Alloc kend s₀ (root :: l)) (hu : uVmCreate s₀ = (root, u))
    (hempty : ∀ path, path ≠ [] → tablePage u.mem root path = none)
    (hm₁ : PageMapped kend root TRAMPOLINE trampoline perm u l t₁ l₁)
    (hm₂ : PageMapped kend root TRAPFRAME trapframe perm' t₁ l₁ t₂ l₂) :
    Built kend root 0 s₀ (root :: l) t₂ l₂ := by
  have htable : ∀ path p, path.length ≤ 2 → tablePage u.mem root path = some p → p = root := by
    intro path p hlen hp
    by_cases hnil : path = []
    · subst hnil
      exact (Option.some.inj hp).symm
    · rw [hempty path hnil] at hp
      cases hp
  have htable₁ : ∀ path p, path.length ≤ 2 → tablePage t₁.mem root path = some p → p ∈ root :: l := by
    intro path p hlen hp
    rcases hm₁.table path p hlen hp with hp | hmem
    · rw [htable path p hlen hp]
      exact List.mem_cons_self
    · exact List.mem_cons_of_mem _ hmem
  have hsub : ∀ f ∈ l₂, f ∈ l := fun f hf => hm₁.sub f (hm₂.sub f hf)
  have hmem : ∀ f ∈ l₂, f ∈ root :: l := fun f hf => List.mem_cons_of_mem _ (hsub f hf)
  have hlen : l₂.length ≤ (root :: l).length := (hm₂.wf.alloc.nodup.subperm hmem).length_le
  refine ⟨⟨hm₂.wf, rfl, ⟨fun va pa q _ _ hhi => ?_, fun va pa q _ _ hhi => ?_,
    fun va va' pa q q' _ _ _ hhi => ?_⟩, fun va hva => ?_, fun va _ hva => ?_⟩,
    ⟨hmem, fun path p hlen hp => ?_, fun va f q _ hva => ?_, fun f hf hfl a ha => ?_, ?_⟩⟩
  · exact absurd hhi (by rw [Nat.zero_div]; omega)
  · exact absurd hhi (by rw [Nat.zero_div]; omega)
  · exact absurd hhi (by rw [Nat.zero_div]; omega)
  · exact absurd hva (Nat.not_lt_zero va)
  · have hmax := NewPage.lt_MAXVA_of_lt hva
    have hbelow : va < TRAMPOLINE := by
      rw [TRAPFRAME_eq] at hva
      rw [TRAMPOLINE_eq]
      omega
    rw [hm₂.mapped va hmax, if_neg (by omega), hm₁.mapped va hmax, if_neg (by omega), translate_eq hmax,
      leaf, hempty _ (by simp [pathOf]), Option.bind_none, Option.map_none]
  · rcases hm₂.table path p hlen hp with hp | hp
    · exact htable₁ path p hlen hp
    · exact List.mem_cons_of_mem _ (hm₁.sub p hp)
  · exact absurd hva (Nat.not_lt_zero va)
  · have hne : f ≠ root := fun he => hfl (he ▸ List.mem_cons_self)
    have hfl' : f ∉ l := fun hmem => hfl (List.mem_cons_of_mem _ hmem)
    rw [hm₂.data f hf (fun hmem => hfl' (hm₁.sub f hmem)) (fun path hlen hp => hfl (htable₁ path f hlen hp)) a ha,
      hm₁.data f hf hfl' (fun path hlen hp => hne (htable path f hlen hp)) a ha,
      uVmCreate_bytes h₀ hu hf hne ha]
  · rw [Nat.zero_add]
    exact Nat.mul_le_mul_left _ hlen

/-- **`procPagetable`**, if it succeeds: an address space without memory. -/
theorem procPagetable_built {trampoline trapframe root : ℕ} {t : Phys} (h₀ : Alloc kend s₀ l₀)
    (hk : kend < PHYSTOP) (h1 : trampoline < 2 ^ 64) (h1' : trampoline % PGSIZE = 0)
    (h2 : trapframe < 2 ^ 64) (h2' : trapframe % PGSIZE = 0)
    (hr : procPagetable kend trampoline trapframe s₀ = .ok (root, t)) (hr0 : root ≠ 0) :
    ∃ l, Built kend root 0 s₀ l₀ t l := by
  have htf : TRAPFRAME < MAXVA := by
    rw [TRAPFRAME_eq, MAXVA_eq]
    omega
  have htr : TRAMPOLINE < MAXVA := by
    rw [TRAMPOLINE_eq, MAXVA_eq]
    omega
  rw [procPagetable] at hr
  cases l₀ with
  | nil =>
    obtain ⟨u, hu, -⟩ := h₀.kalloc_nil hk
    have hcreate : uVmCreate s₀ = (0, u) := by
      rw [uVmCreate, hu]
      rfl
    rw [hcreate] at hr
    exact absurd (congrArg Prod.fst (Except.ok.inj hr)).symm hr0
  | cons q l =>
    obtain ⟨u, hu, hwf, hempty⟩ := h₀.uVmCreate
    have hun : translate u q TRAMPOLINE = none := by
      rw [translate_eq htr, leaf, hempty _ (by simp [pathOf]), Option.bind_none, Option.map_none]
    rw [hu] at hr
    dsimp only at hr
    rw [if_neg (h₀.frames q List.mem_cons_self).ne_zero] at hr
    rcases hwf.mapPage hk htr (by rw [TRAMPOLINE_eq]; rfl) hun h1 h1'
      (show PTE_R ||| PTE_X < 1024 by decide) with ⟨v, hv⟩ | ⟨v, l₁, hv, hm₁⟩
    · rw [hv, onPages_ok, Loop.ok_bind, if_pos (show (-1 : ℤ) < 0 by decide)] at hr
      obtain ⟨y, -, hy⟩ := Loop.bind_eq_ok.mp hr
      exact absurd (congrArg Prod.fst (Except.ok.inj hy)).symm hr0
    · rw [hv, onPages_ok, Loop.ok_bind, if_neg (show ¬ (0 : ℤ) < 0 by decide)] at hr
      have hun₁ : translate v q TRAPFRAME = none := by
        rw [hm₁.mapped _ htf, if_neg (by rw [TRAPFRAME_eq, TRAMPOLINE_eq]; omega), translate_eq htf, leaf,
          hempty _ (by simp [pathOf]), Option.bind_none, Option.map_none]
      rcases hm₁.wf.mapPage hk htf (by rw [TRAPFRAME_eq]; rfl) hun₁ h2 h2'
        (show PTE_R ||| PTE_W < 1024 by decide) with ⟨w, hw⟩ | ⟨w, l₂, hw, hm₂⟩
      · rw [hw, onPages_ok, Loop.ok_bind, if_pos (show (-1 : ℤ) < 0 by decide)] at hr
        obtain ⟨y, -, hy⟩ := Loop.bind_eq_ok.mp hr
        obtain ⟨z, -, hz⟩ := Loop.bind_eq_ok.mp hy
        exact absurd (congrArg Prod.fst (Except.ok.inj hz)).symm hr0
      · rw [hw, onPages_ok, Loop.ok_bind, if_neg (show ¬ (0 : ℤ) < 0 by decide)] at hr
        obtain ⟨rfl, rfl⟩ := Prod.mk.inj (Except.ok.inj hr)
        exact ⟨l₂, built_of_mapped h₀ hu hempty hm₁ hm₂⟩

end Create

end RiscvOs.Mm
