import RiscvOs.Mm.Copyout

set_option autoImplicit false

/-!
# Copying from user memory

`copyin` of `kernel/mm/vm.c` and `copyinstr` of `kernel/proc/proc.c` go through the pages of a range of user
addresses and copy their bytes to a buffer of the kernel. `copyin` lets `vmfault` make the pages that are
not there yet; `copyinstr` stops at the first byte that is 0, and does not make pages.

## Main results

* `UserSpace.fault` — the fault handler adds a page of zeros, or there are too few free pages.
* `UserSpace.copyinLoop`, `UserSpace.copyinstrLoop` — the loops.
* `copyin_reads_user` — both functions read the bytes of the user.

## Implementation notes

The buffer is not in the pages of the user or of the allocator, so it is a memory of its own, with address 0
for the first byte of `dst`. `reads` is a record of the reads of user memory with the memory at that time;
no branch of the code depends on it. The size of a process is at most `MAXVA`, because `uVmAlloc` maps all
pages below it.
-/

namespace RiscvOs.Mm

open Memory Radix

/-! ## The code -/

/-- A read of `size` bytes at a physical address. -/
structure Read where
  addr : ℕ
  size : ℕ
  phys : Phys

/-- The state of a copy: the buffer of the kernel, the reads, and the memory. -/
structure Fetch where
  dst : Mem
  reads : List Read
  phys : Phys

/-- `memmove` of `n` bytes from the physical address `p` to byte `k` of the buffer. -/
def Fetch.memmove (c : Fetch) (k p n : ℕ) : Fetch :=
  { c with dst := put c.dst k n fun i => c.phys.mem (p + i), reads := ⟨p, n, c.phys⟩ :: c.reads }

/-- The byte at the physical address `p` is read and stored as byte `k` of the buffer. -/
def Fetch.copyByte (c : Fetch) (k p : ℕ) : Fetch := c.memmove k p 1

/-- The loop of `copyin`, with `fault` for `vmfault`. `k` bytes have been copied. -/
def copyinLoop (fault : ℕ → Phys → Except Panic (ℕ × Phys)) (pagetable : ℕ) :
    (fuel srcva len k : ℕ) → Fetch → Except Panic (ℤ × Fetch)
  | 0, _, _, _, _ => .error .loop
  | fuel + 1, srcva, len, k, c =>
    if len = 0 then .ok (0, c)
    else do
      let va0 := pgRoundDown srcva
      let pa0 ← uVA2PA pagetable va0 c.phys
      let (pa0, s) ← faultIn fault va0 pa0 c.phys
      let c := { c with phys := s }
      if pa0 = 0 then .ok (-1, c)
      else
        let n := min (PGSIZE - (srcva - va0)) len
        -- the page is below `MAXVA`, so the sum does not wrap
        copyinLoop fault pagetable fuel (va0 + PGSIZE) (len - n) (k + n)
          (c.memmove k (pa0 + (srcva - va0)) n)

/-- `copyin`, with `fault` in the place of `vmfault`. -/
def copyinBy (fault : ℕ → Phys → Except Panic (ℕ × Phys)) (pagetable : ℕ) (dst : Mem) (srcva len : ℕ) (s : Phys) :
    Except Panic (ℤ × Fetch) := copyinLoop fault pagetable (len + 1) srcva len 0 ⟨dst, [], s⟩

/-- Copy `len` bytes at the address `srcva` of the current process, which has `sz` bytes, to `dst`. -/
def copyin (kend sz pagetable : ℕ) (dst : Mem) (srcva len : ℕ) (s : Phys) : Except Panic (ℤ × Fetch) :=
  copyinBy (vmfault kend sz pagetable) pagetable dst srcva len s

/-- The inner loop of `copyinstr`: `n` bytes from the physical address `p` on. The result is `got_null` and
what is left of `max`, the number of bytes copied and the state. -/
def copyinstrPage : (n p max k : ℕ) → Fetch → Bool × ℕ × ℕ × Fetch
  | 0, _, max, k, c => (false, max, k, c)
  | n + 1, p, max, k, c =>
    if c.phys.mem p = 0 then (true, max, k, c.copyByte k p)
    else copyinstrPage n (p + 1) (max - 1) (k + 1) (c.copyByte k p)

/-- The outer loop of `copyinstr`. -/
def copyinstrLoop (pagetable : ℕ) : (fuel srcva max k : ℕ) → Fetch → Except Panic (ℤ × Fetch)
  | 0, _, _, _, _ => .error .loop
  | fuel + 1, srcva, max, k, c =>
    if max = 0 then .ok (-1, c)
    else do
      let va0 := pgRoundDown srcva
      let pa0 ← uVA2PA pagetable va0 c.phys
      if pa0 = 0 then .ok (-1, c)
      else
        let n := min (PGSIZE - (srcva - va0)) max
        match copyinstrPage n (pa0 + (srcva - va0)) max k c with
        | (true, _, _, c) => .ok (0, c)
        | (false, max, k, c) => copyinstrLoop pagetable fuel (va0 + PGSIZE) max k c

/-- Copy a string of at most `max` bytes, with the 0 at its end, at the address `srcva` to `dst`. -/
def copyinstr (pagetable : ℕ) (dst : Mem) (srcva max : ℕ) (s : Phys) : Except Panic (ℤ × Fetch) :=
  copyinstrLoop pagetable (max + 1) srcva max 0 ⟨dst, [], s⟩

/-! ## What the user reads -/

/-- The user may access an address: its page is mapped, with `PTE_U`. -/
def Readable (root : ℕ) (s : Phys) (va : ℕ) : Prop :=
  ∃ pa perm, translate s root va = some (pa, perm) ∧ perm &&& PTE_U ≠ 0

/-- The byte that the user reads at an address. -/
def userByte (root : ℕ) (s : Phys) (va : ℕ) : Option UInt8 :=
  (translate s root va).bind fun (pa, perm) => if perm &&& PTE_U = 0 then none else some (s.mem pa)

/-- All bytes of a read are bytes that the user may access. -/
def Read.OfUser (root : ℕ) (q : Read) : Prop :=
  ∀ i < q.size, ∃ va perm, translate q.phys root va = some (q.addr + i, perm) ∧ perm &&& PTE_U ≠ 0

/-- `t` is the state after some calls of `vmfault` from `s`: what is mapped stays mapped, pages of zeros
below the size of the process may be mapped in addition, and the bytes of the other allocated pages are the
same. -/
structure Extended (kend root sz : ℕ) (s : Phys) (l : List ℕ) (t : Phys) (l' : List ℕ) : Prop
    extends Kept kend root s l t l' where
  space : UserSpace kend root t l'
  old : ∀ x pa perm, translate s root x = some (pa, perm) → translate t root x = some (pa, perm)
  new : ∀ x pa perm, translate t root x = some (pa, perm) → translate s root x = some (pa, perm) ∨
    (translate s root x = none ∧ pgRoundDown x < sz ∧ perm &&& PTE_U ≠ 0 ∧ t.mem pa = 0)

/-- The page of an address is mapped with `PTE_U`, or it is not mapped, is below the size of the process,
and has been made. -/
def Present (root sz : ℕ) (s t : Phys) (va : ℕ) : Prop :=
  Readable root s va ∨ (translate s root va = none ∧ pgRoundDown va < sz ∧ Readable root t va)

/-- Why the page of an address is refused: it is mapped without `PTE_U`, or it is not mapped and it is beyond
the size of the process, or there are too few free pages. -/
def Refused (kend root sz : ℕ) (s t : Phys) (va : ℕ) : Prop :=
  (∃ pa perm, translate s root va = some (pa, perm) ∧ perm &&& PTE_U = 0) ∨
    (translate s root va = none ∧ (sz ≤ pgRoundDown va ∨
      (translate t root va = none ∧ ∃ l', Alloc kend t l' ∧ l'.length ≤ missing t.mem root (pgRoundDown va))))

/-- The result of `copyin` is right. -/
structure CopyinRight (kend root sz : ℕ) (s : Phys) (dst : Mem) (va len : ℕ) (r : ℤ) (c : Fetch) :
    Prop where
  zero_iff : r = 0 ↔ ∀ i < len, Present root sz s c.phys (va + i)
  refused : r ≠ 0 → r = -1 ∧ ∃ i < len, Refused kend root sz s c.phys (va + i)
  bytes : r = 0 → ∀ i < len, userByte root c.phys (va + i) = some (c.dst i)
  kept : ∀ i, len ≤ i → c.dst i = dst i
  same : ∀ x b, userByte root s x = some b → userByte root c.phys x = some b
  reads : ∀ q ∈ c.reads, q.OfUser root

/-- The result of `copyinstr` is right. -/
structure CopyinstrRight (root : ℕ) (s : Phys) (dst : Mem) (va max : ℕ) (r : ℤ) (c : Fetch) : Prop where
  zero_iff : r = 0 ↔ ∃ i < max, userByte root s (va + i) = some 0 ∧ ∀ j < i, Readable root s (va + j)
  refused : r ≠ 0 → r = -1
  string : r = 0 → ∃ i < max, (∀ j < i, userByte root s (va + j) = some (c.dst j) ∧ c.dst j ≠ 0) ∧
    userByte root s (va + i) = some 0 ∧ c.dst i = 0 ∧ ∀ j, i < j → c.dst j = dst j
  kept : ∀ i, max ≤ i → c.dst i = dst i
  same : c.phys = s
  reads : ∀ q ∈ c.reads, q.OfUser root

/-! ## Tables with more pages -/

section Extended

variable {kend root sz va : ℕ} {s t u : Phys} {l l' l'' : List ℕ}

theorem readable_iff (hva : va < MAXVA) :
    Readable root s va ↔ ∃ e, leaf s.mem root (pathOf va) (px 0 va) = some e ∧ e &&& PTE_U ≠ 0 := by
  have h := exists_translate_iff root s hva fun perm => perm &&& PTE_U ≠ 0
  simp only [and_PTE_U] at h
  exact h

theorem userByte_eq {pa perm : ℕ} (h : translate s root va = some (pa, perm)) (hu : perm &&& PTE_U ≠ 0) :
    userByte root s va = some (s.mem pa) := by
  rw [userByte, h, Option.bind_some]
  exact if_neg hu

theorem userByte_eq_some_iff {b : UInt8} :
    userByte root s va = some b ↔
      ∃ pa perm, translate s root va = some (pa, perm) ∧ perm &&& PTE_U ≠ 0 ∧ s.mem pa = b := by
  unfold userByte
  constructor
  · intro h
    obtain ⟨⟨pa, perm⟩, htr, hb⟩ := Option.bind_eq_some_iff.mp h
    dsimp only at hb
    split_ifs at hb with hu
    exact ⟨pa, perm, htr, hu, Option.some.inj hb⟩
  · rintro ⟨pa, perm, htr, hu, rfl⟩
    rw [htr, Option.bind_some]
    exact if_neg hu

theorem readable_of_userByte {b : UInt8} (h : userByte root s va = some b) : Readable root s va := by
  obtain ⟨pa, perm, htr, hu, -⟩ := userByte_eq_some_iff.mp h
  exact ⟨pa, perm, htr, hu⟩

theorem not_readable_of_ge (h : MAXVA ≤ va) : ¬ Readable root s va := by
  rintro ⟨pa, perm, htr, -⟩
  rw [translate_ge h] at htr
  cases htr

theorem Extended.refl (h : UserSpace kend root s l) : Extended kend root sz s l s l :=
  ⟨.refl h.wf, h, fun _ _ _ htr => htr, fun _ _ _ htr => Or.inl htr⟩

theorem UserSpace.extended_of_grown (h : UserSpace kend root s l) (hg : Grown kend root s l t l') :
    Extended kend root sz s l t l' := by
  have htr := translate_congr hg.leaf
  refine ⟨hg.toKept, h.grown hg, fun x pa perm hx => ?_, fun x pa perm hx => Or.inl ?_⟩
  · rwa [htr]
  · rwa [← htr]

theorem UserSpace.page_of_translate (h : UserSpace kend root s l) {pa perm : ℕ}
    (htr : translate s root va = some (pa, perm)) (hu : perm &&& PTE_U ≠ 0) :
    ∃ f, Frame kend f ∧ f ∉ l ∧ OffTable s root f ∧ InPage f pa := by
  have hva : va < MAXVA := by
    by_contra hge
    rw [translate_ge (by omega)] at htr
    cases htr
  rw [translate_eq hva] at htr
  obtain ⟨e, he, heq⟩ := Option.map_eq_some_iff.mp htr
  obtain ⟨rfl, rfl⟩ := Prod.mk.inj heq
  rw [and_PTE_U] at hu
  obtain ⟨hf, hfl⟩ := h.frame _ _ e rfl he hu
  refine ⟨pte2pa e, hf, hfl, h.data _ _ e rfl he hu, Nat.le_add_right _ _, ?_⟩
  have hlt := Nat.mod_lt va (show 0 < PGSIZE by decide)
  omega

theorem Extended.byte_eq (h : UserSpace kend root s l) (he : Extended kend root sz s l t l') {pa perm : ℕ}
    (htr : translate s root va = some (pa, perm)) (hu : perm &&& PTE_U ≠ 0) : t.mem pa = s.mem pa := by
  obtain ⟨f, hf, hfl, hno, hin⟩ := h.page_of_translate htr hu
  exact he.data f hf hfl hno pa hin

theorem Extended.userByte_eq (h : UserSpace kend root s l) (he : Extended kend root sz s l t l') {b : UInt8}
    (hb : userByte root s va = some b) : userByte root t va = some b := by
  obtain ⟨pa, perm, htr, hu, rfl⟩ := userByte_eq_some_iff.mp hb
  rw [Mm.userByte_eq (he.old _ _ _ htr) hu, he.byte_eq h htr hu]

theorem Extended.none_of_none (he : Extended kend root sz s l t l') (h : translate t root va = none) :
    translate s root va = none := by
  cases htr : translate s root va with
  | none => rfl
  | some x =>
    rw [he.old va x.1 x.2 htr] at h
    cases h

theorem Extended.trans (h : Extended kend root sz s l t l') (h' : Extended kend root sz t l' u l'') :
    Extended kend root sz s l u l'' where
  toKept := h.toKept.trans h'.toKept
  space := h'.space
  old x pa perm htr := h'.old x pa perm (h.old x pa perm htr)
  new x pa perm htr := by
    rcases h'.new x pa perm htr with htr | ⟨hnone, hrest⟩
    · rcases h.new x pa perm htr with hold | ⟨hnone, hsz, hu, hzero⟩
      · exact Or.inl hold
      · refine Or.inr ⟨hnone, hsz, hu, ?_⟩
        rw [h'.byte_eq h.space htr hu, hzero]
    · exact Or.inr ⟨h.none_of_none hnone, hrest⟩

theorem Extended.present (he : Extended kend root sz s l t l') (h : Readable root t va) :
    Present root sz s t va := by
  obtain ⟨pa, perm, htr, hu⟩ := h
  rcases he.new va pa perm htr with hold | ⟨hnone, hsz, -, -⟩
  · exact Or.inl ⟨pa, perm, hold, hu⟩
  · exact Or.inr ⟨hnone, hsz, pa, perm, htr, hu⟩

theorem Refused.not_present (h : Refused kend root sz s t va) : ¬ Present root sz s t va := by
  rintro (⟨pa, perm, htr, hu⟩ | ⟨hnone, hsz, pa, perm, htr, hu⟩)
  · rcases h with ⟨pa', perm', htr', hu'⟩ | ⟨hnone, -⟩
    · rw [htr'] at htr
      cases htr
      exact hu hu'
    · rw [hnone] at htr
      cases htr
  · rcases h with ⟨pa', perm', htr', -⟩ | ⟨-, hge | ⟨hnone', -⟩⟩
    · rw [hnone] at htr'
      cases htr'
    · omega
    · rw [hnone'] at htr
      cases htr

theorem Refused.of_extended (he : Extended kend root sz s l t l') (h : Refused kend root sz t u va) :
    Refused kend root sz s u va := by
  rcases h with ⟨pa, perm, htr, hu⟩ | ⟨hnone, hrest⟩
  · rcases he.new va pa perm htr with hold | ⟨-, -, hnot, -⟩
    · exact Or.inl ⟨pa, perm, hold, hu⟩
    · exact absurd hu hnot
  · exact Or.inr ⟨he.none_of_none hnone, hrest⟩

/-- **The fault handler** adds a page of zeros to the table, or there are too few free pages. -/
theorem UserSpace.fault (h : UserSpace kend root s l) (hk : kend < PHYSTOP) (hva : va < MAXVA)
    (hal : va % PGSIZE = 0) (hsz : va < sz) (hun : leaf s.mem root (pathOf va) (px 0 va) = none) :
    ∃ f t l', vmfault kend sz root va s = .ok (f, t) ∧ Extended kend root sz s l t l' ∧
      ((f = 0 ∧ translate t root va = none ∧ l'.length ≤ missing t.mem root va) ∨
        ∃ e, leaf t.mem root (pathOf va) (px 0 va) = some e ∧ e &&& PTE_U ≠ 0 ∧ pte2pa e = f) := by
  by_cases hmany : missing s.mem root va < l.length
  · obtain ⟨f, u, l', p, hfault, hmem, hfl, hg, hp, hdata, hzero⟩ :=
      h.wf.vmfault_serves hk hva hal hsz hun hmany
    have hf := h.wf.alloc.frames f hmem
    have hv := hf.faultPte_lt
    have hodd : faultPte f % 2 ≠ 0 := by
      rw [faultPte, pte_valid]
      decide
    obtain ⟨hspace, hleaf⟩ := h.served hg hmem hfl hdata hp
    have htr : ∀ x, translate (u.setPte p (px 0 va) (faultPte f)) root x =
        if x < MAXVA ∧ x / PGSIZE = va / PGSIZE then
          some (f + x % PGSIZE, PTE_W ||| PTE_U ||| PTE_R ||| PTE_V)
        else translate s root x := by
      intro x
      by_cases hx : x < MAXVA
      · rw [hg.wf.translate_setPte hva hp hv hx, if_pos hodd, hf.pte2pa_faultPte, pteFlags_faultPte,
          hg.translate_eq hx]
        simp only [hx, true_and]
      · rw [translate_ge (by omega), translate_ge (by omega), if_neg fun hcon => hx hcon.1]
    have hnone : ∀ x, x < MAXVA → x / PGSIZE = va / PGSIZE → translate s root x = none := by
      intro x hx hsame
      obtain ⟨hpath, hidx⟩ := (same_indices_iff hx hva).mpr hsame
      rw [translate_eq_none hx, hpath, hidx]
      exact hun
    refine ⟨f, _, l', hfault, ⟨hg.toKept.setPte rfl hp hv, hspace, fun x pa perm hx => ?_,
      fun x pa perm hx => ?_⟩, Or.inr ⟨faultPte f, hleaf, (faultPte_flags f).1, hf.pte2pa_faultPte⟩⟩
    · rw [htr, if_neg, hx]
      rintro ⟨hlt, hsame⟩
      rw [hnone x hlt hsame] at hx
      cases hx
    · rw [htr] at hx
      split_ifs at hx with hsame
      · obtain ⟨rfl, rfl⟩ := Prod.mk.inj (Option.some.inj hx)
        refine Or.inr ⟨hnone x hsame.1 hsame.2, ?_, by decide, ?_⟩
        · simp only [pgRoundDown, PGSIZE] at *
          omega
        · have hin : InPage f (f + x % PGSIZE) :=
            ⟨Nat.le_add_right _ _, Nat.add_lt_add_left (Nat.mod_lt _ (by decide)) _⟩
          rw [hg.wf.setPte_data le_rfl hp hf hdata hin, hzero _ hin]
      · exact Or.inl hx
  · obtain ⟨t, l', hfault, hg, hfew⟩ := h.wf.vmfault_fails hk hva hal hsz hun (by omega)
    refine ⟨0, t, l', hfault, h.extended_of_grown hg, Or.inl ⟨rfl, ?_, hfew⟩⟩
    rw [hg.translate_eq hva, translate_eq_none hva]
    exact hun

end Extended

/-! ## `copyin` -/

section Copyin

variable {kend root sz va len k fuel : ℕ} {s t : Phys} {l l' : List ℕ} {c : Fetch}

variable (root s) in
theorem leaf_pgRoundDown (hva : va < MAXVA) :
    leaf s.mem root (pathOf (pgRoundDown va)) (px 0 (pgRoundDown va)) =
      leaf s.mem root (pathOf va) (px 0 va) := by
  have hle : pgRoundDown va ≤ va := Nat.sub_le _ _
  have hsame : pgRoundDown va / PGSIZE = va / PGSIZE := by
    simp only [pgRoundDown, PGSIZE]
    omega
  obtain ⟨hpath, hidx⟩ := (same_indices_iff (show pgRoundDown va < MAXVA by omega) hva).mpr hsame
  rw [hpath, hidx]

theorem pgRoundDown_lt_iff : pgRoundDown va < MAXVA ↔ va < MAXVA := by
  rw [MAXVA_eq]
  simp only [pgRoundDown, PGSIZE]
  omega

/-- **The page of a round**: it is in the table after the call of `vmfault`, or it is refused. -/
theorem UserSpace.page (h : UserSpace kend root s l) (hk : kend < PHYSTOP) (hsz : sz ≤ MAXVA) (va : ℕ) :
    ∃ pa0 pa1 t l', uVA2PA root (pgRoundDown va) s = .ok pa0 ∧
      faultIn (vmfault kend sz root) (pgRoundDown va) pa0 s = .ok (pa1, t) ∧ Extended kend root sz s l t l' ∧
      ((pa1 = 0 ∧ Refused kend root sz s t va) ∨
        (pgRoundDown va < MAXVA ∧ pa1 ≠ 0 ∧ ∃ e, e &&& PTE_U ≠ 0 ∧ pte2pa e = pa1 ∧
          leaf t.mem root (pathOf (pgRoundDown va)) (px 0 (pgRoundDown va)) = some e)) := by
  by_cases hva : va < MAXVA
  · have hdown := pgRoundDown_lt_iff.mpr hva
    have hleaf := leaf_pgRoundDown root s hva
    rw [uVA2PA_eq hdown]
    cases he : leaf s.mem root (pathOf (pgRoundDown va)) (px 0 (pgRoundDown va)) with
    | none =>
      have hnone : translate s root va = none := (translate_eq_none hva).mpr (hleaf.symm.trans he)
      by_cases hlt : pgRoundDown va < sz
      · obtain ⟨f, t, l', hfault, hext, hres⟩ := h.fault hk hdown (pgRoundDown_mod va) hlt he
        refine ⟨0, f, t, l', rfl, by rw [faultIn, if_pos rfl, hfault], hext, ?_⟩
        rcases hres with ⟨rfl, htr, hfew⟩ | ⟨e, hnew, hu, rfl⟩
        · refine Or.inl ⟨rfl, Or.inr ⟨hnone, Or.inr ⟨?_, l', hext.space.wf.alloc, hfew⟩⟩⟩
          rw [translate_eq_none hdown, leaf_pgRoundDown _ _ hva] at htr
          exact (translate_eq_none hva).mpr htr
        · exact Or.inr ⟨hdown, (hext.space.frame _ _ e rfl hnew hu).1.ne_zero, e, hu, rfl, hnew⟩
      · refine ⟨0, 0, s, l, rfl, ?_, .refl h, Or.inl ⟨rfl, Or.inr ⟨hnone, Or.inl (by omega)⟩⟩⟩
        rw [faultIn, if_pos rfl, vmfault_zero kend root sz s hdown (pgRoundDown_mod va) (Or.inl (by omega))]
    | some e =>
      by_cases hu : e &&& PTE_U = 0
      · refine ⟨0, 0, s, l, by dsimp only; rw [if_pos hu], ?_, .refl h, Or.inl ⟨rfl, Or.inl ?_⟩⟩
        · rw [faultIn, if_pos rfl,
            vmfault_zero kend root sz s hdown (pgRoundDown_mod va) (Or.inr (by rw [he]; simp))]
        · refine ⟨pte2pa e + va % PGSIZE, pteFlags e, ?_, (and_PTE_U e).trans hu⟩
          rw [translate_eq hva, ← hleaf, he, Option.map_some]
      · have hf := (h.frame _ _ e rfl he hu).1
        refine ⟨pte2pa e, pte2pa e, s, l, by dsimp only; rw [if_neg hu], ?_, .refl h,
          Or.inr ⟨hdown, hf.ne_zero, e, hu, rfl, he⟩⟩
        rw [faultIn, if_neg hf.ne_zero]
  · -- `uVA2PA` refuses the address, and it is beyond the size of the process
    have hge : MAXVA ≤ pgRoundDown va := by
      rw [← not_lt, pgRoundDown_lt_iff]
      exact hva
    refine ⟨0, 0, s, l, ?_, ?_, .refl h, Or.inl ⟨rfl, Or.inr ⟨translate_ge (by omega), Or.inl (by omega)⟩⟩⟩
    · rw [uVA2PA, if_pos hge]
    · rw [faultIn, if_pos rfl, vmfault, if_pos (by omega)]

/-- What a copy of `len` bytes to byte `k` of the buffer has done. -/
structure Fetched (kend root sz : ℕ) (c : Fetch) (l : List ℕ) (va len k : ℕ) (r : ℤ) (c' : Fetch) :
    Prop where
  extended : ∃ l', Extended kend root sz c.phys l c'.phys l'
  bytes : r = 0 → ∀ i < len, userByte root c'.phys (va + i) = some (c'.dst (k + i))
  refused : r ≠ 0 → r = -1 ∧ ∃ i < len, Refused kend root sz c.phys c'.phys (va + i)
  kept : ∀ j, j < k ∨ k + len ≤ j → c'.dst j = c.dst j
  reads : ∀ q ∈ c'.reads, q ∈ c.reads ∨ q.OfUser root

@[simp] theorem Fetch.memmove_dst (c : Fetch) (k p n : ℕ) :
    (c.memmove k p n).dst = put c.dst k n fun i => c.phys.mem (p + i) := rfl

theorem Fetch.memmove_of_lt {p n j : ℕ} (h : j < n) : (c.memmove k p n).dst (k + j) = c.phys.mem (p + j) := by
  rw [Fetch.memmove_dst, put_of_mem ⟨Nat.le_add_right _ _, by omega⟩, Nat.add_sub_cancel_left]

theorem Fetch.memmove_of_not {p n j : ℕ} (h : ¬ (k ≤ j ∧ j < k + n)) :
    (c.memmove k p n).dst j = c.dst j := by
  rw [Fetch.memmove_dst, put_of_not_mem h]

theorem ofUser_chunk (hva : pgRoundDown va < MAXVA) {e n : ℕ} (hu : e &&& PTE_U ≠ 0)
    (he : leaf s.mem root (pathOf (pgRoundDown va)) (px 0 (pgRoundDown va)) = some e)
    (hn : n ≤ chunk va len) : Read.OfUser root ⟨pte2pa e + (va - pgRoundDown va), n, s⟩ := by
  intro i hi
  refine ⟨va + i, pteFlags e, translate_chunk hva he (hi.trans_le hn), ?_⟩
  rwa [and_PTE_U]

/-- **The first page of a copy and the rest.** -/
theorem Fetched.cons (h : UserSpace kend root t l') (hext : Extended kend root sz c.phys l t l') {e : ℕ}
    (hva : pgRoundDown va < MAXVA) (hu : e &&& PTE_U ≠ 0)
    (he : leaf t.mem root (pathOf (pgRoundDown va)) (px 0 (pgRoundDown va)) = some e) {r : ℤ} {c' : Fetch}
    (hrest : Fetched kend root sz
      (({ c with phys := t } : Fetch).memmove k (pte2pa e + (va - pgRoundDown va)) (chunk va len)) l'
      (pgRoundDown va + PGSIZE) (len - chunk va len) (k + chunk va len) r c') :
    Fetched kend root sz c l va len k r c' := by
  obtain ⟨l'', hext'⟩ := hrest.extended
  have hle : chunk va len ≤ len := min_le_right _ _
  refine ⟨⟨l'', hext.trans hext'⟩, fun hr i hi => ?_, fun hr => ?_, fun j hj => ?_, fun q hq => ?_⟩
  · by_cases hic : i < chunk va len
    · have hbyte := userByte_eq (translate_chunk hva he hic) ((and_PTE_U e).trans_ne hu)
      rw [hext'.userByte_eq h hbyte, hrest.kept _ (Or.inl (by omega)), Fetch.memmove_of_lt hic]
    · have hsum := add_chunk va len (by omega)
      have hbyte := hrest.bytes hr (i - chunk va len) (by omega)
      rw [show pgRoundDown va + PGSIZE + (i - chunk va len) = va + i by omega,
        show k + chunk va len + (i - chunk va len) = k + i by omega] at hbyte
      exact hbyte
  · obtain ⟨hneg, i, hi, hrefused⟩ := hrest.refused hr
    have hsum := add_chunk va len (by omega)
    refine ⟨hneg, chunk va len + i, by omega, ?_⟩
    rw [show va + (chunk va len + i) = pgRoundDown va + PGSIZE + i by omega]
    exact hrefused.of_extended hext
  · rw [hrest.kept j (by omega), Fetch.memmove_of_not (by omega)]
  · rcases hrest.reads q hq with hq | hq
    · rcases List.mem_cons.mp hq with rfl | hq
      · exact Or.inr (ofUser_chunk hva hu he (le_refl _))
      · exact Or.inl hq
    · exact Or.inr hq

variable (va k c) in
/-- **The loop of `copyin`.** -/
theorem UserSpace.copyinLoop (h : UserSpace kend root c.phys l) (hk : kend < PHYSTOP) (hsz : sz ≤ MAXVA)
    (hfuel : len < fuel) :
    ∃ r c', Mm.copyinLoop (vmfault kend sz root) root fuel va len k c = .ok (r, c') ∧
      Fetched kend root sz c l va len k r c' := by
  induction fuel generalizing va len k c l with
  | zero => exact absurd hfuel (Nat.not_lt_zero _)
  | succ fuel ih =>
    by_cases hlen : len = 0
    · subst hlen
      refine ⟨0, c, if_pos rfl, ⟨l, .refl h⟩, fun _ i hi => absurd hi (Nat.not_lt_zero i),
        fun hr => absurd rfl hr, fun _ _ => rfl, fun q hq => Or.inl hq⟩
    obtain ⟨pa0, pa1, t, l', hpa, hfault, hext, hres⟩ := h.page hk hsz va
    rcases hres with ⟨rfl, hrefused⟩ | ⟨hva, hne, e, hu, rfl, he⟩
    · refine ⟨-1, { c with phys := t }, ?_, ⟨l', hext⟩, fun hr => absurd hr (by decide),
        fun _ => ⟨rfl, 0, by omega, hrefused⟩, fun _ _ => rfl, fun q hq => Or.inl hq⟩
      rw [Mm.copyinLoop, if_neg hlen]
      dsimp only [bind, Except.bind]
      rw [hpa]
      dsimp only
      rw [hfault]
      dsimp only
      rw [if_pos rfl]
    · have hpos := chunk_pos va hlen
      obtain ⟨r, c', hc', hrest⟩ := ih (pgRoundDown va + PGSIZE) (k + chunk va len)
        (({ c with phys := t } : Fetch).memmove k (pte2pa e + (va - pgRoundDown va)) (chunk va len))
        hext.space (show len - chunk va len < fuel by omega)
      refine ⟨r, c', ?_, .cons hext.space hext hva hu he hrest⟩
      rw [Mm.copyinLoop, if_neg hlen]
      dsimp only [bind, Except.bind]
      rw [hpa]
      dsimp only
      rw [hfault]
      dsimp only
      rw [if_neg hne]
      exact hc'

end Copyin

/-! ## `copyinstr` -/

section Copyinstr

variable {kend root va max k fuel : ℕ} {s : Phys} {l : List ℕ} {c : Fetch}

/-- **The inner loop of `copyinstr`** copies up to the first 0, or all bytes. -/
theorem copyinstrPage_eq (n p max k : ℕ) (c : Fetch) :
    ∃ g m k' c', copyinstrPage n p max k c = (g, m, k', c') ∧ c'.phys = c.phys ∧
      (∀ q ∈ c'.reads, q ∈ c.reads ∨ ∃ i < n, q = ⟨p + i, 1, c.phys⟩) ∧
      ((g = true ∧ ∃ i < n, (∀ j < i, c.phys.mem (p + j) ≠ 0) ∧ c.phys.mem (p + i) = 0 ∧
          c'.dst = put c.dst k (i + 1) fun j => c.phys.mem (p + j)) ∨
        (g = false ∧ m = max - n ∧ k' = k + n ∧ (∀ j < n, c.phys.mem (p + j) ≠ 0) ∧
          c'.dst = put c.dst k n fun j => c.phys.mem (p + j))) := by
  induction n generalizing p max k c with
  | zero =>
    refine ⟨false, max, k, c, rfl, rfl, fun q hq => Or.inl hq, Or.inr ⟨rfl, rfl, rfl, ?_, ?_⟩⟩
    · exact fun j hj => absurd hj (Nat.not_lt_zero j)
    · rw [put_zero]
  | succ n ih =>
    have hcopy : (c.copyByte k p).dst = put c.dst k 1 fun j => c.phys.mem (p + j) := rfl
    by_cases hzero : c.phys.mem p = 0
    · refine ⟨true, max, k, c.copyByte k p, if_pos hzero, rfl, fun q hq => ?_, Or.inl ⟨rfl, 0, by omega, ?_⟩⟩
      · rcases List.mem_cons.mp hq with rfl | hq
        · exact Or.inr ⟨0, by omega, rfl⟩
        · exact Or.inl hq
      · exact ⟨fun j hj => absurd hj (Nat.not_lt_zero j), hzero, hcopy⟩
    · obtain ⟨g, m, k', c', heq, hphys, hreads, hres⟩ := ih (p + 1) (max - 1) (k + 1) (c.copyByte k p)
      have hmem : ∀ j, (c.copyByte k p).phys.mem (p + 1 + j) = c.phys.mem (p + (1 + j)) := by
        intro j
        rw [← Nat.add_assoc]
        rfl
      simp only [hmem, hcopy, put_append] at hres
      refine ⟨g, m, k', c', (if_neg hzero).trans heq, hphys, fun q hq => ?_, ?_⟩
      · rcases hreads q hq with hq | ⟨i, hi, rfl⟩
        · rcases List.mem_cons.mp hq with rfl | hq
          · exact Or.inr ⟨0, by omega, rfl⟩
          · exact Or.inl hq
        · refine Or.inr ⟨i + 1, by omega, ?_⟩
          rw [Nat.add_assoc, Nat.add_comm 1 i]
          rfl
      · -- the bytes from `p` on: `p` itself, and then those of the other rounds
        have hall : ∀ i, (∀ j < i, c.phys.mem (p + (1 + j)) ≠ 0) → ∀ j < i + 1, c.phys.mem (p + j) ≠ 0 := by
          intro i hi j hj
          cases j with
          | zero => exact hzero
          | succ j =>
            rw [Nat.add_comm j 1]
            exact hi j (by omega)
        rcases hres with ⟨hg, i, hi, hne, hend, hdst⟩ | ⟨hg, hm, hk', hne, hdst⟩
        · refine Or.inl ⟨hg, i + 1, by omega, hall i hne, ?_, ?_⟩
          · rw [Nat.add_comm i 1]
            exact hend
          · rw [hdst, Nat.add_comm 1 (i + 1)]
        · refine Or.inr ⟨hg, by omega, by omega, hall n hne, ?_⟩
          rw [hdst, Nat.add_comm 1 n]

/-- The bytes of the user from an address on. -/
def userBytes (root : ℕ) (s : Phys) (va : ℕ) : ℕ → UInt8 := fun i => (userByte root s (va + i)).getD 0

theorem userBytes_add (root : ℕ) (s : Phys) (va n : ℕ) :
    userBytes root s (va + n) = fun i => userBytes root s va (n + i) := by
  funext i
  rw [userBytes, userBytes, Nat.add_assoc]

theorem readable_pgRoundDown : Readable root s (pgRoundDown va) ↔ Readable root s va := by
  by_cases hva : va < MAXVA
  · rw [readable_iff hva, readable_iff (pgRoundDown_lt_iff.mpr hva), leaf_pgRoundDown _ _ hva]
  · have hge : ¬ pgRoundDown va < MAXVA := fun hlt => hva (pgRoundDown_lt_iff.mp hlt)
    exact iff_of_false (not_readable_of_ge (by omega)) (not_readable_of_ge (by omega))

theorem uVA2PA_of_not_readable (h : ¬ Readable root s va) : uVA2PA root va s = .ok 0 := by
  by_cases hva : va < MAXVA
  · rw [uVA2PA_eq hva]
    rw [readable_iff hva] at h
    cases he : leaf s.mem root (pathOf va) (px 0 va) with
    | none => rfl
    | some e =>
      dsimp only
      rw [if_pos (not_not.mp fun hu => h ⟨e, he, hu⟩)]
  · rw [uVA2PA, if_pos (by omega)]

theorem copyinstrLoop_zero (root va k : ℕ) (c : Fetch) (hfuel : 0 < fuel) :
    copyinstrLoop root fuel va 0 k c = .ok (-1, c) := by
  cases fuel with
  | zero => exact absurd hfuel (Nat.lt_irrefl 0)
  | succ fuel => exact if_pos rfl

/-- What a copy of a string to byte `k` of the buffer has done: `m` bytes have been copied. -/
structure Scanned (root : ℕ) (c : Fetch) (va max k : ℕ) (r : ℤ) (m : ℕ) (c' : Fetch) : Prop where
  phys : c'.phys = c.phys
  dst : c'.dst = put c.dst k m (userBytes root c.phys va)
  reads : ∀ q ∈ c'.reads, q ∈ c.reads ∨ q.OfUser root
  ended : (r = 0 ∧ ∃ i < max, m = i + 1 ∧ userByte root c.phys (va + i) = some 0 ∧
      ∀ j < i, ∃ b ≠ 0, userByte root c.phys (va + j) = some b) ∨
    (r = -1 ∧ (m = max ∨ (m < max ∧ ¬ Readable root c.phys (va + m))) ∧
      ∀ j < m, ∃ b ≠ 0, userByte root c.phys (va + j) = some b)

/-- **A page without a 0, and the rest.** -/
theorem Scanned.cons {n m : ℕ} {r : ℤ} {c₁ c' : Fetch} (hn : n ≤ max) (hphys : c₁.phys = c.phys)
    (hdst : c₁.dst = put c.dst k n (userBytes root c.phys va))
    (hreads : ∀ q ∈ c₁.reads, q ∈ c.reads ∨ q.OfUser root)
    (hbytes : ∀ j < n, ∃ b ≠ 0, userByte root c.phys (va + j) = some b)
    (h : Scanned root c₁ (va + n) (max - n) (k + n) r m c') :
    Scanned root c va max k r (n + m) c' := by
  have hall : ∀ i, (∀ j < i, ∃ b ≠ 0, userByte root c.phys (va + n + j) = some b) →
      ∀ j < n + i, ∃ b ≠ 0, userByte root c.phys (va + j) = some b := by
    intro i hi j hj
    by_cases hjn : j < n
    · exact hbytes j hjn
    · obtain ⟨b, hb, hbyte⟩ := hi (j - n) (by omega)
      rw [show va + n + (j - n) = va + j by omega] at hbyte
      exact ⟨b, hb, hbyte⟩
  obtain ⟨hphys', hdst', hreads', hended⟩ := h
  rw [hphys] at hphys' hdst' hended
  refine ⟨hphys', ?_, fun q hq => ?_, ?_⟩
  · rw [hdst', hdst, userBytes_add, put_append]
  · rcases hreads' q hq with hq | hq
    · exact hreads q hq
    · exact Or.inr hq
  · rcases hended with ⟨hr, i, hi, rfl, hzero, hne⟩ | ⟨hr, hm, hne⟩
    · rw [Nat.add_assoc] at hzero
      exact Or.inl ⟨hr, n + i, by omega, by omega, hzero, hall i hne⟩
    · rw [Nat.add_assoc] at hm
      exact Or.inr ⟨hr, hm.imp (by omega) fun ⟨hlt, hno⟩ => ⟨by omega, hno⟩, hall m hne⟩

variable (va k c) in
/-- **The outer loop of `copyinstr`.** -/
theorem UserSpace.copyinstrLoop (h : UserSpace kend root c.phys l) (hfuel : max < fuel) :
    ∃ r m c', Mm.copyinstrLoop root fuel va max k c = .ok (r, c') ∧ Scanned root c va max k r m c' := by
  induction fuel generalizing va max k c with
  | zero => exact absurd hfuel (Nat.not_lt_zero _)
  | succ fuel ih =>
    have hnothing : ∀ m, m = 0 → (m = max ∨ (m < max ∧ ¬ Readable root c.phys (va + m))) →
        Scanned root c va max k (-1) m c := by
      rintro m rfl hm
      refine ⟨rfl, (put_zero _ _ _).symm, fun q hq => Or.inl hq, Or.inr ⟨rfl, hm, ?_⟩⟩
      exact fun j hj => absurd hj (Nat.not_lt_zero j)
    by_cases hmax : max = 0
    · exact ⟨-1, 0, c, if_pos hmax, hnothing 0 rfl (Or.inl hmax.symm)⟩
    by_cases hread : Readable root c.phys (pgRoundDown va)
    · have hva : pgRoundDown va < MAXVA := by
        by_contra hge
        exact not_readable_of_ge (by omega) hread
      obtain ⟨e, he, hu⟩ := (readable_iff hva).mp hread
      have hne := (h.frame _ _ e rfl he hu).1.ne_zero
      have hle : chunk va max ≤ max := min_le_right _ _
      have hpos := chunk_pos va hmax
      have hbyte : ∀ j < chunk va max, userByte root c.phys (va + j) =
          some (c.phys.mem (pte2pa e + (va - pgRoundDown va) + j)) := fun j hj =>
        userByte_eq (translate_chunk hva he hj) ((and_PTE_U e).trans_ne hu)
      have hbytes : ∀ j < chunk va max,
          c.phys.mem (pte2pa e + (va - pgRoundDown va) + j) = userBytes root c.phys va j := by
        intro j hj
        rw [userBytes, hbyte j hj, Option.getD_some]
      obtain ⟨g, m, k', c₁, hpage, hphys, hreads, hres⟩ := copyinstrPage_eq (chunk va max)
        (pte2pa e + (va - pgRoundDown va)) max k c
      have huser : ∀ q ∈ c₁.reads, q ∈ c.reads ∨ q.OfUser root := by
        intro q hq
        rcases hreads q hq with hq | ⟨i, hi, rfl⟩
        · exact Or.inl hq
        · refine Or.inr fun j hj => ⟨va + i, pteFlags e, ?_, (and_PTE_U e).trans_ne hu⟩
          obtain rfl : j = 0 := Nat.lt_one_iff.mp hj
          exact translate_chunk hva he hi
      have hround : Mm.copyinstrLoop root (fuel + 1) va max k c = match (g, m, k', c₁) with
          | (true, _, _, c) => .ok (0, c)
          | (false, max, k, c) => Mm.copyinstrLoop root fuel (pgRoundDown va + PGSIZE) max k c := by
        rw [Mm.copyinstrLoop, if_neg hmax]
        dsimp only
        rw [uVA2PA_eq hva, he]
        dsimp only [bind, Except.bind]
        rw [if_neg hu, if_neg hne, ← hpage]
        rfl
      rcases hres with ⟨rfl, i, hi, hnz, hzero, hdst⟩ | ⟨rfl, rfl, rfl, hnz, hdst⟩
      · refine ⟨0, i + 1, c₁, hround, hphys, ?_, huser, Or.inl ⟨rfl, i, by omega, rfl, ?_, fun j hj => ?_⟩⟩
        · rw [hdst]
          exact put_congr fun j hj => hbytes j (by omega)
        · rw [hbyte i hi, hzero]
        · exact ⟨_, hnz j hj, hbyte j (by omega)⟩
      · have hone : c₁.dst = Memory.put c.dst k (chunk va max) (userBytes root c.phys va) := by
          rw [hdst]
          exact put_congr hbytes
        have hspace : UserSpace kend root c₁.phys l := by rwa [hphys]
        -- the address of the next page does not matter if nothing is left to copy
        have hnext : Mm.copyinstrLoop root fuel (pgRoundDown va + PGSIZE) (max - chunk va max)
            (k + chunk va max) c₁ =
            Mm.copyinstrLoop root fuel (va + chunk va max) (max - chunk va max) (k + chunk va max) c₁ := by
          by_cases hlast : chunk va max < max
          · rw [add_chunk va max hlast]
          · rw [show max - chunk va max = 0 by omega, copyinstrLoop_zero _ _ _ _ (by omega),
              copyinstrLoop_zero _ _ _ _ (by omega)]
        obtain ⟨r, m, c', hc', hscan⟩ := ih (va + chunk va max) (k + chunk va max) c₁ hspace
          (show max - chunk va max < fuel by omega)
        refine ⟨r, chunk va max + m, c', hround.trans (hnext.trans hc'), ?_⟩
        exact .cons hle hphys hone huser (fun j hj => ⟨_, hnz j hj, hbyte j hj⟩) hscan
    · refine ⟨-1, 0, c, ?_, hnothing 0 rfl (Or.inr ⟨by omega, fun hr => hread ?_⟩)⟩
      · rw [Mm.copyinstrLoop, if_neg hmax]
        dsimp only
        rw [uVA2PA_of_not_readable hread]
        rfl
      · exact readable_pgRoundDown.mpr hr

end Copyinstr

/-! ## The results -/

section Results

variable {kend root sz : ℕ} {s : Phys} {l : List ℕ}

theorem UserSpace.copyin (h : UserSpace kend root s l) (hk : kend < PHYSTOP) (hsz : sz ≤ MAXVA) (dst : Mem)
    (va len : ℕ) :
    ∃ r c, Mm.copyin kend sz root dst va len s = .ok (r, c) ∧
      CopyinRight kend root sz s dst va len r c := by
  obtain ⟨r, c, hc, ⟨⟨l', hext⟩, hbytes, hrefused, hkept, hreads⟩⟩ :=
    UserSpace.copyinLoop va 0 ⟨dst, [], s⟩ h hk hsz (Nat.lt_succ_self len)
  simp only [Nat.zero_add] at hbytes hkept
  refine ⟨r, c, hc, ⟨fun hr i hi => ?_, fun hall => ?_⟩, hrefused, hbytes, fun i hi => hkept i (Or.inr hi),
    fun x b hb => hext.userByte_eq h hb, fun q hq => (hreads q hq).resolve_left List.not_mem_nil⟩
  · exact hext.present (readable_of_userByte (hbytes hr i hi))
  · by_contra hr
    obtain ⟨-, i, hi, hno⟩ := hrefused hr
    exact hno.not_present (hall i hi)

/-- The result of `copyinstr`. -/
theorem UserSpace.copyinstr (h : UserSpace kend root s l) (dst : Mem) (va max : ℕ) :
    ∃ r c, Mm.copyinstr root dst va max s = .ok (r, c) ∧ CopyinstrRight root s dst va max r c := by
  obtain ⟨r, m, c, hc, ⟨hphys, hdst, hreads, hended⟩⟩ :=
    UserSpace.copyinstrLoop va 0 ⟨dst, [], s⟩ h (Nat.lt_succ_self max)
  have hbyte : ∀ j < m, c.dst j = userBytes root s va j := by
    intro j hj
    rw [hdst, put_of_mem ⟨Nat.zero_le _, by omega⟩, Nat.sub_zero]
  have hkept : ∀ j, m ≤ j → c.dst j = dst j := by
    intro j hj
    rw [hdst, put_of_not_mem (by omega)]
  have hsome : ∀ j < m, ∀ b, userByte root s (va + j) = some b → c.dst j = b := by
    intro j hj b hb
    rw [hbyte j hj, userBytes, hb, Option.getD_some]
  refine ⟨r, c, hc, ⟨fun hr => ?_, ?_⟩, fun hr => ?_, fun hr => ?_, fun i hi => hkept i (by omega), hphys,
    fun q hq => (hreads q hq).resolve_left List.not_mem_nil⟩
  · rcases hended with ⟨-, i, hi, -, hzero, hne⟩ | ⟨hneg, -⟩
    · refine ⟨i, hi, hzero, fun j hj => ?_⟩
      obtain ⟨b, -, hb⟩ := hne j hj
      exact readable_of_userByte hb
    · omega
  · rintro ⟨i, hi, hzero, hall⟩
    rcases hended with ⟨hr, -⟩ | ⟨-, hm, hne⟩
    · exact hr
    · -- the copy has stopped before the 0, at a byte that can be read
      exfalso
      have him : m ≤ i := by
        by_contra hlt
        obtain ⟨b, hb, hbi⟩ := hne i (by omega)
        rw [hzero] at hbi
        exact hb (Option.some.inj hbi).symm
      rcases hm with rfl | ⟨-, hno⟩
      · omega
      · rcases him.lt_or_eq with hlt | rfl
        · exact hno (hall m hlt)
        · exact hno (readable_of_userByte hzero)
  · rcases hended with ⟨hzero, -⟩ | ⟨hneg, -⟩
    · exact absurd hzero hr
    · exact hneg
  · rcases hended with ⟨-, i, hi, rfl, hzero, hne⟩ | ⟨hneg, -⟩
    · refine ⟨i, hi, fun j hj => ?_, hzero, hsome i (by omega) 0 hzero, fun j hj => hkept j (by omega)⟩
      obtain ⟨b, hb, hbj⟩ := hne j hj
      have hdstj := hsome j (by omega) b hbj
      rw [hdstj]
      exact ⟨hbj, hb⟩
    · omega

end Results

/-- **`copyin` and `copyinstr` read the bytes of the user.** For every process, every address, every length
and all contents of the buffer, both functions return, and their results are right. -/
theorem copyin_reads_user {kend root sz : ℕ} {s : Phys} {l : List ℕ} (hk : kend < PHYSTOP)
    (h : UserSpace kend root s l) (hsz : sz ≤ MAXVA) (dst : Mem) (va len max : ℕ) :
    (∃ r c, copyin kend sz root dst va len s = .ok (r, c) ∧ CopyinRight kend root sz s dst va len r c) ∧
      ∃ r c, copyinstr root dst va max s = .ok (r, c) ∧ CopyinstrRight root s dst va max r c :=
  ⟨h.copyin hk hsz dst va len, h.copyinstr dst va max⟩

theorem copyin_reads_user_lazy :
    ∃ s l root, UserSpace (PHYSTOP - 5 * PGSIZE) root s l ∧
      (∃ r c, copyin (PHYSTOP - 5 * PGSIZE) PGSIZE root (fun _ => 1) 0 2 s = .ok (r, c) ∧
        CopyinRight (PHYSTOP - 5 * PGSIZE) root PGSIZE s (fun _ => 1) 0 2 r c) ∧
      ∃ r c, copyinstr root (fun _ => 1) 0 2 s = .ok (r, c) ∧ CopyinstrRight root s (fun _ => 1) 0 2 r c := by
  obtain ⟨s, l, root, h, -, -⟩ := exists_small_space (show 3 < 1000 by decide)
  refine ⟨s, l, root, h, copyin_reads_user (sub_pages_lt_PHYSTOP (by decide)) h ?_ (fun _ => 1) 0 2 2⟩
  rw [MAXVA_eq]
  decide

end RiscvOs.Mm
