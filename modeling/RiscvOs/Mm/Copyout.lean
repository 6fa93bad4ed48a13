import RiscvOs.Param
import RiscvOs.Mm.Mapping

set_option autoImplicit false

/-!
# Copying to user memory

`copyout` of `kernel/proc/proc.c` goes through the pages of a range of user addresses. A page that is not
mapped is made by `vmfault`, whose result, the address of the new page, is not used: the bytes are then
stored from address 0 on. The kernel has not mapped the page there, so the store is a fault and the kernel
panics. Without such a page, `copyout` stores the bytes, or returns -1.

## Main results

* `WellFormed.vmfault_fails`, `WellFormed.vmfault_serves` — the fault handler.
* `copyout_exact_iff` — when `copyout` stores the bytes.

## Implementation notes

The source of the copy is a buffer of the kernel. It is given by its bytes, because it is not in the pages
to which `copyout` writes.
-/

namespace RiscvOs.Mm

open Memory Radix

/-! ## The memory of the kernel -/

def UART0 : ℕ := 0x10000000
def VIRTIO0 : ℕ := 0x10001000
def PLIC : ℕ := 0x0c000000

/-- The page of the trap code. -/
@[irreducible] def TRAMPOLINE : ℕ := MAXVA - PGSIZE

/-- The address of the kernel stack of a process. -/
def KSTACK (p : ℕ) : ℕ := TRAMPOLINE - (p + 1) * 2 * PGSIZE

/-- The addresses that `kVmMake` has mapped with `PTE_W`. `etext` is the end of the code of the kernel. -/
def KernelWritable (etext a : ℕ) : Prop :=
  (UART0 ≤ a ∧ a < UART0 + PGSIZE) ∨ (VIRTIO0 ≤ a ∧ a < VIRTIO0 + PGSIZE) ∨
    (PLIC ≤ a ∧ a < PLIC + 0x4000000) ∨ (etext ≤ a ∧ a < PHYSTOP) ∨
    ∃ p < NPROC, KSTACK p ≤ a ∧ a < KSTACK p + PGSIZE

instance (etext a : ℕ) : Decidable (KernelWritable etext a) :=
  inferInstanceAs (Decidable (_ ∨ _ ∨ _ ∨ _ ∨ ∃ p < NPROC, KSTACK p ≤ a ∧ a < KSTACK p + PGSIZE))

/-! ## `kernel/proc/proc.c` -/

/-- The page of a copy is there already, or `fault` makes it. `0` means that there is none. -/
def faultIn (fault : ℕ → Phys → Except Panic (ℕ × Phys)) (va0 pa0 : ℕ) (s : Phys) : Except Panic (ℕ × Phys) :=
  if pa0 = 0 then fault va0 s else .ok (pa0, s)

/-- Write bytes to the memory. -/
def Phys.put (s : Phys) (a n : ℕ) (f : ℕ → UInt8) : Phys := { s with mem := Memory.put s.mem a n f }

/-- `memmove` from a buffer of the kernel to an address. -/
def memmove (etext dst n : ℕ) (src : ℕ → UInt8) (s : Phys) : Except Panic Phys :=
  if ∀ i < n, KernelWritable etext (dst + i) then .ok (s.put dst n src)
  else .error .kernelTrap

/-- The loop of `copyout`, with `fault` for `vmfault`. -/
def copyoutLoop (fault : ℕ → Phys → Except Panic (ℕ × Phys)) (etext pagetable : ℕ) :
    (fuel va len : ℕ) → (src : ℕ → UInt8) → Phys → Except Panic (ℤ × Phys)
  | 0, _, _, _, _ => .error .loop
  | fuel + 1, va, len, src, s =>
    if len = 0 then .ok (0, s)
    else
      let va0 := pgRoundDown va
      if MAXVA ≤ va0 then .ok (-1, s)
      else do
        let pa0 ← uVA2PA pagetable va0 s
        -- the address of a page that `vmfault` has made is only compared with 0
        let (r, s) ← faultIn fault va0 pa0 s
        if r = 0 then .ok (-1, s)
        else do
          let (pte, s) ← walk false pagetable va0 s
          match pte with
          | none => .error .kernelTrap
          | some pte =>
            if load s.mem pte 8 &&& PTE_W = 0 then .ok (-1, s)
            else do
              let n := min (PGSIZE - (va - va0)) len
              let s ← memmove etext (pa0 + (va - va0)) n src s
              copyoutLoop fault etext pagetable fuel (va0 + PGSIZE) (len - n) (fun i => src (n + i)) s

/-- `copyout`, with `fault` in the place of `vmfault`. -/
def copyoutBy (fault : ℕ → Phys → Except Panic (ℕ × Phys)) (etext pagetable va : ℕ) (src : ℕ → UInt8) (len : ℕ)
    (s : Phys) : Except Panic (ℤ × Phys) := copyoutLoop fault etext pagetable (len + 1) va len src s

/-- Copy `len` bytes to the address `va` of the current process, which has `sz` bytes. -/
def copyout (kend etext sz pagetable va : ℕ) (src : ℕ → UInt8) (len : ℕ) (s : Phys) :
    Except Panic (ℤ × Phys) :=
  copyoutBy (vmfault kend sz pagetable) etext pagetable va src len s

/-! ## The pages of a process -/

/-- The table of a process: the pages that the user may access are allocated, are not part of the table,
and are mapped once. -/
structure UserSpace (kend root : ℕ) (s : Phys) (l : List ℕ) : Prop where
  wf : WellFormed kend s l root
  frame : ∀ path i e, path.length = 2 → leaf s.mem root path i = some e → e &&& PTE_U ≠ 0 →
    Frame kend (pte2pa e) ∧ pte2pa e ∉ l
  data : ∀ path i e, path.length = 2 → leaf s.mem root path i = some e → e &&& PTE_U ≠ 0 →
    OffTable s root (pte2pa e)
  once : ∀ path path' i i' e e', path.length = 2 → path'.length = 2 → leaf s.mem root path i = some e →
    leaf s.mem root path' i' = some e' → e &&& PTE_U ≠ 0 → e' &&& PTE_U ≠ 0 → pte2pa e = pte2pa e' →
    path = path' ∧ i = i'

/-- A page is mapped, and the user may write to it. -/
def Writable (root : ℕ) (s : Phys) (va : ℕ) : Prop :=
  ∃ pa perm, translate s root va = some (pa, perm) ∧ perm &&& PTE_U ≠ 0 ∧ perm &&& PTE_W ≠ 0

/-- The first page of the range that the user may not write to is not mapped, is below the size of the
process, and there are enough free pages for it and for the table. -/
def Served (sz root : ℕ) (s : Phys) (l : List ℕ) (va len : ℕ) : Prop :=
  ∃ i < len, (∀ j < i, Writable root s (pgRoundDown (va + j))) ∧ pgRoundDown (va + i) < MAXVA ∧
    pgRoundDown (va + i) < sz ∧ translate s root (pgRoundDown (va + i)) = none ∧
    missing s.mem root (pgRoundDown (va + i)) < l.length

/-- `r` and `t` are right for a copy from `src`: if `r` is 0 then the bytes are stored; and what has changed
in the allocated pages, those of the table apart, are bytes that the user may write at the addresses of the
range. -/
structure Exact (kend root : ℕ) (s : Phys) (l : List ℕ) (va len : ℕ) (src : ℕ → UInt8) (r : ℤ) (t : Phys) :
    Prop where
  stored : r = 0 → ∀ i < len, ∃ pa perm, translate t root (va + i) = some (pa, perm) ∧
    perm &&& PTE_U ≠ 0 ∧ t.mem pa = src i
  only : ∀ f, Frame kend f → f ∉ l → OffTable s root f → ∀ a, InPage f a → t.mem a ≠ s.mem a →
      ∃ i < len, ∃ perm, translate s root (va + i) = some (a, perm) ∧ perm &&& PTE_U ≠ 0 ∧
        perm &&& PTE_W ≠ 0

/-! ## Pages and flags -/

section Pages

variable {kend root va : ℕ} {s t : Phys} {l l' : List ℕ}

theorem pgRoundDown_mod (a : ℕ) : pgRoundDown a % PGSIZE = 0 := by
  simp only [pgRoundDown, PGSIZE]
  omega

theorem pgRoundDown_of_mod {a : ℕ} (h : a % PGSIZE = 0) : pgRoundDown a = a := by
  rw [pgRoundDown, h, Nat.sub_zero]

theorem pteFlags_and (e : ℕ) {k : ℕ} (hk : k < 10) : pteFlags e &&& 2 ^ k = e &&& 2 ^ k := by
  rw [pteFlags, Nat.and_two_pow, Nat.and_two_pow, Nat.testBit_mod_two_pow, decide_eq_true hk, Bool.true_and]

theorem and_PTE_U (e : ℕ) : pteFlags e &&& PTE_U = e &&& PTE_U := pteFlags_and e (k := 4) (by decide)

theorem and_PTE_W (e : ℕ) : pteFlags e &&& PTE_W = e &&& PTE_W := pteFlags_and e (k := 2) (by decide)

theorem uVA2PA_eq (h : va < MAXVA) :
    uVA2PA root va s = .ok (match leaf s.mem root (pathOf va) (px 0 va) with
      | none => 0
      | some e => if e &&& PTE_U = 0 then 0 else pte2pa e) := by
  rw [uVA2PA, if_neg (by omega), walk_false h, leaf]
  cases tablePage s.mem root (pathOf va) with
  | none => rfl
  | some p =>
    rw [Option.map_some, Option.bind_some, entry]
    dsimp only [bind, Except.bind]
    by_cases hv : load s.mem (pteAddr p (px 0 va)) 8 &&& PTE_V = 0
    · rw [if_pos hv, if_neg (not_not.mpr hv)]
    · rw [if_neg hv, if_pos hv]
      dsimp only
      split_ifs <;> rfl

theorem ismapped_eq (h : va < MAXVA) :
    ismapped root va s = .ok (leaf s.mem root (pathOf va) (px 0 va)).isSome := by
  rw [ismapped, walk_false h, leaf]
  cases tablePage s.mem root (pathOf va) with
  | none => rfl
  | some p =>
    rw [Option.map_some, Option.bind_some, entry]
    dsimp only [bind, Except.bind]
    by_cases hv : load s.mem (pteAddr p (px 0 va)) 8 &&& PTE_V ≠ 0
    · rw [if_pos hv, decide_eq_true hv, Option.isSome_some]
    · rw [if_neg hv, decide_eq_false hv, Option.isSome_none]

/-- `kalloc` takes a page, and the bytes of the page are written. -/
theorem WellFormed.takePage {f : ℕ} (h : WellFormed kend s (f :: l) root) :
    ∃ u, kalloc s = (f, u) ∧ SameBut kend f s u ∧ ∀ m : Mem, (∀ a, ¬ InPage f a → m a = u.mem a) →
      Grown kend root s (f :: l) { u with mem := m } l ∧
        ∀ path, path.length ≤ 2 → tablePage m root path = tablePage s.mem root path := by
  have hf := h.alloc.frames f List.mem_cons_self
  have hnd := List.nodup_cons.mp h.alloc.nodup
  have hfirst := hf.first_le
  obtain ⟨u, hu, hau, hsame⟩ := h.alloc.kalloc_cons
  refine ⟨u, hu, hsame, fun m hm => ?_⟩
  have hbytes : ∀ g, Frame kend g → g ≠ f → ∀ a, InPage g a → m a = s.mem a := by
    intro g hg hne a ha
    have hna := hg.disjoint hf hne ha
    rw [hm a hna]
    exact hsame a (hg.first_le.trans ha.1) hna
  have hent : ∀ path p i, path.length ≤ 2 → tablePage s.mem root path = some p →
      entry m p i = entry s.mem p i := by
    intro path p i hlen hp
    obtain ⟨hpf, hpl⟩ := h.owned path p hlen hp
    exact entry_of_same (hbytes p hpf fun he => hpl (he ▸ List.mem_cons_self)) i
  have halloc : Alloc kend { u with mem := m } l := by
    refine hau.congr (fun a hb hlt => hm a ?_) (fun g hg a ha => hm a ?_)
    · simp only [InPage]
      omega
    · exact (hau.frames g hg).disjoint hf (fun he => hnd.1 (he ▸ hg)) ha
  let t : Phys := { u with mem := m }
  have hpage : SamePages root s t := SameEntries.pages hent
  refine ⟨⟨⟨h.congr halloc hent fun path p hlen hp hmem => ?_, fun g hg => List.mem_cons_of_mem _ hg,
    fun path p hlen hp => Or.inl ((hpage path hlen).symm.trans hp), fun g hg hgl _ a ha => ?_⟩,
    fun path p hlen hp => (hpage path hlen).trans hp, fun path i hlen => leaf_congr (t := t) hent hlen⟩, hpage⟩
  · exact (h.owned path p hlen hp).2 (List.mem_cons_of_mem _ hmem)
  · exact hbytes g hg (fun he => hgl (he ▸ List.mem_cons_self)) a ha

theorem WellFormed.take {f : ℕ} (h : WellFormed kend s (f :: l) root) :
    ∃ u, kalloc s = (f, u) ∧
      Grown kend root s (f :: l) { u with mem := fill u.mem f PGSIZE 0 } l ∧
      ∀ path, path.length ≤ 2 →
        tablePage (fill u.mem f PGSIZE 0) root path = tablePage s.mem root path := by
  obtain ⟨u, hu, -, htake⟩ := h.takePage
  exact ⟨u, hu, htake _ fun a ha => fill_of_not_mem ha⟩

end Pages

/-! ## The fault handler -/

section Fault

variable {kend root sz va : ℕ} {s t : Phys} {l l' : List ℕ}

variable (kend sz s root) in
theorem vmfault_zero (hva : va < MAXVA) (hal : va % PGSIZE = 0)
    (h : sz ≤ va ∨ leaf s.mem root (pathOf va) (px 0 va) ≠ none) :
    vmfault kend sz root va s = .ok (0, s) := by
  unfold vmfault
  by_cases hsz : sz ≤ va
  · rw [if_pos hsz]
  · have hsome : (leaf s.mem root (pathOf va) (px 0 va)).isSome = true := by
      rw [Option.isSome_iff_ne_none]
      exact h.resolve_left hsz
    rw [if_neg hsz, pgRoundDown_of_mod hal]
    dsimp only
    rw [ismapped_eq hva, hsome]
    rfl

theorem vmfault_eq (hva : va < MAXVA) (hal : va % PGSIZE = 0) (hsz : va < sz)
    (hun : leaf s.mem root (pathOf va) (px 0 va) = none) {f : ℕ} {u : Phys} (hu : kalloc s = (f, u)) :
    vmfault kend sz root va s =
      if f = 0 then .ok (0, u) else faultMap kend root va f { u with mem := fill u.mem f PGSIZE 0 } := by
  have hnone : (leaf s.mem root (pathOf va) (px 0 va)).isSome = false := by rw [hun, Option.isSome_none]
  unfold vmfault
  rw [if_neg (by omega), pgRoundDown_of_mod hal]
  dsimp only
  rw [ismapped_eq hva, hnone]
  dsimp only [bind, Except.bind]
  rw [if_neg Bool.false_ne_true, hu]

theorem mapPages_one (hal : va % PGSIZE = 0) (pa perm : ℕ) :
    mapPages root va PGSIZE pa perm s = mapLoop root va perm 1 va pa s := by
  rw [mapPages, if_neg (not_not.mpr hal), if_neg (by decide), if_neg (by decide), Nat.add_sub_cancel]
  rfl

theorem Grown.giveBack {f : ℕ} {u t : Phys} {l' : List ℕ} (h : Grown kend root s (f :: l) u l)
    (hdata : OffTable u root f) (h' : Grown kend root u l t l')
    (hwf : WellFormed kend s (f :: l) root) :
    ∃ v, kfree kend f t = .ok v ∧ Grown kend root s (f :: l) v (f :: l') ∧
      SamePages root t v := by
  have hf := hwf.alloc.frames f List.mem_cons_self
  have hnd := List.nodup_cons.mp hwf.alloc.nodup
  have hfl' : f ∉ l' := fun hmem => hnd.1 (h'.sub f hmem)
  obtain ⟨v, hv, hwv, hsame, hvpage, hvleaf⟩ := h'.wf.free hf hfl' (h'.not_page hnd.1 hdata)
  have hall := h.trans h'
  refine ⟨v, hv, ⟨⟨hwv, fun g hg => ?_, fun path p hlen hp => ?_, fun g hg hgl hno a ha => ?_⟩,
    fun path p hlen hp => ?_, fun path i hlen => ?_⟩, hvpage⟩
  · rcases List.mem_cons.mp hg with rfl | hg
    · exact List.mem_cons_self
    · exact hall.sub g hg
  · rw [hvpage path hlen] at hp
    exact hall.table path p hlen hp
  · have hne : g ≠ f := fun he => hgl (he ▸ List.mem_cons_self)
    rw [hsame a (hg.first_le.trans ha.1) (hg.disjoint hf hne ha)]
    exact hall.data g hg hgl hno a ha
  · rw [hvpage path hlen]
    exact hall.pages path p hlen hp
  · rw [hvleaf path i hlen]
    exact hall.leaf path i hlen

/-- **A page is taken, written and mapped**, or the table needs too many pages, and the page is given back. -/
theorem WellFormed.makePage {f perm : ℕ} (h : WellFormed kend s (f :: l) root) (hk : kend < PHYSTOP)
    (hva : va < MAXVA) (hal : va % PGSIZE = 0) (hun : translate s root va = none) (hperm : perm < 1024) :
    ∃ u, kalloc s = (f, u) ∧ SameBut kend f s u ∧ ∀ m : Mem, (∀ a, ¬ InPage f a → m a = u.mem a) →
      (∃ w v, l.length < missing s.mem root va ∧
          mapPages root va PGSIZE f perm { u with mem := m } = .ok (-1, w) ∧ kfree kend f w = .ok v ∧
          Grown kend root s (f :: l) v [f] ∧ Used root (f :: l) v [f] ∧ 0 < missing v.mem root va) ∨
      ∃ w l' p, missing s.mem root va ≤ l.length ∧
        mapPages root va PGSIZE f perm { u with mem := m } =
          .ok (0, w.setPte p (px 0 va) (f / 4096 * 1024 + (perm ||| PTE_V))) ∧
        Grown kend root s (f :: l) w l' ∧ Used root l w l' ∧ tablePage w.mem root (pathOf va) = some p ∧
        f ∉ l' ∧ OffTable w root f ∧ ∀ a, InPage f a → w.mem a = m a := by
  have hf := h.alloc.frames f List.mem_cons_self
  have hnd := List.nodup_cons.mp h.alloc.nodup
  obtain ⟨u, hu, hsame, htake⟩ := h.takePage
  refine ⟨u, hu, hsame, fun m hm => ?_⟩
  obtain ⟨hgm, hpage⟩ := htake m hm
  have hdata : ∀ path, path.length ≤ 2 → tablePage m root path ≠ some f := by
    intro path hlen hp
    rw [hpage path hlen] at hp
    exact (h.owned path f hlen hp).2 List.mem_cons_self
  rw [mapPages_one hal, ← missing_congr va hpage]
  obtain ⟨w, l', hg, hused, ⟨hfew, hmap, rfl, hpos⟩ | ⟨p, hge, hp, hmap⟩⟩ :=
    hgm.wf.mapOne f hk hva ((hgm.translate_eq hva).trans hun) hperm va 0
  · obtain ⟨v, hv, hgv, hvpage⟩ := hgm.giveBack hdata hg h
    refine Or.inl ⟨w, v, hfew, hmap, hv, hgv, fun g hgl => ?_, by rwa [missing_congr va hvpage]⟩
    rcases List.mem_cons.mp hgl with rfl | hgl
    · exact Or.inl List.mem_cons_self
    · obtain ⟨path, hlen, hp⟩ := (hused g hgl).resolve_left List.not_mem_nil
      exact Or.inr ⟨path, hlen, (hvpage path hlen).trans hp⟩
  · rw [if_pos rfl] at hmap
    exact Or.inr ⟨w, l', p, not_lt.mp hge, hmap, hgm.trans hg, hused, hp, fun hmem => hnd.1 (hg.sub f hmem),
      hg.not_page hnd.1 hdata, hg.data f hf hnd.1 hdata⟩

/-- **`vmfault` fails** if there are not enough pages. The table may have grown, and there are still not
enough pages. -/
theorem WellFormed.vmfault_fails (h : WellFormed kend s l root) (hk : kend < PHYSTOP) (hva : va < MAXVA)
    (hal : va % PGSIZE = 0) (hsz : va < sz) (hun : leaf s.mem root (pathOf va) (px 0 va) = none)
    (hfew : l.length ≤ missing s.mem root va) :
    ∃ t l', vmfault kend sz root va s = .ok (0, t) ∧ Grown kend root s l t l' ∧
      l'.length ≤ missing t.mem root va := by
  cases l with
  | nil =>
    obtain ⟨u, hu, hau, hmem⟩ := h.alloc.kalloc_nil hk
    refine ⟨u, [], ?_, h.grown_nil hau hmem, Nat.zero_le _⟩
    rw [vmfault_eq hva hal hsz hun hu, if_pos rfl]
  | cons f l =>
    have hf := h.alloc.frames f List.mem_cons_self
    obtain ⟨u, hu, -, hmake⟩ := h.makePage hk hva hal ((translate_eq_none hva).mpr hun)
      (show PTE_W ||| PTE_U ||| PTE_R < 1024 by decide)
    rcases hmake _ fun a ha => fill_of_not_mem ha with ⟨w, v, -, hmap, hv, hg, -, hpos⟩ | ⟨w, l', p, hge, -⟩
    · refine ⟨v, [f], ?_, hg, hpos⟩
      rw [vmfault_eq hva hal hsz hun hu, if_neg hf.ne_zero, faultMap, hmap]
      dsimp only [bind, Except.bind]
      rw [if_pos (by decide), hv]
    · rw [List.length_cons] at hfew
      omega

/-- The entry of a page that `vmfault` makes. -/
def faultPte (f : ℕ) : ℕ := f / 4096 * 1024 + (PTE_W ||| PTE_U ||| PTE_R ||| PTE_V)

theorem Frame.lt_word {f : ℕ} (hf : Frame kend f) : f < 2 ^ 64 := by
  have hs := hf.le_stop
  rw [PHYSTOP_eq] at hs
  omega

theorem Frame.faultPte_lt {f : ℕ} (hf : Frame kend f) : faultPte f < 256 ^ 8 := pte_lt hf.lt_word (by decide)

theorem Frame.pte2pa_faultPte {f : ℕ} (hf : Frame kend f) : pte2pa (faultPte f) = f :=
  pte2pa_eq hf.lt_word hf.aligned (by decide)

theorem pteFlags_faultPte (f : ℕ) : pteFlags (faultPte f) = PTE_W ||| PTE_U ||| PTE_R ||| PTE_V :=
  pteFlags_eq (by decide)

/-- **`vmfault` serves** a page if there are enough free pages: it clears one of them and maps it. -/
theorem WellFormed.vmfault_serves (h : WellFormed kend s l root) (hk : kend < PHYSTOP) (hva : va < MAXVA)
    (hal : va % PGSIZE = 0) (hsz : va < sz) (hun : leaf s.mem root (pathOf va) (px 0 va) = none)
    (hmany : missing s.mem root va < l.length) :
    ∃ f u l' p, vmfault kend sz root va s = .ok (f, u.setPte p (px 0 va) (faultPte f)) ∧ f ∈ l ∧ f ∉ l' ∧
      Grown kend root s l u l' ∧ tablePage u.mem root (pathOf va) = some p ∧
      OffTable u root f ∧ ∀ a, InPage f a → u.mem a = 0 := by
  cases l with
  | nil => exact absurd hmany (Nat.not_lt_zero _)
  | cons f l =>
    have hf := h.alloc.frames f List.mem_cons_self
    obtain ⟨u, hu, -, hmake⟩ := h.makePage hk hva hal ((translate_eq_none hva).mpr hun)
      (show PTE_W ||| PTE_U ||| PTE_R < 1024 by decide)
    rcases hmake _ fun a ha => fill_of_not_mem ha with
      ⟨w, v, hfew, -⟩ | ⟨w, l', p, -, hmap, hg, -, hp, hfl, hdata, hbytes⟩
    · rw [List.length_cons] at hmany
      omega
    · refine ⟨f, w, l', p, ?_, List.mem_cons_self, hfl, hg, hp, hdata,
        fun a ha => (hbytes a ha).trans (fill_of_mem ha)⟩
      rw [vmfault_eq hva hal hsz hun hu, if_neg hf.ne_zero, faultMap, hmap]
      rfl

/-- The table of a process stays if its leaf entries do, and its new pages were free. -/
theorem UserSpace.congr (h : UserSpace kend root s l) (hwf : WellFormed kend t l' root) (hsub : ∀ f ∈ l', f ∈ l)
    (hleaf : ∀ path i, path.length = 2 → leaf t.mem root path i = leaf s.mem root path i)
    (hpage : ∀ f, f ∉ l → OffTable s root f → OffTable t root f) : UserSpace kend root t l' := by
  refine ⟨hwf, fun path i e hlen he hu => ?_, fun path i e hlen he hu => ?_, ?_⟩
  · rw [hleaf path i hlen] at he
    obtain ⟨hf, hfl⟩ := h.frame path i e hlen he hu
    exact ⟨hf, fun hmem => hfl (hsub _ hmem)⟩
  · rw [hleaf path i hlen] at he
    exact hpage _ (h.frame path i e hlen he hu).2 (h.data path i e hlen he hu)
  · intro path path' i i' e e' hlen hlen' he he'
    rw [hleaf path i hlen] at he
    rw [hleaf path' i' hlen'] at he'
    exact h.once path path' i i' e e' hlen hlen' he he'

theorem UserSpace.grown (h : UserSpace kend root s l) (hg : Grown kend root s l t l') : UserSpace kend root t l' :=
  h.congr hg.wf hg.sub hg.leaf fun _ => hg.not_page

/-- A page that is allocated, and that nobody has, is mapped for the user. -/
theorem UserSpace.mapUser (h : UserSpace kend root s l) {f p : ℕ} (hf : Frame kend f) (hfl : f ∉ l)
    (hdata : OffTable s root f)
    (hnew : ∀ path i e, path.length = 2 → leaf s.mem root path i = some e → e &&& PTE_U ≠ 0 →
      pte2pa e ≠ f)
    (hp : tablePage s.mem root (pathOf va) = some p) :
    UserSpace kend root (s.setPte p (px 0 va) (faultPte f)) l := by
  have hv := hf.faultPte_lt
  have hodd : faultPte f % 2 ≠ 0 := by
    rw [faultPte, pte_valid]
    decide
  have hpa := hf.pte2pa_faultPte
  -- a leaf of the new table is the new one or an old one
  have hleaf : ∀ path i e, path.length = 2 →
      leaf (s.setPte p (px 0 va) (faultPte f)).mem root path i = some e →
      (path = pathOf va ∧ i = px 0 va ∧ e = faultPte f) ∨ leaf s.mem root path i = some e := by
    intro path i e hlen he
    rw [h.wf.leaf_setPte rfl hp hv hlen, if_pos hodd] at he
    split_ifs at he with hsame
    · exact Or.inl ⟨hsame.1, hsame.2, (Option.some.inj he).symm⟩
    · exact Or.inr he
  refine ⟨h.wf.setPte rfl hp hv, fun path i e hlen he hu => ?_, fun path i e hlen he hu path' hlen' => ?_, ?_⟩
  · rcases hleaf path i e hlen he with ⟨-, -, rfl⟩ | he
    · rw [hpa]
      exact ⟨hf, hfl⟩
    · exact h.frame path i e hlen he hu
  · rw [h.wf.tablePage_setPte rfl hp hv hlen']
    rcases hleaf path i e hlen he with ⟨-, -, rfl⟩ | he
    · rw [hpa]
      exact hdata path' hlen'
    · exact h.data path i e hlen he hu path' hlen'
  · intro path path' i i' e e' hlen hlen' he he' hu hu' heq
    rcases hleaf path i e hlen he with ⟨rfl, rfl, rfl⟩ | he <;>
      rcases hleaf path' i' e' hlen' he' with ⟨rfl, rfl, rfl⟩ | he'
    · exact ⟨rfl, rfl⟩
    · exact absurd (heq.symm.trans hpa) (hnew path' i' e' hlen' he' hu')
    · exact absurd (heq.trans hpa) (hnew path i e hlen he hu)
    · exact h.once path path' i i' e e' hlen hlen' he he' hu hu' heq

/-- The page that `vmfault` has made is mapped for the user. -/
theorem UserSpace.served (h : UserSpace kend root s l) (hg : Grown kend root s l t l') {f p : ℕ} (hmem : f ∈ l)
    (hfl : f ∉ l') (hdata : OffTable t root f)
    (hp : tablePage t.mem root (pathOf va) = some p) :
    UserSpace kend root (t.setPte p (px 0 va) (faultPte f)) l' ∧
      leaf (t.setPte p (px 0 va) (faultPte f)).mem root (pathOf va) (px 0 va) = some (faultPte f) := by
  have hf := h.wf.alloc.frames f hmem
  have hodd : faultPte f % 2 ≠ 0 := by
    rw [faultPte, pte_valid]
    decide
  refine ⟨(h.grown hg).mapUser hf hfl hdata (fun path i e hlen he hu heq => ?_) hp, ?_⟩
  · rw [hg.leaf path i hlen] at he
    exact (h.frame path i e hlen he hu).2 (heq ▸ hmem)
  · rw [hg.wf.leaf_setPte rfl hp hf.faultPte_lt rfl, if_pos ⟨rfl, rfl⟩, if_pos hodd]

theorem faultPte_flags (f : ℕ) : faultPte f &&& PTE_U ≠ 0 ∧ faultPte f &&& PTE_W ≠ 0 := by
  rw [← and_PTE_U, ← and_PTE_W, pteFlags_faultPte]
  decide

end Fault

/-! ## A round of the loop -/

section Round

variable {kend etext root sz va len fuel : ℕ} {src : ℕ → UInt8} {s : Phys} {l : List ℕ}

theorem WellFormed.put (h : WellFormed kend s l root) {f a n : ℕ} (hf : Frame kend f) (hfl : f ∉ l)
    (hdata : OffTable s root f) (hin : f ≤ a ∧ a + n ≤ f + PGSIZE) (src : ℕ → UInt8) :
    WellFormed kend (s.put a n src) l root ∧
      SamePages root s (s.put a n src) ∧
      ∀ path i, path.length = 2 → leaf (s.put a n src).mem root path i = leaf s.mem root path i := by
  have hfirst := hf.first_le
  have hbytes : ∀ g, Frame kend g → g ≠ f → ∀ x, InPage g x → Memory.put s.mem a n src x = s.mem x := by
    intro g hg hne x hx
    have hnx := hg.disjoint hf hne hx
    apply put_of_not_mem
    simp only [InPage] at hnx
    omega
  have hent : ∀ path p i, path.length ≤ 2 → tablePage s.mem root path = some p →
      entry (Memory.put s.mem a n src) p i = entry s.mem p i := by
    intro path p i hlen hp
    refine entry_of_same (hbytes p (h.owned path p hlen hp).1 ?_) i
    rintro rfl
    exact hdata path hlen hp
  let t : Phys := s.put a n src
  have halloc : Alloc kend t l := by
    refine h.alloc.congr (fun x hb hlt => put_of_not_mem (by omega)) (fun g hg x hx => ?_)
    exact hbytes g (h.alloc.frames g hg) (fun he => hfl (he ▸ hg)) x hx
  exact ⟨h.congr halloc hent fun path p hlen hp => (h.owned path p hlen hp).2,
    SameEntries.pages (t := t) hent, fun path i hlen => leaf_congr (t := t) hent hlen⟩

theorem UserSpace.put (h : UserSpace kend root s l) {f a n : ℕ} (hf : Frame kend f) (hfl : f ∉ l)
    (hdata : OffTable s root f) (hin : f ≤ a ∧ a + n ≤ f + PGSIZE) (src : ℕ → UInt8) :
    UserSpace kend root (s.put a n src) l ∧
      SamePages root s (s.put a n src) ∧
      ∀ path i, path.length = 2 → leaf (s.put a n src).mem root path i = leaf s.mem root path i := by
  obtain ⟨hwf, hpage, hleaf⟩ := h.wf.put hf hfl hdata hin src
  refine ⟨h.congr hwf (fun _ hmem => hmem) hleaf fun g _ hno path hlen => ?_, hpage, hleaf⟩
  rw [hpage path hlen]
  exact hno path hlen

theorem exists_translate_iff (root : ℕ) (s : Phys) (hva : va < MAXVA) (P : ℕ → Prop) :
    (∃ pa perm, translate s root va = some (pa, perm) ∧ P perm) ↔
      ∃ e, leaf s.mem root (pathOf va) (px 0 va) = some e ∧ P (pteFlags e) := by
  rw [translate_eq hva]
  constructor
  · rintro ⟨pa, perm, he, hP⟩
    obtain ⟨e, hleaf, heq⟩ := Option.map_eq_some_iff.mp he
    obtain ⟨-, rfl⟩ := Prod.mk.inj heq
    exact ⟨e, hleaf, hP⟩
  · rintro ⟨e, hleaf, hP⟩
    exact ⟨_, _, by rw [hleaf, Option.map_some], hP⟩

theorem writable_iff (hva : va < MAXVA) :
    Writable root s va ↔
      ∃ e, leaf s.mem root (pathOf va) (px 0 va) = some e ∧ e &&& PTE_U ≠ 0 ∧ e &&& PTE_W ≠ 0 := by
  have h := exists_translate_iff root s hva fun perm => perm &&& PTE_U ≠ 0 ∧ perm &&& PTE_W ≠ 0
  simp only [and_PTE_U, and_PTE_W] at h
  exact h

theorem walk_of_leaf (hva : va < MAXVA) {e : ℕ} (he : leaf s.mem root (pathOf va) (px 0 va) = some e) :
    ∃ p, walk false root va s = .ok (some (pteAddr p (px 0 va)), s) ∧
      load s.mem (pteAddr p (px 0 va)) 8 = e := by
  obtain ⟨p, hp, hent⟩ := Option.bind_eq_some_iff.mp he
  refine ⟨p, by rw [walk_false hva, hp, Option.map_some], ?_⟩
  unfold entry at hent
  split_ifs at hent
  exact Option.some.inj hent

theorem Frame.kernelWritable {f a : ℕ} (hf : Frame kend f) (he : etext ≤ kend) (ha : InPage f a) :
    KernelWritable etext a := by
  have h1 := hf.first_le
  have h2 := hf.le_stop
  have h3 := base_le_first kend
  have h4 := le_base kend
  simp only [InPage] at ha
  exact Or.inr (Or.inr (Or.inr (Or.inl ⟨by omega, by omega⟩)))

theorem TRAMPOLINE_eq : TRAMPOLINE = 274877902848 := by
  unfold TRAMPOLINE
  rw [MAXVA_eq]
  rfl

theorem not_kernelWritable {a : ℕ} (he : KERNBASE ≤ etext) (ha : a < PGSIZE) : ¬ KernelWritable etext a := by
  simp only [KERNBASE, PGSIZE] at he ha
  rintro (h | h | h | h | ⟨p, hp, h⟩)
  · simp only [UART0] at h
    omega
  · simp only [VIRTIO0] at h
    omega
  · simp only [PLIC] at h
    omega
  · omega
  · simp only [KSTACK, TRAMPOLINE_eq, PGSIZE, NPROC] at h hp
    omega

variable (fuel src) in
/-- **A page that can be written**: its part of the bytes is copied. -/
theorem UserSpace.copy_page (fault : ℕ → Phys → Except Panic (ℕ × Phys)) (h : UserSpace kend root s l)
    (hek : etext ≤ kend) (hlen : len ≠ 0) (hva : pgRoundDown va < MAXVA) {e : ℕ}
    (he : leaf s.mem root (pathOf (pgRoundDown va)) (px 0 (pgRoundDown va)) = some e)
    (hu : e &&& PTE_U ≠ 0) (hw : e &&& PTE_W ≠ 0) :
    copyoutLoop fault etext root (fuel + 1) va len src s =
      copyoutLoop fault etext root fuel (pgRoundDown va + PGSIZE)
        (len - min (PGSIZE - (va - pgRoundDown va)) len)
        (fun i => src (min (PGSIZE - (va - pgRoundDown va)) len + i))
        (s.put (pte2pa e + (va - pgRoundDown va)) (min (PGSIZE - (va - pgRoundDown va)) len) src) := by
  have hf := (h.frame _ _ e rfl he hu).1
  obtain ⟨p, hwalk, hload⟩ := walk_of_leaf hva he
  have hfits : ∀ i < min (PGSIZE - (va - pgRoundDown va)) len,
      KernelWritable etext (pte2pa e + (va - pgRoundDown va) + i) := by
    intro i hi
    refine hf.kernelWritable hek ?_
    simp only [InPage]
    omega
  rw [copyoutLoop, if_neg hlen]
  dsimp only
  rw [if_neg (by omega), uVA2PA_eq hva, he]
  dsimp only [bind, Except.bind]
  rw [if_neg hu, faultIn, if_neg hf.ne_zero]
  dsimp only
  rw [if_neg hf.ne_zero, hwalk]
  dsimp only
  rw [hload, if_neg hw, memmove, if_pos hfits]

/-- **A page that the user may not write to**, or beyond the size of the process: -1. -/
theorem UserSpace.copy_refused (h : UserSpace kend root s l) (hlen : len ≠ 0)
    (hno : MAXVA ≤ pgRoundDown va ∨
      (∃ e, leaf s.mem root (pathOf (pgRoundDown va)) (px 0 (pgRoundDown va)) = some e ∧
        (e &&& PTE_U = 0 ∨ e &&& PTE_W = 0)) ∨
      (leaf s.mem root (pathOf (pgRoundDown va)) (px 0 (pgRoundDown va)) = none ∧ sz ≤ pgRoundDown va)) :
    copyoutLoop (vmfault kend sz root) etext root (fuel + 1) va len src s = .ok (-1, s) := by
  rw [copyoutLoop, if_neg hlen]
  by_cases hva : MAXVA ≤ pgRoundDown va
  · rw [if_pos hva]
  · have hlt : pgRoundDown va < MAXVA := by omega
    rw [if_neg hva, uVA2PA_eq hlt]
    rcases hno with hge | ⟨e, he, hflag⟩ | ⟨he, hsz⟩
    · exact absurd hge hva
    · rw [he]
      dsimp only [bind, Except.bind]
      by_cases hu : e &&& PTE_U = 0
      · -- `vmfault` finds the page mapped
        have hzero := vmfault_zero kend root sz s hlt (pgRoundDown_mod va)
          (Or.inr (by rw [he]; simp))
        rw [if_pos hu, faultIn, if_pos rfl, hzero]
        rfl
      · have hf := (h.frame _ _ e rfl he hu).1
        obtain ⟨p, hwalk, hload⟩ := walk_of_leaf hlt he
        rw [if_neg hu, faultIn, if_neg hf.ne_zero]
        dsimp only
        rw [if_neg hf.ne_zero, hwalk]
        dsimp only
        rw [hload, if_pos (hflag.resolve_left hu)]
    · have hzero := vmfault_zero kend root sz s hlt (pgRoundDown_mod va) (Or.inl hsz)
      rw [he]
      dsimp only [bind, Except.bind]
      rw [faultIn, if_pos rfl, hzero]
      rfl

/-- **A page that `vmfault` cannot make**: -1. -/
theorem UserSpace.copy_fails (h : UserSpace kend root s l) (hk : kend < PHYSTOP) (hlen : len ≠ 0)
    (hva : pgRoundDown va < MAXVA)
    (hun : leaf s.mem root (pathOf (pgRoundDown va)) (px 0 (pgRoundDown va)) = none)
    (hsz : pgRoundDown va < sz) (hfew : l.length ≤ missing s.mem root (pgRoundDown va)) :
    ∃ t l', copyoutLoop (vmfault kend sz root) etext root (fuel + 1) va len src s = .ok (-1, t) ∧
      Grown kend root s l t l' := by
  obtain ⟨t, l', ht, hg, -⟩ := h.wf.vmfault_fails hk hva (pgRoundDown_mod va) hsz hun hfew
  refine ⟨t, l', ?_, hg⟩
  rw [copyoutLoop, if_neg hlen]
  rw [if_neg (by omega), uVA2PA_eq hva, hun]
  dsimp only [bind, Except.bind]
  rw [faultIn, if_pos rfl, ht]
  rfl

/-- **A page that `vmfault` makes**: the bytes go to the first page of the memory, and the kernel panics. -/
theorem UserSpace.copy_served (h : UserSpace kend root s l) (hk : kend < PHYSTOP) (hke : KERNBASE ≤ etext)
    (hlen : len ≠ 0) (hva : pgRoundDown va < MAXVA)
    (hun : leaf s.mem root (pathOf (pgRoundDown va)) (px 0 (pgRoundDown va)) = none)
    (hsz : pgRoundDown va < sz) (hmany : missing s.mem root (pgRoundDown va) < l.length) :
    copyoutLoop (vmfault kend sz root) etext root (fuel + 1) va len src s = .error .kernelTrap := by
  obtain ⟨f, u, l', p, ht, hmem, -, hg, hp, -, -⟩ :=
    h.wf.vmfault_serves hk hva (pgRoundDown_mod va) hsz hun hmany
  have hf := h.wf.alloc.frames f hmem
  have hw : load (u.setPte p (px 0 (pgRoundDown va)) (faultPte f)).mem
      (pteAddr p (px 0 (pgRoundDown va))) 8 &&& PTE_W ≠ 0 := by
    change load (store _ _ _ _) _ 8 &&& PTE_W ≠ 0
    rw [load_store hf.faultPte_lt, ← and_PTE_W, pteFlags_faultPte]
    decide
  have hp' := hg.wf.tablePage_setPte (i := px 0 (pgRoundDown va)) rfl hp hf.faultPte_lt
    (show (pathOf (pgRoundDown va)).length ≤ 2 by simp [pathOf])
  have hoff : va - pgRoundDown va < PGSIZE := by
    simp only [pgRoundDown, PGSIZE]
    omega
  have hnot : ¬ ∀ i < min (PGSIZE - (va - pgRoundDown va)) len,
      KernelWritable etext (0 + (va - pgRoundDown va) + i) := by
    intro hall
    exact not_kernelWritable hke (by omega) (hall 0 (by omega))
  rw [copyoutLoop, if_neg hlen]
  dsimp only
  rw [if_neg (by omega), uVA2PA_eq hva, hun]
  dsimp only [bind, Except.bind]
  rw [faultIn, if_pos rfl, ht]
  dsimp only
  rw [if_neg hf.ne_zero, walk_false hva, hp', hp, Option.map_some]
  dsimp only
  rw [if_neg hw, memmove, if_neg hnot]

end Round

/-! ## The loop -/

section Loop

variable {kend etext root sz va len fuel : ℕ} {src : ℕ → UInt8} {s t : Phys} {l : List ℕ}

theorem translate_ge (h : MAXVA ≤ va) : translate s root va = none := by
  rw [translate, walk, if_pos h]

theorem translate_congr
    (h : ∀ path i, path.length = 2 → leaf t.mem root path i = leaf s.mem root path i) (va : ℕ) :
    translate t root va = translate s root va := by
  by_cases hva : va < MAXVA
  · rw [translate_eq hva, translate_eq hva, h _ _ rfl]
  · rw [translate_ge (by omega), translate_ge (by omega)]

theorem translate_in_page {x e : ℕ} (hx : x < MAXVA) (hpage : pgRoundDown x = va) (hva : va < MAXVA)
    (he : leaf s.mem root (pathOf va) (px 0 va) = some e) :
    translate s root x = some (pte2pa e + x % PGSIZE, pteFlags e) := by
  have hsame : x / PGSIZE = va / PGSIZE := by
    rw [← hpage]
    simp only [pgRoundDown, PGSIZE]
    omega
  obtain ⟨hpath, hidx⟩ := (same_indices_iff hx hva).mpr hsame
  rw [translate_eq hx, hpath, hidx, he, Option.map_some]

variable (sz len l) in
theorem served_iff_of_not_writable (hw : ¬ Writable root s (pgRoundDown va)) :
    Served sz root s l va len ↔ 0 < len ∧ pgRoundDown va < MAXVA ∧ pgRoundDown va < sz ∧
      translate s root (pgRoundDown va) = none ∧ missing s.mem root (pgRoundDown va) < l.length := by
  constructor
  · rintro ⟨i, hi, hall, hrest⟩
    cases i with
    | zero => exact ⟨hi, hrest⟩
    | succ i => exact absurd (hall 0 (by omega)) hw
  · rintro ⟨hlen, hrest⟩
    exact ⟨0, hlen, fun j hj => absurd hj (Nat.not_lt_zero j), hrest⟩

/-- The part of the bytes that goes to the first page. -/
def chunk (va len : ℕ) : ℕ := min (PGSIZE - (va - pgRoundDown va)) len

theorem pgRoundDown_add_of_lt {i : ℕ} (hi : i < chunk va len) : pgRoundDown (va + i) = pgRoundDown va := by
  simp only [chunk, pgRoundDown, PGSIZE] at *
  omega

variable (va len) in
theorem add_chunk (h : chunk va len < len) : va + chunk va len = pgRoundDown va + PGSIZE := by
  simp only [chunk, pgRoundDown, PGSIZE] at *
  omega

variable (va) in
theorem chunk_pos (hlen : len ≠ 0) : 0 < chunk va len := by
  simp only [chunk, pgRoundDown, PGSIZE]
  omega

theorem add_lt_of_chunk {i : ℕ} (hva : pgRoundDown va < MAXVA) (hi : i < chunk va len) : va + i < MAXVA := by
  rw [MAXVA_eq] at *
  simp only [chunk, pgRoundDown, PGSIZE] at *
  omega

theorem translate_chunk (hva : pgRoundDown va < MAXVA) {e i : ℕ}
    (he : leaf s.mem root (pathOf (pgRoundDown va)) (px 0 (pgRoundDown va)) = some e)
    (hi : i < chunk va len) :
    translate s root (va + i) = some (pte2pa e + (va - pgRoundDown va) + i, pteFlags e) := by
  have hmod : (va + i) % PGSIZE = va - pgRoundDown va + i := by
    simp only [chunk, pgRoundDown, PGSIZE] at *
    omega
  rw [translate_in_page (add_lt_of_chunk hva hi) (pgRoundDown_add_of_lt hi) hva he, hmod, Nat.add_assoc]

variable (sz len l) in
/-- After a page that can be written, the other pages decide. -/
theorem served_tail (hw : Writable root s (pgRoundDown va))
    (htr : ∀ x, translate t root x = translate s root x)
    (hmiss : ∀ x, missing t.mem root x = missing s.mem root x) :
    Served sz root s l va len ↔ Served sz root t l (pgRoundDown va + PGSIZE) (len - chunk va len) := by
  have hwt : ∀ x, Writable root t x ↔ Writable root s x := by
    intro x
    unfold Writable
    rw [htr]
  constructor
  · rintro ⟨i, hi, hall, hva, hsz, hun, hm⟩
    by_cases hic : i < chunk va len
    · rw [pgRoundDown_add_of_lt hic] at hun
      obtain ⟨pa, perm, htrans, -⟩ := hw
      rw [hun] at htrans
      cases htrans
    · have hsum := add_chunk va len (by omega)
      have heq : pgRoundDown va + PGSIZE + (i - chunk va len) = va + i := by omega
      refine ⟨i - chunk va len, by omega, fun j hj => ?_, ?_⟩
      · rw [hwt, show pgRoundDown va + PGSIZE + j = va + (j + chunk va len) by omega]
        exact hall _ (by omega)
      · rw [heq, htr, hmiss]
        exact ⟨hva, hsz, hun, hm⟩
  · rintro ⟨i, hi, hall, hrest⟩
    have hsum := add_chunk va len (by omega)
    have heq : pgRoundDown va + PGSIZE + i = va + (i + chunk va len) := by omega
    refine ⟨i + chunk va len, by omega, fun j hj => ?_, ?_⟩
    · by_cases hjc : j < chunk va len
      · rw [pgRoundDown_add_of_lt hjc]
        exact hw
      · have hj' := hall (j - chunk va len) (by omega)
        rw [hwt, show pgRoundDown va + PGSIZE + (j - chunk va len) = va + j by omega] at hj'
        exact hj'
    · rw [heq, htr, hmiss] at hrest
      exact hrest

theorem exact_of_data (hdata : ∀ f, Frame kend f → f ∉ l → OffTable s root f →
      ∀ a, InPage f a → t.mem a = s.mem a) :
    Exact kend root s l va len src (-1) t :=
  ⟨fun h => absurd h (by decide), fun f hf hfl hno a ha hne => absurd (hdata f hf hfl hno a ha) hne⟩

theorem UserSpace.page_eq (h : UserSpace kend root s l) {x y a perm perm' : ℕ} (hx : x < MAXVA)
    (hy : y < MAXVA) (htx : translate s root x = some (a, perm)) (hty : translate s root y = some (a, perm'))
    (hu : perm &&& PTE_U ≠ 0) (hu' : perm' &&& PTE_U ≠ 0) : x / PGSIZE = y / PGSIZE := by
  rw [translate_eq hx] at htx
  rw [translate_eq hy] at hty
  obtain ⟨e, he, heq⟩ := Option.map_eq_some_iff.mp htx
  obtain ⟨e', he', heq'⟩ := Option.map_eq_some_iff.mp hty
  obtain ⟨hpa, rfl⟩ := Prod.mk.inj heq
  obtain ⟨hpa', rfl⟩ := Prod.mk.inj heq'
  rw [and_PTE_U] at hu hu'
  have hf := (h.frame _ _ e rfl he hu).1.aligned
  have hf' := (h.frame _ _ e' rfl he' hu').1.aligned
  have hsame : pte2pa e = pte2pa e' := by
    simp only [PGSIZE] at *
    omega
  exact (same_indices_iff hx hy).mp (h.once _ _ _ _ e e' rfl rfl he he' hu hu' hsame)

/-- **A page and the rest.** `t` is the result of the rest of the copy after the first page. -/
theorem UserSpace.exact_tail (h : UserSpace kend root s l) (hva : pgRoundDown va < MAXVA) {e : ℕ}
    (he : leaf s.mem root (pathOf (pgRoundDown va)) (px 0 (pgRoundDown va)) = some e)
    (hu : e &&& PTE_U ≠ 0) (hw : e &&& PTE_W ≠ 0) {u : Phys}
    (hsu : u = s.put (pte2pa e + (va - pgRoundDown va)) (chunk va len) src)
    (hpage : SamePages root s u)
    (htu : ∀ x, translate u root x = translate s root x) (htt : ∀ x, translate t root x = translate s root x)
    {r : ℤ}
    (hrest : Exact kend root u l (pgRoundDown va + PGSIZE) (len - chunk va len)
      (fun i => src (chunk va len + i)) r t) :
    Exact kend root s l va len src r t := by
  obtain ⟨hf, hfl⟩ := h.frame _ _ e rfl he hu
  have hoff : va - pgRoundDown va + chunk va len ≤ PGSIZE := by
    simp only [chunk, pgRoundDown, PGSIZE]
    omega
  have hlt : ∀ i, i < chunk va len → va + i < MAXVA := fun i hi => add_lt_of_chunk hva hi
  have hfirst : ∀ i, i < chunk va len →
      translate s root (va + i) = some (pte2pa e + (va - pgRoundDown va) + i, pteFlags e) :=
    fun i hi => translate_chunk hva he hi
  have hput : ∀ i, i < chunk va len → u.mem (pte2pa e + (va - pgRoundDown va) + i) = src i := by
    intro i hi
    rw [hsu]
    change Memory.put _ _ _ _ _ = _
    rw [put_of_mem ⟨Nat.le_add_right _ _, by omega⟩, Nat.add_sub_cancel_left]
  refine ⟨fun hr i hi => ?_, fun f hff hffl hno a ha hne => ?_⟩
  · by_cases hic : i < chunk va len
    · refine ⟨_, _, (htt _).trans (hfirst i hic), by rwa [and_PTE_U], ?_⟩
      rw [← hput i hic]
      by_contra hchanged
      -- the rest of the copy does not come back to this page
      obtain ⟨j, hj, perm, htrans, hju, -⟩ := hrest.only (pte2pa e) hf hfl
        (fun path hlen => by rw [hpage path hlen]; exact h.data _ _ e rfl he hu path hlen) _
        (by simp only [InPage]; omega) hchanged
      rw [htu] at htrans
      have hjlt : pgRoundDown va + PGSIZE + j < MAXVA := by
        by_contra hge
        rw [translate_ge (by omega)] at htrans
        cases htrans
      have hsame := h.page_eq hjlt (hlt i hic) htrans (hfirst i hic) hju (by rwa [and_PTE_U])
      have hdown := pgRoundDown_add_of_lt hic
      simp only [pgRoundDown, PGSIZE] at hsame hdown
      omega
    · have hsum := add_chunk va len (by omega)
      obtain ⟨pa, perm, htrans, hju, hbyte⟩ := hrest.stored hr (i - chunk va len) (by omega)
      rw [show pgRoundDown va + PGSIZE + (i - chunk va len) = va + i by omega] at htrans
      rw [show chunk va len + (i - chunk va len) = i by omega] at hbyte
      exact ⟨pa, perm, htrans, hju, hbyte⟩
  · by_cases hmid : t.mem a = u.mem a
    · -- the byte was written in the first page
      have hin : pte2pa e + (va - pgRoundDown va) ≤ a ∧
          a < pte2pa e + (va - pgRoundDown va) + chunk va len := by
        by_contra hout
        apply hne
        rw [hmid, hsu]
        exact put_of_not_mem hout
      have hle : chunk va len ≤ len := min_le_right _ _
      refine ⟨a - (pte2pa e + (va - pgRoundDown va)), by omega, pteFlags e, ?_, ?_, ?_⟩
      · rw [hfirst _ (by omega), Nat.add_sub_cancel' hin.1]
      · rwa [and_PTE_U]
      · rwa [and_PTE_W]
    · obtain ⟨j, hj, perm, htrans, hju, hjw⟩ := hrest.only f hff hffl
        (fun path hlen => by rw [hpage path hlen]; exact hno path hlen) a ha hmid
      have hsum := add_chunk va len (by omega)
      rw [htu, show pgRoundDown va + PGSIZE + j = va + (chunk va len + j) by omega] at htrans
      exact ⟨chunk va len + j, by omega, perm, htrans, hju, hjw⟩

/-- What is to be shown of a round and the rounds that follow: a panic if a page is made by `vmfault`, and
the right result otherwise. -/
def Settled (kend root sz : ℕ) (s : Phys) (l : List ℕ) (va len : ℕ) (src : ℕ → UInt8)
    (x : Except Panic (ℤ × Phys)) : Prop :=
  (Served sz root s l va len → x = .error .kernelTrap) ∧
    (¬ Served sz root s l va len → ∃ r t, x = .ok (r, t) ∧ Exact kend root s l va len src r t ∧
      ∀ y, translate t root y = translate s root y)

theorem settled_refused {x : Except Panic (ℤ × Phys)} (hnot : ¬ Served sz root s l va len)
    (hx : x = .ok (-1, s)) : Settled kend root sz s l va len src x :=
  ⟨fun hserved => absurd hserved hnot,
    fun _ => ⟨-1, s, hx, exact_of_data fun _ _ _ _ _ _ => rfl, fun _ => rfl⟩⟩

theorem UserSpace.settled_none (h : UserSpace kend root s l) (hk : kend < PHYSTOP) (hke : KERNBASE ≤ etext)
    (hlen : len ≠ 0) (hva : pgRoundDown va < MAXVA)
    (he : leaf s.mem root (pathOf (pgRoundDown va)) (px 0 (pgRoundDown va)) = none) :
    Settled kend root sz s l va len src
      (copyoutLoop (vmfault kend sz root) etext root (fuel + 1) va len src s) := by
  have hnw : ¬ Writable root s (pgRoundDown va) := by
    rw [writable_iff hva, he]
    rintro ⟨e, hcon, -⟩
    cases hcon
  have hiff := served_iff_of_not_writable sz len l hnw
  have hnone : translate s root (pgRoundDown va) = none := (translate_eq_none hva).mpr he
  by_cases hsz : pgRoundDown va < sz
  · by_cases hmany : missing s.mem root (pgRoundDown va) < l.length
    · refine ⟨fun _ => h.copy_served hk hke hlen hva he hsz hmany, fun hnot => ?_⟩
      exact absurd (hiff.mpr ⟨by omega, hva, hsz, hnone, hmany⟩) hnot
    · refine ⟨fun hserved => absurd (hiff.mp hserved).2.2.2.2 hmany, fun _ => ?_⟩
      obtain ⟨t, l', ht, hg⟩ := h.copy_fails hk hlen hva he hsz (by omega)
      exact ⟨-1, t, ht, exact_of_data hg.data, translate_congr hg.leaf⟩
  · refine settled_refused (fun hserved => absurd (hiff.mp hserved).2.2.1 hsz) ?_
    exact h.copy_refused hlen (Or.inr (Or.inr ⟨he, by omega⟩))

theorem UserSpace.settled_readOnly (h : UserSpace kend root s l) (hlen : len ≠ 0)
    (hva : pgRoundDown va < MAXVA) {e : ℕ}
    (he : leaf s.mem root (pathOf (pgRoundDown va)) (px 0 (pgRoundDown va)) = some e)
    (hflags : e &&& PTE_U = 0 ∨ e &&& PTE_W = 0) :
    Settled kend root sz s l va len src
      (copyoutLoop (vmfault kend sz root) etext root (fuel + 1) va len src s) := by
  have hnw : ¬ Writable root s (pgRoundDown va) := by
    rw [writable_iff hva, he]
    rintro ⟨e', hcon, hu, hw⟩
    cases hcon
    exact hflags.elim hu hw
  have hsome : translate s root (pgRoundDown va) ≠ none := by
    rw [Ne, translate_eq_none hva, he]
    simp
  refine settled_refused (fun hserved => ?_) (h.copy_refused hlen (Or.inr (Or.inl ⟨e, he, hflags⟩)))
  exact hsome ((served_iff_of_not_writable sz len l hnw).mp hserved).2.2.2.1

theorem UserSpace.settled_page (h : UserSpace kend root s l) (hek : etext ≤ kend) (hlen : len ≠ 0)
    (hva : pgRoundDown va < MAXVA) {e : ℕ}
    (he : leaf s.mem root (pathOf (pgRoundDown va)) (px 0 (pgRoundDown va)) = some e)
    (hu : e &&& PTE_U ≠ 0) (hw : e &&& PTE_W ≠ 0)
    (ih : ∀ u, UserSpace kend root u l → Settled kend root sz u l (pgRoundDown va + PGSIZE)
      (len - chunk va len) (fun i => src (chunk va len + i))
      (copyoutLoop (vmfault kend sz root) etext root fuel (pgRoundDown va + PGSIZE) (len - chunk va len)
        (fun i => src (chunk va len + i)) u)) :
    Settled kend root sz s l va len src
      (copyoutLoop (vmfault kend sz root) etext root (fuel + 1) va len src s) := by
  have hwr : Writable root s (pgRoundDown va) := (writable_iff hva).mpr ⟨e, he, hu, hw⟩
  obtain ⟨hf, hfl⟩ := h.frame _ _ e rfl he hu
  have hoff : va - pgRoundDown va + chunk va len ≤ PGSIZE := by
    simp only [chunk, pgRoundDown, PGSIZE]
    omega
  obtain ⟨hus, hpage, hleaf⟩ := h.put hf hfl (h.data _ _ e rfl he hu)
    (a := pte2pa e + (va - pgRoundDown va)) (n := chunk va len) ⟨by omega, by omega⟩ src
  have htu := translate_congr hleaf
  have hmiss : ∀ x, missing (s.put (pte2pa e + (va - pgRoundDown va)) (chunk va len) src).mem root x =
      missing s.mem root x := by
    intro x
    exact missing_congr x hpage
  have hround := h.copy_page fuel src (vmfault kend sz root) hek hlen hva he hu hw
  obtain ⟨hs, hns⟩ := ih _ hus
  have htail := served_tail sz len l hwr htu hmiss
  refine ⟨fun hserved => hround.trans (hs (htail.mp hserved)), fun hnot => ?_⟩
  obtain ⟨r, t, ht, hexact, htt⟩ := hns fun hserved => hnot (htail.mpr hserved)
  have htt' : ∀ x, translate t root x = translate s root x := fun x => (htt x).trans (htu x)
  exact ⟨r, t, hround.trans ht, h.exact_tail hva he hu hw rfl hpage htu htt' hexact, htt'⟩

variable (sz va src) in
/-- **The loop of `copyout`.** -/
theorem UserSpace.copyLoop (h : UserSpace kend root s l) (hk : kend < PHYSTOP) (hke : KERNBASE ≤ etext)
    (hek : etext ≤ kend) (hfuel : len < fuel) :
    Settled kend root sz s l va len src (copyoutLoop (vmfault kend sz root) etext root fuel va len src s) := by
  induction fuel generalizing s va len src with
  | zero => exact absurd hfuel (Nat.not_lt_zero _)
  | succ fuel ih =>
    by_cases hlen : len = 0
    · subst hlen
      refine ⟨fun ⟨i, hi, _⟩ => absurd hi (Nat.not_lt_zero i), fun _ => ⟨0, s, ?_, ⟨?_, ?_⟩, fun _ => rfl⟩⟩
      · rw [copyoutLoop, if_pos rfl]
      · exact fun _ i hi => absurd hi (Nat.not_lt_zero i)
      · exact fun f _ _ _ a _ hne => absurd rfl hne
    by_cases hva : pgRoundDown va < MAXVA
    · cases he : leaf s.mem root (pathOf (pgRoundDown va)) (px 0 (pgRoundDown va)) with
      | none => exact h.settled_none hk hke hlen hva he
      | some e =>
        by_cases hflags : e &&& PTE_U = 0 ∨ e &&& PTE_W = 0
        · exact h.settled_readOnly hlen hva he hflags
        · rw [not_or] at hflags
          have hpos := chunk_pos va hlen
          exact h.settled_page hek hlen hva he hflags.1 hflags.2 fun u hus => ih _ _ hus (by omega)
    · refine settled_refused (fun ⟨i, _, _, hlt, _⟩ => hva ?_) (h.copy_refused hlen (Or.inl (by omega)))
      simp only [pgRoundDown, PGSIZE] at *
      omega

end Loop

/-- **When `copyout` stores the bytes.** For every process, every address, every length and all bytes:
`copyout` returns, and its result is right, if and only if the first page of the range that the user may not
write to is not one that `vmfault` makes. -/
theorem copyout_exact_iff {kend etext root : ℕ} {s : Phys} {l : List ℕ} (hk : kend < PHYSTOP)
    (hke : KERNBASE ≤ etext) (hek : etext ≤ kend) (h : UserSpace kend root s l) (sz va len : ℕ)
    (src : ℕ → UInt8) :
    (∃ r t, copyout kend etext sz root va src len s = .ok (r, t) ∧ Exact kend root s l va len src r t) ↔
      ¬ Served sz root s l va len := by
  obtain ⟨hs, hns⟩ := h.copyLoop sz va src hk hke hek (Nat.lt_succ_self len)
  refine ⟨?_, fun hnot => ?_⟩
  · rintro ⟨r, t, ht, -⟩ hserved
    cases (hs hserved).symm.trans ht
  · obtain ⟨r, t, ht, hexact, -⟩ := hns hnot
    exact ⟨r, t, ht, hexact⟩

/-- A process without pages, and at least `n` free pages. -/
theorem exists_small_space {n : ℕ} (hn : n < 1000) :
    ∃ s l root, UserSpace (PHYSTOP - (n + 2) * PGSIZE) root s l ∧ n ≤ l.length ∧
      ∀ path, path ≠ [] → tablePage s.mem root path = none := by
  have hframe : ∀ i, i < n + 1 → Frame (PHYSTOP - (n + 2) * PGSIZE) (PHYSTOP - (i + 1) * PGSIZE) := by
    intro i hi
    refine ⟨?_, ?_, ?_⟩
    · rw [PHYSTOP_eq]
      simp only [PGSIZE]
      omega
    · simp only [first, base, pgRoundUp, pgRoundDown, metaSz, pageCnt, PHYSTOP_eq, PGSIZE]
      omega
    · rw [PHYSTOP_eq]
      simp only [PGSIZE]
      omega
  obtain ⟨s, l, root, hwf, hall, hempty⟩ :=
    exists_empty_table (sub_pages_lt_PHYSTOP (Nat.succ_pos (n + 1))) (hframe 0 (by omega))
  have hleaf : ∀ (path : List (Fin 512)) i, path.length = 2 → leaf s.mem root path i = none := by
    intro path i hlen
    rw [leaf, hempty path (by rintro rfl; simp at hlen), Option.bind_none]
  refine ⟨s, l, root, ⟨hwf, ?_, ?_, ?_⟩, ?_, hempty⟩
  · intro path i e hlen he
    rw [hleaf path i hlen] at he
    cases he
  · intro path i e hlen he
    rw [hleaf path i hlen] at he
    cases he
  · intro path path' i i' e e' hlen _ he
    rw [hleaf path i hlen] at he
    cases he
  · -- the pages are the root and free pages
    have hnodup : ((List.range (n + 1)).map fun i => PHYSTOP - (i + 1) * PGSIZE).Nodup := by
      refine List.nodup_range.map_on fun x hx y hy heq => ?_
      rw [List.mem_range] at hx hy
      rw [PHYSTOP_eq] at heq
      simp only [PGSIZE] at heq
      omega
    have hsub : ((List.range (n + 1)).map fun i => PHYSTOP - (i + 1) * PGSIZE) ⊆ root :: l := by
      intro f hf
      obtain ⟨i, hi, rfl⟩ := List.mem_map.mp hf
      exact hall _ (hframe i (List.mem_range.mp hi))
    have hle := (hnodup.subperm hsub).length_le
    simp only [List.length_map, List.length_range, List.length_cons] at hle
    omega

theorem copyout_lazy_page_panics :
    ∃ s l root, UserSpace (PHYSTOP - 5 * PGSIZE) root s l ∧
      copyout (PHYSTOP - 5 * PGSIZE) KERNBASE PGSIZE root 0 (fun _ => 1) 1 s = .error .kernelTrap := by
  obtain ⟨s, l, root, h, hlen, hempty⟩ := exists_small_space (show 3 < 1000 by decide)
  refine ⟨s, l, root, h, (h.copyLoop _ _ _ (sub_pages_lt_PHYSTOP (by decide)) (le_refl _) ?_ (by decide)).1
    ⟨0, by decide, ?_, MAXVA_pos, ?_, ?_, ?_⟩⟩
  · rw [PHYSTOP_eq]
    decide
  · exact fun j hj => absurd hj (Nat.not_lt_zero j)
  · decide
  · rw [translate_eq_none (show pgRoundDown (0 + 0) < MAXVA from MAXVA_pos), leaf, hempty _ (by simp [pathOf]),
      Option.bind_none]
  · rw [missing, need, need, hempty _ (by simp), hempty _ (by simp [pathOf])]
    exact hlen

/-- A process with one page. -/
theorem exists_one_page : ∃ s l root, UserSpace (PHYSTOP - 5 * PGSIZE) root s l ∧ Writable root s 0 := by
  obtain ⟨s, l, root, h, hlen, hempty⟩ := exists_small_space (show 3 < 1000 by decide)
  have hun : leaf s.mem root (pathOf 0) (px 0 0) = none := by
    rw [leaf, hempty _ (by simp [pathOf]), Option.bind_none]
  have hmiss : missing s.mem root 0 < l.length := by
    rw [missing, need, need, hempty _ (by simp), hempty _ (by simp [pathOf])]
    exact hlen
  obtain ⟨f, u, l', p, -, hmem, hfl, hg, hp, hdata, -⟩ :=
    h.wf.vmfault_serves (sub_pages_lt_PHYSTOP (by decide)) MAXVA_pos (by decide) (show 0 < PGSIZE by decide) hun hmiss
  obtain ⟨hspace, hleaf⟩ := h.served hg hmem hfl hdata hp
  exact ⟨_, l', root, hspace, (writable_iff MAXVA_pos).mpr ⟨faultPte f, hleaf, faultPte_flags f⟩⟩

theorem copyout_exact_iff_onePage :
    ∃ s l root, UserSpace (PHYSTOP - 5 * PGSIZE) root s l ∧ Writable root s 0 ∧
      ((∃ r t, copyout (PHYSTOP - 5 * PGSIZE) KERNBASE PGSIZE root 0 (fun _ => 1) 2 s = .ok (r, t) ∧
          Exact (PHYSTOP - 5 * PGSIZE) root s l 0 2 (fun _ => 1) r t) ↔
        ¬ Served PGSIZE root s l 0 2) := by
  obtain ⟨s, l, root, h, hw⟩ := exists_one_page
  refine ⟨s, l, root, h, hw, copyout_exact_iff (sub_pages_lt_PHYSTOP (by decide)) (le_refl _) ?_ h PGSIZE 0 2
    fun _ => 1⟩
  rw [PHYSTOP_eq]
  decide

end RiscvOs.Mm
