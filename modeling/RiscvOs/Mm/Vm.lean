import RiscvOs.Lib.Radix
import RiscvOs.Mm.Kalloc

set_option autoImplicit false

/-!
# Page tables

`kernel/mm/vm.c`: the walk through a table of three levels, which makes the pages that are missing, the
functions that map and unmap pages, and the fault handler.
-/

namespace RiscvOs.Mm

open Memory Radix

/-! ## `include/riscv.h` -/

def PTE_V : ℕ := 1
def PTE_R : ℕ := 2
def PTE_W : ℕ := 4
def PTE_X : ℕ := 8
def PTE_U : ℕ := 16

/-- `PA2PTE`. -/
def pa2pte (pa : ℕ) : ℕ := pa / 2 ^ 12 * 2 ^ 10

/-- `PTE2PA`, in 64 bits. -/
def pte2pa (pte : ℕ) : ℕ := pte / 2 ^ 10 * 2 ^ 12 % 2 ^ 64

/-- `PTE_FLAGS`. -/
def pteFlags (pte : ℕ) : ℕ := pte % 2 ^ 10

/-- `PX`: the nine bits of an address that are the index at a level. -/
def px (level va : ℕ) : Fin 512 := Fin.ofNat 512 (va / 2 ^ (12 + 9 * level))

/-- One beyond the highest virtual address. -/
@[irreducible] def MAXVA : ℕ := 2 ^ (9 + 9 + 9 + 12 - 1)

/-! ## `kernel/mm/vm.c` -/

/-- `&pagetable[i]`. -/
def pteAddr (pagetable : ℕ) (i : Fin 512) : ℕ := pagetable + 8 * i.val

/-- A round of the loop of `walk`: the page of the next level, if there is one or one could be made. -/
def walkLevel (alloc : Bool) (va level pagetable : ℕ) (s : Phys) : Option ℕ × Phys :=
  let pte := pteAddr pagetable (px level va)
  if load s.mem pte 8 &&& PTE_V ≠ 0 then (some (pte2pa (load s.mem pte 8)), s)
  else if !alloc then (none, s)
  else
    let (q, s) := kalloc s
    if q = 0 then (none, s)
    else
      let s := { s with mem := fill s.mem q PGSIZE 0 }
      (some q, { s with mem := store s.mem pte 8 (pa2pte q ||| PTE_V) })

/-- The address of the entry of the lowest level, or `none` for the null pointer. -/
def walk (alloc : Bool) (pagetable va : ℕ) (s : Phys) : Except Panic (Option ℕ × Phys) :=
  if MAXVA ≤ va then .error .walk
  else
    match walkLevel alloc va 2 pagetable s with
    | (none, s) => .ok (none, s)
    | (some pagetable, s) =>
      match walkLevel alloc va 1 pagetable s with
      | (none, s) => .ok (none, s)
      | (some pagetable, s) => .ok (some (pteAddr pagetable (px 0 va)), s)

/-- The loop of `mapPages`. -/
def mapLoop (pagetable last perm : ℕ) : (fuel a pa : ℕ) → Phys → Except Panic (ℤ × Phys)
  | 0, _, _, _ => .error .loop
  | fuel + 1, a, pa, s => do
    let (pte, s) ← walk true pagetable a s
    match pte with
    | none => .ok (-1, s)
    | some pte =>
      if load s.mem pte 8 &&& PTE_V ≠ 0 then .error .mapTwice
      else
        let s := { s with mem := store s.mem pte 8 (pa2pte pa ||| perm ||| PTE_V) }
        if a = last then .ok (0, s)
        else mapLoop pagetable last perm fuel ((a + PGSIZE) % 2 ^ 64) ((pa + PGSIZE) % 2 ^ 64) s

/-- Map `size` bytes from `va` to `pa`. -/
def mapPages (pagetable va size pa perm : ℕ) (s : Phys) : Except Panic (ℤ × Phys) :=
  if va % PGSIZE ≠ 0 then .error .mapVa
  else if size % PGSIZE ≠ 0 then .error .mapSize
  else if size = 0 then .error .mapZero
  else mapLoop pagetable (va + size - PGSIZE) perm (size / PGSIZE) va pa s

/-- An empty table; `0` if there is no page for it. -/
def uVmCreate (s : Phys) : ℕ × Phys :=
  let (pagetable, s) := kalloc s
  if pagetable = 0 then (0, s) else (pagetable, { s with mem := fill s.mem pagetable PGSIZE 0 })

def ismapped (pagetable va : ℕ) (s : Phys) : Except Panic Bool := do
  let (pte, _) ← walk false pagetable va s
  match pte with
  | none => .ok false
  | some pte => .ok (load s.mem pte 8 &&& PTE_V ≠ 0)

/-- The physical page of a user address; `0` if there is none. -/
def uVA2PA (pagetable va : ℕ) (s : Phys) : Except Panic ℕ :=
  if MAXVA ≤ va then .ok 0
  else do
    let (pte, _) ← walk false pagetable va s
    match pte with
    | none => .ok 0
    | some pte =>
      let e := load s.mem pte 8
      if e &&& PTE_V = 0 then .ok 0
      else if e &&& PTE_U = 0 then .ok 0
      else .ok (pte2pa e)

/-- The end of `vmfault`: the new page is mapped, or freed again. -/
def faultMap (kend pagetable va mem : ℕ) (s : Phys) : Except Panic (ℕ × Phys) := do
  let (r, s) ← mapPages pagetable va PGSIZE mem (PTE_W ||| PTE_U ||| PTE_R) s
  if r ≠ 0 then do
    let s ← kfree kend mem s
    .ok (0, s)
  else .ok (mem, s)

/-- The fault handler, for a process of `sz` bytes with the table `pagetable`. -/
def vmfault (kend sz pagetable va : ℕ) (s : Phys) : Except Panic (ℕ × Phys) :=
  if sz ≤ va then .ok (0, s)
  else do
    let va := pgRoundDown va
    if ← ismapped pagetable va s then .ok (0, s)
    else
      let (mem, s) := kalloc s
      if mem = 0 then .ok (0, s)
      else faultMap kend pagetable va mem { s with mem := fill s.mem mem PGSIZE 0 }

/-- The loop of `uVmUnmap`, for the pages from `a` on. -/
def unmapLoop (kend pagetable : ℕ) (doFree : Bool) : (npages a : ℕ) → Phys → Except Panic Phys
  | 0, _, s => .ok s
  | npages + 1, a, s => do
    let (pte, s) ← walk false pagetable a s
    match pte with
    | none => unmapLoop kend pagetable doFree npages (a + PGSIZE) s
    | some pte =>
      if load s.mem pte 8 &&& PTE_V = 0 then unmapLoop kend pagetable doFree npages (a + PGSIZE) s
      else do
        let s ← if doFree then kfree kend (pte2pa (load s.mem pte 8)) s else .ok s
        unmapLoop kend pagetable doFree npages (a + PGSIZE) { s with mem := store s.mem pte 8 0 }

/-- Unmap `npages` pages, and free them if `doFree` is set. -/
def uVmUnmap (kend pagetable va npages : ℕ) (doFree : Bool) (s : Phys) : Except Panic Phys :=
  if va % PGSIZE ≠ 0 then .error .unmapVa else unmapLoop kend pagetable doFree npages va s

/-! ## What a table says -/

/-- The translation of an address: the physical address and the flags. -/
def translate (s : Phys) (pagetable va : ℕ) : Option (ℕ × ℕ) :=
  match walk false pagetable va s with
  | .ok (some pte, _) =>
    let e := load s.mem pte 8
    if e &&& PTE_V ≠ 0 then some (pte2pa e + va % PGSIZE, pteFlags e) else none
  | _ => none

/-- The entry at an index of a page, if it is valid. -/
def entry (m : Mem) (p : ℕ) (i : Fin 512) : Option ℕ :=
  if load m (pteAddr p i) 8 &&& PTE_V ≠ 0 then some (load m (pteAddr p i) 8) else none

/-- The page to which a valid entry points. -/
def child (m : Mem) (p : ℕ) (i : Fin 512) : Option ℕ := (entry m p i).map pte2pa

/-- The page of a table at a path. -/
def tablePage (m : Mem) (root : ℕ) (path : List (Fin 512)) : Option ℕ := node (child m) root path

/-- The leaf entry at a path and an index. -/
def leaf (m : Mem) (root : ℕ) (path : List (Fin 512)) (i : Fin 512) : Option ℕ :=
  (tablePage m root path).bind fun p => entry m p i

/-- The path of the page of the lowest level for an address. -/
def pathOf (va : ℕ) : List (Fin 512) := [px 1 va, px 2 va]

/-- A table is well formed: no page of it is shared, and its pages are allocated. `l` is the list of free
pages. -/
structure WellFormed (kend : ℕ) (s : Phys) (l : List ℕ) (root : ℕ) : Prop where
  alloc : Alloc kend s l
  unshared : Unshared (child s.mem) root 2
  owned : ∀ path p, path.length ≤ 2 → tablePage s.mem root path = some p → Frame kend p ∧ p ∉ l

/-! ## Entries -/

section Entries

variable {m m' : Mem} {p q pa perm va root : ℕ} {i j : Fin 512}

theorem MAXVA_eq : MAXVA = 2 ^ 38 := by
  unfold MAXVA
  rfl

theorem MAXVA_pos : 0 < MAXVA := by
  rw [MAXVA_eq]
  decide

theorem and_PTE_V (e : ℕ) : e &&& PTE_V = e % 2 := Nat.and_one_is_mod e

theorem pa2pte_or {v : ℕ} (hv : v < 1024) : pa2pte pa ||| v = pa / 4096 * 1024 + v := by
  have h := Nat.shiftLeft_add_eq_or_of_lt (i := 10) (b := v) hv (pa / 2 ^ 12)
  rw [Nat.shiftLeft_eq] at h
  exact h.symm

theorem perm_or_lt (hperm : perm < 1024) : perm ||| PTE_V < 1024 :=
  Nat.or_lt_two_pow (n := 10) hperm (by decide)

theorem pte_eq (hperm : perm < 1024) :
    pa2pte pa ||| perm ||| PTE_V = pa / 4096 * 1024 + (perm ||| PTE_V) := by
  rw [Nat.or_assoc, pa2pte_or (perm_or_lt hperm)]

theorem pte_lt {v : ℕ} (hpa : pa < 2 ^ 64) (hv : v < 1024) : pa / 4096 * 1024 + v < 256 ^ 8 := by
  omega

theorem pte2pa_eq {v : ℕ} (hpa : pa < 2 ^ 64) (hal : pa % PGSIZE = 0) (hv : v < 1024) :
    pte2pa (pa / 4096 * 1024 + v) = pa := by
  simp only [pte2pa, PGSIZE] at *
  omega

theorem pteFlags_eq {v : ℕ} (hv : v < 1024) : pteFlags (pa / 4096 * 1024 + v) = v := by
  simp only [pteFlags]
  omega

theorem pte_valid {v : ℕ} : (pa / 4096 * 1024 + v) % 2 = v % 2 := by omega

theorem or_PTE_V_mod (perm : ℕ) : (perm ||| PTE_V) % 2 = 1 :=
  Nat.or_mod_two_eq_one.mpr (Or.inr rfl)

theorem entry_congr (h : load m' (pteAddr p i) 8 = load m (pteAddr p i) 8) : entry m' p i = entry m p i := by
  rw [entry, entry, h]

theorem child_congr (h : entry m' p i = entry m p i) : child m' p i = child m p i := by
  rw [child, child, h]

theorem pteAddr_inPage (p : ℕ) (i : Fin 512) : p ≤ pteAddr p i ∧ pteAddr p i + 8 ≤ p + PGSIZE := by
  simp only [pteAddr, PGSIZE]
  omega

theorem pteAddr_disjoint {kend : ℕ} (hp : Frame kend p) (hq : Frame kend q) (h : p ≠ q ∨ i ≠ j) :
    pteAddr p i + 8 ≤ pteAddr q j ∨ pteAddr q j + 8 ≤ pteAddr p i := by
  have hpa := hp.aligned
  have hqa := hq.aligned
  have hj := j.isLt
  simp only [pteAddr, PGSIZE] at *
  rcases h with h | h
  · omega
  · have hne : i.val ≠ j.val := fun he => h (Fin.ext he)
    omega

theorem entry_store {kend v : ℕ} (hp : Frame kend p) (hq : Frame kend q) (hv : v < 256 ^ 8) :
    entry (store m (pteAddr p i) 8 v) q j =
      if q = p ∧ j = i then (if v % 2 ≠ 0 then some v else none) else entry m q j := by
  split_ifs with h hv'
  · obtain ⟨rfl, rfl⟩ := h
    rw [entry, load_store hv, and_PTE_V, if_pos hv']
  · obtain ⟨rfl, rfl⟩ := h
    rw [entry, load_store hv, and_PTE_V, if_neg hv']
  · apply entry_congr
    apply load_store_of_disjoint
    apply pteAddr_disjoint hp hq
    by_contra hcon
    push Not at hcon
    exact h ⟨hcon.1.symm, hcon.2.symm⟩

theorem entry_fill_zero (p : ℕ) (i : Fin 512) : entry (fill m p PGSIZE 0) p i = none := by
  have hz : load (fill m p PGSIZE 0) (pteAddr p i) 8 = 0 := load_fill_zero (pteAddr_inPage p i)
  rw [entry, hz, if_neg]
  simp

end Entries

/-! ## Addresses -/

section Addresses

variable {va va' : ℕ}

theorem px_val (level va : ℕ) : (px level va).val = va / 2 ^ (12 + 9 * level) % 512 := rfl

theorem same_indices_iff (h : va < MAXVA) (h' : va' < MAXVA) :
    (pathOf va = pathOf va' ∧ px 0 va = px 0 va') ↔ va / PGSIZE = va' / PGSIZE := by
  rw [MAXVA_eq] at h h'
  simp only [pathOf, List.cons.injEq, and_true, Fin.ext_iff, px_val, PGSIZE]
  omega

theorem walkLevel_false (va level pagetable : ℕ) (s : Phys) :
    walkLevel false va level pagetable s = (child s.mem pagetable (px level va), s) := by
  unfold walkLevel child entry
  by_cases hv : load s.mem (pteAddr pagetable (px level va)) 8 &&& PTE_V ≠ 0
  · simp only [if_pos hv, Option.map_some]
  · simp only [if_neg hv, Option.map_none]
    rfl

/-- **`walk` without allocation** follows the table. -/
theorem walk_false (h : va < MAXVA) (root : ℕ) (s : Phys) :
    walk false root va s =
      .ok ((tablePage s.mem root (pathOf va)).map fun p => pteAddr p (px 0 va), s) := by
  rw [walk, if_neg (by omega), walkLevel_false]
  simp only [tablePage, pathOf, node, Option.bind_some]
  cases child s.mem root (px 2 va) with
  | none => rfl
  | some p =>
    simp only [walkLevel_false, Option.bind_some]
    cases child s.mem p (px 1 va) <;> rfl

/-- **A translation is read from a leaf entry.** -/
theorem translate_eq (h : va < MAXVA) (root : ℕ) (s : Phys) :
    translate s root va = (leaf s.mem root (pathOf va) (px 0 va)).map fun e =>
      (pte2pa e + va % PGSIZE, pteFlags e) := by
  rw [translate, walk_false h, leaf]
  cases tablePage s.mem root (pathOf va) with
  | none => rfl
  | some p =>
    simp only [Option.map_some, Option.bind_some, entry]
    split_ifs <;> rfl

end Addresses

end RiscvOs.Mm
