import RiscvOs.Mm.Copyin

set_option autoImplicit false

/-!
# Checking a range of user memory (`kernel/mm/vm.c`)

`checkUserPtr` goes through the pages of a range and tests their entries. `copyin` and `copyout` go through
the same pages with other loops, and call `vmfault` for a page that is not there. A range that has passed the
check is copied without `vmfault`: whatever function stands in its place, the copy is the same.

## Main results

* `checkLoop_result`, `checkUserPtr_result` — what the check returns.
* `UserSpace.copyin_granted`, `UserSpace.copyout_granted` — the copies of a range of granted addresses.
* `checkUserPtr_sound` — the check is sound for the copies, and does not panic.
-/

namespace RiscvOs.Mm

open Memory Radix

/-! ## The code -/

/-- The loop of `checkUserPtr`. -/
def checkLoop (pagetable endVa : ℕ) (isWrite : Bool) : (fuel va : ℕ) → Phys → Except Panic ℤ
  | 0, _, _ => .error .loop
  | fuel + 1, va, s =>
    if va < endVa then do
      let (pte, s) ← walk false pagetable va s
      match pte with
      | none => .ok (-1)
      | some pte =>
        let e := load s.mem pte 8
        if e &&& PTE_V = 0 ∨ e &&& PTE_U = 0 then .ok (-1)
        else if isWrite ∧ e &&& PTE_W = 0 then .ok (-1)
        else checkLoop pagetable endVa isWrite fuel ((va + PGSIZE) % 2 ^ 64) s
    else .ok 0

/-- Check a range of addresses of the current process, which has `sz` bytes and the table `pagetable`. -/
def checkUserPtr (sz pagetable userva size : ℕ) (isWrite : Bool) (s : Phys) : Except Panic ℤ :=
  let endVa := (userva + size) % 2 ^ 64
  if endVa < userva then .ok (-1)
  else if sz < endVa ∨ MAXVA < endVa then .ok (-1)
  else checkLoop pagetable endVa isWrite (size + 2) (pgRoundDown userva) s

/-! ## The check -/

/-- The entry of the page of an address allows the access. -/
def Granted (root : ℕ) (s : Phys) (isWrite : Bool) (va : ℕ) : Prop :=
  ∃ e, leaf s.mem root (pathOf (pgRoundDown va)) (px 0 (pgRoundDown va)) = some e ∧ e &&& PTE_U ≠ 0 ∧
    (isWrite → e &&& PTE_W ≠ 0)

section Check

variable {root endVa va : ℕ} {isWrite : Bool} {s : Phys}

variable (root isWrite s) in
/-- One round of the check: the page is refused, or it is granted and the next one follows. -/
theorem checkLoop_round (hva : va < MAXVA) (hal : va % PGSIZE = 0) (hlt : va < endVa) (fuel : ℕ) :
    (¬ Granted root s isWrite va ∧ checkLoop root endVa isWrite (fuel + 1) va s = .ok (-1)) ∨
      (Granted root s isWrite va ∧ checkLoop root endVa isWrite (fuel + 1) va s =
        checkLoop root endVa isWrite fuel (va + PGSIZE) s) := by
  have hwrap : (va + PGSIZE) % 2 ^ 64 = va + PGSIZE := by
    rw [MAXVA_eq] at hva
    refine Nat.mod_eq_of_lt ?_
    simp only [PGSIZE]
    omega
  rw [checkLoop, if_pos hlt, walk_false hva, Granted, pgRoundDown_of_mod hal, leaf]
  cases hp : tablePage s.mem root (pathOf va) with
  | none =>
    refine Or.inl ⟨?_, rfl⟩
    rintro ⟨e, he, -⟩
    cases he
  | some p =>
    rw [Option.bind_some, entry]
    dsimp only [Option.map_some, bind, Except.bind]
    rw [hwrap]
    by_cases hv : load s.mem (pteAddr p (px 0 va)) 8 &&& PTE_V = 0
    · rw [if_pos (Or.inl hv), if_neg (not_not.mpr hv)]
      refine Or.inl ⟨?_, rfl⟩
      rintro ⟨e, he, -⟩
      cases he
    · rw [if_pos hv]
      split_ifs with hrefused hw
      · refine Or.inl ⟨?_, rfl⟩
        rintro ⟨e, he, hu, -⟩
        cases he
        exact hrefused.elim hv hu
      · refine Or.inl ⟨?_, rfl⟩
        rintro ⟨e, he, -, hwrite⟩
        cases he
        exact hwrite hw.1 hw.2
      · exact Or.inr ⟨⟨_, rfl, (not_or.mp hrefused).2, fun hwrite h0 => hw ⟨hwrite, h0⟩⟩, rfl⟩

theorem granted_iff_of_page {x : ℕ} (hpage : pgRoundDown x = va) (hal : va % PGSIZE = 0) :
    Granted root s isWrite x ↔ Granted root s isWrite va := by
  rw [Granted, Granted, hpage, pgRoundDown_of_mod hal]

variable (root isWrite s) in
/-- **What the loop of the check returns**: 0 if all addresses are granted, and -1 otherwise. -/
theorem checkLoop_result (hend : endVa ≤ MAXVA) (hal : va % PGSIZE = 0) {fuel : ℕ}
    (hfuel : endVa ≤ va + fuel * PGSIZE) :
    ((∀ x, va ≤ x → x < endVa → Granted root s isWrite x) ∧
        checkLoop root endVa isWrite (fuel + 1) va s = .ok 0) ∨
      ((∃ x, va ≤ x ∧ x < endVa ∧ ¬ Granted root s isWrite x) ∧
        checkLoop root endVa isWrite (fuel + 1) va s = .ok (-1)) := by
  induction fuel generalizing va with
  | zero =>
    refine Or.inl ⟨fun x hx hxe => absurd hxe (by omega), ?_⟩
    rw [checkLoop, if_neg (by omega)]
  | succ fuel ih =>
    by_cases hlt : va < endVa
    · rcases checkLoop_round root isWrite s (hlt.trans_le hend) hal hlt (fuel + 1) with
        ⟨hno, heq⟩ | ⟨hgrant, heq⟩
      · exact Or.inr ⟨⟨va, le_refl _, hlt, hno⟩, heq⟩
      · rw [heq]
        have hal' : (va + PGSIZE) % PGSIZE = 0 := by rw [Nat.add_mod_right, hal]
        have hnext : endVa ≤ va + PGSIZE + fuel * PGSIZE := by
          rw [Nat.succ_mul] at hfuel
          omega
        refine (ih hal' hnext).imp (And.imp_left fun hrest x hx hxe => ?_)
          (And.imp_left fun ⟨x, hx, hxe, hno⟩ => ⟨x, by omega, hxe, hno⟩)
        by_cases hpage : x < va + PGSIZE
        · have hround : pgRoundDown x = va := by
            simp only [pgRoundDown, PGSIZE] at *
            omega
          exact (granted_iff_of_page hround hal).mpr hgrant
        · exact hrest x (by omega) hxe
    · refine Or.inl ⟨fun x hx hxe => absurd hxe (by omega), ?_⟩
      rw [checkLoop, if_neg hlt]

/-- **What the check returns.** -/
theorem checkUserPtr_result {sz userva size : ℕ} (hua : userva < 2 ^ 64) (hsize : size < 2 ^ 64) :
    (checkUserPtr sz root userva size isWrite s = .ok 0 ∧ userva + size ≤ MAXVA ∧
        ∀ i < size, Granted root s isWrite (userva + i)) ∨
      checkUserPtr sz root userva size isWrite s = .ok (-1) := by
  unfold checkUserPtr
  dsimp only
  split_ifs with hwrap hbound
  · exact Or.inr rfl
  · exact Or.inr rfl
  · -- the sum does not wrap
    have hsum : (userva + size) % 2 ^ 64 = userva + size := by omega
    rw [hsum] at hbound ⊢
    have hend : userva + size ≤ MAXVA := by omega
    have hfuel : userva + size ≤ pgRoundDown userva + (size + 1) * PGSIZE := by
      simp only [pgRoundDown, PGSIZE]
      omega
    rcases checkLoop_result root isWrite s hend (pgRoundDown_mod userva) hfuel with ⟨hall, heq⟩ | ⟨-, heq⟩
    · refine Or.inl ⟨heq, hend, fun i hi => hall _ ?_ (by omega)⟩
      exact (Nat.sub_le _ _).trans (Nat.le_add_right _ _)
    · exact Or.inr heq

end Check

/-! ## The copies of a range that has passed -/

section Copies

variable {kend etext root va len : ℕ} {s : Phys} {l : List ℕ}

/-- The entries of the pages of the table are the same. -/
def SameTable (root : ℕ) (s t : Phys) : Prop :=
  ∀ path p (i : Fin 512), path.length ≤ 2 → tablePage s.mem root path = some p →
    load t.mem (pteAddr p i) 8 = load s.mem (pteAddr p i) 8

theorem rest_of_range {P : ℕ → Prop} (hall : ∀ i < len, P (va + i)) :
    ∀ i < len - chunk va len, P (pgRoundDown va + PGSIZE + i) := by
  intro i hi
  rw [← add_chunk va len (by omega), Nat.add_assoc]
  exact hall _ (by omega)

theorem UserSpace.copyin_granted (h : UserSpace kend root s l) {fuel k : ℕ} {c : Fetch} (hc : c.phys = s)
    (hall : ∀ i < len, va + i < MAXVA ∧ Granted root s false (va + i)) (hfuel : len < fuel) :
    ∃ c', c'.phys = s ∧ ∀ fault, Mm.copyinLoop fault root fuel va len k c = .ok (0, c') := by
  induction fuel generalizing va len k c with
  | zero => exact absurd hfuel (Nat.not_lt_zero _)
  | succ fuel ih =>
    by_cases hlen : len = 0
    · refine ⟨c, hc, fun fault => ?_⟩
      rw [Mm.copyinLoop, if_pos hlen]
    · have hpos := chunk_pos va hlen
      obtain ⟨hva, e, he, hu, -⟩ := hall 0 (by omega)
      rw [Nat.add_zero] at he hva
      have hf := (h.frame _ _ e rfl he hu).1
      have hdown : pgRoundDown va < MAXVA := (Nat.sub_le _ _).trans_lt hva
      obtain ⟨c', hc', hrun⟩ := ih (k := k + chunk va len)
        (c := c.memmove k (pte2pa e + (va - pgRoundDown va)) (chunk va len)) hc
        (rest_of_range (P := fun x => x < MAXVA ∧ Granted root s false x) hall) (by omega)
      refine ⟨c', hc', fun fault => ?_⟩
      rw [Mm.copyinLoop, if_neg hlen, hc]
      dsimp only
      rw [uVA2PA_eq hdown, he]
      dsimp only [bind, Except.bind]
      rw [if_neg hu, faultIn, if_neg hf.ne_zero]
      dsimp only
      rw [if_neg hf.ne_zero, ← hrun fault, ← hc]
      rfl

theorem UserSpace.sameTable_put (h : UserSpace kend root s l) {f a n : ℕ} (hf : Frame kend f)
    (hdata : OffTable s root f) (hin : f ≤ a ∧ a + n ≤ f + PGSIZE) (src : ℕ → UInt8) :
    SameTable root s (s.put a n src) := by
  intro path p i hlen hp
  have hne : p ≠ f := by
    rintro rfl
    exact hdata path hlen hp
  have hword := pteAddr_inPage p i
  apply load_congr
  intro x hx hx'
  have hxp : InPage p x := ⟨by omega, by omega⟩
  have hnot := (h.wf.owned path p hlen hp).1.disjoint hf hne hxp
  apply put_of_not_mem
  simp only [InPage] at hnot
  omega

/-- `copyout` writes to the pages where they are. -/
theorem UserSpace.copyout_granted (h : UserSpace kend root s l) (hek : etext ≤ kend) {fuel : ℕ}
    (hall : ∀ i < len, va + i < MAXVA ∧ Granted root s true (va + i)) (hfuel : len < fuel)
    (src : ℕ → UInt8) :
    ∃ t, SameTable root s t ∧ ∀ fault, copyoutLoop fault etext root fuel va len src s = .ok (0, t) := by
  induction fuel generalizing va len src s with
  | zero => exact absurd hfuel (Nat.not_lt_zero _)
  | succ fuel ih =>
    by_cases hlen : len = 0
    · refine ⟨s, fun _ _ _ _ _ => rfl, fun fault => ?_⟩
      rw [copyoutLoop, if_pos hlen]
    · have hpos := chunk_pos va hlen
      obtain ⟨hva, e, he, hu, hw⟩ := hall 0 (by omega)
      rw [Nat.add_zero] at he hva
      obtain ⟨hf, hfl⟩ := h.frame _ _ e rfl he hu
      have hdata := h.data _ _ e rfl he hu
      have hdown : pgRoundDown va < MAXVA := (Nat.sub_le _ _).trans_lt hva
      have hin : pte2pa e ≤ pte2pa e + (va - pgRoundDown va) ∧
          pte2pa e + (va - pgRoundDown va) + chunk va len ≤ pte2pa e + PGSIZE := by
        simp only [chunk, pgRoundDown, PGSIZE]
        omega
      obtain ⟨hspace, hpage, hleaf⟩ := h.put hf hfl hdata hin src
      have hgranted : ∀ x, Granted root s true x →
          Granted root (s.put (pte2pa e + (va - pgRoundDown va)) (chunk va len) src) true x := by
        rintro x ⟨e', he', hrest⟩
        exact ⟨e', by rw [hleaf _ _ rfl]; exact he', hrest⟩
      have hrest : ∀ i < len - chunk va len, pgRoundDown va + PGSIZE + i < MAXVA ∧
          Granted root (s.put (pte2pa e + (va - pgRoundDown va)) (chunk va len) src) true
            (pgRoundDown va + PGSIZE + i) := by
        intro i hi
        have hold := rest_of_range (P := fun x => x < MAXVA ∧ Granted root s true x) hall i hi
        exact hold.imp_right (hgranted _)
      obtain ⟨t, hsame, hrun⟩ := ih hspace hrest (by omega) fun i => src (chunk va len + i)
      refine ⟨t, fun path q i hlen' hq => ?_, fun fault => ?_⟩
      · rw [hsame path q i hlen' (by rw [hpage path hlen']; exact hq)]
        exact h.sameTable_put hf hdata hin src path q i hlen' hq
      · exact (h.copy_page fuel src fault hek hlen hdown he hu (hw rfl)).trans (hrun fault)

end Copies

/-- **The check is sound for the copies.** For every process, range and access, `checkUserPtr` returns 0 or -1.
If it returns 0, then `copyin` from the range returns 0 whatever stands in the place of `vmfault`, and the
memory is the same; and if the access is a write, `copyout` to the range returns 0 whatever stands in the
place of `vmfault`, and all entries of the table are the same. -/
theorem checkUserPtr_sound {kend etext root : ℕ} {s : Phys} {l : List ℕ} (h : UserSpace kend root s l)
    (hek : etext ≤ kend) (sz : ℕ) {userva size : ℕ} (hua : userva < 2 ^ 64) (hsize : size < 2 ^ 64)
    (isWrite : Bool) (dst : Mem) (src : ℕ → UInt8) :
    ∃ r, checkUserPtr sz root userva size isWrite s = .ok r ∧ (r = 0 ∨ r = -1) ∧ (r = 0 →
      (∃ c, c.phys = s ∧ copyin kend sz root dst userva size s = .ok (0, c) ∧
        ∀ fault, copyinBy fault root dst userva size s = .ok (0, c)) ∧
      (isWrite → ∃ t, SameTable root s t ∧ copyout kend etext sz root userva src size s = .ok (0, t) ∧
        ∀ fault, copyoutBy fault etext root userva src size s = .ok (0, t))) := by
  rcases checkUserPtr_result hua hsize with ⟨hok, hend, hall⟩ | hrefused
  · refine ⟨0, hok, Or.inl rfl, fun _ => ⟨?_, fun hwrite => ?_⟩⟩
    · obtain ⟨c, hc, hrun⟩ := h.copyin_granted (k := 0) (c := ⟨dst, [], s⟩) rfl
        (fun i hi => ⟨by omega, (hall i hi).imp fun e he => ⟨he.1, he.2.1, fun hcon => by cases hcon⟩⟩)
        (Nat.lt_succ_self size)
      exact ⟨c, hc, hrun _, hrun⟩
    · subst hwrite
      obtain ⟨t, hsame, hrun⟩ := h.copyout_granted hek (fun i hi => ⟨by omega, hall i hi⟩)
        (Nat.lt_succ_self size) src
      exact ⟨t, hsame, hrun _, hrun⟩
  · exact ⟨-1, hrefused, Or.inr rfl, fun hcon => absurd hcon (by decide)⟩

theorem checkUserPtr_of_writable {root : ℕ} {s : Phys} (h : Writable root s 0) :
    checkUserPtr PGSIZE root 0 2 true s = .ok 0 := by
  obtain ⟨e, he, hu, hw⟩ := (writable_iff MAXVA_pos).mp h
  have hgranted : Granted root s true 0 := ⟨e, he, hu, fun _ => hw⟩
  rcases checkLoop_result root true s (show 2 ≤ MAXVA by rw [MAXVA_eq]; decide)
    (show 0 % PGSIZE = 0 by decide) (show 2 ≤ 0 + 3 * PGSIZE by decide) with ⟨-, heq⟩ | ⟨⟨x, -, hx, hno⟩, -⟩
  · rw [checkUserPtr, if_neg (by decide), if_neg (by rw [MAXVA_eq]; decide)]
    exact heq
  · refine absurd ((granted_iff_of_page ?_ (by decide)).mpr hgranted) hno
    simp only [pgRoundDown, PGSIZE]
    omega

theorem checkUserPtr_sound_onePage :
    ∃ s l root, UserSpace (PHYSTOP - 5 * PGSIZE) root s l ∧ checkUserPtr PGSIZE root 0 2 true s = .ok 0 ∧
      ∃ r, checkUserPtr PGSIZE root 0 2 true s = .ok r ∧ (r = 0 ∨ r = -1) ∧ (r = 0 →
        (∃ c, c.phys = s ∧
          copyin (PHYSTOP - 5 * PGSIZE) PGSIZE root (fun _ => 0) 0 2 s = .ok (0, c) ∧
          ∀ fault, copyinBy fault root (fun _ => 0) 0 2 s = .ok (0, c)) ∧
        (true → ∃ t, SameTable root s t ∧
          copyout (PHYSTOP - 5 * PGSIZE) KERNBASE PGSIZE root 0 (fun _ => 1) 2 s = .ok (0, t) ∧
          ∀ fault, copyoutBy fault KERNBASE root 0 (fun _ => 1) 2 s = .ok (0, t))) := by
  obtain ⟨s, l, root, h, hw⟩ := exists_one_page
  have hek : KERNBASE ≤ PHYSTOP - 5 * PGSIZE := by
    rw [PHYSTOP_eq]
    decide
  exact ⟨s, l, root, h, checkUserPtr_of_writable hw,
    checkUserPtr_sound h hek PGSIZE (by decide) (by decide) true (fun _ => 0) fun _ => 1⟩

end RiscvOs.Mm
