import RiscvOs.Mm.Allocator

set_option autoImplicit false

/-!
# An allocator without free pages

`kalloc` marks the page that it returns in the bitmap also when there is none. The index of the null pointer is
negative: the byte that it names lies below the bitmap, in the memory of the kernel. If the index is a multiple
of eight, bit 0 of that byte is set; otherwise the amount of the shift is negative, and C does not say what
happens.

## Main results

* `Alloc.kalloc_stray` — what `kalloc` does when there is no free page.
* `harmless_iff` — a call is harmless unless it is `kalloc` without a free page.
-/

namespace RiscvOs.Mm

open Function Machine Memory

/-- The byte that `kalloc` changes when there is no free page. -/
def strayByte (kend : ℕ) : ℕ := base kend - base kend / PGSIZE / 8

section Stray

variable {kend : ℕ} {s : Phys}

theorem strayByte_lt (hk : KERNBASE ≤ kend) : strayByte kend < base kend := by
  have hb := le_base kend
  simp only [strayByte, KERNBASE, PGSIZE] at *
  omega

theorem byteAt_stray (h : Alloc kend s []) (hp : kend < PHYSTOP) :
    s.byteAt ((pageIndex s.addrBase 0).tdiv 8) = strayByte kend := by
  rw [h.addrBase, pageIndex_zero hp, Phys.byteAt, h.bitmap, Int.neg_tdiv, tdiv_eight, strayByte]
  omega

/-- **`kalloc` without a free page** returns the null pointer and sets bits of the stray byte. -/
theorem Alloc.kalloc_stray (h : Alloc kend s []) (hp : kend < PHYSTOP) :
    kalloc s = (0, { s with
      mem := update s.mem (strayByte kend)
        (s.mem (strayByte kend) ||| shiftOne ((pageIndex s.addrBase 0).tmod 8)) }) := by
  have h0 : s.freelist = 0 := h.list
  rw [← byteAt_stray h hp]
  simp only [kalloc, h0, ne_eq, not_true_eq_false, if_false, listBitSet]

end Stray

end RiscvOs.Mm

namespace RiscvOs.Mm.Allocator

open Function Machine Memory

/-- The index that a call passes to `list_bit_set`, `list_bit_clear` and `list_bit_isset`. -/
def index (s : State) : Event → Option ℤ
  | .kalloc => some (pageIndex s.phys.addrBase s.phys.freelist)
  | .kfree pa => some (pageIndex s.phys.addrBase pa)
  | .write _ => none

/-- A call is harmless: its index is in the range that the bitmap covers, and `kalloc` with an empty list
returns the null pointer and changes nothing. -/
structure Harmless (kend : ℕ) (s : State) (e : Event) : Prop where
  range : ∀ i, index s e = some i → 0 ≤ i ∧ i < 8 * (first kend - base kend : ℕ)
  fails : e = .kalloc → s.phys.freelist = 0 → kalloc s.phys = (0, s.phys)

section Runs

variable {kend : ℕ} {s : State} {l : List ℕ}

theorem frame_index_lt {f : ℕ} (hf : Frame kend f) :
    0 ≤ (frameNo kend f : ℤ) ∧ (frameNo kend f : ℤ) < 8 * (first kend - base kend : ℕ) := by
  have hlt := hf.byte_lt
  omega

theorem Inv.harmless_unless (h : Inv kend s l) (hk : KERNBASE ≤ kend) (hp : kend < PHYSTOP) {e : Event}
    (he : Legal kend s e) : Harmless kend s e ↔ ¬ (e = .kalloc ∧ s.phys.freelist = 0) := by
  have hempty := h.alloc.list.eq_nil_iff
  cases e with
  | write m =>
    refine iff_of_true ⟨fun i hi => ?_, fun hw => ?_⟩ fun hw => ?_
    · cases hi
    · cases hw
    · cases hw.1
  | kfree pa =>
    refine iff_of_true ⟨fun i hi => ?_, fun hw => ?_⟩ fun hw => ?_
    · obtain rfl := Option.some.inj hi
      rw [h.alloc.pageIndex_eq (h.got pa he)]
      exact frame_index_lt (h.got pa he)
    · cases hw
    · cases hw.1
  | kalloc =>
    cases l with
    | nil =>
      have h0 : s.phys.freelist = 0 := hempty.mp rfl
      refine iff_of_false (fun hh => ?_) (not_not.mpr ⟨rfl, h0⟩)
      -- the index of the null pointer is negative
      have hr := (hh.range _ rfl).1
      have hb := le_base kend
      rw [h0, h.alloc.addrBase, pageIndex_zero hp] at hr
      simp only [KERNBASE, PGSIZE] at *
      omega
    | cons f l =>
      have hne : s.phys.freelist ≠ 0 := fun h0 => List.cons_ne_nil f l (hempty.mpr h0)
      have hf := h.alloc.frames f List.mem_cons_self
      refine iff_of_true ⟨fun i hi => ?_, fun _ h0 => absurd h0 hne⟩ fun hw => hne hw.2
      obtain rfl := Option.some.inj hi
      rw [show s.phys.freelist = f from h.alloc.list.1, h.alloc.pageIndex_eq hf]
      exact frame_index_lt hf

theorem Inv.exhaust (h : Inv kend s l) :
    ∃ t, Reach (next kend) (Legal kend) s t ∧ Inv kend t [] := by
  induction l generalizing s with
  | nil => exact ⟨s, .refl, h⟩
  | cons f l ih =>
    obtain ⟨u, hn, hinv⟩ := h.kalloc_cons
    obtain ⟨t, ht, hinv⟩ := ih hinv
    exact ⟨t, (Reach.step .refl trivial hn).trans ht, hinv⟩

end Runs

/-- **A call is harmless unless it is `kalloc` without a free page.** For every end of the kernel and every
contents of the memory, in every state that is reached from `kinit`. When there is no free page, `kalloc`
returns the null pointer and leaves the list, the bitmap and the pages as they are. -/
theorem harmless_iff {kend : ℕ} (hk : KERNBASE ≤ kend) (hp : kend < PHYSTOP) (mem : Mem) :
    ∃ s₀, kinit kend mem = .ok s₀ ∧
      ∀ s, Reach (next kend) (Legal kend) ⟨s₀, ∅, ∅⟩ s → ∀ e, Legal kend s e →
        (Harmless kend s e ↔ ¬ (e = .kalloc ∧ s.phys.freelist = 0)) ∧
        (s.phys.freelist = 0 → (kalloc s.phys).1 = 0 ∧ (kalloc s.phys).2.freelist = 0 ∧
          ∀ a, base kend ≤ a → (kalloc s.phys).2.mem a = s.phys.mem a) := by
  obtain ⟨s₀, l₀, hinit, hinv⟩ := exists_inv hp mem
  refine ⟨s₀, hinit, fun s hs e he => ?_⟩
  obtain ⟨l, hl⟩ := hinv.reach hp hs
  refine ⟨hl.harmless_unless hk hp he, fun h0 => ?_⟩
  obtain rfl : l = [] := hl.alloc.list.eq_nil_iff.mpr h0
  have hlt := strayByte_lt hk
  rw [hl.alloc.kalloc_stray hp]
  exact ⟨rfl, h0, fun a ha => update_of_ne (by omega) ..⟩

/-- The page after 40 pages of the kernel. -/
def fortyPages : ℕ := KERNBASE + 40 * PGSIZE

theorem fortyPages_lt : fortyPages < PHYSTOP := by
  rw [PHYSTOP_eq]
  decide

theorem harmless_iff_fortyPages :
    ∃ s₀, kinit fortyPages (fun _ => 0) = .ok s₀ ∧ ∀ e, Legal fortyPages ⟨s₀, ∅, ∅⟩ e →
      (Harmless fortyPages ⟨s₀, ∅, ∅⟩ e ↔ ¬ (e = .kalloc ∧ s₀.freelist = 0)) := by
  obtain ⟨s₀, hinit, h⟩ := harmless_iff (show KERNBASE ≤ fortyPages by decide) fortyPages_lt (fun _ => 0)
  exact ⟨s₀, hinit, fun e he => (h _ .refl e he).1⟩

/-- **The last page has been taken, and a byte of the kernel changes**: 65541 bytes below the bitmap. -/
theorem kalloc_writes_kernel :
    ∃ s₀ s, kinit fortyPages (fun _ => 0) = .ok s₀ ∧
      Reach (next fortyPages) (Legal fortyPages) ⟨s₀, ∅, ∅⟩ s ∧ s.phys.freelist = 0 ∧
      index s .kalloc = some (-524328) ∧ (kalloc s.phys).1 = 0 ∧
      s.phys.mem (base fortyPages - 65541) = 0 ∧ (kalloc s.phys).2.mem (base fortyPages - 65541) = 1 := by
  obtain ⟨s₀, l₀, hinit, hinv⟩ := exists_inv fortyPages_lt (fun _ => 0)
  obtain ⟨t, ht, hinv⟩ := hinv.exhaust
  -- the kernel clears the byte
  let m : Mem := update t.phys.mem (strayByte fortyPages) 0
  have hlegal : Legal fortyPages t (.write m) := by
    intro a ha
    left
    have heq : a = strayByte fortyPages := by
      by_contra hne
      exact ha (update_of_ne hne ..)
    rw [heq]
    exact strayByte_lt (by decide)
  have hw := hinv.write hlegal
  have hstray : base fortyPages - 65541 = strayByte fortyPages := by decide
  have hm : m (strayByte fortyPages) = 0 := update_self ..
  have hfree : t.phys.freelist = 0 := hinv.alloc.list
  have hidx : pageIndex t.phys.addrBase 0 = -524328 := by
    rw [hinv.alloc.addrBase, pageIndex_zero fortyPages_lt]
    decide
  refine ⟨s₀, { t with phys := { t.phys with mem := m } }, hinit, ht.step hlegal rfl, hfree, ?_, ?_, ?_, ?_⟩
  · rw [index, hw.alloc.list]
    exact congrArg some hidx
  · rw [hw.alloc.kalloc_stray fortyPages_lt]
  · rw [hstray]
    exact hm
  · rw [hw.alloc.kalloc_stray fortyPages_lt, hstray]
    -- the index is a multiple of eight: the shift is by zero
    have hshift : shiftOne ((pageIndex t.phys.addrBase 0).tmod 8) = 1 := by
      rw [hidx]
      decide
    have hor : m (strayByte fortyPages) ||| shiftOne ((pageIndex t.phys.addrBase 0).tmod 8) = 1 := by
      rw [hm, hshift]
      rfl
    exact (update_self (strayByte fortyPages) _ m).trans hor

end RiscvOs.Mm.Allocator
