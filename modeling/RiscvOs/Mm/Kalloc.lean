import RiscvOs.Lib.Machine
import RiscvOs.Lib.Memory

set_option autoImplicit false

/-!
# The allocator of pages

`kernel/mm/kalloc.c` over the bytes of the physical memory. The free pages form a list, each page holding
the address of the next one; a bitmap at the start of the managed memory has a bit for each page, set while
the page is in use. Both are kept inside the memory that they describe.

## Main results

* `Alloc.kalloc_nil`, `Alloc.kalloc_cons`, `Alloc.kfree`,
  `Alloc.kfree_free` — what the functions do.
* `kinit_alloc` — `kinit` puts every page into the list.

## Implementation notes

When the list is empty, `kalloc` sets bit `PAGE_INDEX(0)`, which is not in the bitmap: the index is
negative, and names a byte below the bitmap (`strayByte`). If the index is not a multiple of eight the
shift amount is negative, which C leaves undefined. The definition takes its three low bits, as compilers do
that turn the remainder into a mask; no result depends on it. The variables of the kernel are not part of the
memory of this model.
-/

namespace RiscvOs.Mm

open Function Memory

/-! ## `include/riscv.h`, `include/memlayout.h` -/

/-- Bytes per page. -/
def PGSIZE : ℕ := 4096

/-- Where the kernel is loaded. -/
def KERNBASE : ℕ := 0x80000000

/-- The end of the memory. -/
@[irreducible] def PHYSTOP : ℕ := KERNBASE + 128 * 1024 * 1024

/-- `PGROUNDDOWN`. -/
def pgRoundDown (a : ℕ) : ℕ := a - a % PGSIZE

/-- `PGROUNDUP`. -/
def pgRoundUp (sz : ℕ) : ℕ := pgRoundDown (sz + PGSIZE - 1)

/-! ## `kernel/mm/kalloc.c` -/

/-- The memory, the variables `kmem.freelist`, `kmem.bitmap` and `addr_base`. -/
structure Phys where
  mem : Mem
  freelist : ℕ
  bitmap : ℕ
  addrBase : ℕ

/-- The calls of `panic` in `kernel/mm`, in the order of the source; that of `kernelTrap`, when the kernel
stores to an address that it has not mapped; and a loop that does not end. -/
inductive Panic where
  | kfree | kfreeTwice | walk | mapVa | mapSize | mapZero | mapTwice | unmapVa | kernelTrap | loop
  deriving DecidableEq

/-- A number as a 32-bit `int`. -/
def toInt (n : ℕ) : ℤ := Int.bmod n (2 ^ 32)

/-- `PAGE_INDEX`, with the subtraction of the 64-bit numbers, as the argument of the functions below. -/
def pageIndex (base addr : ℕ) : ℤ := toInt ((addr + 2 ^ 64 - base) % 2 ^ 64 / PGSIZE)

/-- The number of places of a shift by `b`, a remainder modulo `8`. -/
def shamt (b : ℤ) : ℕ := (b % 8).toNat

/-- The low byte of `1 << b`. -/
def shiftOne (b : ℤ) : UInt8 := UInt8.ofNat (2 ^ shamt b)

/-- The address of `kmem.bitmap[c]`. -/
def Phys.byteAt (s : Phys) (c : ℤ) : ℕ := (s.bitmap + c).toNat

def listBitSet (index : ℤ) (s : Phys) : Phys :=
  let a := s.byteAt (index.tdiv 8)
  { s with mem := update s.mem a (s.mem a ||| shiftOne (index.tmod 8)) }

def listBitClear (index : ℤ) (s : Phys) : Phys :=
  let a := s.byteAt (index.tdiv 8)
  { s with mem := update s.mem a (s.mem a &&& ~~~shiftOne (index.tmod 8)) }

def listBitIsset (index : ℤ) (s : Phys) : Bool :=
  (s.mem (s.byteAt (index.tdiv 8))).toNat.testBit (shamt (index.tmod 8))

/-- Free a page. `kend` is the address `end`, the first one after the kernel. -/
def kfree (kend pa : ℕ) (s : Phys) : Except Panic Phys :=
  if pa % PGSIZE ≠ 0 ∨ pa < kend ∨ PHYSTOP ≤ pa then .error .kfree
  else
    let s := { s with mem := fill s.mem pa PGSIZE 1 }
    if !listBitIsset (pageIndex s.addrBase pa) s then .error .kfreeTwice
    else
      let s := listBitClear (pageIndex s.addrBase pa) s
      .ok { s with mem := store s.mem pa 8 s.freelist, freelist := pa }

/-- Allocate a page; `0` if there is none. -/
def kalloc (s : Phys) : ℕ × Phys :=
  let r := s.freelist
  let s := if r ≠ 0 then { s with freelist := load s.mem r 8 } else s
  let s := listBitSet (pageIndex s.addrBase r) s
  (r, if r ≠ 0 then { s with mem := fill s.mem r PGSIZE 5 } else s)

/-- The loop of `freerange`. -/
def freeLoop (kend paEnd : ℕ) : (fuel p : ℕ) → Phys → Except Panic Phys
  | 0, _, _ => .error .loop
  | fuel + 1, p, s =>
    if p + PGSIZE ≤ paEnd then do
      let s ← kfree kend p s
      freeLoop kend paEnd fuel (p + PGSIZE) s
    else .ok s

/-- The number of pages between two addresses. -/
def pageCnt (p paEnd : ℕ) : ℕ := (paEnd - p + PGSIZE - 1) / PGSIZE

/-- The number of pages of the bitmap. -/
def metaSz (cnt : ℕ) : ℕ := (cnt + 8 * PGSIZE - 1) / (8 * PGSIZE)

def freerange (kend paStart paEnd : ℕ) (s : Phys) : Except Panic Phys :=
  let p := pgRoundUp paStart
  let n := metaSz (pageCnt p paEnd) * PGSIZE
  let mem := fill (fill s.mem p n 0) p n 0xff
  freeLoop kend paEnd (paEnd + 1) (p + n) { s with mem := mem, bitmap := p, addrBase := p }

/-- `kinit`: the memory has any contents, and `kmem.freelist` is `0` as it was loaded. -/
def kinit (kend : ℕ) (mem : Mem) : Except Panic Phys := freerange kend kend PHYSTOP ⟨mem, 0, 0, 0⟩

/-! ## The managed memory -/

/-- The start of the managed memory, and of the bitmap. -/
def base (kend : ℕ) : ℕ := pgRoundUp kend

/-- The end of the bitmap. -/
def first (kend : ℕ) : ℕ := base kend + metaSz (pageCnt (base kend) PHYSTOP) * PGSIZE

/-- The pages that the allocator manages. -/
structure Frame (kend f : ℕ) : Prop where
  aligned : f % PGSIZE = 0
  first_le : first kend ≤ f
  le_stop : f + PGSIZE ≤ PHYSTOP

/-- The number of a page, from the start of the managed memory. -/
def frameNo (kend f : ℕ) : ℕ := (f - base kend) / PGSIZE

/-- The addresses of a page. -/
def InPage (f a : ℕ) : Prop := f ≤ a ∧ a < f + PGSIZE

/-- The pages in `l` are free, according to the list and to the bitmap. -/
structure Alloc (kend : ℕ) (s : Phys) (l : List ℕ) : Prop where
  bitmap : s.bitmap = base kend
  addrBase : s.addrBase = base kend
  list : IsList s.mem s.freelist l
  nodup : l.Nodup
  frames : ∀ f ∈ l, Frame kend f
  bits : ∀ f, Frame kend f → (bit s.mem (base kend) (frameNo kend f) = false ↔ f ∈ l)

section Layout

variable {kend f g a : ℕ}

theorem base_mod (kend : ℕ) : base kend % PGSIZE = 0 := by
  simp only [base, pgRoundUp, pgRoundDown, PGSIZE]
  omega

theorem le_base (kend : ℕ) : kend ≤ base kend := by
  simp only [base, pgRoundUp, pgRoundDown, PGSIZE]
  omega

theorem PHYSTOP_eq : PHYSTOP = 2281701376 := by
  unfold PHYSTOP
  rfl

theorem sub_pages_lt_PHYSTOP {n : ℕ} (hn : 0 < n) : PHYSTOP - n * PGSIZE < PHYSTOP := by
  rw [PHYSTOP_eq]
  simp only [PGSIZE]
  omega

theorem base_le (h : kend < PHYSTOP) : base kend ≤ PHYSTOP := by
  rw [PHYSTOP_eq] at h ⊢
  simp only [base, pgRoundUp, pgRoundDown, PGSIZE]
  omega

theorem base_le_first (kend : ℕ) : base kend ≤ first kend := by
  unfold first
  omega

theorem first_mod (kend : ℕ) : first kend % PGSIZE = 0 := by
  have h := base_mod kend
  simp only [first, PGSIZE] at *
  omega

theorem Frame.byte_lt (h : Frame kend f) : base kend + frameNo kend f / 8 < first kend := by
  have hf := h.first_le
  have hs := h.le_stop
  simp only [first, frameNo, metaSz, pageCnt, PGSIZE] at *
  omega

theorem Frame.first_pos (h : Frame kend f) : base kend < first kend := by
  have hb := h.byte_lt
  omega

theorem Frame.ne_zero (h : Frame kend f) : f ≠ 0 := by
  have hb := h.first_pos
  have hf := h.first_le
  omega

theorem Frame.disjoint (hf : Frame kend f) (hg : Frame kend g) (hne : f ≠ g) (ha : InPage f a) :
    ¬ InPage g a := by
  intro hb
  have hfa := hf.aligned
  have hga := hg.aligned
  simp only [InPage, PGSIZE] at *
  omega

theorem frameNo_inj (hf : Frame kend f) (hg : Frame kend g) (h : frameNo kend f = frameNo kend g) :
    f = g := by
  have hb := base_le_first kend
  have hfa := hf.aligned
  have hga := hg.aligned
  have hff := hf.first_le
  have hgf := hg.first_le
  simp only [frameNo, PGSIZE] at *
  omega

theorem toInt_eq {n : ℕ} (h : n < 2 ^ 31) : toInt n = n := by
  apply Int.bmod_eq_of_le <;> omega

theorem toInt_neg {q : ℕ} (h0 : 0 < q) (h : q < 2 ^ 31) : toInt (2 ^ 52 - q) = -q := by
  unfold toInt Int.bmod
  dsimp only
  split_ifs <;> omega

theorem pageIndex_frame (h : Frame kend f) : pageIndex (base kend) f = frameNo kend f := by
  have hb := base_le_first kend
  have hf := h.first_le
  have hs := h.le_stop
  rw [PHYSTOP_eq] at hs
  have hsub : (f + 2 ^ 64 - base kend) % 2 ^ 64 = f - base kend := by omega
  have hlt : (f - base kend) / PGSIZE < 2 ^ 31 := by
    simp only [PGSIZE]
    omega
  rw [pageIndex, hsub, toInt_eq hlt, frameNo]

theorem tdiv_eight (n : ℕ) : (n : ℤ).tdiv 8 = (n / 8 : ℕ) := rfl

theorem tmod_eight (n : ℕ) : (n : ℤ).tmod 8 = (n % 8 : ℕ) := rfl

theorem byteAt_eq {s : Phys} (hs : s.bitmap = base kend) (n : ℕ) :
    s.byteAt ((n : ℤ).tdiv 8) = base kend + n / 8 := by
  rw [Phys.byteAt, hs, tdiv_eight]
  omega

theorem shamt_eq (n : ℕ) : shamt ((n : ℤ).tmod 8) = n % 8 := by
  rw [shamt, tmod_eight]
  omega

theorem shiftOne_eq (n : ℕ) : shiftOne ((n : ℤ).tmod 8) = ByteBlock.bitMask n := by
  apply UInt8.toNat_inj.mp
  have hpow : 2 ^ (n % 8) < 2 ^ 8 := Nat.pow_lt_pow_right (by omega) (Nat.mod_lt n (by omega))
  rw [shiftOne, shamt_eq, ByteBlock.bitMask_toNat, UInt8.toNat_ofNat']
  exact Nat.mod_eq_of_lt hpow

theorem listBitSet_eq {s : Phys} (hs : s.bitmap = base kend) (n : ℕ) :
    listBitSet n s = { s with mem := setBit s.mem (base kend) n } := by
  simp only [listBitSet, byteAt_eq hs, shiftOne_eq, setBit]

theorem listBitClear_eq {s : Phys} (hs : s.bitmap = base kend) (n : ℕ) :
    listBitClear n s = { s with mem := clearBit s.mem (base kend) n } := by
  simp only [listBitClear, byteAt_eq hs, shiftOne_eq, clearBit]

theorem listBitIsset_eq {s : Phys} (hs : s.bitmap = base kend) (n : ℕ) :
    listBitIsset n s = bit s.mem (base kend) n := by
  simp only [listBitIsset, byteAt_eq hs, shamt_eq, bit, ByteBlock.and_bitMask]

end Layout

/-! ## The functions -/

section Functions

variable {kend f : ℕ} {s t : Phys} {l : List ℕ}

/-- `s` and `t` agree on the pages, except on the page `f`. -/
def SameBut (kend f : ℕ) (s t : Phys) : Prop := ∀ a, first kend ≤ a → ¬ InPage f a → t.mem a = s.mem a

theorem SameBut.load_eq (h : SameBut kend f s t) (hf : Frame kend f) {g : ℕ} (hg : Frame kend g)
    (hne : g ≠ f) : load t.mem g 8 = load s.mem g 8 := by
  apply load_congr
  intro a ha ha'
  apply h a (hg.first_le.trans ha)
  apply hg.disjoint hf hne
  simp only [InPage, PGSIZE]
  omega

theorem Alloc.pageIndex_eq (h : Alloc kend s l) (hf : Frame kend f) :
    pageIndex s.addrBase f = frameNo kend f := by
  rw [h.addrBase, pageIndex_frame hf]

theorem Alloc.congr (h : Alloc kend s l) {m : Mem}
    (hmap : ∀ a, base kend ≤ a → a < first kend → m a = s.mem a)
    (hfree : ∀ f ∈ l, ∀ a, InPage f a → m a = s.mem a) : Alloc kend { s with mem := m } l := by
  refine ⟨h.bitmap, h.addrBase, ?_, h.nodup, h.frames, fun f hf => ?_⟩
  · apply h.list.congr
    intro x hx
    apply load_congr
    intro a ha ha'
    apply hfree x hx
    simp only [InPage, PGSIZE]
    omega
  · rw [← h.bits f hf, bit_congr (hmap _ (Nat.le_add_right _ _) hf.byte_lt)]

theorem pageIndex_zero (h : kend < PHYSTOP) : pageIndex (base kend) 0 = -(base kend / PGSIZE : ℕ) := by
  have hb := base_le h
  have hm := base_mod kend
  rw [PHYSTOP_eq] at hb
  simp only [PGSIZE] at hm
  rcases Nat.eq_zero_or_pos (base kend) with h0 | hpos
  · rw [h0]
    rfl
  · have hdiv : (0 + 2 ^ 64 - base kend) % 2 ^ 64 / PGSIZE = 2 ^ 52 - base kend / PGSIZE := by
      simp only [PGSIZE]
      omega
    have hlt : base kend / PGSIZE < 2 ^ 31 ∧ 0 < base kend / PGSIZE := by
      simp only [PGSIZE]
      omega
    unfold pageIndex
    rw [hdiv, toInt_neg hlt.2 hlt.1]

theorem stray_lt_first (h : kend < PHYSTOP) (hs : s.bitmap = base kend) :
    s.byteAt ((pageIndex (base kend) 0).tdiv 8) < first kend := by
  have hb := base_le h
  have hm := base_mod kend
  rw [Phys.byteAt, hs, pageIndex_zero h, Int.neg_tdiv, tdiv_eight]
  rw [PHYSTOP_eq] at hb
  simp only [first, metaSz, pageCnt, PHYSTOP_eq, PGSIZE] at *
  omega

/-- **`kalloc` with an empty list** changes no byte of a page, and clears no bit. -/
theorem Alloc.kalloc_nil (h : Alloc kend s []) (hk : kend < PHYSTOP) :
    ∃ t, kalloc s = (0, t) ∧ Alloc kend t [] ∧ ∀ a, first kend ≤ a → t.mem a = s.mem a := by
  have h0 : s.freelist = 0 := h.list
  have hlt := stray_lt_first hk h.bitmap
  rw [← h.addrBase] at hlt
  generalize hi : pageIndex s.addrBase 0 = i at hlt
  refine ⟨listBitSet i s, ?_, ⟨h.bitmap, h.addrBase, h0, h.nodup, h.frames,
    fun f hf => iff_of_false ?_ List.not_mem_nil⟩, fun a ha => ?_⟩
  · simp [kalloc, h0, hi]
  · -- all pages are in use
    have hused : bit s.mem (base kend) (frameNo kend f) = true := by
      rw [← Bool.not_eq_false, h.bits f hf]
      exact List.not_mem_nil
    rw [Bool.not_eq_false]
    exact bit_or hused
  · exact update_of_ne (by omega) ..

/-- **`kalloc` takes the first page of the list.** -/
theorem Alloc.kalloc_cons (h : Alloc kend s (f :: l)) :
    ∃ t, kalloc s = (f, t) ∧ Alloc kend t l ∧ SameBut kend f s t := by
  obtain ⟨hhead, hne, htail⟩ := h.list
  have hf : Frame kend f := h.frames f List.mem_cons_self
  have hnd := List.nodup_cons.mp h.nodup
  have hset := listBitSet_eq (s := { s with freelist := load s.mem f 8 }) h.bitmap (frameNo kend f)
  let t : Phys := { s with
    freelist := load s.mem f 8
    mem := fill (setBit s.mem (base kend) (frameNo kend f)) f PGSIZE 5 }
  have hlow := hf.byte_lt
  have hsame : SameBut kend f s t := by
    intro a ha hna
    change fill _ _ _ _ _ = _
    rw [fill_of_not_mem hna]
    apply update_of_ne
    omega
  refine ⟨t, ?_, ⟨h.bitmap, h.addrBase, ?_, hnd.2, ?_, ?_⟩, hsame⟩
  · simp only [kalloc, hhead, if_pos hne, h.pageIndex_eq hf, hset, t]
  · apply htail.congr
    intro x hx
    have hxf : x ≠ f := by
      rintro rfl
      exact hnd.1 hx
    exact hsame.load_eq hf (h.frames x (List.mem_cons_of_mem _ hx)) hxf
  · exact fun x hx => h.frames x (List.mem_cons_of_mem _ hx)
  · intro g hg
    have hgl := hg.byte_lt
    have hfl := hf.first_le
    have hbyte : bit t.mem (base kend) (frameNo kend g) =
        bit (setBit s.mem (base kend) (frameNo kend f)) (base kend) (frameNo kend g) := by
      apply bit_congr
      apply fill_of_not_mem
      omega
    rw [hbyte, bit_setBit, Bool.or_eq_false_iff, h.bits g hg, decide_eq_false_iff_not, List.mem_cons]
    constructor
    · rintro ⟨hgf, rfl | hgl⟩
      · exact absurd rfl hgf
      · exact hgl
    · intro hgl
      refine ⟨fun heq => ?_, Or.inr hgl⟩
      obtain rfl := frameNo_inj hg hf heq
      exact hnd.1 hgl

theorem Frame.kfree_test (hf : Frame kend f) :
    ¬ (f % PGSIZE ≠ 0 ∨ f < kend ∨ PHYSTOP ≤ f) := by
  have h1 := hf.aligned
  have h2 := hf.first_le
  have h3 := hf.le_stop
  have h4 := base_le_first kend
  have h5 := le_base kend
  simp only [PGSIZE] at *
  omega

theorem Frame.bit_fill (hf : Frame kend f) {g : ℕ} (hg : Frame kend g) (m : Mem) (c : UInt8) :
    bit (fill m f PGSIZE c) (base kend) (frameNo kend g) = bit m (base kend) (frameNo kend g) := by
  have hgl := hg.byte_lt
  have hfl := hf.first_le
  apply bit_congr
  apply fill_of_not_mem
  omega

/-- **`kfree` of a free page panics.** -/
theorem Alloc.kfree_free (h : Alloc kend s l) (hf : f ∈ l) : kfree kend f s = .error .kfreeTwice := by
  have hfr := h.frames f hf
  have hbit := (h.bits f hfr).mpr hf
  have hset := listBitIsset_eq (s := { s with mem := fill s.mem f PGSIZE 1 }) h.bitmap (frameNo kend f)
  simp only [kfree, if_neg hfr.kfree_test, h.pageIndex_eq hfr, hset, hfr.bit_fill hfr, hbit]
  rfl

theorem Alloc.freelist_lt (h : Alloc kend s l) : s.freelist < 256 ^ 8 := by
  cases l with
  | nil =>
    rw [show s.freelist = 0 from h.list]
    decide
  | cons x l =>
    have hx := (h.frames x List.mem_cons_self).le_stop
    rw [h.list.1]
    rw [PHYSTOP_eq] at hx
    omega

/-- **`kfree` puts a page in front of the list.** -/
theorem Alloc.kfree (h : Alloc kend s l) (hf : Frame kend f) (hfl : f ∉ l) :
    ∃ t, kfree kend f s = .ok t ∧ Alloc kend t (f :: l) ∧ SameBut kend f s t := by
  have hbit : bit s.mem (base kend) (frameNo kend f) = true := by
    rw [← Bool.not_eq_false, h.bits f hf]
    exact hfl
  have hset := listBitIsset_eq (s := { s with mem := fill s.mem f PGSIZE 1 }) h.bitmap (frameNo kend f)
  have hclear := listBitClear_eq (s := { s with mem := fill s.mem f PGSIZE 1 }) h.bitmap (frameNo kend f)
  let m := clearBit (fill s.mem f PGSIZE 1) (base kend) (frameNo kend f)
  let t : Phys := { s with mem := store m f 8 s.freelist, freelist := f }
  have hlow := hf.byte_lt
  have hfirst := hf.first_le
  have hsame : SameBut kend f s t := by
    intro a ha hna
    have hna' : ¬ (f ≤ a ∧ a < f + 8) := by
      simp only [InPage, PGSIZE] at hna
      omega
    change store _ _ _ _ _ = _
    rw [store_of_not_mem hna']
    change update _ _ _ _ = _
    rw [update_of_ne (by omega), fill_of_not_mem hna]
  refine ⟨t, ?_, ⟨h.bitmap, h.addrBase, ?_, List.nodup_cons.mpr ⟨hfl, h.nodup⟩, ?_, ?_⟩, hsame⟩
  · simp only [Mm.kfree, if_neg hf.kfree_test, h.pageIndex_eq hf, hset, hf.bit_fill hf, hbit, hclear]
    rfl
  · refine h.list.cons hf.ne_zero (load_store h.freelist_lt) fun x hx => ?_
    have hxf : x ≠ f := by
      rintro rfl
      exact hfl hx
    exact hsame.load_eq hf (h.frames x hx) hxf
  · intro x hx
    rcases List.mem_cons.mp hx with rfl | hx
    · exact hf
    · exact h.frames x hx
  · intro g hg
    have hgl := hg.byte_lt
    have hbyte : bit t.mem (base kend) (frameNo kend g) = bit m (base kend) (frameNo kend g) := by
      apply bit_congr
      apply store_of_not_mem
      omega
    rw [hbyte, bit_clearBit, hf.bit_fill hg, List.mem_cons, Bool.and_eq_false_iff, h.bits g hg,
      Bool.not_eq_false', decide_eq_true_iff]
    constructor
    · rintro (heq | hgl)
      · exact Or.inl (frameNo_inj hg hf heq)
      · exact Or.inr hgl
    · rintro (rfl | hgl)
      · exact Or.inl rfl
      · exact Or.inr hgl

theorem Alloc.freeLoop (h : Alloc kend s l) {p fuel : ℕ} (hp : p % PGSIZE = 0) (hfp : first kend ≤ p)
    (hl : ∀ f, Frame kend f → (f ∈ l ↔ f < p)) (hfuel : PHYSTOP < p + PGSIZE + fuel) :
    ∃ t l', freeLoop kend PHYSTOP (fuel + 1) p s = .ok t ∧ Alloc kend t l' ∧
      ∀ f, Frame kend f → f ∈ l' := by
  induction fuel generalizing s l p with
  | zero =>
    rw [Mm.freeLoop, if_neg (by omega)]
    refine ⟨s, l, rfl, h, fun g hg => (hl g hg).mpr ?_⟩
    have hgs := hg.le_stop
    omega
  | succ fuel ih =>
    by_cases hlt : p + PGSIZE ≤ PHYSTOP
    · rw [Mm.freeLoop, if_pos hlt]
      have hf : Frame kend p := ⟨hp, hfp, hlt⟩
      have hnot : p ∉ l := fun hmem => absurd ((hl p hf).mp hmem) (lt_irrefl p)
      obtain ⟨u, hu, hau, -⟩ := h.kfree hf hnot
      rw [hu]
      have hp' : (p + PGSIZE) % PGSIZE = 0 := by rw [Nat.add_mod_right, hp]
      refine ih hau hp' (by omega) (fun g hg => ?_) (by simp only [PGSIZE] at *; omega)
      have hga := hg.aligned
      rw [List.mem_cons, hl g hg]
      simp only [PGSIZE] at *
      omega
    · rw [Mm.freeLoop, if_neg hlt]
      refine ⟨s, l, rfl, h, fun g hg => (hl g hg).mpr ?_⟩
      have hgs := hg.le_stop
      omega

theorem alloc_marked (mem : Mem) {n : ℕ} (hn : first kend = base kend + n) :
    Alloc kend ⟨fill mem (base kend) n 0xff, 0, base kend, base kend⟩ [] := by
  refine ⟨rfl, rfl, rfl, List.nodup_nil, fun f hf => absurd hf List.not_mem_nil, fun f hf => ?_⟩
  have hlt := hf.byte_lt
  rw [hn] at hlt
  have hbit : bit (fill mem (base kend) n 0xff) (base kend) (frameNo kend f) = true := by
    apply bit_of_ff
    exact if_pos ⟨Nat.le_add_right _ _, hlt⟩
  simp [hbit]

/-- **`kinit` puts every page into the list.** -/
theorem kinit_alloc (hk : kend < PHYSTOP) (mem : Mem) :
    ∃ s l, kinit kend mem = .ok s ∧ Alloc kend s l ∧ ∀ f, Frame kend f → f ∈ l := by
  have hb := base_le hk
  have hnone : ∀ f, Frame kend f → (f ∈ ([] : List ℕ) ↔ f < first kend) := by
    intro f hf
    have hfl := hf.first_le
    simp only [List.not_mem_nil, false_iff]
    omega
  have hpos : 0 < PGSIZE := by decide
  exact (alloc_marked _ rfl).freeLoop (first_mod kend) (le_refl _) hnone (by omega)

end Functions

end RiscvOs.Mm
