import RiscvOs.Fs.Read
import RiscvOs.Sys.Image

set_option autoImplicit false

/-!
# Loading an image

While `kexec` goes through the program headers, the memory of the new program is one range of addresses
from `0` on, and every page of it was free before.

## Main results

* `Image.loadPhs` — the loop over the program headers.
* `image_of_loadImage` — the memory after an image has been loaded.
-/

namespace RiscvOs.Sys

open Loop

open Mm (Phys Alloc Built pgRoundUp peek PGSIZE PHYSTOP)
open Fs (Slot readi kernelDst)

/-- The bytes of the memory after a copy of `n` bytes to `va`. -/
def patch (img : ℕ → UInt8) (va n : ℕ) (src : ℕ → UInt8) (x : ℕ) : UInt8 :=
  if va ≤ x ∧ x < va + n then src (x - va) else img x

/-! ## The memory of the new program -/

/-- The memory of a new program of `sz` bytes, which is built in the state `m₀` with the list `l₀` of free
pages. The bytes are `img`. -/
structure Image (kend : ℕ) (m₀ : Ram) (l₀ : List ℕ) (img : ℕ → UInt8) (sz : ℕ) (m : Ram) (l : List ℕ) :
    Prop where
  procs : m.procs = m₀.procs
  built : Built kend m.pagetable (pgRoundUp sz) m₀.phys l₀ m.phys l
  bytes : ∀ x < pgRoundUp sz, peek m.phys m.pagetable x = some (img x)
  zero : ∀ x, pgRoundUp sz ≤ x → img x = 0

section Steps

variable {sub : ℕ → ℕ → Except ExecPanic ℕ} {kend etext trampoline : ℕ} {base : Memory Ram ExecPanic}
  {m₀ m m' : Ram} {l₀ l : List ℕ} {img : ℕ → UInt8} {sz va : ℕ} {p : Fin NPROC}

theorem image_procPagetable (h₀ : Alloc kend m₀.phys l₀) (hk : kend < PHYSTOP)
    (h1 : trampoline < 2 ^ 64) (h1' : trampoline % PGSIZE = 0)
    (h2 : (m₀.procs p).trapframe < 2 ^ 64) (h2' : (m₀.procs p).trapframe % PGSIZE = 0)
    (hr : (onRam sub kend etext trampoline base).procPagetable p m₀ = .ok (true, m)) :
    ∃ l, Image kend m₀ l₀ (fun _ => 0) 0 m l := by
  obtain ⟨⟨root, s⟩, hs, hr⟩ := bind_eq_ok.mp hr
  obtain ⟨hroot, rfl⟩ := Prod.mk.inj (Except.ok.inj hr)
  obtain ⟨l, hl⟩ := Mm.procPagetable_built h₀ hk h1 h1' h2 h2' (mapError_eq_ok.mp hs) (of_decide_eq_true hroot)
  exact ⟨l, rfl, hl, fun x hx => absurd hx (Nat.not_lt_zero x), fun _ _ => rfl⟩

theorem Image.sz_lt (h : Image kend m₀ l₀ img sz m l) (h₀ : Alloc kend m₀.phys l₀) :
    pgRoundUp sz < 2 ^ 32 := by
  have h1 := h.built.room
  have h2 := h₀.length_le
  rw [Mm.PHYSTOP_eq] at h2
  omega

theorem Image.uVmAlloc {newsz perm r : ℕ} {s : Phys} (h : Image kend m₀ l₀ img sz m l)
    (h₀ : Alloc kend m₀.phys l₀) (hk : kend < PHYSTOP) (hperm : Mm.PTE_U ||| Mm.PTE_R ||| perm < 1024)
    (hr : Mm.uVmAlloc kend m.pagetable sz newsz perm m.phys = .ok (r, s)) (hr0 : r ≠ 0) :
    r = max sz newsz ∧ ∃ l', Image kend m₀ l₀ img r { m with phys := s } l' := by
  obtain ⟨l', hmax, hb, hgrew⟩ := h.built.uVmAlloc h₀ hk hperm hr hr0
  have hle : pgRoundUp sz ≤ pgRoundUp r := Mm.pgRoundUp_mono (by omega)
  refine ⟨hmax, l', h.procs, hb, fun x hx => ?_, fun x hx => h.zero x (by omega)⟩
  by_cases hold : x < pgRoundUp sz
  · rw [hgrew.old x hold, h.bytes x hold]
  · rw [hgrew.new x (by omega) hx, h.zero x (by omega)]

theorem Image.wrote {n : ℕ} {src : ℕ → UInt8} {s : Phys} (h : Image kend m₀ l₀ img sz m l)
    (hb : Built kend m.pagetable (pgRoundUp sz) m₀.phys l₀ s l)
    (hw : Mm.Wrote m.pagetable (pgRoundUp sz) va n src m.phys s) (hend : va + n ≤ pgRoundUp sz) :
    Image kend m₀ l₀ (patch img va n src) sz { m with phys := s } l := by
  refine ⟨h.procs, hb, fun x hx => ?_, fun x hx => ?_⟩
  · change peek s m.pagetable x = _
    rw [hw x hx, h.bytes x hx, patch]
    split_ifs <;> rfl
  · rw [patch, if_neg (by omega), h.zero x hx]

theorem translate_of_uVA2PA {root pa : ℕ} {s : Phys} (hva : va % PGSIZE = 0)
    (hpa : Mm.uVA2PA root va s = .ok pa) (h0 : pa ≠ 0) : ∃ perm, Mm.translate s root va = some (pa, perm) := by
  by_cases hmax : va < Mm.MAXVA
  · rw [Mm.uVA2PA_eq hmax] at hpa
    rw [Mm.translate_eq hmax]
    cases hleaf : Mm.leaf s.mem root (Mm.pathOf va) (Mm.px 0 va) with
    | none =>
      rw [hleaf] at hpa
      exact absurd (Except.ok.inj hpa).symm h0
    | some e =>
      rw [hleaf] at hpa
      have hpa' : (if e &&& Mm.PTE_U = 0 then 0 else Mm.pte2pa e) = pa := Except.ok.inj hpa
      split_ifs at hpa' with hu
      · exact absurd hpa'.symm h0
      · refine ⟨Mm.pteFlags e, ?_⟩
        rw [Option.map_some, hpa', hva, Nat.add_zero]
  · rw [Mm.uVA2PA, if_pos (by omega)] at hpa
    exact absurd (Except.ok.inj hpa).symm h0

theorem Image.store (h : Image kend m₀ l₀ img sz m l) (hva : va % PGSIZE = 0) (hlt : va < pgRoundUp sz)
    {bytes : List UInt8} (hlen : bytes.length ≤ PGSIZE)
    (hpa : (onRam sub kend etext trampoline base).uVA2PA va m = true) :
    Image kend m₀ l₀ (patch img va bytes.length fun i => bytes.getD i 0) sz
      ((onRam sub kend etext trampoline base).store va bytes m) l := by
  dsimp only [onRam] at hpa ⊢
  cases hu : Mm.uVA2PA m.pagetable va m.phys with
  | error e =>
    rw [hu] at hpa
    cases hpa
  | ok pa =>
    rw [hu] at hpa
    obtain ⟨perm, htr⟩ := translate_of_uVA2PA hva hu (of_decide_eq_true hpa)
    have hn : va % PGSIZE + bytes.length ≤ PGSIZE := by
      rw [hva, Nat.zero_add]
      exact hlen
    have hal := h.built.aligned
    have hend : va + bytes.length ≤ pgRoundUp sz := by
      simp only [PGSIZE] at hva hn hal
      omega
    obtain ⟨hb, hwrote⟩ := h.built.put hlt htr hn fun i => bytes.getD i 0
    exact h.wrote hb hwrote hend

end Steps

/-! ## Segments -/

section Segments

variable {sub : ℕ → ℕ → Except ExecPanic ℕ} {kend etext trampoline : ℕ} {base : Memory Ram ExecPanic}
  {m₀ m m' : Ram} {l₀ l : List ℕ} {img : ℕ → UInt8} {size va : ℕ} {ip : Slot} {k k' : Kernel}

/-- The loop of `loadseg`: the bytes are read and copied, page by page. -/
theorem Image.loadsegLoop {offset sz fuel i : ℕ} (h : Image kend m₀ l₀ img size m l)
    (hva : va % PGSIZE = 0) (hi : i % PGSIZE = 0) (hfit : va + sz ≤ pgRoundUp size)
    (hr : loadsegLoop (onRam sub kend etext trampoline base) ip va offset sz fuel i k m =
      .ok (true, k', m')) :
    ∃ img', Image kend m₀ l₀ img' size m' l := by
  induction fuel generalizing i k m img with
  | zero =>
    cases hr
    exact ⟨img, h⟩
  | succ fuel ih =>
    rw [Sys.loadsegLoop] at hr
    split_ifs at hr with hlt hpa
    · obtain ⟨⟨⟨r, bytes⟩, k₁⟩, hread, hr⟩ := bind_eq_ok.mp hr
      dsimp only at hr
      replace hread := mapError_eq_ok.mp hread
      split_ifs at hr with hfull
      · cases hr
      · rw [not_not] at hfull
        subst hfull
        have hlen : bytes.length = min (sz - i) PGSIZE := by
          obtain ⟨s, hs, -⟩ := call_eq_ok hread
          exact ((Fs.readi_length hs).2 _ rfl).1
        have hpage : (va + i) % PGSIZE = 0 := by
          simp only [PGSIZE] at hva hi ⊢
          omega
        have hstep := h.store hpage (by omega) (hlen.le.trans (Nat.min_le_right _ _)) hpa
        exact ih hstep (by rw [Nat.add_mod_right, hi]) hr
    · cases hr
      exact ⟨img, h⟩

/-- **`loadseg`** copies a segment of the file to the memory. -/
theorem Image.loadseg {offset sz : ℕ} (h : Image kend m₀ l₀ img size m l) (hva : va % PGSIZE = 0)
    (hfit : va + sz ≤ pgRoundUp size) (hsz : sz < 2 ^ 32)
    (hr : loadseg (onRam sub kend etext trampoline base) ip va offset sz k m = .ok (true, k', m')) :
    ∃ img', Image kend m₀ l₀ img' size m' l := by
  rw [Sys.loadseg, Nat.mod_eq_of_lt hsz] at hr
  exact h.loadsegLoop hva (Nat.zero_mod PGSIZE) hfit hr

end Segments

/-! ## Program headers -/

theorem flags2perm_lt (flags : ℕ) : Mm.PTE_U ||| Mm.PTE_R ||| flags2perm flags < 1024 := by
  unfold flags2perm
  split_ifs <;> decide

section Headers

variable {sub : ℕ → ℕ → Except ExecPanic ℕ} {kend etext trampoline : ℕ} {base : Memory Ram ExecPanic}
  {m₀ m m' : Ram} {l₀ l : List ℕ} {img : ℕ → UInt8} {sz sz' : ℕ} {ip : Slot} {k k' : Kernel}

theorem Image.loadPh {ph : Proghdr} (h : Image kend m₀ l₀ img sz m l) (h₀ : Alloc kend m₀.phys l₀)
    (hk : kend < PHYSTOP) (htype : ph.type = ELF_PROG_LOAD)
    (hr : loadPh (onRam sub kend etext trampoline base) ip ph sz k m = .ok ((sz', true), k', m')) :
    ∃ img' l', Image kend m₀ l₀ img' sz' m' l' := by
  rw [Sys.loadPh, if_neg (not_not.mpr htype)] at hr
  split_ifs at hr with hsize hwrap hal
  · cases hr
  · cases hr
  · cases hr
  obtain ⟨⟨sz₁, m₁⟩, halloc, hr⟩ := bind_eq_ok.mp hr
  obtain ⟨⟨r, s⟩, hvm, heq⟩ := bind_eq_ok.mp (mapError_eq_ok.mp halloc)
  obtain ⟨rfl, rfl⟩ := Prod.mk.inj (Except.ok.inj heq)
  dsimp only at hr
  split_ifs at hr with h0
  · cases hr
  obtain ⟨⟨ok, k₁, m₂⟩, hload, hr⟩ := bind_eq_ok.mp hr
  obtain ⟨rfl, rfl, rfl, rfl⟩ : r = sz' ∧ ok = true ∧ k₁ = k' ∧ m₂ = m' := by
    cases hr
    exact ⟨rfl, rfl, rfl, rfl⟩
  obtain ⟨hmax, l', himg⟩ := h.uVmAlloc h₀ hk (flags2perm_lt ph.flags) (mapError_eq_ok.mp hvm) h0
  have hlt := himg.sz_lt h₀
  have hup : r ≤ pgRoundUp r := by
    simp only [pgRoundUp, Mm.pgRoundDown, PGSIZE]
    omega
  rw [not_not] at hal
  obtain ⟨img', hdone⟩ := himg.loadseg hal (by omega) (by omega) hload
  exact ⟨img', l', hdone⟩

/-- **The loop over the program headers.** -/
theorem Image.loadPhs {n off : ℕ} (h : Image kend m₀ l₀ img sz m l) (h₀ : Alloc kend m₀.phys l₀)
    (hk : kend < PHYSTOP)
    (hr : loadPhs (onRam sub kend etext trampoline base) ip n off sz k m = .ok ((sz', true), k', m')) :
    ∃ img' l', Image kend m₀ l₀ img' sz' m' l' := by
  induction n generalizing off sz img k m l with
  | zero =>
    cases hr
    exact ⟨img, l, h⟩
  | succ n ih =>
    rw [Sys.loadPhs] at hr
    obtain ⟨⟨⟨r, bytes⟩, k₁⟩, hread, hr⟩ := bind_eq_ok.mp hr
    dsimp only at hr
    replace hread := mapError_eq_ok.mp hread
    split_ifs at hr with hfull
    · cases hr
    rw [not_not] at hfull
    subst hfull
    obtain ⟨⟨⟨sz₁, ok⟩, k₂, m₁⟩, hph, hr⟩ := bind_eq_ok.mp hr
    cases ok with
    | false => cases hr
    | true =>
      by_cases htype : (Proghdr.ofBytes bytes).type = ELF_PROG_LOAD
      · obtain ⟨img', l', himg⟩ := h.loadPh h₀ hk htype hph
        exact ih himg hr
      · rw [Sys.loadPh, if_pos htype] at hph
        cases hph
        exact ih h hr

/-- **The memory after an image has been loaded.** -/
theorem image_of_loadImage {p : Fin NPROC} {entry : ℕ} (h₀ : Alloc kend m₀.phys l₀) (hk : kend < PHYSTOP)
    (h1 : trampoline < 2 ^ 64) (h1' : trampoline % PGSIZE = 0)
    (h2 : (m₀.procs p).trapframe < 2 ^ 64) (h2' : (m₀.procs p).trapframe % PGSIZE = 0)
    (hr : loadImage (onRam sub kend etext trampoline base) p ip k m₀ = .ok (.done sz entry, k', m)) :
    ∃ img l, Image kend m₀ l₀ img sz m l := by
  obtain ⟨bytes, k₀, m₁, hread, hnew, hphs⟩ := loadImage_eq_done hr
  obtain ⟨l, himg⟩ := image_procPagetable h₀ hk h1 h1' h2 h2' hnew
  exact himg.loadPhs h₀ hk hphs

end Headers

end RiscvOs.Sys
