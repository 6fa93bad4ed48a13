import RiscvOs.Sys.Loading

set_option autoImplicit false

/-!
# The arguments on the new stack

The second half of `kexec` puts the arguments below the end of the new memory, one below the other, and
the array of their addresses below them. Then the process gets the new table and the old one is freed.

## Main results

* `Image.commit` — the memory of the process after `kexec`.
* `argv_on_stack` — the arguments are on the stack, and no difference is negative.
-/

namespace RiscvOs.Sys

open Function Loop

open Mm (Phys Alloc Frame Built ProcSpace ProcPage pgRoundUp peek PGSIZE PHYSTOP PTE_W)
open Str (cstr)

/-! ## The stack pointer -/

/-- `sub` is right where the difference is not negative. -/
def Subtracts (sub : ℕ → ℕ → Except ExecPanic ℕ) : Prop :=
  ∀ a b, b ≤ a → a < 2 ^ 64 → sub a b = .ok (a - b)

theorem subtracts_sub64 : Subtracts sub64 := by
  intro a b hb ha
  rw [sub64]
  congr 1
  omega

theorem subtracts_subChecked : Subtracts subChecked := by
  intro a b hb _
  rw [subChecked, if_neg (by omega)]

/-- The stack pointer below `n` more bytes. -/
def lowered (sp n : ℕ) : ℕ := sp - n - (sp - n) % 16

theorem lowered_mod (sp n : ℕ) : lowered sp n % 16 = 0 := by
  rw [lowered]
  omega

theorem lowered_add_le {sp n : ℕ} (h : n ≤ sp) : lowered sp n + n ≤ sp := by
  rw [lowered]
  omega

theorem lower_eq {sub : ℕ → ℕ → Except ExecPanic ℕ} (hsub : Subtracts sub) {sp n : ℕ} (hn : n ≤ sp)
    (hsp : sp < 2 ^ 64) : lower sub sp n = .ok (lowered sp n) := by
  rw [lower, hsub sp n hn hsp]
  exact hsub (sp - n) ((sp - n) % 16) (Nat.mod_le _ _) (by omega)

/-! ## What is on the stack -/

/-- The arguments that are on the stack, between `sp` and `top`: their addresses, from the top down, are in
`ustack`. -/
structure Stacked (stackbase top : ℕ) (args : List (List UInt8)) (ustack : List ℕ) (sp : ℕ)
    (img : ℕ → UInt8) : Prop where
  count : ustack.length = args.length
  base : stackbase ≤ sp
  sp_le : sp ≤ top
  above : ∀ i < args.length, sp ≤ ustack.getD i 0
  below : ∀ i < args.length, ustack.getD i 0 + (strlen (args.getD i []) + 1) ≤ top
  apart : ∀ i j, i < j → j < args.length →
    ustack.getD j 0 + (strlen (args.getD j []) + 1) ≤ ustack.getD i 0
  bytes : ∀ i < args.length, ∀ c < strlen (args.getD i []) + 1,
    img (ustack.getD i 0 + c) = cstr (args.getD i []) c

theorem Stacked.nil {stackbase top : ℕ} (h : stackbase ≤ top) (img : ℕ → UInt8) :
    Stacked stackbase top [] [] top img where
  count := rfl
  base := h
  sp_le := le_rfl
  above i hi := absurd hi (Nat.not_lt_zero i)
  below i hi := absurd hi (Nat.not_lt_zero i)
  apart _ j _ hj := absurd hj (Nat.not_lt_zero j)
  bytes i hi := absurd hi (Nat.not_lt_zero i)

section Push

variable {stackbase top sp sp' : ℕ} {args : List (List UInt8)} {ustack : List ℕ} {img : ℕ → UInt8}
  {arg : List UInt8}

theorem getD_concat_of_lt {α : Type} {l : List α} {a d : α} {i : ℕ} (hi : i < l.length) :
    (l ++ [a]).getD i d = l.getD i d := List.getD_append _ _ _ _ hi

theorem getD_concat_length {α : Type} {l : List α} {a d : α} {i : ℕ} (hi : i = l.length) :
    (l ++ [a]).getD i d = a := by
  rw [List.getD_append_right _ _ _ _ hi.ge, hi, Nat.sub_self]
  rfl

/-- One more argument, below the others. -/
theorem Stacked.push (h : Stacked stackbase top args ustack sp img) (hbase : stackbase ≤ sp')
    (hsp : sp' + (strlen arg + 1) ≤ sp) :
    Stacked stackbase top (args ++ [arg]) (ustack ++ [sp']) sp'
      (patch img sp' (strlen arg + 1) (cstr arg)) := by
  have hcount := h.count
  have hlen : (args ++ [arg]).length = args.length + 1 := List.length_append
  have hold : ∀ i, i < args.length → (ustack ++ [sp']).getD i 0 = ustack.getD i 0 ∧
      (args ++ [arg]).getD i [] = args.getD i [] :=
    fun i hi => ⟨getD_concat_of_lt (by omega), getD_concat_of_lt hi⟩
  have hnew : (ustack ++ [sp']).getD args.length 0 = sp' ∧ (args ++ [arg]).getD args.length [] = arg :=
    ⟨getD_concat_length hcount.symm, getD_concat_length rfl⟩
  refine ⟨by rw [List.length_append, hlen, hcount]; rfl, hbase, ?_, fun i hi => ?_, fun i hi => ?_,
    fun i j hij hj => ?_, fun i hi c hc => ?_⟩
  · have := h.sp_le
    omega
  · rcases Nat.lt_succ_iff_lt_or_eq.mp (hlen ▸ hi) with hlt | rfl
    · rw [(hold i hlt).1]
      have := h.above i hlt
      omega
    · rw [hnew.1]
  · rcases Nat.lt_succ_iff_lt_or_eq.mp (hlen ▸ hi) with hlt | rfl
    · rw [(hold i hlt).1, (hold i hlt).2]
      exact h.below i hlt
    · rw [hnew.1, hnew.2]
      exact hsp.trans h.sp_le
  · rcases Nat.lt_succ_iff_lt_or_eq.mp (hlen ▸ hj) with hlt | rfl
    · rw [(hold i (hij.trans hlt)).1, (hold j hlt).1, (hold j hlt).2]
      exact h.apart i j hij hlt
    · rw [(hold i hij).1, hnew.1, hnew.2]
      exact hsp.trans (h.above i hij)
  · rcases Nat.lt_succ_iff_lt_or_eq.mp (hlen ▸ hi) with hlt | rfl
    · rw [(hold i hlt).2] at hc ⊢
      have habove := h.above i hlt
      rw [(hold i hlt).1, patch, if_neg (by omega)]
      exact h.bytes i hlt c hc
    · rw [hnew.2] at hc ⊢
      rw [hnew.1, patch, if_pos (by omega), Nat.add_sub_cancel_left]

end Push

/-! ## The loops -/

section Loops

variable {sub : ℕ → ℕ → Except ExecPanic ℕ} {kend etext psz stackbase sz sp sp' : ℕ} {m₀ m : Ram}
  {l₀ l : List ℕ} {img : ℕ → UInt8} {s : Phys} {argv : List (List UInt8)} {ustack ustack' : List ℕ}

theorem Image.copyout {va n : ℕ} {src : ℕ → UInt8} {r : ℤ} (h : Image kend m₀ l₀ img sz m l)
    (hend : va + n ≤ pgRoundUp sz)
    (hr : ofVm (Mm.onPages (Mm.copyout kend etext psz m.pagetable va src n m.phys)) = .ok (r, s))
    (hr0 : ¬ r < 0) : Image kend m₀ l₀ (patch img va n src) sz { m with phys := s } l := by
  have hc : Mm.copyoutLoop (Mm.vmfault kend psz m.pagetable) etext m.pagetable (n + 1) va n src m.phys = .ok (r, s) :=
    mapError_eq_ok.mp (mapError_eq_ok.mp hr)
  rcases Mm.copyoutLoop_result hc with rfl | rfl
  · obtain ⟨hb, hw⟩ := h.built.copyoutLoop hend hc
    exact h.wrote hb hw hend
  · exact absurd (by decide) hr0

/-- **The loop over the arguments.** -/
theorem Image.pushArgs {args : List (List UInt8)} (hsub : Subtracts sub)
    (h : Image kend m₀ l₀ img sz m l) (hbase : PGSIZE ≤ stackbase) (htop : pgRoundUp sz < 2 ^ 64)
    (hs : Stacked stackbase (pgRoundUp sz) args ustack sp img) (hlen : ∀ arg ∈ argv, strlen arg < PGSIZE)
    (hr : pushArgs sub kend etext psz m.pagetable stackbase argv sp ustack m.phys =
      .ok (some (sp', ustack'), s)) :
    ∃ img', Image kend m₀ l₀ img' sz { m with phys := s } l ∧
      Stacked stackbase (pgRoundUp sz) (args ++ argv) ustack' sp' img' ∧
      ∀ x < stackbase, img' x = img x := by
  induction argv generalizing args sp ustack m img with
  | nil =>
    cases hr
    rw [List.append_nil]
    exact ⟨img, h, hs, fun _ _ => rfl⟩
  | cons arg argv ih =>
    have hfit : strlen arg + 1 ≤ sp := by
      have := hlen arg List.mem_cons_self
      have := hs.base
      omega
    have hle := hs.sp_le
    rw [Sys.pushArgs] at hr
    split_ifs at hr with hmax
    · cases hr
    rw [lower_eq hsub hfit (by omega)] at hr
    obtain ⟨q, hq, hr⟩ := bind_eq_ok.mp hr
    obtain rfl := Except.ok.inj hq
    have hadd := lowered_add_le hfit
    split_ifs at hr with hlow
    · cases hr
    obtain ⟨⟨r, u⟩, hcopy, hr⟩ := bind_eq_ok.mp hr
    dsimp only at hr
    split_ifs at hr with hneg
    · cases hr
    have himg := h.copyout (by omega) hcopy hneg
    obtain ⟨img', hdone, hstack, hsame⟩ :=
      ih himg (hs.push (by omega) hadd) (fun a ha => hlen a (List.mem_cons_of_mem arg ha)) hr
    refine ⟨img', hdone, ?_, fun x hx => ?_⟩
    · rw [List.append_assoc] at hstack
      exact hstack
    · rw [hsame x hx, patch, if_neg (by omega)]

theorem Image.pushUstack {args : List (List UInt8)} (hsub : Subtracts sub)
    (h : Image kend m₀ l₀ img sz m l) (hbase : PGSIZE ≤ stackbase) (htop : pgRoundUp sz < 2 ^ 64)
    (hs : Stacked stackbase (pgRoundUp sz) args ustack sp img)
    (hr : pushUstack sub kend etext psz m.pagetable stackbase sp ustack m.phys = .ok (some sp', s)) :
    sp' = lowered sp ((ustack.length + 1) * 8) ∧ sp' + (ustack.length + 1) * 8 ≤ sp ∧ stackbase ≤ sp' ∧
      Image kend m₀ l₀ (patch img sp' ((ustack.length + 1) * 8) (wordByte (ustack ++ [0]))) sz
        { m with phys := s } l := by
  have hle := hs.sp_le
  have hlow := hs.base
  rw [Sys.pushUstack] at hr
  split_ifs at hr with hmax
  have hfit : (ustack.length + 1) * 8 ≤ sp := by
    simp only [MAXARG, PGSIZE] at hmax hbase
    omega
  have hadd := lowered_add_le hfit
  rw [lower_eq hsub hfit (by omega)] at hr
  obtain ⟨q, hq, hr⟩ := bind_eq_ok.mp hr
  obtain rfl := Except.ok.inj hq
  split_ifs at hr with hlow'
  · cases hr
  obtain ⟨⟨r, u⟩, hcopy, hr⟩ := bind_eq_ok.mp hr
  dsimp only at hr
  split_ifs at hr with hneg
  · cases hr
  · cases hr
    exact ⟨rfl, hadd, by omega, h.copyout (by omega) hcopy hneg⟩

end Loops

/-! ## Errors -/

/-- Errors that are not panics of the kernel. -/
def ExecPanic.Undefined : ExecPanic → Prop
  | .vm _ => False
  | .ustack | .negative => True

theorem ofVm_safe {α : Type} (x : Except Mm.VmPanic α) :
    Safe ExecPanic.Undefined (fun _ => True) (ofVm x) := by
  cases x with
  | ok a => trivial
  | error e => exact id

section Undefined

variable {sub sub' : ℕ → ℕ → Except ExecPanic ℕ} {kend etext psz root stackbase sp : ℕ} {ustack : List ℕ}
  {argv : List (List UInt8)} {s : Phys}

/-- The loop over the arguments only has differences that are not negative. -/
theorem pushArgs_safe (hsub : Subtracts sub) (hsub' : Subtracts sub') (hbase : PGSIZE ≤ stackbase)
    (hlow : stackbase ≤ sp) (hsp : sp < 2 ^ 64) (hlen : ∀ arg ∈ argv, strlen arg < PGSIZE) :
    Safe ExecPanic.Undefined
      (fun r => ∀ sp' u, r.1 = some (sp', u) → u.length = ustack.length + argv.length ∧ stackbase ≤ sp' ∧
        sp' < 2 ^ 64) (pushArgs sub kend etext psz root stackbase argv sp ustack s) ∧
    pushArgs sub kend etext psz root stackbase argv sp ustack s =
      pushArgs sub' kend etext psz root stackbase argv sp ustack s := by
  induction argv generalizing sp ustack s with
  | nil =>
    refine ⟨?_, rfl⟩
    rintro sp' u hr
    cases hr
    exact ⟨rfl, hlow, hsp⟩
  | cons arg argv ih =>
    have hfit : strlen arg + 1 ≤ sp := by
      have := hlen arg List.mem_cons_self
      omega
    have hadd := lowered_add_le hfit
    have hlen' : ∀ a ∈ argv, strlen a < PGSIZE := fun a ha => hlen a (List.mem_cons_of_mem arg ha)
    rw [pushArgs, pushArgs, lower_eq hsub hfit hsp, lower_eq hsub' hfit hsp]
    split_ifs with hmax
    · exact ⟨nofun, rfl⟩
    change Safe _ _ (if lowered sp (strlen arg + 1) < stackbase then _ else _) ∧
      (if lowered sp (strlen arg + 1) < stackbase then _ else _) =
        (if lowered sp (strlen arg + 1) < stackbase then _ else _)
    split_ifs with hbelow
    · exact ⟨nofun, rfl⟩
    constructor
    · refine (ofVm_safe _).bind fun ⟨r, t⟩ _ => ?_
      dsimp only
      split_ifs with hneg
      · exact nofun
      refine (ih (by omega) (by omega) hlen').1.mono fun q hq sp' u hr => ?_
      obtain ⟨hu, hrest⟩ := hq sp' u hr
      refine ⟨?_, hrest⟩
      rw [hu, List.length_append, List.length_cons, List.length_cons, List.length_nil]
      omega
    · congr 1
      funext ⟨r, t⟩
      dsimp only
      rw [(ih (by omega) (by omega) hlen').2]

theorem pushUstack_safe (hsub : Subtracts sub) (hsub' : Subtracts sub') (hbase : PGSIZE ≤ stackbase)
    (hlow : stackbase ≤ sp) (hsp : sp < 2 ^ 64) (hlen : ustack.length < MAXARG) :
    Safe ExecPanic.Undefined (fun _ => True)
      (pushUstack sub kend etext psz root stackbase sp ustack s) ∧
    pushUstack sub kend etext psz root stackbase sp ustack s =
      pushUstack sub' kend etext psz root stackbase sp ustack s := by
  have hfit : (ustack.length + 1) * 8 ≤ sp := by
    simp only [MAXARG, PGSIZE] at hlen hbase
    omega
  rw [pushUstack, pushUstack, if_neg (by omega), if_neg (by omega), lower_eq hsub hfit hsp,
    lower_eq hsub' hfit hsp]
  refine ⟨?_, rfl⟩
  change Safe _ _ (if lowered sp ((ustack.length + 1) * 8) < stackbase then _ else _)
  split_ifs with hbelow
  · trivial
  refine (ofVm_safe _).bind fun _ _ => ?_
  dsimp only
  split_ifs <;> trivial

/-- **The arguments and their array**: no difference is negative, and the end of `ustack` is not passed. -/
theorem pushArgv_safe (hsub : Subtracts sub) (hsub' : Subtracts sub') (hbase : PGSIZE ≤ stackbase)
    (hlow : stackbase ≤ sp) (hsp : sp < 2 ^ 64) (hcount : argv.length < MAXARG)
    (hlen : ∀ arg ∈ argv, strlen arg < PGSIZE) :
    Safe ExecPanic.Undefined (fun _ => True)
      (pushArgv sub kend etext psz root stackbase argv sp s) ∧
    pushArgv sub kend etext psz root stackbase argv sp s =
      pushArgv sub' kend etext psz root stackbase argv sp s := by
  obtain ⟨hsafe, heq⟩ : _ ∧ pushArgs sub kend etext psz root stackbase argv sp [] s = _ :=
    pushArgs_safe hsub hsub' hbase hlow hsp hlen
  rw [pushArgv, pushArgv, ← heq]
  cases hr : pushArgs sub kend etext psz root stackbase argv sp [] s with
  | error e =>
    rw [hr] at hsafe
    exact ⟨hsafe, rfl⟩
  | ok r =>
    obtain ⟨_ | ⟨sp', u⟩, t⟩ := r
    · exact ⟨trivial, rfl⟩
    · obtain ⟨hu, hlow', hsp'⟩ := hsafe.of_eq_ok hr sp' u rfl
      rw [List.length_nil, Nat.zero_add] at hu
      obtain ⟨hsafe', heq'⟩ : _ ∧ pushUstack sub kend etext psz root stackbase sp' u t = _ :=
        pushUstack_safe hsub hsub' hbase hlow' hsp' (by omega)
      refine ⟨hsafe'.bind fun _ _ => trivial, ?_⟩
      change (pushUstack sub kend etext psz root stackbase sp' u t >>= _) =
        (pushUstack sub' kend etext psz root stackbase sp' u t >>= _)
      rw [heq']

end Undefined

/-! ## The arguments in the memory -/

/-- The word `w` is at the address `va` of the user. -/
def WordAt (byte : ℕ → Option UInt8) (va w : ℕ) : Prop :=
  w < 2 ^ 64 ∧ ∀ c < 8, byte (va + c) = some (UInt8.ofNat (w / 256 ^ c))

/-- A string is at the address `va` of the user, with a NUL behind it. -/
def StringAt (byte : ℕ → Option UInt8) (va : ℕ) (str : List UInt8) : Prop :=
  (∀ c < str.length, byte (va + c) = some (str.getD c 0)) ∧ byte (va + str.length) = some 0

/-- The addresses of an argument and the NUL behind it. -/
def strRange (argv : List (List UInt8)) (ptr : ℕ → ℕ) (i : ℕ) : Set ℕ :=
  Set.Ico (ptr i) (ptr i + ((argv.getD i []).length + 1))

/-- The addresses of the array. -/
def arrayRange (argc sp : ℕ) : Set ℕ := Set.Ico sp (sp + 8 * (argc + 1))

/-- The arguments and the array of their addresses are between `stackbase` and `top`, and nothing of them
overlaps. -/
structure ArgvAt (stackbase top : ℕ) (argv : List (List UInt8)) (argc sp : ℕ) (byte : ℕ → Option UInt8) :
    Prop where
  argc_eq : argc = argv.length
  aligned : sp % 16 = 0
  base_le : stackbase ≤ sp
  lt_top : sp < top
  pointers : ∃ ptr : ℕ → ℕ, (∀ i < argc, WordAt byte (sp + 8 * i) (ptr i)) ∧
    WordAt byte (sp + 8 * argc) 0 ∧ (∀ i < argc, StringAt byte (ptr i) (argv.getD i [])) ∧
    (∀ i < argc, Disjoint (arrayRange argc sp) (strRange argv ptr i)) ∧
    (∀ i j, i < argc → j < argc → i ≠ j → Disjoint (strRange argv ptr i) (strRange argv ptr j)) ∧
    arrayRange argc sp ⊆ Set.Ico stackbase top ∧ ∀ i < argc, strRange argv ptr i ⊆ Set.Ico stackbase top

section ArgvAt

variable {stackbase top sp sp' : ℕ} {argv : List (List UInt8)} {ustack : List ℕ} {img : ℕ → UInt8}
  {byte : ℕ → Option UInt8}

theorem strlen_eq {arg : List UInt8} (h : 0 ∉ arg) : strlen arg = arg.length := by
  rw [strlen, List.takeWhile_eq_self_iff.mpr]
  intro c hc
  rw [decide_eq_true_eq]
  rintro rfl
  exact h hc

theorem wordByte_eq (ws : List ℕ) (i : ℕ) {c : ℕ} (hc : c < 8) :
    wordByte ws (8 * i + c) = UInt8.ofNat (ws.getD i 0 / 256 ^ c) := by
  rw [wordByte, show (8 * i + c) / 8 = i by omega, show (8 * i + c) % 8 = c by omega]

theorem wordAt_array {n i : ℕ} (ws : List ℕ) (hw : ws.getD i 0 < 2 ^ 64) (hi : i < n)
    (hbyte : ∀ x < top, byte x = some (patch img sp' (n * 8) (wordByte ws) x)) (htop : sp' + n * 8 ≤ top) :
    WordAt byte (sp' + 8 * i) (ws.getD i 0) := by
  refine ⟨hw, fun c hc => ?_⟩
  rw [hbyte _ (by omega), patch, if_pos (by omega), show sp' + 8 * i + c - sp' = 8 * i + c by omega,
    wordByte_eq ws i hc]

/-- **The arguments and the array below them.** -/
theorem Stacked.argvAt (hs : Stacked stackbase top argv ustack sp img) (h0 : ∀ arg ∈ argv, 0 ∉ arg)
    (hadd : sp' + (ustack.length + 1) * 8 ≤ sp) (hbase : stackbase ≤ sp') (hmod : sp' % 16 = 0)
    (htop : top < 2 ^ 64)
    (hbyte : ∀ x < top,
      byte x = some (patch img sp' ((ustack.length + 1) * 8) (wordByte (ustack ++ [0])) x)) :
    ArgvAt stackbase top argv ustack.length sp' byte := by
  have hle := hs.sp_le
  have hcount := hs.count
  have hstr : ∀ i < ustack.length, strlen (argv.getD i []) = (argv.getD i []).length := by
    intro i hi
    apply strlen_eq
    rw [List.getD_eq_getElem _ _ (hcount ▸ hi)]
    exact h0 _ (List.getElem_mem _)
  have habove : ∀ i < ustack.length, sp ≤ ustack.getD i 0 := fun i hi => hs.above i (by omega)
  have hbelow : ∀ i < ustack.length, ustack.getD i 0 + ((argv.getD i []).length + 1) ≤ top := by
    intro i hi
    rw [← hstr i hi]
    exact hs.below i (by omega)
  have hdisj : ∀ i j, i < j → j < ustack.length →
      ustack.getD j 0 + ((argv.getD j []).length + 1) ≤ ustack.getD i 0 := by
    intro i j hij hj
    rw [← hstr j hj]
    exact hs.apart i j hij (by omega)
  refine ⟨hcount, hmod, hbase, by omega, fun i => ustack.getD i 0, fun i hi => ?_, ?_, fun i hi => ?_,
    fun i hi => ?_, fun i j hi hj hij => ?_, ?_, fun i hi => ?_⟩
  · have hlt := hbelow i hi
    have hword := wordAt_array (ustack ++ [0]) (i := i) (n := ustack.length + 1)
      (by rw [getD_concat_of_lt hi]; omega) (by omega) hbyte (by omega)
    rwa [getD_concat_of_lt hi] at hword
  · have hword := wordAt_array (ustack ++ [0]) (i := ustack.length) (n := ustack.length + 1)
      (by rw [getD_concat_length rfl]; decide) (by omega) hbyte (by omega)
    rwa [getD_concat_length rfl] at hword
  · have hlo := habove i hi
    have hhi := hbelow i hi
    have hbytes : ∀ c < (argv.getD i []).length + 1,
        byte (ustack.getD i 0 + c) = some (cstr (argv.getD i []) c) := by
      intro c hc
      rw [hbyte _ (by omega), patch, if_neg (by omega), hs.bytes i (by omega) c (by rw [hstr i hi]; exact hc)]
    refine ⟨fun c hc => hbytes c (by omega), ?_⟩
    rw [hbytes _ (by omega), cstr, List.getD_eq_default _ _ le_rfl]
  · have hlo := habove i hi
    rw [arrayRange, strRange, Set.Ico_disjoint_Ico]
    omega
  · have hij' := hdisj i j
    have hji' := hdisj j i
    rw [strRange, strRange, Set.Ico_disjoint_Ico]
    omega
  · apply Set.Ico_subset_Ico
    · exact hbase
    · omega
  · apply Set.Ico_subset_Ico
    · exact (hbase.trans (by omega)).trans (habove i hi)
    · exact hbelow i hi

end ArgvAt

/-! ## The change to the new memory -/

/-- The memory before `kexec` is in order: the address space of the process has its pages for itself, and
its trap frame is an allocated page that is not among them. `l` is the list of free pages. -/
structure Sound (kend trampoline : ℕ) (p : Fin NPROC) (m : Ram) (l : List ℕ) : Prop where
  kend_lt : kend < PHYSTOP
  trampoline_lt : trampoline < 2 ^ 64
  trampoline_mod : trampoline % PGSIZE = 0
  old : ProcSpace kend (m.procs p).pagetable (m.procs p).sz m.phys l
  frame : Frame kend (m.procs p).trapframe
  used : (m.procs p).trapframe ∉ l
  apart : ¬ ProcPage (m.procs p).pagetable (pgRoundUp (m.procs p).sz) m.phys (m.procs p).trapframe

theorem Sound.trapframe_lt {kend trampoline : ℕ} {p : Fin NPROC} {m : Ram} {l : List ℕ}
    (h : Sound kend trampoline p m l) : (m.procs p).trapframe < 2 ^ 64 := by
  have := h.frame.le_stop
  rw [Mm.PHYSTOP_eq] at this
  omega

/-- The byte at an address of a process. -/
def Ram.userByte (m : Ram) (p : Fin NPROC) (va : ℕ) : Option UInt8 := peek m.phys (m.procs p).pagetable va

/-- A register in the trap frame of a process. -/
def Ram.reg (m : Ram) (p : Fin NPROC) (i : ℕ) : ℕ := m.phys.word ((m.procs p).trapframe + i)

/-- The process has the memory `img` of `sz` bytes, and the stack pointer is `sp`. -/
structure Switched (p : Fin NPROC) (sz sp : ℕ) (img : ℕ → UInt8) (m : Ram) : Prop where
  sz_eq : (m.procs p).sz = sz
  sp_eq : m.reg p tfSp = sp
  a1_eq : m.reg p tfA1 = sp
  bytes : ∀ x < sz, m.userByte p x = some (img x)

section Switch

variable {kend trampoline : ℕ} {p : Fin NPROC} {m₀ m : Ram} {l₀ l : List ℕ} {img : ℕ → UInt8}
  {sz entry sp : ℕ}

theorem setFrame_of_not_inPage {frame x : ℕ} (s : Phys) (hx : ¬ Mm.InPage frame x) :
    (setFrame frame entry sp s).mem x = s.mem x := by
  have hpage : PGSIZE = 4096 := rfl
  rw [setFrame, Mm.setWord_of_not_inPage (Nat.le_add_right _ _) (by rw [tfSp]; omega) hx,
    Mm.setWord_of_not_inPage (Nat.le_add_right _ _) (by rw [tfEpc]; omega) hx,
    Mm.setWord_of_not_inPage (Nat.le_add_right _ _) (by rw [tfA1]; omega) hx]

theorem setFrame_sp {frame : ℕ} (s : Phys) (hsp : sp < 2 ^ 64) :
    (setFrame frame entry sp s).word (frame + tfSp) = sp :=
  Mm.word_setWord hsp

theorem setFrame_a1 {frame : ℕ} (s : Phys) (hsp : sp < 2 ^ 64) :
    (setFrame frame entry sp s).word (frame + tfA1) = sp := by
  rw [setFrame, Mm.word_setWord_of_disjoint (Or.inl (by rw [tfSp, tfA1]; omega)),
    Mm.word_setWord_of_disjoint (Or.inl (by rw [tfEpc, tfA1]; omega))]
  exact Mm.word_setWord hsp

/-- The old address space is freed. The pages of the new memory were free before, so that nothing that is
freed is one of them. -/
theorem Image.freeOld (hsound : Sound kend trampoline p m₀ l₀) (h : Image kend m₀ l₀ img sz m l)
    (entry sp : ℕ) :
    ∃ t, Mm.uFreeUserVM kend (m₀.procs p).pagetable (m₀.procs p).sz
        (setFrame (m₀.procs p).trapframe entry sp m.phys) = .ok t ∧
      (∀ x < pgRoundUp sz, peek t m.pagetable x = some (img x)) ∧
      ∀ i, i + 8 ≤ PGSIZE → t.word ((m₀.procs p).trapframe + i) =
        (setFrame (m₀.procs p).trapframe entry sp m.phys).word ((m₀.procs p).trapframe + i) := by
  have hb := h.built
  have hframe := hsound.frame
  have hold₀ := hsound.old
  have hfl : (m₀.procs p).trapframe ∉ l := fun hmem => hsound.used (hb.sub _ hmem)
  -- the registers are in a page that belongs neither to the old memory nor to the new one
  have hat : Alloc kend (setFrame (m₀.procs p).trapframe entry sp m.phys) l :=
    hb.wf.alloc.of_page hframe hfl fun x hx => setFrame_of_not_inPage m.phys hx
  obtain ⟨hold, hpages⟩ := hold₀.congr hat hb.sub fun path q hlen hq a ha => by
    obtain ⟨hqf, hql⟩ := hold₀.wf.owned path q hlen hq
    have hne : q ≠ (m₀.procs p).trapframe := by
      rintro rfl
      exact hsound.apart (Or.inl ⟨path, hlen, hq⟩)
    rw [setFrame_of_not_inPage m.phys (hqf.disjoint hframe hne ha), hb.others q hqf hql a ha]
  obtain ⟨t, l', ht, hfreed⟩ := hold.uFreeUserVM
  -- what is not freed is as before
  have hold_not : ∀ f, ProcPage (m₀.procs p).pagetable (pgRoundUp (m₀.procs p).sz) m₀.phys f → f ∉ l₀ := by
    rintro f (⟨path, hlen, hf⟩ | ⟨va, perm, hal, hlt, htr⟩)
    · exact (hold₀.wf.owned path f hlen hf).2
    · refine (hold₀.pages.frame va f perm hal (Nat.zero_le _) ?_ htr).2
      rw [Mm.pgRoundUp_div]
      omega
  have hnew : ∀ f, Frame kend f → f ∈ l₀ → f ∉ l → ∀ a, Mm.InPage f a → t.mem a = m.phys.mem a := by
    intro f hf hf₀ hfl a ha
    have hfl' : f ∉ l' := by
      rw [hfreed.list, not_or, hpages]
      exact ⟨hfl, fun hpg => hold_not f hpg hf₀⟩
    have hne : f ≠ (m₀.procs p).trapframe := by
      rintro rfl
      exact hsound.used hf₀
    rw [hfreed.data f hf hfl' a ha, setFrame_of_not_inPage m.phys (hf.disjoint hframe hne ha)]
  refine ⟨t, ht, fun x hx => ?_, fun i hi => ?_⟩
  · rw [hb.peek_congr hnew hx, h.bytes x hx]
  · refine Mm.word_congr (Nat.le_add_right _ _) (by rw [Nat.add_assoc]; exact Nat.add_le_add_left hi _)
      (hfreed.data _ hframe ?_)
    rw [hfreed.list, not_or, hpages]
    exact ⟨hfl, hsound.apart⟩

/-- **The process gets the new memory.** -/
theorem Image.switch (hsound : Sound kend trampoline p m₀ l₀) (h : Image kend m₀ l₀ img sz m l)
    (hsz : pgRoundUp sz = sz) (hsp : sp < 2 ^ 64) (entry : ℕ) (path : List UInt8) :
    ∃ m', switch kend p sz entry sp path m = .ok m' ∧ Switched p sz sp img m' := by
  have hprocs : m.procs p = m₀.procs p := congrFun h.procs p
  obtain ⟨t, ht, hbytes, hregs⟩ := h.freeOld hsound entry sp
  rw [hsz] at hbytes
  let new : ProcMem :=
    { m₀.procs p with
      name := Str.safestrcpy (m₀.procs p).name (cstr (lastName path)) nameSize
      pagetable := m.pagetable
      sz := sz }
  have hnew : update m.procs p new p = new := update_self p new m.procs
  refine ⟨{ m with phys := t, procs := update m.procs p new }, ?_, ?_, ?_, ?_, fun x hx => ?_⟩
  · rw [Sys.switch, hprocs, ht]
    rfl
  · exact congrArg ProcMem.sz hnew
  · dsimp only [Ram.reg]
    rw [hnew]
    exact (hregs tfSp (by decide)).trans (setFrame_sp m.phys hsp)
  · dsimp only [Ram.reg]
    rw [hnew]
    exact (hregs tfA1 (by decide)).trans (setFrame_a1 m.phys hsp)
  · dsimp only [Ram.userByte]
    rw [hnew]
    exact hbytes x hx

end Switch

/-! ## The second half of `kexec` -/

/-- The end of the new memory: a page that the user cannot access and the stack are above the image. -/
def stackTop (sz : ℕ) : ℕ := pgRoundUp sz + (USERSTACK + 1) * PGSIZE

/-- `commit` after the arguments have been copied. -/
def afterArgv (kend : ℕ) (p : Fin NPROC) (top entry : ℕ) (path : List UInt8) (m : Ram) :
    Option (ℕ × ℕ) × Phys → Except ExecPanic (Option ℕ × Ram)
  | (none, s) => bad kend top { m with phys := s }
  | (some (sp, argc), s) => do
    let m ← switch kend p top entry sp path { m with phys := s }
    .ok (some argc, m)

theorem bad_safe (kend sz : ℕ) (m : Ram) :
    Safe ExecPanic.Undefined (fun r => r.1 = none) (bad kend sz m) := by
  rw [bad]
  generalize Mm.uFreeUserVM kend m.pagetable sz m.phys = x
  exact (ofVm_safe x).bind fun _ _ => rfl

theorem afterArgv_safe (kend : ℕ) (p : Fin NPROC) (top entry : ℕ) (path : List UInt8) (m : Ram)
    (r : Option (ℕ × ℕ) × Phys) :
    Safe ExecPanic.Undefined (fun _ => True) (afterArgv kend p top entry path m r) := by
  obtain ⟨_ | ⟨sp, argc⟩, s⟩ := r
  · exact (bad_safe kend top { m with phys := s }).mono fun _ _ => trivial
  · have hswitch : Safe ExecPanic.Undefined (fun _ => True)
        (switch kend p top entry sp path { m with phys := s }) := by
      rw [switch]
      generalize Mm.uFreeUserVM kend _ _ _ = x
      exact (ofVm_safe x).bind fun _ _ => trivial
    exact hswitch.bind fun _ _ => trivial

theorem stackTop_eq (sz : ℕ) : stackTop sz = pgRoundUp sz + 16384 := rfl

theorem pgRoundUp_stackTop (sz : ℕ) : pgRoundUp (stackTop sz) = stackTop sz := by
  rw [stackTop_eq]
  simp only [pgRoundUp, Mm.pgRoundDown, PGSIZE]
  omega

theorem pgRoundUp_idem (sz : ℕ) : pgRoundUp (pgRoundUp sz) = pgRoundUp sz := by
  simp only [pgRoundUp, Mm.pgRoundDown, PGSIZE]
  omega

section Commit

variable {sub : ℕ → ℕ → Except ExecPanic ℕ} {kend etext trampoline : ℕ} {p : Fin NPROC} {m₀ m m' : Ram}
  {l₀ l : List ℕ} {img : ℕ → UInt8} {sz entry : ℕ} {path : List UInt8} {argv : List (List UInt8)}

/-- **The second half of `kexec`**: there is no memory for the stack, or the arguments are copied to it. -/
theorem Image.commit_cases (hsound : Sound kend trampoline p m₀ l₀) (h : Image kend m₀ l₀ img sz m l)
    (etext entry : ℕ) (path : List UInt8) (argv : List (List UInt8)) :
    (∃ x, (∀ sub, Subtracts sub → commit sub kend etext p sz entry path argv m = x) ∧
      Safe ExecPanic.Undefined (fun r => r.1 = none) x) ∨
    ∃ s l', Image kend m₀ l₀ img (stackTop sz) { m with phys := s } l' ∧
      ∀ sub, Subtracts sub → commit sub kend etext p sz entry path argv m =
        pushArgv sub kend etext (m.procs p).sz m.pagetable (pgRoundUp sz + PGSIZE) argv (stackTop sz) s >>=
          afterArgv kend p (stackTop sz) entry path m := by
  have h₀ := hsound.old.wf.alloc
  have hlt := h.sz_lt h₀
  have htop := stackTop_eq sz
  have hup : pgRoundUp sz % 2 ^ 64 = pgRoundUp sz := Nat.mod_eq_of_lt (by omega)
  have hnew : (pgRoundUp sz + (USERSTACK + 1) * PGSIZE) % 2 ^ 64 = stackTop sz :=
    Nat.mod_eq_of_lt (show stackTop sz < 2 ^ 64 by omega)
  have hround : Image kend m₀ l₀ img (pgRoundUp sz) m l := by
    refine ⟨h.procs, ?_, ?_, ?_⟩
    · rw [pgRoundUp_idem]
      exact h.built
    · rw [pgRoundUp_idem]
      exact h.bytes
    · rw [pgRoundUp_idem]
      exact h.zero
  have hguard : ∀ sub, Subtracts sub → sub (stackTop sz) ((USERSTACK + 1) * PGSIZE) = .ok (pgRoundUp sz) := by
    intro sub hsub
    have hsize : (USERSTACK + 1) * PGSIZE = 16384 := rfl
    rw [hsub _ _ (by omega) (by omega), hsize, htop, Nat.add_sub_cancel]
  have hbase : ∀ sub, Subtracts sub → sub (stackTop sz) (USERSTACK * PGSIZE) =
      .ok (pgRoundUp sz + PGSIZE) := by
    intro sub hsub
    have hsize : USERSTACK * PGSIZE = 12288 := rfl
    have hpage : PGSIZE = 4096 := rfl
    rw [hsub _ _ (by omega) (by omega)]
    exact congrArg Except.ok (by omega)
  unfold Sys.commit
  simp only [hup, hnew]
  cases halloc : Mm.uVmAlloc kend m.pagetable (pgRoundUp sz) (stackTop sz) PTE_W m.phys with
  | error e => exact Or.inl ⟨.error (.vm e), fun _ _ => rfl, id⟩
  | ok r =>
    obtain ⟨sz1, s⟩ := r
    by_cases hsz1 : sz1 = 0
    · refine Or.inl ⟨bad kend (pgRoundUp sz) { m with phys := s }, fun sub _ => ?_,
        bad_safe kend (pgRoundUp sz) { m with phys := s }⟩
      exact if_pos hsz1
    · obtain ⟨hmax, l', himg⟩ := hround.uVmAlloc h₀ hsound.kend_lt (by decide) halloc hsz1
      obtain rfl : sz1 = stackTop sz := by omega
      cases hclear : Mm.uvmclear m.pagetable (pgRoundUp sz) s with
      | error e =>
        refine Or.inl ⟨.error (.vm e), fun sub hsub => ?_, id⟩
        simp only [ofVm, Except.mapError, bind, Except.bind, if_neg hsz1, hguard sub hsub, hclear]
      | ok t =>
        obtain ⟨hb, hpeek⟩ := himg.built.uvmclear (by rw [pgRoundUp_stackTop]; omega) hclear
        refine Or.inr ⟨t, l', ⟨himg.procs, hb, fun x hx => ?_, himg.zero⟩, fun sub hsub => ?_⟩
        · exact (hpeek x hx).trans (himg.bytes x hx)
        · simp only [ofVm, Except.mapError, bind, Except.bind, if_neg hsz1, hguard sub hsub, hclear,
            hbase sub hsub]
          cases pushArgv sub kend etext (m.procs p).sz m.pagetable (pgRoundUp sz + PGSIZE) argv (stackTop sz)
              t with
          | error e => rfl
          | ok r =>
            obtain ⟨_ | ⟨sp, argc⟩, u⟩ := r
            · rfl
            · rfl

/-- A `commit` that succeeds: the process has the image and the stack with the arguments. -/
theorem Image.commit {n : ℕ} (hsub : Subtracts sub) (hsound : Sound kend trampoline p m₀ l₀)
    (h : Image kend m₀ l₀ img sz m l) (hargs : ∀ arg ∈ argv, arg.length < PGSIZE ∧ 0 ∉ arg)
    (hr : commit sub kend etext p sz entry path argv m = .ok (some n, m')) :
    ∃ sp img', Switched p (stackTop sz) sp img' m' ∧ (∀ x < pgRoundUp sz, img' x = img x) ∧
      ArgvAt (pgRoundUp sz + PGSIZE) (stackTop sz) argv n sp (m'.userByte p) := by
  have hlt := h.sz_lt hsound.old.wf.alloc
  have htop := stackTop_eq sz
  have hround := pgRoundUp_stackTop sz
  have hpage : PGSIZE = 4096 := rfl
  have hlen : ∀ arg ∈ argv, strlen arg < PGSIZE := by
    intro arg harg
    rw [strlen_eq (hargs arg harg).2]
    exact (hargs arg harg).1
  obtain ⟨x, hx, hsafe⟩ | ⟨s, l', himg, hx⟩ := h.commit_cases hsound etext entry path argv
  · rw [hx sub hsub] at hr
    have hnone := hsafe.of_eq_ok hr
    cases hnone
  · rw [hx sub hsub] at hr
    obtain ⟨⟨r, u⟩, hpush, hr⟩ := bind_eq_ok.mp hr
    rw [pushArgv] at hpush
    obtain ⟨⟨_ | ⟨sp₁, ustack⟩, v⟩, hargs', hpush⟩ := bind_eq_ok.mp hpush
    · cases hpush
      obtain ⟨_, -, hr⟩ := bind_eq_ok.mp hr
      cases hr
    obtain ⟨⟨_ | sp, w⟩, hust, hpush⟩ := bind_eq_ok.mp hpush
    · cases hpush
      obtain ⟨_, -, hr⟩ := bind_eq_ok.mp hr
      cases hr
    cases hpush
    have hnil : Stacked (pgRoundUp sz + PGSIZE) (pgRoundUp (stackTop sz)) [] [] (stackTop sz) img := by
      rw [hround]
      exact Stacked.nil (by omega) img
    have hbase : PGSIZE ≤ pgRoundUp sz + PGSIZE := Nat.le_add_left _ _
    obtain ⟨img₁, himg₁, hs₁, hsame₁⟩ := himg.pushArgs hsub hbase (by omega) hnil hlen hargs'
    obtain ⟨hsp, hadd, hlow, himg₂⟩ := himg₁.pushUstack hsub hbase (by omega) hs₁ hust
    have hle := hs₁.sp_le
    have hsp64 : sp < 2 ^ 64 := by omega
    obtain ⟨m'', hswitch, hdone⟩ := himg₂.switch hsound hround hsp64 entry path
    have hr' : (Sys.switch kend p (stackTop sz) entry sp path { m with phys := u } >>= fun m =>
        Except.ok (some ustack.length, m)) = Except.ok (some n, m') := hr
    rw [hswitch] at hr'
    cases hr'
    rw [hround] at hs₁ hle
    refine ⟨sp, _, hdone, fun x hx => ?_, hs₁.argvAt (fun arg harg => (hargs arg harg).2) hadd hlow
      (hsp ▸ lowered_mod _ _) (by omega) hdone.bytes⟩
    rw [patch, if_neg (by omega), hsame₁ x (by omega)]

theorem Image.commit_safe {sub' : ℕ → ℕ → Except ExecPanic ℕ} (hsub : Subtracts sub)
    (hsub' : Subtracts sub') (hsound : Sound kend trampoline p m₀ l₀) (h : Image kend m₀ l₀ img sz m l)
    (hcount : argv.length < MAXARG) (hlen : ∀ arg ∈ argv, strlen arg < PGSIZE) :
    Safe ExecPanic.Undefined (fun _ => True) (Sys.commit sub kend etext p sz entry path argv m) ∧
    Sys.commit sub kend etext p sz entry path argv m = Sys.commit sub' kend etext p sz entry path argv m := by
  have hlt := h.sz_lt hsound.old.wf.alloc
  have htop := stackTop_eq sz
  have hpage : PGSIZE = 4096 := rfl
  obtain ⟨x, hx, hsafe⟩ | ⟨s, l', -, hx⟩ := h.commit_cases hsound etext entry path argv
  · rw [hx sub hsub, hx sub' hsub']
    exact ⟨hsafe.mono fun _ _ => trivial, rfl⟩
  · rw [hx sub hsub, hx sub' hsub']
    obtain ⟨hpush, heq⟩ : _ ∧ pushArgv sub kend etext (m.procs p).sz m.pagetable (pgRoundUp sz + PGSIZE) argv
        (stackTop sz) s = _ := pushArgv_safe hsub hsub' (by omega) (by omega) (by omega) hcount hlen
    rw [← heq]
    exact ⟨hpush.bind fun r _ => afterArgv_safe kend p (stackTop sz) entry path m r, rfl⟩

end Commit

/-! ## The whole of `kexec` -/

section Loads

variable {σ π : Type} (mem : Memory σ π)
  (c : (p : Fin NPROC) → (sz entry : ℕ) → (path : List UInt8) → (argv : List (List UInt8)) → σ →
    Except π (Option ℕ × σ))

theorem loadsegLoop_commit (ip : Fs.Slot) (va offset sz fuel i : ℕ) (k : Kernel) (m : σ) :
    loadsegLoop { mem with commit := c } ip va offset sz fuel i k m =
      loadsegLoop mem ip va offset sz fuel i k m := by
  induction fuel generalizing i k m with
  | zero => rfl
  | succ fuel ih => simp only [loadsegLoop, ih]

theorem loadPhs_commit (ip : Fs.Slot) (n off sz : ℕ) (k : Kernel) (m : σ) :
    loadPhs { mem with commit := c } ip n off sz k m = loadPhs mem ip n off sz k m := by
  induction n generalizing off sz k m with
  | zero => rfl
  | succ n ih => simp only [loadPhs, loadPh, loadseg, loadsegLoop_commit, ih]

theorem loadImage_commit (p : Fin NPROC) (ip : Fs.Slot) (k : Kernel) (m : σ) :
    loadImage { mem with commit := c } p ip k m = loadImage mem p ip k m := by
  simp only [loadImage, loadPhs_commit]

theorem kexec_commit {p : Fin NPROC} {path : List UInt8} {argv : List (List UInt8)} {k : Kernel} {m : σ}
    (h : ∀ ip k₁ k₂ sz entry m₁, loadImage mem p ip k₁ m = .ok (.done sz entry, k₂, m₁) →
      c p sz entry path argv m₁ = mem.commit p sz entry path argv m₁) :
    kexec { mem with commit := c } p path argv k m = kexec mem p path argv k m := by
  rw [kexec, kexec]
  refine bind_congr ?_
  rintro ⟨found, k₀⟩
  cases found with
  | none => rfl
  | some ip =>
    refine bind_congr fun k₁ => ?_
    rw [loadImage_commit]
    cases hr : loadImage mem p ip k₁ m with
    | error e => rfl
    | ok r =>
      obtain ⟨loaded, k₂, m₁⟩ := r
      cases loaded with
      | early => rfl
      | bad sz => rfl
      | done sz entry =>
        change finishExec _ p path argv ip (.done sz entry) k₂ m₁ =
          finishExec _ p path argv ip (.done sz entry) k₂ m₁
        rw [finishExec, finishExec]
        dsimp only
        rw [h ip k₁ k₂ sz entry m₁ hr]

end Loads

/-- Errors of `kexec` that are not panics of the kernel. -/
def FaultUndefined : Fault ExecPanic → Prop
  | .inl _ => False
  | .inr e => e.Undefined

theorem sys_safe {α : Type} (x : Except Panic α) :
    Safe FaultUndefined (fun _ => True) (sys x : Except (Fault ExecPanic) α) := by
  cases x with
  | ok a => trivial
  | error e => exact id

theorem vm_safe {α : Type} {P : α → Prop} {x : Except ExecPanic α}
    (h : Safe ExecPanic.Undefined P x) : Safe FaultUndefined P (vm x) := by
  cases x with
  | ok a => exact h
  | error e => exact h

section Kexec

variable {sub : ℕ → ℕ → Except ExecPanic ℕ} {kend etext trampoline : ℕ} {base : Memory Ram ExecPanic}
  {p : Fin NPROC} {path : List UInt8} {argv : List (List UInt8)} {k : Kernel} {m : Ram} {l : List ℕ}
  {ip : Fs.Slot}

theorem loadsegLoop_safe {va offset sz fuel i : ℕ} :
    Safe FaultUndefined (fun _ => True)
      (loadsegLoop (onRam sub kend etext trampoline base) ip va offset sz fuel i k m) := by
  induction fuel generalizing i k m with
  | zero => trivial
  | succ fuel ih =>
    rw [loadsegLoop]
    split_ifs
    · refine (sys_safe _).bind fun _ _ => ?_
      dsimp only
      split_ifs
      · trivial
      · exact ih
    · exact id
    · trivial

theorem loadPh_safe {ph : Proghdr} {sz : ℕ} :
    Safe FaultUndefined (fun _ => True)
      (loadPh (onRam sub kend etext trampoline base) ip ph sz k m) := by
  rw [loadPh]
  split_ifs
  iterate 4 trivial
  have halloc : Safe ExecPanic.Undefined (fun _ => True)
      ((onRam sub kend etext trampoline base).uVmAlloc sz (ph.vaddr + ph.memsz) (flags2perm ph.flags) m) :=
    (ofVm_safe _).bind fun _ _ => trivial
  refine (vm_safe halloc).bind fun _ _ => ?_
  dsimp only
  split_ifs
  · trivial
  · exact loadsegLoop_safe.bind fun _ _ => trivial

theorem loadPhs_safe {n off sz : ℕ} :
    Safe FaultUndefined (fun _ => True)
      (loadPhs (onRam sub kend etext trampoline base) ip n off sz k m) := by
  induction n generalizing off sz k m with
  | zero => trivial
  | succ n ih =>
    rw [loadPhs]
    refine (sys_safe _).bind fun _ _ => ?_
    dsimp only
    split_ifs
    · trivial
    · refine loadPh_safe.bind fun _ _ => ?_
      split_ifs
      · exact ih
      · trivial

theorem loadImage_safe :
    Safe FaultUndefined (fun _ => True)
      (loadImage (onRam sub kend etext trampoline base) p ip k m) := by
  rw [loadImage]
  refine (sys_safe _).bind fun _ _ => ?_
  dsimp only
  split_ifs
  · trivial
  · trivial
  · have hnew : Safe ExecPanic.Undefined (fun _ => True)
        ((onRam sub kend etext trampoline base).procPagetable p m) :=
      (ofVm_safe _).bind fun _ _ => trivial
    refine (vm_safe hnew).bind fun _ _ => ?_
    split_ifs
    · exact loadPhs_safe.bind fun _ _ => trivial
    · trivial

theorem Sound.image {sz entry : ℕ} {k' : Kernel} {m' : Ram} (hsound : Sound kend trampoline p m l)
    (hr : loadImage (onRam sub kend etext trampoline base) p ip k m = .ok (.done sz entry, k', m')) :
    ∃ img l', Image kend m l img sz m' l' :=
  image_of_loadImage hsound.old.wf.alloc hsound.kend_lt hsound.trampoline_lt hsound.trampoline_mod
    hsound.trapframe_lt hsound.frame.aligned hr

theorem kexec_safe (hsub : Subtracts sub) (hsound : Sound kend trampoline p m l)
    (hcount : argv.length < MAXARG) (hlen : ∀ arg ∈ argv, strlen arg < PGSIZE) :
    Safe FaultUndefined (fun _ => True)
      (kexec (onRam sub kend etext trampoline base) p path argv k m) := by
  rw [kexec]
  refine (sys_safe _).bind ?_
  rintro ⟨found, k₀⟩ -
  cases found with
  | none => trivial
  | some ip =>
    refine (sys_safe _).bind fun k₁ _ => ?_
    refine (loadImage_safe.and_of_ok fun r hr => hr).bind ?_
    rintro ⟨loaded, k₂, m₁⟩ ⟨-, hload⟩
    cases loaded with
    | early => exact (sys_safe _).bind fun _ _ => trivial
    | bad sz =>
      have hfree : Safe ExecPanic.Undefined (fun _ => True)
          ((onRam sub kend etext trampoline base).uFreeUserVM sz m₁) :=
        (ofVm_safe _).bind fun _ _ => trivial
      refine (vm_safe hfree).bind fun _ _ => ?_
      exact (sys_safe _).bind fun _ _ => trivial
    | done sz entry =>
      obtain ⟨img, l', himg⟩ := hsound.image hload
      have hcommit : Safe ExecPanic.Undefined (fun _ => True)
          (commit sub kend etext p sz entry path argv m₁) := (himg.commit_safe hsub hsub hsound hcount hlen).1
      refine (sys_safe _).bind fun _ _ => ?_
      exact (vm_safe hcommit).bind fun _ _ => trivial

theorem kexec_congr {sub' : ℕ → ℕ → Except ExecPanic ℕ} (hsub : Subtracts sub) (hsub' : Subtracts sub')
    (hsound : Sound kend trampoline p m l) (hcount : argv.length < MAXARG)
    (hlen : ∀ arg ∈ argv, strlen arg < PGSIZE) :
    kexec (onRam sub kend etext trampoline base) p path argv k m =
      kexec (onRam sub' kend etext trampoline base) p path argv k m := by
  refine kexec_commit (onRam sub' kend etext trampoline base) (commit sub kend etext)
    fun ip k₁ k₂ sz entry m₁ hr => ?_
  obtain ⟨img, l', himg⟩ := hsound.image hr
  exact (himg.commit_safe hsub hsub' hsound hcount hlen).2

end Kexec

/-! ## The theorem -/

/-- **The arguments are on the new stack.** For every list of fewer than `MAXARG` strings of at most
`PGSIZE - 1` bytes: if `kexec` returns a number, it is the number of strings, the stack pointer is also the
second argument of `main`, and the array at it has the addresses of copies of the strings. No difference of
the stack pointer is negative, and `ustack` is not left. -/
theorem argv_on_stack {kend etext trampoline : ℕ} {base : Memory Ram ExecPanic} {p : Fin NPROC}
    {path : List UInt8} {argv : List (List UInt8)} {k : Kernel} {m : Ram} {l : List ℕ}
    (hsound : Sound kend trampoline p m l) (hcount : argv.length < MAXARG)
    (hargs : ∀ arg ∈ argv, arg.length < PGSIZE ∧ 0 ∉ arg) :
    (∀ argc k' m', kexec (onRam sub64 kend etext trampoline base) p path argv k m = .ok (some argc, k', m') →
      m'.reg p tfA1 = m'.reg p tfSp ∧
        ArgvAt ((m'.procs p).sz - USERSTACK * PGSIZE) (m'.procs p).sz argv argc (m'.reg p tfSp)
          (m'.userByte p)) ∧
    kexec (onRam sub64 kend etext trampoline base) p path argv k m =
      kexec (onRam subChecked kend etext trampoline base) p path argv k m ∧
    kexec (onRam subChecked kend etext trampoline base) p path argv k m ≠ .error (.inr .negative) ∧
    kexec (onRam sub64 kend etext trampoline base) p path argv k m ≠ .error (.inr .ustack) := by
  have hlen : ∀ arg ∈ argv, strlen arg < PGSIZE := by
    intro arg harg
    rw [strlen_eq (hargs arg harg).2]
    exact (hargs arg harg).1
  refine ⟨fun argc k' m' hr => ?_, kexec_congr subtracts_sub64 subtracts_subChecked hsound hcount hlen,
    (kexec_safe subtracts_subChecked hsound hcount hlen).ne_error trivial,
    (kexec_safe subtracts_sub64 hsound hcount hlen).ne_error trivial⟩
  obtain ⟨ip, k₀, k₁, k₂, sz, entry, m₁, -, -, hload, hcommit⟩ := kexec_eq_some hr
  obtain ⟨img, l', himg⟩ := hsound.image hload
  obtain ⟨sp, img', hdone, -, hargv⟩ := himg.commit subtracts_sub64 hsound hargs hcommit
  have hbase : stackTop sz - USERSTACK * PGSIZE = pgRoundUp sz + PGSIZE := by
    have htop := stackTop_eq sz
    simp only [USERSTACK, PGSIZE]
    omega
  rw [hdone.a1_eq, hdone.sp_eq, hdone.sz_eq, hbase]
  exact ⟨rfl, hargv⟩

/-! ## An example -/

/-- The memory after boot, with processes that have a trap frame and an empty table. -/
def freshRam (kend : ℕ) : Ram :=
  let s := match Mm.kinit kend fun _ => 0 with
    | .ok s => s
    | .error _ => ⟨fun _ => 0, 0, 0, 0⟩
  let (trapframe, s) := Mm.kalloc s
  let (pagetable, s) := Mm.uVmCreate s
  ⟨s, 0, fun _ => ⟨pagetable, 0, trapframe, fun _ => 0⟩⟩

theorem sound_freshRam {kend trampoline f g : ℕ} (hk : kend < PHYSTOP) (hf : Frame kend f)
    (hg : Frame kend g) (hne : f ≠ g) (hlt : trampoline < 2 ^ 64) (hmod : trampoline % PGSIZE = 0)
    (p : Fin NPROC) : ∃ l, Sound kend trampoline p (freshRam kend) l := by
  obtain ⟨s, l, hinit, halloc, hall⟩ := Mm.kinit_alloc hk fun _ => 0
  obtain ⟨frame, root, l, rfl⟩ : ∃ frame root l', l = frame :: root :: l' := by
    match l, hall f hf, hall g hg with
    | [x], hx, hy => exact absurd ((List.mem_singleton.mp hx).trans (List.mem_singleton.mp hy).symm) hne
    | frame :: root :: l', _, _ => exact ⟨frame, root, l', rfl⟩
  have hframe := halloc.frames frame List.mem_cons_self
  have hnd := (List.nodup_cons.mp halloc.nodup).1
  obtain ⟨s₁, hs₁, halloc₁, -⟩ := halloc.kalloc_cons
  obtain ⟨s₂, hs₂, hwf, hempty⟩ := halloc₁.uVmCreate
  have hram : freshRam kend = ⟨s₂, 0, fun _ => ⟨root, 0, frame, fun _ => 0⟩⟩ := by
    simp only [freshRam, hinit, hs₁, hs₂]
  refine ⟨l, ?_⟩
  rw [hram]
  refine ⟨hk, hlt, hmod, Mm.procSpace_of_empty hwf hempty, hframe, fun hl => ?_, ?_⟩
  · exact hnd (List.mem_cons_of_mem _ hl)
  · rintro (⟨path, -, hpath⟩ | ⟨va, perm, -, hva, -⟩)
    · by_cases hnil : path = []
      · subst hnil
        exact hnd (List.mem_cons.mpr (Or.inl (Option.some.inj hpath).symm))
      · have hnone := hempty path hnil
        rw [hnone] at hpath
        cases hpath
    · have hround : pgRoundUp 0 = 0 := rfl
      rw [hround] at hva
      omega

/-- A program of one segment: four bytes of the file at `off`, and four zeros. -/
def program (off : ℕ) : List ℕ :=
  [ELF_MAGIC, 0, 0, 0, 64, 0, 0, 1, ELF_PROG_LOAD + 5 * 2 ^ 32, off, 0, 0, 4, 8, 0]

/-- The small disk with this program as the file `a` in the root directory. -/
def programFS (off : ℕ) : Fs.FS :=
  { Fs.smallFS with
    buf := fun b =>
      if b = 32 then
        Fs.writeDinode (Fs.writeDinode (fun _ => 0) Fs.ROOTINO
          { Fs.Dinode.zero with
            type := Fs.T_DIR
            nlink := 1
            size := 16
            addrs := fun k => if k.val = 0 then 40 else 0 }) 2
          { Fs.Dinode.zero with
            type := Fs.T_FILE
            nlink := 1
            size := 120
            addrs := fun k => if k.val = 0 then 41 else 0 }
      else if b = 34 then fun i => if i.val < 5 then 255 else if i.val = 5 then 3 else 0
      else if b = 40 then fun i => if i.val = 0 then 2 else if i.val = 2 then 97 else 0
      else if b = 41 then fun i => wordByte (program off) i.val
      else fun _ => 0
    itable := fun ip =>
      if ip.val = 0 then { Fs.Inode.empty with dev := ROOTDEV, inum := Fs.ROOTINO, ref := 1 }
      else Fs.Inode.empty }

/-- One process, in the root directory. -/
def programKernel (off : ℕ) : Kernel where
  fs := programFS off
  file := fun _ => ⟨.none, 0, false, false, Fs.firstSlot, 0, 0⟩
  proc := fun p => if p.val = 0 then ⟨.alive, fun _ => none, some Fs.firstSlot⟩
    else ⟨.unused, fun _ => none, none⟩
  account := .fresh
  outstanding := 0

/-- The functions that an `exec` does not use. -/
def otherMemory : Memory Ram ExecPanic where
  fork _ _ m := .ok (true, m)
  reap _ m := .ok m
  fetchArgv _ m := .ok (some [], m)
  freeArgv m := .ok m
  procPagetable _ m := .ok (true, m)
  uVmAlloc _ newsz _ m := .ok (newsz, m)
  uFreeUserVM _ m := .ok m
  uVA2PA _ _ := true
  store _ _ m := m
  commit _ _ _ _ argv m := .ok (some argv.length, m)

/-- The last sixteen pages are free. -/
def exampleEnd : ℕ := PHYSTOP - 16 * PGSIZE

/-- The process executes the program, with one argument. -/
def programRun (off : ℕ) : Except (Fault ExecPanic) (Option ℕ × Kernel × Ram) :=
  kexec (onRam sub64 exampleEnd 0x80009000 0x80008000 otherMemory) firstProc [Fs.slash, 97] [[104, 105]]
    (programKernel off) (freshRam exampleEnd)

/-- What a call of `kexec` returns. -/
def returned : Except (Fault ExecPanic) (Option ℕ × Kernel × Ram) → Option ℕ
  | .ok (r, _, _) => r
  | .error _ => none

theorem eq_ok_of_returned {x : Except (Fault ExecPanic) (Option ℕ × Kernel × Ram)} {n : ℕ}
    (h : returned x = some n) : ∃ k m, x = .ok (some n, k, m) := by
  match x, h with
  | .ok (_, k, m), rfl => exact ⟨k, m, rfl⟩

theorem programRun_zero : returned (programRun 0) = some 1 := by
  decide +kernel

theorem sound_example : ∃ l, Sound exampleEnd 0x80008000 firstProc (freshRam exampleEnd) l := by
  have hfirst : Mm.first exampleEnd = 2281639936 := by decide +kernel
  have hf : Frame exampleEnd 2281639936 := ⟨by decide, hfirst.le, by decide +kernel⟩
  have hg : Frame exampleEnd 2281644032 := ⟨by decide, by rw [hfirst]; decide, by decide +kernel⟩
  exact sound_freshRam (by decide +kernel) hf hg (by decide) (by decide) (by decide) firstProc

theorem argv_on_stack_programRun : ∃ k m, programRun 0 = .ok (some 1, k, m) ∧
    m.reg firstProc tfA1 = m.reg firstProc tfSp ∧
    ArgvAt ((m.procs firstProc).sz - USERSTACK * PGSIZE) (m.procs firstProc).sz [[104, 105]] 1
      (m.reg firstProc tfSp) (m.userByte firstProc) := by
  obtain ⟨l, hsound⟩ := sound_example
  obtain ⟨k, m, hrun⟩ := eq_ok_of_returned programRun_zero
  exact ⟨k, m, hrun, (argv_on_stack hsound (by decide) (by decide)).1 1 k m hrun⟩

end RiscvOs.Sys
