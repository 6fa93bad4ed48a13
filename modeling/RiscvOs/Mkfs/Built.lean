import RiscvOs.Mkfs.Image

set_option autoImplicit false

/-!
# The finished image

What the image contains when `mkfs` exits normally, and when it does. Blocks that do not fit are
noticed, because the block behind the last one cannot be read. Inodes are not: an inode number that
the superblock does not allow is handed out without a check.

## Main results

* `built_of_mkfs`, `mkfs_of_room` — the image, and when it is made.
* `goodImage_iff` — the image is good exactly if there are at most `198` files.
* `too_many_inodes` — `199` files are accepted.
-/

namespace RiscvOs.Mkfs

open Fs Loop

/-- The image after `mkfs` with the arguments `args`. -/
structure Built (m : Image) (args : List Arg) : Prop where
  laid : Laid m (dinodeAt sb m.disk) (widths (contents args)) (contents args)
  freeinode : m.freeinode = args.length + 2
  root : (dinodeAt sb m.disk ROOTINO).type = T_DIR ∧ (dinodeAt sb m.disk ROOTINO).nlink = 1 ∧
    (dinodeAt sb m.disk ROOTINO).size.toNat = ((rootEntries args).length / BSIZE + 1) * BSIZE
  files : ∀ i, 2 ≤ i → i < m.freeinode → (dinodeAt sb m.disk i).type = T_FILE ∧
    (dinodeAt sb m.disk i).nlink = 1 ∧ (dinodeAt sb m.disk i).size.toNat = (contents args i).length
  unused : ∀ i < wide.ninodes, i = 0 ∨ m.freeinode ≤ i → dinodeAt sb m.disk i = Dinode.zero
  bitmap : ∀ b < FSSIZE, blockUsed sb m.disk b = decide (b < m.freeblock)
  first : ∀ b < sb.inodestart, m.disk b = blank.disk b

section Finish

variable {m : Image} {args : List Arg}

/-- The last two steps of `mkfs`. -/
def finish (m : Image) : Except Failure Image := do
  let m ← fixRoot m
  balloc m.freeblock m

/-- The record of the root directory with its size rounded up. -/
def fixedRoot (m : Image) (args : List Arg) : Dinode :=
  { dinodeAt sb m.disk ROOTINO with
    size := UInt32.ofNat (((rootEntries args).length / BSIZE + 1) * BSIZE) }

/-- The image after the last two steps. -/
def finished (m : Image) (args : List Arg) : Image :=
  (m.setRecord ROOTINO (fixedRoot m args)).put sb.bmapstart
    ((List.range m.freeblock).foldl ByteBlock.setBit fun _ => 0)

theorem dinodeAt_finished {i : ℕ} (hi : i < wide.ninodes) :
    dinodeAt sb (finished m args).disk i =
      if i = ROOTINO then fixedRoot m args else dinodeAt sb m.disk i := by
  rw [← dinodeAt_setRecord]
  exact dinodeAt_update_of_ne _ _ _ (IBLOCK_lt hi).ne

theorem finished_disk {b : ℕ} (hb : b < sb.inodestart ∨ sb.bmapstart < b) :
    (finished m args).disk b = m.disk b := by
  have hlt : sb.inodestart < sb.bmapstart := by decide
  rw [finished, Image.put_of_ne _ _ (by omega),
    setRecord_disk m (show ROOTINO < wide.ninodes by decide) _ (by omega)]

theorem blockUsed_finished {b : ℕ} (hb : b < FSSIZE) (hused : m.freeblock < BPB) :
    blockUsed sb (finished m args).disk b = decide (b < m.freeblock) := by
  have hblock : BBLOCK b sb = sb.bmapstart := by
    rw [BBLOCK, Nat.div_eq_of_lt (hb.trans (by decide)), Nat.zero_add]
  rw [blockUsed, hblock, finished, Image.put_same,
    Nat.mod_eq_of_lt (hb.trans (by decide)),
    ByteBlock.isSet_foldl_setBit _ (hused.le.trans (by decide))]
  simp [ByteBlock.isSet, ByteBlock.get]

theorem Stage.length_rootEntries (h : Stage m args) :
    ((rootEntries args).length / BSIZE + 1) * BSIZE < 2 ^ 32 := by
  have hlen := h.length_le (show ROOTINO < wide.ninodes by decide)
  rw [show contents args ROOTINO = rootEntries args from if_pos rfl,
    show MAXFILE = 268 from rfl, BSIZE] at hlen
  rw [BSIZE]
  omega

/-- **The last two steps finish the image.** -/
theorem Stage.finish (h : Stage m args) :
    Mkfs.finish m = .ok (finished m args) ∧ Built (finished m args) args := by
  have hlt : ROOTINO < wide.ninodes := by decide
  have hfree := h.freeinode
  obtain ⟨htype, hlink, hsize⟩ := h.used ROOTINO (by decide) (by rw [ROOTINO]; omega)
  rw [show contents args ROOTINO = rootEntries args from if_pos rfl] at hsize
  have hused : m.freeblock < BPB := h.laid.hi.trans_lt (by decide)
  refine ⟨?_, ?_, hfree, ?_, fun i h2 hi => ?_, fun i hi hi' => ?_,
    fun b hb => blockUsed_finished hb hused, fun b hb => ?_⟩
  · rw [Mkfs.finish, fixRoot, rinode_eq hlt]
    dsimp only [bind, Except.bind]
    rw [hsize, winode_eq hlt]
    dsimp only
    rw [balloc]
    change (if BPB ≤ m.freeblock then _ else _) = _
    rw [if_neg (not_le.mpr hused), wsect_of_lt (by decide)]
    rfl
  · refine h.laid.congr rfl (fun b hb => finished_disk (Or.inr (lt_of_lt_of_le (by decide) hb)))
      fun i hi => ?_
    rw [dinodeAt_finished hi]
    split_ifs with hi'
    · rw [hi']
      exact ⟨rfl, rfl⟩
    · exact ⟨rfl, rfl⟩
  · rw [dinodeAt_finished hlt, if_pos rfl]
    exact ⟨htype, hlink, UInt32.toNat_ofNat_of_lt' h.length_rootEntries⟩
  · have hi' : i < m.freeinode := hi
    have hne : i ≠ ROOTINO := by
      rw [ROOTINO]
      omega
    rw [dinodeAt_finished (hi'.trans_le h.inodes), if_neg hne, ← kind_of_two_le h2]
    exact h.used i (by omega) hi'
  · have hi'' : i = 0 ∨ m.freeinode ≤ i := hi'
    have hne : i ≠ ROOTINO := by
      rw [ROOTINO]
      omega
    rw [dinodeAt_finished hi, if_neg hne]
    exact (h.unused i hi hi'').1
  · rw [finished_disk (Or.inl hb)]
    exact h.first b hb

theorem mkfs_eq (args : List Arg) :
    mkfs args = (makeRoot blank >>= fun m => args.foldlM addFile m >>= finish) := rfl

/-- **What is on the image when `mkfs` exits normally.** -/
theorem built_of_mkfs (hlen : args.length + 2 ≤ wide.ninodes) (hn : mkfs args = .ok m) :
    (∀ a ∈ args, ArgOk a) ∧ Built m args := by
  obtain ⟨m₀, hm₀, hst₀⟩ := stage_makeRoot
  rw [mkfs_eq, hm₀] at hn
  obtain ⟨m', hm', hn⟩ := bind_eq_ok.mp hn
  cases hm'
  obtain ⟨m₁, hm₁, hn⟩ := bind_eq_ok.mp hn
  obtain ⟨hargs, hst⟩ := hst₀.of_addFiles (by simpa using hlen) hm₁
  obtain ⟨ht, hbuilt⟩ := hst.finish
  rw [ht] at hn
  cases hn
  exact ⟨hargs, hbuilt⟩

/-- **`mkfs` exits normally if there is room.** -/
theorem mkfs_of_room (hlen : args.length + 2 ≤ wide.ninodes) (hargs : ∀ a ∈ args, ArgOk a)
    (hroom : Room (contents args)) : ∃ m, mkfs args = .ok m := by
  obtain ⟨m₀, hm₀, hst₀⟩ := stage_makeRoot
  obtain ⟨m₁, hm₁, hst⟩ := hst₀.addFiles (by simpa using hlen) hargs hroom
  refine ⟨finished m₁ args, ?_⟩
  rw [mkfs_eq, hm₀]
  dsimp only [bind, Except.bind]
  rw [hm₁]
  exact hst.finish.1

end Finish

/-! ## The counter of inodes -/

section Counter

variable {m t : Image} {args : List Arg} {i : ℕ} {p : List UInt8}

theorem winode_freeinode {din : Dinode} (hn : winode i din m = .ok t) :
    t.freeinode = m.freeinode := by
  rw [winode] at hn
  obtain ⟨b, -, hn⟩ := bind_eq_ok.mp hn
  cases hn
  rfl

theorem mapAddr_freeinode (k : ℕ) (din : Dinode) (m : Image) :
    (mapAddr k din m).2.freeinode = m.freeinode := by
  rw [mapAddr]
  split_ifs <;> rfl

theorem mapBlock_freeinode {fbn : ℕ} {din : Dinode} {r : ℕ × Dinode × Image}
    (hn : mapBlock fbn din m = .ok r) : r.2.2.freeinode = m.freeinode := by
  rw [mapBlock] at hn
  split_ifs at hn
  · cases hn
    exact mapAddr_freeinode fbn din m
  · obtain ⟨b, -, hn⟩ := bind_eq_ok.mp hn
    split_ifs at hn <;> cases hn <;> exact mapAddr_freeinode NDIRECT din m

theorem appendRound_freeinode {off : ℕ} {din : Dinode} {r : Dinode × Image}
    (hn : appendRound p off din m = .ok r) : r.2.freeinode = m.freeinode := by
  rw [appendRound] at hn
  obtain ⟨q, hq, hn⟩ := bind_eq_ok.mp hn
  obtain ⟨b, -, hn⟩ := bind_eq_ok.mp hn
  cases hn
  exact mapBlock_freeinode hq

theorem appendLoop_freeinode {fuel off : ℕ} {din : Dinode} {r : ℕ × Dinode × Image}
    (hn : appendLoop fuel p off din m = .ok r) : r.2.2.freeinode = m.freeinode := by
  induction fuel generalizing p off din m with
  | zero =>
    cases hn
    rfl
  | succ fuel ih =>
    rw [appendLoop] at hn
    split_ifs at hn
    · cases hn
      rfl
    · obtain ⟨q, hq, hn⟩ := bind_eq_ok.mp hn
      exact (ih hn).trans (appendRound_freeinode hq)

theorem iappend_freeinode (hn : iappend i p m = .ok t) : t.freeinode = m.freeinode := by
  rw [iappend] at hn
  obtain ⟨din, -, hn⟩ := bind_eq_ok.mp hn
  obtain ⟨r, hr, hn⟩ := bind_eq_ok.mp hn
  exact (winode_freeinode hn).trans (appendLoop_freeinode hr)

theorem copyLoop_freeinode {fuel : ℕ} (hn : copyLoop i fuel p m = .ok t) :
    t.freeinode = m.freeinode := by
  induction fuel generalizing p m with
  | zero =>
    cases hn
    rfl
  | succ fuel ih =>
    rw [copyLoop] at hn
    split_ifs at hn
    · cases hn
      rfl
    · obtain ⟨u, hu, hn⟩ := bind_eq_ok.mp hn
      exact (ih hn).trans (iappend_freeinode hu)

theorem addFile_freeinode {a : Arg} (hn : addFile m a = .ok t) :
    t.freeinode = m.freeinode + 1 := by
  rw [addFile] at hn
  by_cases hslash : 47 ∈ shortname a.path
  · rw [if_pos hslash] at hn
    cases hn
  rw [if_neg hslash] at hn
  cases hdata : a.data with
  | none =>
    rw [hdata] at hn
    cases hn
  | some data =>
    rw [hdata] at hn
    split_ifs at hn
    obtain ⟨r, hr, hn⟩ := bind_eq_ok.mp hn
    obtain ⟨u, hu, hn⟩ := bind_eq_ok.mp hn
    rw [ialloc] at hr
    obtain ⟨v, hv, hr⟩ := bind_eq_ok.mp hr
    cases hr
    rw [copyLoop_freeinode hn, iappend_freeinode hu, winode_freeinode hv]

theorem foldlM_freeinode (hn : args.foldlM addFile m = .ok t) :
    t.freeinode = m.freeinode + args.length := by
  induction args generalizing m with
  | nil =>
    cases hn
    rfl
  | cons a args ih =>
    rw [List.foldlM_cons] at hn
    obtain ⟨u, hu, hn⟩ := bind_eq_ok.mp hn
    rw [ih hn, addFile_freeinode hu, List.length_cons]
    omega

theorem mkfs_freeinode (hn : mkfs args = .ok m) : m.freeinode = args.length + 2 := by
  obtain ⟨m₀, hm₀, hst₀⟩ := stage_makeRoot
  rw [mkfs_eq, hm₀] at hn
  obtain ⟨m', hm', hn⟩ := bind_eq_ok.mp hn
  cases hm'
  obtain ⟨m₁, hm₁, hn⟩ := bind_eq_ok.mp hn
  rw [finish, fixRoot] at hn
  obtain ⟨m₂, hm₂, hn⟩ := bind_eq_ok.mp hn
  obtain ⟨din, -, hm₂⟩ := bind_eq_ok.mp hm₂
  rw [balloc] at hn
  split_ifs at hn
  cases hn
  change m₂.freeinode = _
  rw [winode_freeinode hm₂, foldlM_freeinode hm₁, hst₀.freeinode, List.length_nil]
  omega

end Counter

/-! ## Good images -/

/-- The block number at a place of the image. -/
def Image.held (m : Image) (x : Place) : ℕ := holds sb m.disk (dinodeAt sb m.disk) x

/-- The inode numbers that were handed out exist, every block that an inode refers to is a data
block and has one reference, and the bitmap marks the blocks before the data area and these. -/
structure GoodImage (m : Image) : Prop where
  inum : ∀ i, 0 < i → i < m.freeinode →
    i < sb.ninodes ∧ sb.inodestart ≤ IBLOCK i sb ∧ IBLOCK i sb < sb.bmapstart
  range : ∀ x, m.held x ≠ 0 → nmeta ≤ m.held x ∧ m.held x < sb.size
  once : ∀ x y, m.held x ≠ 0 → m.held x = m.held y → x = y
  bitmap : ∀ b < sb.size, (blockUsed sb m.disk b = true ↔ b < nmeta ∨ ∃ x, m.held x = b)

section Good

variable {m : Image} {args : List Arg}

theorem Built.holds_wide (h : Built m args) (hlen : args.length + 2 ≤ sb.ninodes) :
    holds wide m.disk (dinodeAt sb m.disk) = holds sb m.disk (dinodeAt sb m.disk) := by
  have hzero : ∀ i < wide.ninodes, ¬ i < sb.ninodes → (dinodeAt sb m.disk i).type = 0 :=
    fun i hi hi' => by
      rw [h.unused i hi (Or.inr (by have := h.freeinode; omega))]
      rfl
  have hle : sb.ninodes ≤ wide.ninodes := by decide
  have hiff : ∀ i, (i < wide.ninodes ∧ (dinodeAt sb m.disk i).type ≠ 0) ↔
      (i < sb.ninodes ∧ (dinodeAt sb m.disk i).type ≠ 0) := fun i => by
    constructor
    · rintro ⟨h1, h2⟩
      exact ⟨by_contra fun hn => h2 (hzero i h1 hn), h2⟩
    · rintro ⟨h1, h2⟩
      exact ⟨h1.trans_le hle, h2⟩
  funext x
  cases x with
  | addr i k => simp only [holds, hiff]
  | entry i k => simp only [holds, hiff]

theorem Built.good (h : Built m args) (hlen : args.length + 2 ≤ sb.ninodes) : GoodImage m := by
  have howns := h.laid.owns
  rw [h.holds_wide hlen] at howns
  refine ⟨fun i _ hi => ?_, fun x hx => howns.range x hx, fun x y hx he => howns.inj x y hx he,
    fun b hb => ?_⟩
  · have hi' : i < sb.ninodes := by
      have := h.freeinode
      omega
    exact ⟨hi', Nat.le_add_left _ _, IBLOCK_lt (hi'.trans_le (by decide))⟩
  · rw [h.bitmap b hb, decide_eq_true_iff]
    have hlo := h.laid.lo
    constructor
    · intro hlt
      by_cases hm : b < nmeta
      · exact Or.inl hm
      · exact Or.inr ((howns.used_iff b (not_lt.mp hm) hb).mp hlt)
    · rintro (hm | ⟨x, hx⟩)
      · omega
      · by_cases hm : b < nmeta
        · omega
        · exact (howns.used_iff b (not_lt.mp hm) hb).mpr ⟨x, hx⟩

/-- **`mkfs` makes a good image exactly if there are at most `198` files**: the root directory and
the files have the inodes from `1` on, and the superblock allows numbers below `200`. -/
theorem goodImage_iff (hn : mkfs args = .ok m) : GoodImage m ↔ args.length ≤ 198 := by
  have hfree := mkfs_freeinode hn
  constructor
  · intro h
    by_contra hlt
    have := (h.inum (args.length + 1) (Nat.succ_pos _) (by omega)).1
    have h200 : sb.ninodes = 200 := rfl
    omega
  · intro hlen
    have h208 : wide.ninodes = 208 := rfl
    have h200 : sb.ninodes = 200 := rfl
    exact (built_of_mkfs (by omega) hn).2.good (by omega)

/-- A short file. -/
def shortArg : Arg := ⟨[97], some [1, 2, 3]⟩

theorem room_singleton {l : List UInt8} (h : l.length ≤ NDIRECT * BSIZE + 1) :
    Room (contents [⟨[97], some l⟩]) := by
  have hlen : ∀ i, (contents [⟨[97], some l⟩] i).length ≤
      if i = 1 then 48 else if i = 2 then NDIRECT * BSIZE + 1 else 0 := by
    intro i
    match i with
    | 0 => simp [contents, ROOTINO]
    | 1 => exact le_of_eq rfl
    | 2 => simpa [contents, ROOTINO] using h
    | i + 3 => simp [contents, ROOTINO]
  refine ⟨fun i _ => (hlen i).trans ?_, ?_⟩
  · have hmax : MAXFILE * BSIZE = 274432 := rfl
    have hdir : NDIRECT * BSIZE = 12288 := rfl
    split_ifs <;> omega
  · refine le_trans (Nat.add_le_add_left (Finset.sum_le_sum fun i _ => cost_mono
      (blocks_mono (hlen i))) _) ?_
    decide +kernel

theorem mkfs_shortArg : ∃ m, mkfs [shortArg] = .ok m := by
  refine mkfs_of_room (by decide) (fun a ha => ?_) (room_singleton (by decide))
  rw [List.mem_singleton.mp ha]
  exact ⟨by decide, by decide, by decide⟩

theorem goodImage_iff_shortArg : ∃ m, mkfs [shortArg] = .ok m ∧ GoodImage m := by
  obtain ⟨m, hm⟩ := mkfs_shortArg
  exact ⟨m, hm, (goodImage_iff hm).mpr (by decide)⟩

/-- Empty files. -/
def manyFiles : List Arg := List.replicate 199 ⟨[97], some []⟩

theorem room_manyFiles : Room (contents manyFiles) := by
  unfold Room
  decide +kernel

/-- **`199` files are accepted**, and the last one has the inode number `200`. -/
theorem too_many_inodes : ∃ m, mkfs manyFiles = .ok m ∧ ¬ GoodImage m := by
  have hargs : ∀ a ∈ manyFiles, ArgOk a := fun a ha => by
    rw [List.eq_of_mem_replicate ha]
    exact ⟨by decide, by decide, by decide⟩
  have hlen : manyFiles.length = 199 := List.length_replicate
  obtain ⟨m, hm⟩ := mkfs_of_room (by rw [hlen]; decide) hargs room_manyFiles
  have hfree := mkfs_freeinode hm
  refine ⟨m, hm, fun h => ?_⟩
  have := (h.inum 200 (by decide) (by rw [hfree, hlen]; decide)).1
  exact absurd this (by decide)

end Good

end RiscvOs.Mkfs
