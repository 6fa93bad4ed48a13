import RiscvOs.Mkfs.ReadBack
import RiscvOs.Fs.Holes

set_option autoImplicit false

/-!
# The kernel runs on a new image

A new image is a consistent file system. Its files have no holes unless the entries of the root
directory fill their last block: `mkfs` then adds a whole block to the size, for which there is no
block. Where there are no holes none appear later.

## Main results

* `Built.consistent`, `Built.solid` — the state after mounting.
* `no_holes` — the files of every state that the kernel reaches from a new image.
* `root_has_hole` — with `62` files the root directory has a hole.
-/

namespace RiscvOs.Mkfs

open Fs Machine

section Mounted

variable {m : Image} {args : List Arg}

/-- **A new image is a consistent file system.** -/
theorem Built.consistent (h : Built m args) (hdr : ℕ → ℕ → UInt32) (pid : ℕ) :
    Consistent (freshFS sb m.disk hdr pid) := by
  have howned : Owned wide m.disk (dinodeAt sb m.disk) := by
    unfold Owned
    refine h.laid.owns.congr_used (by decide) fun b hb => ?_
    exact (h.bitmap b hb ▸ decide_eq_true_iff : blockUsed sb m.disk b = true ↔ b < m.freeblock)
  exact ⟨table_of_unused (unused_freshFS _ _ _) layout_sb, howned, by change sb.size < 2 ^ 31; decide⟩

theorem Built.root_full (h : Built m args) (hargs : ∀ a ∈ args, ArgOk a)
    (hlen : args.length + 2 ≤ wide.ninodes) (hround : (args.length + 2) % 64 ≠ 0) :
    (dinodeAt sb m.disk ROOTINO).Full := by
  have hsize := h.root.2.2
  have hlaid := h.root_laid
  have hwidth : widths (contents args) ROOTINO = blocks (rootEntries args).length := by
    rw [widths, show contents args ROOTINO = rootEntries args from if_pos rfl]
  rw [hwidth] at hlaid
  rw [length_rootEntries (names_length hargs)] at hsize hlaid
  have h208 : wide.ninodes = 208 := rfl
  have hd : direntSize = 16 := rfl
  have hB : BSIZE = 1024 := rfl
  have hN : NDIRECT = 12 := rfl
  have hM : MAXFILE = 268 := rfl
  refine ⟨?_, fun k hk h0 => ?_⟩
  · rw [hsize, hd, hB, hN]
    omega
  · rw [hsize, hd, hB] at hk
    have hbn : k / BSIZE < NDIRECT := by
      rw [hB, hN]
      omega
    have hno : blockNo m.disk (dinodeAt sb m.disk ROOTINO) (k / BSIZE) = 0 := (if_pos hbn).trans h0
    rw [hlaid.mapped _ (by omega), blocks, hd, hB] at hno
    omega

theorem Built.file_full (h : Built m args) (hlen : args.length + 2 ≤ wide.ninodes) {i : ℕ} {a : Arg}
    (ha : args[i]? = some a) (hshort : a.bytes.length ≤ NDIRECT * BSIZE) :
    (dinodeAt sb m.disk (i + 2)).Full := by
  obtain ⟨-, -, hsize, hlaid⟩ := h.arg hlen ha
  refine ⟨hsize ▸ hshort, fun k hk h0 => ?_⟩
  rw [hsize] at hk
  have hbn : k / BSIZE < NDIRECT := (Nat.div_lt_iff_lt_mul (by decide)).mpr (by omega)
  have hno : blockNo m.disk (dinodeAt sb m.disk (i + 2)) (k / BSIZE) = 0 := (if_pos hbn).trans h0
  rw [hlaid.mapped _ (hbn.trans (by decide))] at hno
  have := (hlaid.bytes k hk).1
  omega

/-- **A new image without long files has no holes**, unless the entries of the root directory fill
its last block. -/
theorem Built.solid (h : Built m args) (hargs : ∀ a ∈ args, ArgOk a)
    (hlen : args.length + 2 ≤ wide.ninodes) (hround : (args.length + 2) % 64 ≠ 0)
    (hshort : ∀ a ∈ args, a.bytes.length ≤ NDIRECT * BSIZE) (hdr : ℕ → ℕ → UInt32) (pid : ℕ) :
    Solid (freshFS sb m.disk hdr pid) := by
  refine ⟨⟨h.consistent hdr pid, by change ROOTINO < sb.records; decide,
    fun ip hp => absurd hp (lt_irrefl 0)⟩, fun i hi htype => ?_⟩
  have hi' : i < wide.ninodes := hi
  have htype' : (dinodeAt sb m.disk i).type ≠ 0 := htype
  have hused : i ≠ 0 ∧ i < args.length + 2 := by
    have hfree := h.freeinode
    by_contra hn
    rw [h.unused i hi' (by omega)] at htype'
    exact htype' rfl
  rcases Nat.lt_or_ge i 2 with h2 | h2
  · obtain rfl : i = ROOTINO := by
      rw [ROOTINO]
      omega
    exact h.root_full hargs hlen hround
  · obtain ⟨j, rfl⟩ := Nat.exists_eq_add_of_le' h2
    have hj : j < args.length := by omega
    exact h.file_full hlen (List.getElem?_eq_getElem hj) (hshort _ (List.getElem_mem hj))

end Mounted

/-- Every part of an allocated file has a block; and reading a locked file, also as a directory,
changes nothing: no block is allocated, nothing is passed to `log_write`, and the bitmap and the
inodes stay as they are. -/
structure NoHoles (s : FS) : Prop where
  mapped : ∀ i < s.sb.records, (s.dinode i).type ≠ 0 → ∀ bn, bn * BSIZE < (s.dinode i).size.toNat →
    bn < NDIRECT ∧ (s.dinode i).addr bn ≠ 0
  readi : ∀ ip, (s.itable ip).lock = some s.pid → ∀ dst off n r t,
    Fs.readi ip dst off n s = .ok (r, t) → t = s
  dirlookup : ∀ dp, (s.itable dp).lock = some s.pid → ∀ name r t,
    Fs.dirlookup dp name s = .ok (r, t) → t.buf = s.buf ∧ t.logged = s.logged
  linkLoop : ∀ dp, (s.itable dp).lock = some s.pid → ∀ fuel off de r t,
    Fs.linkLoop dp fuel off de s = .ok (r, t) → t = s
  isdirempty : ∀ dp, (s.itable dp).lock = some s.pid → ∀ r t,
    Fs.isdirempty dp s = .ok (r, t) → t = s

section NoHoles

variable {s : FS}

theorem noHoles_of_solid (h : Solid s) : NoHoles s where
  mapped i hi htype bn hbn := by
    have hfull := h.full i hi htype
    have hlt : bn < NDIRECT := Nat.lt_of_mul_lt_mul_right (hbn.trans_le hfull.size_le)
    have haddr := hfull.addr_ne (bn * BSIZE) hbn
    rw [Nat.mul_div_cancel _ (by decide)] at haddr
    exact ⟨hlt, haddr⟩
  readi ip hlock dst off n r t hn := ((readi_reads off s).of_eq_ok hn).mapped (h.mapped hlock)
  dirlookup dp hlock name r t hn := by
    rw [Fs.dirlookup] at hn
    obtain ⟨⟨found, u⟩, hfind, hn⟩ := Loop.bind_eq_ok.mp hn
    obtain rfl : u = s := ((findEntry_reads s).of_eq_ok hfind).mapped (h.mapped hlock)
    cases found with
    | none =>
      cases hn
      exact ⟨rfl, rfl⟩
    | some e =>
      obtain ⟨⟨ip, v⟩, hget, hn⟩ := Loop.bind_eq_ok.mp hn
      cases hn
      have hnote : ∀ i, (u.noteRange i).buf = u.buf ∧ (u.noteRange i).logged = u.logged := by
        intro i
        rw [FS.noteRange]
        split_ifs <;> exact ⟨rfl, rfl⟩
      rcases iget_cases hget with ⟨-, -, -, rfl⟩ | ⟨-, -, rfl⟩ <;> exact hnote e.2
  linkLoop dp hlock fuel off de r t hn :=
    ((linkLoop_reads fuel off de s).of_eq_ok hn).mapped (h.mapped hlock)
  isdirempty dp hlock r t hn :=
    ((emptyLoop_reads _ _ s).of_eq_ok hn).mapped (h.mapped hlock)

/-- **Files have no holes**: in every state that the kernel reaches from a new image with at most
`206` files, none of them longer than the direct blocks, whose entries do not fill the last block of
the root directory. -/
theorem no_holes {args : List Arg} {m : Image} {hdr : ℕ → ℕ → UInt32} {pid : ℕ} {s₀ s : FS}
    (hn : mkfs args = .ok m) (hfew : args.length ≤ 206) (hround : (args.length + 2) % 64 ≠ 0)
    (hshort : ∀ a ∈ args, a.bytes.length ≤ NDIRECT * BSIZE)
    (hmount : fsinit m.disk hdr pid = .ok s₀)
    (hr : Reach Blocks.next (fun s op => Blocks.Legal s op ∧ Blocks.Plain s op) s₀ s) :
    NoHoles s := by
  have h208 : wide.ninodes = 208 := rfl
  obtain ⟨hok, hb⟩ := built_of_mkfs (by omega) hn
  rw [hb.fsinit] at hmount
  cases hmount
  have hsolid := hb.solid hok (by omega) hround hshort hdr pid
  exact noHoles_of_solid (Blocks.solid_reach hsolid rfl hr)

theorem no_holes_shortArg : ∃ m s₀ s, mkfs [shortArg] = .ok m ∧
    fsinit m.disk (fun _ _ => 0) 1 = .ok s₀ ∧ Blocks.next s₀ (.iget ROOTINO) = .ok s ∧
    NoHoles s := by
  obtain ⟨m, hm⟩ := mkfs_shortArg
  have hb := (built_of_mkfs (by decide) hm).2
  have hmount := hb.fsinit (fun _ _ => 0) 1
  set s₀ := freshFS sb m.disk (fun _ _ => 0) 1
  obtain ⟨t, hnext⟩ : ∃ t, Blocks.next s₀ (.iget ROOTINO) = .ok t := by
    have hfree : (s₀.itable firstSlot).ref = 0 := rfl
    obtain ⟨ip, -, hget⟩ : ∃ ip, _ ∧ iget ROOTDEV ROOTINO s₀ = _ :=
      iget_of_free (fun _ hj => absurd hj (lt_irrefl 0)) hfree
    exact ⟨_, by rw [Blocks.next, hget]; rfl⟩
  have hlegal : Blocks.Legal s₀ (.iget ROOTINO) := by
    change ROOTINO < sb.records
    decide
  have hshort : ∀ a ∈ [shortArg], a.bytes.length ≤ NDIRECT * BSIZE := fun a ha => by
    rw [List.mem_singleton.mp ha]
    decide
  exact ⟨m, s₀, t, hm, hmount, hnext,
    no_holes hm (by decide) (by decide) hshort hmount (.step .refl ⟨hlegal, trivial⟩ hnext)⟩

/-- Files whose entries, with the two of the root directory, fill a block. -/
def sixtyTwoFiles : List Arg := List.replicate 62 ⟨[97], some []⟩

theorem room_sixtyTwoFiles : Room (contents sixtyTwoFiles) := by
  unfold Room
  decide +kernel

/-- **With `62` files the root directory has a hole**: its size is two blocks, and it has one. -/
theorem root_has_hole : ∃ m s₀, mkfs sixtyTwoFiles = .ok m ∧
    fsinit m.disk (fun _ _ => 0) 1 = .ok s₀ ∧ (s₀.dinode ROOTINO).type = T_DIR ∧
    (s₀.dinode ROOTINO).size = 2048 ∧ (s₀.dinode ROOTINO).addr 1 = 0 ∧ ¬ NoHoles s₀ := by
  have hargs : ∀ a ∈ sixtyTwoFiles, ArgOk a := fun a ha => by
    rw [List.eq_of_mem_replicate ha]
    exact ⟨by decide, by decide, by decide⟩
  obtain ⟨m, hm⟩ := mkfs_of_room (by decide) hargs room_sixtyTwoFiles
  obtain ⟨-, hb⟩ := built_of_mkfs (by decide) hm
  have hlen : (rootEntries sixtyTwoFiles).length = 1024 := by
    rw [length_rootEntries (names_length hargs)]
    decide
  have hsize : (dinodeAt sb m.disk ROOTINO).size = 2048 := by
    have hsize := hb.root.2.2
    rw [hlen] at hsize
    exact UInt32.toNat_inj.mp hsize
  have hhole : (dinodeAt sb m.disk ROOTINO).addr 1 = 0 := by
    refine (hb.root_laid.mapped 1 (by decide)).mpr ?_
    rw [widths, show contents sixtyTwoFiles ROOTINO = rootEntries sixtyTwoFiles from if_pos rfl, hlen]
    decide
  set s₀ := freshFS sb m.disk (fun _ _ => 0) 1
  refine ⟨m, s₀, hm, hb.fsinit _ _, hb.root.1, hsize, hhole, fun h => ?_⟩
  have hlt : 1 * BSIZE < (s₀.dinode ROOTINO).size.toNat := by
    change 1 * BSIZE < (dinodeAt sb m.disk ROOTINO).size.toNat
    rw [hsize]
    decide
  have htype : (s₀.dinode ROOTINO).type ≠ 0 := by
    change (dinodeAt sb m.disk ROOTINO).type ≠ 0
    rw [hb.root.1]
    decide
  exact (h.mapped ROOTINO (by change ROOTINO < sb.records; decide) htype 1 hlt).2 hhole

end NoHoles

end RiscvOs.Mkfs
