import RiscvOs.Mkfs.Append
import RiscvOs.Fs.Consistent

set_option autoImplicit false

/-!
# The image that `mkfs` makes

Between the steps of `mkfs` the inodes that were handed out have records on the image, and their
files contain what was appended. A step succeeds exactly if the files do not become too long and
their blocks fit on the disk.

## Main results

* `Made.iappend`, `Made.ialloc`, `Made.copyLoop` — the steps
  succeed if there is room.
* `Stage.addFiles`, `Stage.of_addFiles` — the loop over the arguments.
-/

namespace RiscvOs.Mkfs

open Function Fs Loop

/-- The number of blocks of each file. -/
def widths (c : ℕ → List UInt8) (i : ℕ) : ℕ := blocks (c i).length

/-- The type of inode `i`: the first one is the root directory. -/
def kind (i : ℕ) : UInt16 := if i = ROOTINO then T_DIR else T_FILE

/-- There is room for files with these contents. -/
def Room (c : ℕ → List UInt8) : Prop :=
  (∀ i < wide.ninodes, (c i).length ≤ MAXFILE * BSIZE) ∧
    nmeta + ∑ i ∈ Finset.range wide.ninodes, cost (widths c i) ≤ FSSIZE

/-- The inodes that were handed out have records, and the files contain `c`. -/
structure Made (m : Image) (c : ℕ → List UInt8) : Prop where
  laid : Laid m (dinodeAt sb m.disk) (widths c) c
  inodes : m.freeinode ≤ wide.ninodes
  used : ∀ i, 0 < i → i < m.freeinode → (dinodeAt sb m.disk i).type = kind i ∧
    (dinodeAt sb m.disk i).nlink = 1 ∧ (dinodeAt sb m.disk i).size.toNat = (c i).length
  unused : ∀ i < wide.ninodes, i = 0 ∨ m.freeinode ≤ i →
    dinodeAt sb m.disk i = Dinode.zero ∧ c i = []
  first : ∀ b < sb.inodestart, m.disk b = blank.disk b

section Records

variable {m t : Image} {recs recs' : ℕ → Dinode} {w : ℕ → ℕ} {c : ℕ → List UInt8} {i : ℕ}

theorem widths_update (c : ℕ → List UInt8) (i : ℕ) (l : List UInt8) :
    widths (update c i l) = update (widths c) i (blocks l.length) := by
  funext j
  by_cases hj : j = i
  · subst hj
    rw [widths, update_self, update_self]
  · rw [widths, update_of_ne hj, update_of_ne hj, widths]

theorem kind_ne_zero (i : ℕ) : kind i ≠ 0 := by
  unfold kind
  split_ifs <;> decide

theorem IBLOCK_lt (hi : i < wide.ninodes) : IBLOCK i sb < sb.bmapstart := by
  have h : i < 208 := hi
  change i / 16 + 93 < 106
  omega

theorem rinode_eq (hi : i < wide.ninodes) : rinode i m = .ok (dinodeAt sb m.disk i) := by
  rw [rinode, rsect_of_lt ((IBLOCK_lt hi).trans (by decide))]
  rfl

/-- The image with an inode record replaced. -/
def Image.setRecord (m : Image) (i : ℕ) (din : Dinode) : Image :=
  { m with disk := setDinode sb m.disk i din }

theorem winode_eq (hi : i < wide.ninodes) (din : Dinode) :
    winode i din m = .ok (m.setRecord i din) := by
  rw [winode, rsect_of_lt ((IBLOCK_lt hi).trans (by decide))]
  dsimp only [bind, Except.bind]
  rw [wsect_of_lt ((IBLOCK_lt hi).trans (by decide))]
  rfl

theorem dinodeAt_setRecord (m : Image) (i : ℕ) (din : Dinode) (j : ℕ) :
    dinodeAt sb (m.setRecord i din).disk j = if j = i then din else dinodeAt sb m.disk j :=
  dinodeAt_setDinode _ _ _ _ _

theorem setRecord_disk (m : Image) (hi : i < wide.ninodes) (din : Dinode) {b : ℕ}
    (hb : b < sb.inodestart ∨ sb.bmapstart ≤ b) : (m.setRecord i din).disk b = m.disk b := by
  refine update_of_ne ?_ _ _
  have h1 := IBLOCK_lt hi
  have h2 : sb.inodestart ≤ IBLOCK i sb := Nat.le_add_left _ _
  omega

theorem Laid.congr (h : Laid m recs w c) (hfb : t.freeblock = m.freeblock)
    (hd : ∀ b, nmeta ≤ b → t.disk b = m.disk b)
    (hr : ∀ j < wide.ninodes, (recs' j).type = (recs j).type ∧ (recs' j).addrs = (recs j).addrs) :
    Laid t recs' w c := by
  have hlo := h.lo
  refine ⟨hfb ▸ h.hi, ?_, fun b hb => ?_, fun i hi => ?_, hfb ▸ h.count⟩
  · have hsame : holds wide t.disk recs' = holds wide m.disk recs :=
      funext fun x => holds_eq rfl (hr _) fun hj => hd _ (h.owns.range _ hj).1
    rw [hfb, hsame]
    exact h.owns
  · rw [hd b (by omega)]
    exact h.fresh b (hfb ▸ hb)
  · obtain ⟨ht, ha⟩ := hr i hi.1
    have hlive : Live recs i := ⟨hi.1, ht ▸ hi.2⟩
    have haddr : ∀ k, (recs' i).addr k = (recs i).addr k := fun k => by
      rw [Dinode.addr, Dinode.addr, ha]
    have hno : ∀ d f, blockNo d (recs' i) f = blockNo d (recs i) f := fun d f => by
      simp only [blockNo, haddr]
    have hf := (h.file i hlive).congr (e := t.disk)
      (fun h0 => hd _ ?_) fun f hf => hd _ (h.range hlive hf).2.1
    · refine ⟨fun f hM => ?_, ?_, fun k hk => ?_, hf.le⟩
      · rw [hno]
        exact hf.mapped f hM
      · rw [haddr]
        exact hf.indirect
      · rw [hno]
        exact hf.bytes k hk
    · rw [← holds_live m.disk hlive] at h0 ⊢
      exact (h.owns.range _ h0).1

theorem Laid.birth (h : Laid m recs w c) (h0 : (recs i).type = 0) (hw : w i = 0) (hc : c i = [])
    (din : Dinode) (ha : ∀ k, din.addr k = 0) (hfb : t.freeblock = m.freeblock)
    (hd : ∀ b, nmeta ≤ b → t.disk b = m.disk b)
    (hr : ∀ j < wide.ninodes, recs' j = update recs i din j) : Laid t recs' w c := by
  have hlo := h.lo
  have hsame : holds wide m.disk (update recs i din) = holds wide m.disk recs :=
    holds_update_bare (Or.inl h0) (Or.inr ha)
  have hbirth : Laid m (update recs i din) w c := by
    refine ⟨h.hi, hsame ▸ h.owns, h.fresh, fun j hj => ?_, h.count⟩
    by_cases hji : j = i
    · subst hji
      rw [update_self, hw, hc]
      refine ⟨fun f _ => ?_, ?_, fun k hk => absurd hk (Nat.not_lt_zero k), Nat.zero_le _⟩
      · simp [blockNo, ha]
      · simp [ha]
    · have hj' : Live recs j := by
        rw [Live, update_of_ne hji] at hj
        exact hj
      rw [update_of_ne hji]
      exact h.file j hj'
  exact hbirth.congr hfb hd fun j hj => by rw [hr j hj]; exact ⟨rfl, rfl⟩

end Records

/-! ## The steps of `mkfs` -/

section Steps

variable {m t : Image} {c : ℕ → List UInt8} {i : ℕ} {p : List UInt8}

theorem Made.live_iff (h : Made m c) :
    Live (dinodeAt sb m.disk) i ↔ 0 < i ∧ i < m.freeinode := by
  constructor
  · rintro ⟨hi, ht⟩
    by_contra hn
    rw [(h.unused i hi (by omega)).1] at ht
    exact ht rfl
  · rintro ⟨h1, h2⟩
    refine ⟨h2.trans_le h.inodes, ?_⟩
    rw [(h.used i h1 h2).1]
    exact kind_ne_zero i

theorem length_le_of_blocks_le {n : ℕ} (h : blocks n ≤ MAXFILE) : n ≤ MAXFILE * BSIZE := by
  rw [blocks, BSIZE] at h
  rw [BSIZE]
  omega

theorem Made.length_le (h : Made m c) (hi : i < wide.ninodes) :
    (c i).length ≤ MAXFILE * BSIZE := by
  by_cases hlive : Live (dinodeAt sb m.disk) i
  · exact length_le_of_blocks_le (h.laid.file i hlive).le
  · rw [h.live_iff] at hlive
    rw [(h.unused i hi (by omega)).2]
    exact Nat.zero_le _

theorem Made.fits_iff (h : Made m c) (hi : i < wide.ninodes) (l : List UInt8) :
    Fits m (widths c) i l.length ↔ Room (update c i l) := by
  have hs := sum_cost_update hi (widths c) (blocks l.length)
  have hcount := h.laid.count
  rw [← widths_update] at hs
  unfold Fits Room
  constructor
  · rintro ⟨h1, h2⟩
    refine ⟨fun j hj => ?_, by omega⟩
    by_cases hji : j = i
    · rw [hji, update_self]
      exact h1
    · rw [update_of_ne hji]
      exact h.length_le hj
  · rintro ⟨h1, h2⟩
    have := h1 i hi
    rw [update_self] at this
    exact ⟨this, by omega⟩

/-- **`iappend` appends**, if there is room. -/
theorem Made.iappend (h : Made m c) (hi : 0 < i) (hi' : i < m.freeinode)
    (hroom : Room (update c i (c i ++ p))) :
    ∃ t, Mkfs.iappend i p m = .ok t ∧ Made t (update c i (c i ++ p)) ∧
      t.freeinode = m.freeinode := by
  have hlt := hi'.trans_le h.inodes
  have hlive := h.live_iff.mpr ⟨hi, hi'⟩
  obtain ⟨htype, hlink, hsize⟩ := h.used i hi hi'
  have hfit := (h.fits_iff hlt (c i ++ p)).mpr hroom
  rw [List.length_append] at hfit
  obtain ⟨din, u, hloop, hlaid, happ⟩ :=
    h.laid.appendLoop hlive rfl le_rfl hfit
  have hrec : ∀ j < wide.ninodes, dinodeAt sb u.disk j = dinodeAt sb m.disk j := fun j hj => by
    rw [dinodeAt, happ.disk _ ((IBLOCK_lt hj).trans (by decide)), dinodeAt]
  have hdin := dinodeAt_setRecord u i { din with size := UInt32.ofNat ((c i).length + p.length) }
  refine ⟨u.setRecord i { din with size := UInt32.ofNat ((c i).length + p.length) }, ?_,
    ⟨?_, happ.freeinode ▸ h.inodes, fun j hj hj' => ?_, fun j hj hj' => ?_, fun b hb => ?_⟩,
    happ.freeinode⟩
  · rw [Mkfs.iappend, rinode_eq hlt]
    dsimp only [bind, Except.bind]
    rw [hsize, hloop]
    dsimp only
    rw [winode_eq hlt]
  · rw [widths_update, List.length_append]
    refine hlaid.congr rfl (fun b hb => ?_) fun j hj => ?_
    · exact setRecord_disk u hlt _ (Or.inr (le_trans (by decide) hb))
    · rw [hdin]
      by_cases hji : j = i
      · rw [if_pos hji, hji, update_self]
        exact ⟨rfl, rfl⟩
      · rw [if_neg hji, update_of_ne hji, hrec j hj]
        exact ⟨rfl, rfl⟩
  · have hj' : j < m.freeinode := happ.freeinode ▸ hj'
    rw [hdin]
    by_cases hji : j = i
    · have hlen : (c i).length + p.length < 2 ^ 32 := Nat.lt_of_le_of_lt hfit.1 (by decide)
      rw [if_pos hji, hji, update_self, List.length_append]
      refine ⟨?_, ?_, UInt32.toNat_ofNat_of_lt' hlen⟩
      · rw [happ.record]
        exact htype
      · rw [happ.record]
        exact hlink
    · rw [if_neg hji, update_of_ne hji, hrec j (hj'.trans_le h.inodes)]
      exact h.used j hj hj'
  · have hj' : j = 0 ∨ m.freeinode ≤ j := happ.freeinode ▸ hj'
    have hji : j ≠ i := by omega
    rw [hdin, if_neg hji, update_of_ne hji, hrec j hj]
    exact h.unused j hj hj'
  · rw [setRecord_disk u hlt _ (Or.inl hb), happ.disk b (hb.trans (by decide))]
    exact h.first b hb

theorem Made.of_iappend (h : Made m c) (hi : 0 < i) (hi' : i < m.freeinode) (hp : p ≠ [])
    (hn : Mkfs.iappend i p m = .ok t) :
    Made t (update c i (c i ++ p)) ∧ t.freeinode = m.freeinode := by
  have hlt := hi'.trans_le h.inodes
  have hlive := h.live_iff.mpr ⟨hi, hi'⟩
  have hfit : Fits m (widths c) i ((c i).length + p.length) := by
    have hn' := hn
    rw [Mkfs.iappend, rinode_eq hlt] at hn'
    obtain ⟨din, hdin, hn'⟩ := bind_eq_ok.mp hn'
    cases hdin
    obtain ⟨r, hr, -⟩ := bind_eq_ok.mp hn'
    rw [(h.used i hi hi').2.2] at hr
    exact h.laid.fits_of_appendLoop hlive rfl le_rfl hp hr
  rw [← List.length_append, h.fits_iff hlt] at hfit
  obtain ⟨t', ht', hmade, hfree⟩ := h.iappend hi hi' hfit
  rw [hn] at ht'
  cases ht'
  exact ⟨hmade, hfree⟩

/-- **`ialloc` hands out the next inode.** -/
theorem Made.ialloc (h : Made m c) (hpos : 0 < m.freeinode) (hlt : m.freeinode < wide.ninodes) :
    ∃ t, Mkfs.ialloc (kind m.freeinode) m = .ok (m.freeinode, t) ∧ Made t c ∧
      t.freeinode = m.freeinode + 1 := by
  obtain ⟨hz, hnil⟩ := h.unused _ hlt (Or.inr le_rfl)
  have hdin := dinodeAt_setRecord { m with freeinode := m.freeinode + 1 } m.freeinode
    (newRecord (kind m.freeinode))
  refine ⟨Image.setRecord { m with freeinode := m.freeinode + 1 } m.freeinode
      (newRecord (kind m.freeinode)), ?_, ⟨?_, hlt, fun j hj hj' => ?_, fun j hj hj' => ?_, fun b hb => ?_⟩, rfl⟩
  · rw [Mkfs.ialloc, winode_eq hlt]
    rfl
  · refine h.laid.birth (i := m.freeinode) (by rw [hz]; rfl) (by rw [widths, hnil]; rfl) hnil
      (newRecord (kind m.freeinode)) (fun k => Dinode.addr_zero k) rfl (fun b hb => ?_)
      fun j hj => ?_
    · exact setRecord_disk _ hlt _ (Or.inr (le_trans (by decide) hb))
    · rw [hdin]
      by_cases hji : j = m.freeinode
      · rw [if_pos hji, hji, update_self]
      · rw [if_neg hji, update_of_ne hji]
  · have hj' : j < m.freeinode + 1 := hj'
    rw [hdin]
    by_cases hji : j = m.freeinode
    · rw [if_pos hji, hji, hnil]
      exact ⟨rfl, rfl, rfl⟩
    · rw [if_neg hji]
      exact h.used j hj (by omega)
  · have hj' : j = 0 ∨ m.freeinode + 1 ≤ j := hj'
    rw [hdin, if_neg (by omega)]
    exact h.unused j hj (by omega)
  · rw [setRecord_disk _ hlt _ (Or.inl hb)]
    exact h.first b hb

theorem Room.mono {c' : ℕ → List UInt8} (h : Room c') (hle : ∀ i, (c i).length ≤ (c' i).length) :
    Room c := by
  refine ⟨fun i hi => (hle i).trans (h.1 i hi), le_trans ?_ h.2⟩
  exact Nat.add_le_add_left (Finset.sum_le_sum fun i _ => cost_mono (blocks_mono (hle i))) _

/-- **The contents of a file are copied**, if there is room. -/
theorem Made.copyLoop {fuel : ℕ} (h : Made m c) (hi : 0 < i)
    (hi' : i < m.freeinode) (hfuel : p.length ≤ fuel)
    (hroom : Room (update c i (c i ++ p))) :
    ∃ t, Mkfs.copyLoop i fuel p m = .ok t ∧ Made t (update c i (c i ++ p)) ∧
      t.freeinode = m.freeinode := by
  induction fuel generalizing p m c with
  | zero =>
    obtain rfl : p = [] := List.eq_nil_of_length_eq_zero (by omega)
    refine ⟨m, rfl, ?_, rfl⟩
    rwa [List.append_nil, update_eq_self]
  | succ fuel ih =>
    rw [Mkfs.copyLoop]
    by_cases hnil : p = []
    · subst hnil
      refine ⟨m, rfl, ?_, rfl⟩
      rwa [List.append_nil, update_eq_self]
    · rw [if_neg hnil]
      have hfirst : Room (update c i (c i ++ p.take BSIZE)) := hroom.mono fun j => by
        by_cases hj : j = i
        · subst hj
          rw [update_self, update_self, List.length_append, List.length_append,
            List.length_take]
          omega
        · rw [update_of_ne hj, update_of_ne hj]
      obtain ⟨t, ht, hmade, hfree⟩ := h.iappend hi hi' hfirst
      rw [ht]
      have hlen : (p.drop BSIZE).length ≤ fuel := by
        rw [List.length_drop, BSIZE]
        omega
      have hrest : Room (update (update c i (c i ++ p.take BSIZE)) i
          (update c i (c i ++ p.take BSIZE) i ++ p.drop BSIZE)) := by
        rw [update_self, update_idem, List.append_assoc, List.take_append_drop]
        exact hroom
      obtain ⟨t', ht', hmade', hfree'⟩ := ih hmade (hfree ▸ hi') hlen hrest
      rw [update_self, update_idem, List.append_assoc,
        List.take_append_drop] at hmade'
      exact ⟨t', ht', hmade', hfree'.trans hfree⟩

theorem Made.of_copyLoop {fuel : ℕ} (h : Made m c) (hi : 0 < i)
    (hi' : i < m.freeinode) (hfuel : p.length ≤ fuel)
    (hn : Mkfs.copyLoop i fuel p m = .ok t) :
    Made t (update c i (c i ++ p)) ∧ t.freeinode = m.freeinode := by
  induction fuel generalizing p m c with
  | zero =>
    obtain rfl : p = [] := List.eq_nil_of_length_eq_zero (by omega)
    cases hn
    rw [List.append_nil, update_eq_self]
    exact ⟨h, rfl⟩
  | succ fuel ih =>
    rw [Mkfs.copyLoop] at hn
    by_cases hnil : p = []
    · subst hnil
      cases hn
      rw [List.append_nil, update_eq_self]
      exact ⟨h, rfl⟩
    · rw [if_neg hnil] at hn
      have hpos := List.length_pos_iff.mpr hnil
      obtain ⟨u, hu, hn⟩ := bind_eq_ok.mp hn
      have hne : p.take BSIZE ≠ [] := by
        rw [Ne, ← List.length_eq_zero_iff, List.length_take, BSIZE]
        omega
      obtain ⟨hmade, hfree⟩ := h.of_iappend hi hi' hne hu
      have hlen : (p.drop BSIZE).length ≤ fuel := by
        rw [List.length_drop, BSIZE]
        omega
      obtain ⟨hmade', hfree'⟩ := ih hmade (hfree ▸ hi') hlen hn
      rw [update_self, update_idem, List.append_assoc,
        List.take_append_drop] at hmade'
      exact ⟨hmade', hfree'.trans hfree⟩

end Steps

/-! ## The program -/

/-- The bytes of the root directory: its own two entries, and one for each argument. -/
def rootEntries (args : List Arg) : List UInt8 :=
  dirent ROOTINO [46] ++ dirent ROOTINO [46, 46] ++
    (args.zipIdx 2).flatMap fun a => dirent a.2 (storedName a.1.path)

/-- What the files contain: inode `1` is the root directory, the arguments follow. -/
def contents (args : List Arg) (i : ℕ) : List UInt8 :=
  if i = ROOTINO then rootEntries args
  else if i < 2 then []
  else ((args[i - 2]?).bind Arg.data).getD []

/-- An argument that `mkfs` accepts. -/
structure ArgOk (a : Arg) : Prop where
  slash : 47 ∉ shortname a.path
  data : a.data ≠ none
  name : (storedName a.path).length ≤ DIRSIZ

/-- The state of the program after the arguments `args`. -/
structure Stage (m : Image) (args : List Arg) : Prop extends Made m (contents args) where
  freeinode : m.freeinode = args.length + 2

section Contents

variable {args rest : List Arg} {a : Arg} {i : ℕ}

theorem contents_file (h : 2 ≤ i) : contents args i = ((args[i - 2]?).bind Arg.data).getD [] := by
  have h1 : i ≠ ROOTINO := by
    rw [ROOTINO]
    omega
  rw [contents, if_neg h1, if_neg (by omega)]

theorem contents_behind (h : args.length + 2 ≤ i) : contents args i = [] := by
  rw [contents_file (by omega), List.getElem?_eq_none (by omega)]
  rfl

theorem contents_snoc (args : List Arg) (a : Arg) :
    contents (args ++ [a]) = update (update (contents args) ROOTINO
      (contents args ROOTINO ++ dirent (args.length + 2) (storedName a.path)))
      (args.length + 2) (a.data.getD []) := by
  funext i
  by_cases hroot : i = ROOTINO
  · have hne : ROOTINO ≠ args.length + 2 := by
      rw [ROOTINO]
      omega
    subst hroot
    rw [update_of_ne hne, update_self, contents, if_pos rfl, contents, if_pos rfl,
      rootEntries, rootEntries, List.zipIdx_append, List.flatMap_append]
    simp [Nat.add_comm]
  · by_cases hnew : i = args.length + 2
    · subst hnew
      rw [update_self, contents_file (by omega)]
      simp
    · rw [update_of_ne hnew, update_of_ne hroot]
      by_cases h2 : i < 2
      · rw [contents, if_neg hroot, if_pos h2, contents, if_neg hroot, if_pos h2]
      · rw [contents_file (by omega), contents_file (by omega)]
        by_cases hlt : i - 2 < args.length
        · rw [List.getElem?_append_left hlt]
        · rw [List.getElem?_eq_none (by simp; omega), List.getElem?_eq_none (by omega)]

theorem contents_mono (args rest : List Arg) (i : ℕ) :
    (contents args i).length ≤ (contents (args ++ rest) i).length := by
  induction rest using List.reverseRecOn with
  | nil => rw [List.append_nil]
  | append_singleton rest a ih =>
    rw [← List.append_assoc, contents_snoc]
    refine ih.trans ?_
    by_cases hnew : i = (args ++ rest).length + 2
    · rw [hnew, contents_behind le_rfl]
      exact Nat.zero_le _
    · rw [update_of_ne hnew]
      by_cases hroot : i = ROOTINO
      · rw [hroot, update_self, List.length_append]
        exact Nat.le_add_right _ _
      · rw [update_of_ne hroot]

end Contents

section Program

variable {m t : Image} {args rest : List Arg} {a : Arg}

theorem dirent_ne_nil (inum : ℕ) (name : List UInt8) : dirent inum name ≠ [] :=
  List.cons_ne_nil _ _

theorem kind_of_two_le {i : ℕ} (h : 2 ≤ i) : kind i = T_FILE := by
  rw [kind, if_neg]
  rw [ROOTINO]
  omega

/-- **An argument is added**, if there is room. -/
theorem Stage.addFile (h : Stage m args) (hlen : args.length + 2 < wide.ninodes) (ha : ArgOk a)
    (hroom : Room (contents (args ++ [a]))) :
    ∃ t, Mkfs.addFile m a = .ok t ∧ Stage t (args ++ [a]) := by
  obtain ⟨data, hdata⟩ := Option.ne_none_iff_exists'.mp ha.data
  have hfree := h.freeinode
  rw [contents_snoc, hdata] at hroom
  obtain ⟨t₁, ht₁, hmade₁, hfree₁⟩ := h.toMade.ialloc (by omega) (by omega)
  have hroot : Room (update (contents args) ROOTINO
      (contents args ROOTINO ++ dirent (args.length + 2) (storedName a.path))) :=
    hroom.mono fun j => by
      by_cases hj : j = args.length + 2
      · have hne : j ≠ ROOTINO := by
          rw [ROOTINO]
          omega
        rw [update_of_ne hne, hj, contents_behind le_rfl]
        exact Nat.zero_le _
      · rw [update_of_ne hj]
  obtain ⟨t₂, ht₂, hmade₂, hfree₂⟩ := hmade₁.iappend (i := ROOTINO) (by decide)
    (by rw [ROOTINO]; omega) hroot
  have hnil : update (contents args) ROOTINO
      (contents args ROOTINO ++ dirent (args.length + 2) (storedName a.path)) (args.length + 2) =
      [] := by
    rw [update_of_ne (by rw [ROOTINO]; omega), contents_behind le_rfl]
  have hcopy := hmade₂.copyLoop (i := args.length + 2) (p := data) (by omega) (by omega) le_rfl
  rw [hnil, List.nil_append] at hcopy
  obtain ⟨t₃, ht₃, hmade₃, hfree₃⟩ := hcopy hroom
  refine ⟨t₃, ?_, ?_, ?_⟩
  · rw [Mkfs.addFile, if_neg ha.slash, hdata]
    dsimp only
    rw [if_neg (not_lt.mpr ha.name), ← kind_of_two_le (show 2 ≤ m.freeinode by omega), ht₁, hfree]
    dsimp only [bind, Except.bind]
    rw [ht₂]
    exact ht₃
  · rw [contents_snoc, hdata]
    exact hmade₃
  · rw [hfree₃, hfree₂, hfree₁, hfree, List.length_append]
    rfl

/-- If `addFile` returns, the argument was accepted and there was room. -/
theorem Stage.of_addFile (h : Stage m args) (hlen : args.length + 2 < wide.ninodes)
    (hn : Mkfs.addFile m a = .ok t) : ArgOk a ∧ Stage t (args ++ [a]) := by
  have hfree := h.freeinode
  rw [Mkfs.addFile] at hn
  by_cases hslash : 47 ∈ shortname a.path
  · rw [if_pos hslash] at hn
    cases hn
  rw [if_neg hslash] at hn
  cases hdata : a.data with
  | none =>
    rw [hdata] at hn
    cases hn
  | some data =>
    rw [hdata] at hn
    split_ifs at hn with hname
    refine ⟨⟨hslash, by simp [hdata], not_lt.mp hname⟩, ?_⟩
    obtain ⟨t₁, ht₁, hmade₁, hfree₁⟩ := h.toMade.ialloc (by omega) (by omega)
    rw [← kind_of_two_le (show 2 ≤ m.freeinode by omega), ht₁] at hn
    obtain ⟨r, hr, hn⟩ := bind_eq_ok.mp hn
    cases hr
    obtain ⟨t₂, ht₂, hn⟩ := bind_eq_ok.mp hn
    obtain ⟨hmade₂, hfree₂⟩ := hmade₁.of_iappend (by decide) (by rw [ROOTINO]; omega)
      (dirent_ne_nil _ _) ht₂
    obtain ⟨hmade₃, hfree₃⟩ := hmade₂.of_copyLoop (by omega) (by omega) le_rfl hn
    have hnil : update (contents args) ROOTINO
        (contents args ROOTINO ++ dirent m.freeinode (storedName a.path)) m.freeinode = [] := by
      rw [update_of_ne (by rw [ROOTINO]; omega), contents_behind hfree.ge]
    rw [hnil, List.nil_append, hfree] at hmade₃
    refine ⟨?_, ?_⟩
    · rw [contents_snoc, hdata]
      exact hmade₃
    · rw [hfree₃, hfree₂, hfree₁, hfree, List.length_append]
      rfl

/-- **All arguments are added**, if there is room. -/
theorem Stage.addFiles (h : Stage m args) (hlen : args.length + rest.length + 2 ≤ wide.ninodes)
    (ha : ∀ a ∈ rest, ArgOk a) (hroom : Room (contents (args ++ rest))) :
    ∃ t, rest.foldlM Mkfs.addFile m = .ok t ∧ Stage t (args ++ rest) := by
  induction rest generalizing m args with
  | nil =>
    rw [List.append_nil]
    exact ⟨m, rfl, h⟩
  | cons a rest ih =>
    have happ : args ++ a :: rest = args ++ [a] ++ rest := by simp
    rw [happ] at hroom ⊢
    rw [List.length_cons] at hlen
    obtain ⟨t₁, ht₁, hst⟩ := h.addFile (by omega) (ha a List.mem_cons_self)
      (hroom.mono (contents_mono _ _))
    obtain ⟨t, ht, hst⟩ := ih hst (by simp; omega) (fun b hb => ha b (List.mem_cons_of_mem a hb)) hroom
    refine ⟨t, ?_, hst⟩
    rw [List.foldlM_cons, ht₁]
    exact ht

theorem Stage.of_addFiles (h : Stage m args) (hlen : args.length + rest.length + 2 ≤ wide.ninodes)
    (hn : rest.foldlM Mkfs.addFile m = .ok t) : (∀ a ∈ rest, ArgOk a) ∧ Stage t (args ++ rest) := by
  induction rest generalizing m args with
  | nil =>
    cases hn
    rw [List.append_nil]
    exact ⟨fun a ha => absurd ha List.not_mem_nil, h⟩
  | cons a rest ih =>
    rw [List.foldlM_cons] at hn
    rw [List.length_cons] at hlen
    obtain ⟨t₁, ht₁, hn⟩ := bind_eq_ok.mp hn
    obtain ⟨ha, hst⟩ := h.of_addFile (by omega) ht₁
    obtain ⟨hall, hst⟩ := ih hst (by simp; omega) hn
    rw [List.append_assoc, List.singleton_append] at hst
    refine ⟨fun b hb => ?_, hst⟩
    rcases List.mem_cons.mp hb with rfl | hb
    · exact ha
    · exact hall b hb

theorem readDinode_zero (k : ℕ) : readDinode (fun _ => 0) k = Dinode.zero := by
  simp [readDinode, ByteBlock.u16, ByteBlock.u32, ByteBlock.get, Dinode.zero]

theorem room_nil : Room (contents []) := by
  unfold Room
  decide +kernel

/-- The empty image. -/
theorem made_blank : Made blank fun _ => [] := by
  have hdisk : ∀ b, b ≠ 1 → blank.disk b = fun _ => 0 := fun b hb => by
    change update (fun _ _ => 0 : Disk) 1 superBlock b = _
    rw [update_of_ne hb]
  have hrec : ∀ i < wide.ninodes, dinodeAt sb blank.disk i = Dinode.zero := fun i hi => by
    have hne : IBLOCK i sb ≠ 1 := by
      have : sb.inodestart ≤ IBLOCK i sb := Nat.le_add_left _ _
      have h93 : sb.inodestart = 93 := rfl
      omega
    rw [dinodeAt, hdisk _ hne, readDinode_zero]
  have hholds : ∀ x, holds wide blank.disk (dinodeAt sb blank.disk) x = 0 := fun x => by
    cases x with
    | addr i k =>
      rw [holds]
      split_ifs with hc
      · exact absurd (by rw [hrec i hc.1]; rfl) hc.2
      · rfl
    | entry i k =>
      rw [holds]
      split_ifs with hc
      · exact absurd (by rw [hrec i hc.1.1]; rfl) hc.1.2
      · rfl
  refine ⟨⟨by decide, ⟨fun x hx => absurd (hholds x) hx, fun x _ hx => absurd (hholds x) hx,
      fun b h1 h2 => ?_, fun b hb => hb⟩, fun b hb => ?_, fun i hi => ?_, ?_⟩, by decide,
    fun i h1 h2 => ?_, fun i hi _ => ⟨hrec i hi, rfl⟩, fun _ _ => rfl⟩
  · refine iff_of_false (not_lt.mpr h1) ?_
    rintro ⟨x, hx⟩
    rw [hholds] at hx
    have : 0 < nmeta := by decide
    omega
  · have hb' : 107 ≤ b := hb
    exact hdisk b (Nat.ne_of_gt (Nat.lt_of_lt_of_le (by decide) hb'))
  · exact absurd (by rw [hrec i hi.1]; rfl) hi.2
  · have hsum : ∑ i ∈ Finset.range wide.ninodes, cost (widths (fun _ => []) i) = 0 :=
      Finset.sum_eq_zero fun i _ => show cost (blocks 0) = 0 by decide
    rw [hsum]
    rfl
  · have h2' : i < 1 := h2
    omega

/-- The root directory. -/
theorem stage_makeRoot : ∃ m, makeRoot blank = .ok m ∧ Stage m [] := by
  obtain ⟨t₁, ht₁, hmade₁, hfree₁⟩ := made_blank.ialloc (by decide) (by decide)
  have hend : update (update (fun _ => []) ROOTINO (dirent ROOTINO [46])) ROOTINO
      (dirent ROOTINO [46] ++ dirent ROOTINO [46, 46]) = contents [] := by
    funext i
    rw [update_idem]
    by_cases hi : i = ROOTINO
    · subst hi
      rw [update_self, contents, if_pos rfl, rootEntries]
      simp
    · rw [update_of_ne hi, contents, if_neg hi]
      simp
  have hroom : Room (update (fun _ => []) ROOTINO (dirent ROOTINO [46])) := by
    refine room_nil.mono fun i => ?_
    rw [← hend]
    by_cases hi : i = ROOTINO
    · subst hi
      rw [update_self, update_self, List.length_append]
      exact Nat.le_add_right _ _
    · rw [update_of_ne hi, update_of_ne hi, update_of_ne hi]
  obtain ⟨t₂, ht₂, hmade₂, hfree₂⟩ := hmade₁.iappend (i := ROOTINO) (p := dirent ROOTINO [46])
    (by decide) (by rw [hfree₁]; decide) hroom
  have hroom' := room_nil
  rw [← hend] at hroom'
  obtain ⟨t₃, ht₃, hmade₃, hfree₃⟩ := hmade₂.iappend (i := ROOTINO) (p := dirent ROOTINO [46, 46])
    (by decide) (by rw [hfree₂, hfree₁]; decide) (by rwa [update_self])
  rw [update_self] at hmade₃
  refine ⟨t₃, ?_, ?_, ?_⟩
  · have hone : blank.freeinode = ROOTINO := rfl
    have hkind : kind ROOTINO = T_DIR := rfl
    rw [hone, hkind] at ht₁
    rw [makeRoot, ht₁]
    dsimp only [bind, Except.bind]
    rw [if_neg (not_not.mpr rfl), ht₂]
    exact ht₃
  · exact hend ▸ hmade₃
  · rw [hfree₃, hfree₂, hfree₁]
    rfl

end Program

end RiscvOs.Mkfs
