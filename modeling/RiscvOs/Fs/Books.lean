import RiscvOs.Fs.Path

set_option autoImplicit false

/-!
# What the composed calls take and give back

`namex`, `create` and `sys_unlink` go through many states in which they have pointers to some
inodes and locks on others, and each of their exits has to give back what it does not return.
This module keeps the books: in terms of the state in which a call starts, which pointers and
locks it has at each point. Everything else that every call on inodes keeps true is kept true by
the composed calls.

## Main results

* `dirlookup_acct`, `dirlink_acct`, `namex_acct` — directories and
  paths.
* `create_acct`, `sysUnlink_acct` — the two operations on directories.
* `kept_sound` — the calls on inodes keep the file system sound.
-/

namespace RiscvOs.Fs

open Loop

/-- Since `s₀` the running call has taken pointers to the slots of `l` and locked those of `k`. -/
structure Books (s₀ : FS) (l k : List Slot) (s : FS) : Prop where
  layout : Layout s₀.sb
  sb : s.sb = s₀.sb
  pid : s.pid = s₀.pid
  history : s₀.quirks <:+ s.quirks
  ref : ∀ jp, (s.itable jp).ref = (s₀.itable jp).ref + l.count jp
  lock : ∀ jp, (s.itable jp).lock = if jp ∈ k then some s₀.pid else (s₀.itable jp).lock
  base : ∀ jp, (s₀.itable jp).lock ≠ none → 0 < (s₀.itable jp).ref
  free : ∀ jp ∈ k, (s₀.itable jp).lock = none
  nodup : k.Nodup

/-- A property that the calls on inodes keep, where no branch is recorded. -/
structure Kept (I : FS → Prop) : Prop where
  table : ∀ {s}, I s → Table s
  root : ∀ {s}, I s → ROOTINO < s.sb.records
  ilock : ∀ {s t ip}, I s → Fs.ilock ip s = .ok t → I t
  iunlock : ∀ {s t ip}, I s → Fs.iunlock ip s = .ok t → I t
  idup : ∀ {s ip}, I s → 0 < (s.itable ip).ref → I (Fs.idup ip s)
  iget : ∀ {s t ip inum}, I s → inum < s.sb.records → Fs.iget ROOTDEV inum s = .ok (ip, t) → I t
  ialloc : ∀ {s t ip type}, I s → Fs.ialloc ROOTDEV type s = .ok (some ip, t) → I t
  setAttrs : ∀ {s t ip a b c}, I s → Fs.setAttrs ip a b c s = .ok t → I t
  iput : ∀ {s ip}, I s → Droppable ip s → Safe Fatal (Clean I) (Fs.iput ip s)
  writei : ∀ {s ip src off n}, I s →
    Safe Fatal (fun r => Clean I r.2) (Fs.writei ip src off n s)

/-- The books are in order, and `I` holds unless a branch was recorded. -/
structure Acct (I : FS → Prop) (s₀ : FS) (l k : List Slot) (s : FS) : Prop where
  books : Books s₀ l k s
  clean : Clean I s

section Books

variable {s₀ s t : FS} {l l' k : List Slot} {ip : Slot}

theorem books_start (h : Table s₀) : Books s₀ [] [] s₀ := by
  refine ⟨h.layout, rfl, rfl, List.suffix_refl _, fun _ => rfl, fun _ => rfl, fun jp hj => ?_,
    fun jp hj => absurd hj List.not_mem_nil, List.nodup_nil⟩
  obtain ⟨p, hp⟩ := Option.ne_none_iff_exists'.mp hj
  exact (h.locked jp p hp).1

theorem Books.perm (h : Books s₀ l k s) (hp : l.Perm l') : Books s₀ l' k s :=
  { h with ref := fun jp => by rw [h.ref, hp.count_eq] }

theorem Books.ref_pos (h : Books s₀ l k s) (hip : ip ∈ l) : 0 < (s.itable ip).ref := by
  have := List.count_pos_iff.mpr hip
  rw [h.ref]
  omega

theorem Books.same (h : Books s₀ l k s) (hsb : t.sb = s.sb) (hpid : t.pid = s.pid)
    (hq : s.quirks <:+ t.quirks) (href : ∀ jp, (t.itable jp).ref = (s.itable jp).ref)
    (hlock : ∀ jp, (t.itable jp).lock = (s.itable jp).lock) : Books s₀ l k t :=
  { h with
    sb := hsb.trans h.sb
    pid := hpid.trans h.pid
    history := h.history.trans hq
    ref := fun jp => (href jp).trans (h.ref jp)
    lock := fun jp => (hlock jp).trans (h.lock jp) }

theorem Books.stays (h : Books s₀ l k s) (ht : Stays s t) : Books s₀ l k t :=
  h.same ht.sb ht.pid ht.quirks (fun jp => by rw [ht.slot jp]) fun jp => ht.lock jp

theorem Books.take (h : Books s₀ l k s) {v : Inode} (href : v.ref = (s.itable ip).ref + 1)
    (hlock : v.lock = (s.itable ip).lock) : Books s₀ (ip :: l) k (s.setInode ip v) := by
  refine { h with ref := fun jp => ?_, lock := fun jp => ?_ }
  · by_cases hj : jp = ip
    · subst hj
      rw [FS.setInode_same, href, h.ref, List.count_cons_self, Nat.add_assoc]
    · rw [FS.setInode_of_ne _ _ _ hj, h.ref, List.count_cons_of_ne (Ne.symm hj)]
  · by_cases hj : jp = ip
    · subst hj
      rw [FS.setInode_same, hlock]
      exact h.lock jp
    · rw [FS.setInode_of_ne _ _ _ hj]
      exact h.lock jp

theorem Books.drop (h : Books s₀ (ip :: l) k s) (hsb : t.sb = s.sb) (hpid : t.pid = s.pid)
    (hq : s.quirks <:+ t.quirks) (hother : ∀ jp, jp ≠ ip → t.itable jp = s.itable jp)
    (href : (t.itable ip).ref = (s.itable ip).ref - 1)
    (hlock : (t.itable ip).lock = (s.itable ip).lock) : Books s₀ l k t := by
  refine { h with sb := hsb.trans h.sb, pid := hpid.trans h.pid, history := h.history.trans hq,
                  ref := fun jp => ?_, lock := fun jp => ?_ }
  · by_cases hj : jp = ip
    · subst hj
      rw [href, h.ref, List.count_cons_self]
      omega
    · rw [hother jp hj, h.ref, List.count_cons_of_ne (Ne.symm hj)]
  · by_cases hj : jp = ip
    · subst hj
      rw [hlock]
      exact h.lock jp
    · rw [hother jp hj]
      exact h.lock jp

theorem Books.droppable (h : Books s₀ (ip :: l) k s) (hk : ip ∈ k → ip ∈ l) : Droppable ip s := by
  have href := h.ref ip
  rw [List.count_cons_self] at href
  refine ⟨by omega, ?_⟩
  by_cases hik : ip ∈ k
  · have := List.count_pos_iff.mpr (hk hik)
    exact Or.inr (by omega)
  · have hlock := h.lock ip
    rw [if_neg hik] at hlock
    by_cases hnone : (s₀.itable ip).lock = none
    · exact Or.inl (hlock.trans hnone)
    · have := h.base ip hnone
      exact Or.inr (by omega)

theorem Books.ilock (h : Books s₀ l k s) (hn : Fs.ilock ip s = .ok t) :
    Books s₀ l (ip :: k) t ∧ t.quirks = s.quirks := by
  -- the lock was free, so the call does not have it already
  have hnone : (s.itable ip).lock = none := by
    rw [Fs.ilock] at hn
    split_ifs at hn with h1 h2 <;> exact not_not.mp h2
  have hik : ip ∉ k := by
    intro hik
    have := h.lock ip
    rw [if_pos hik, hnone] at this
    cases this
  have hfree : (s₀.itable ip).lock = none := by
    have := h.lock ip
    rw [if_neg hik, hnone] at this
    exact this.symm
  have hslot : (∀ jp, (t.itable jp).ref = (s.itable jp).ref) ∧
      (∀ jp, (t.itable jp).lock = if jp = ip then some s.pid else (s.itable jp).lock) ∧
      t.sb = s.sb ∧ t.pid = s.pid ∧ t.quirks = s.quirks := by
    rcases (ilock_cases hn).2 with ⟨-, rfl⟩ | ⟨-, -, rfl⟩ <;>
    · refine ⟨fun jp => ?_, fun jp => ?_, rfl, rfl, rfl⟩ <;> by_cases hj : jp = ip
      · subst hj
        simp [FS.setLock]
      · simp [FS.setLock, FS.setInode_of_ne _ _ _ hj]
      · subst hj
        simp [FS.setLock]
      · simp [FS.setLock, FS.setInode_of_ne _ _ _ hj, hj]
  obtain ⟨href, hlock, hsb, hpid, hq⟩ := hslot
  refine ⟨{ h with
    sb := hsb.trans h.sb
    pid := hpid.trans h.pid
    history := hq ▸ h.history
    ref := fun jp => (href jp).trans (h.ref jp)
    lock := fun jp => ?_
    free := fun jp hj => ?_
    nodup := List.nodup_cons.mpr ⟨hik, h.nodup⟩ }, hq⟩
  · rw [hlock, h.lock, h.pid]
    by_cases hj : jp = ip
    · simp [hj]
    · simp [hj]
  · rcases List.mem_cons.mp hj with rfl | hj
    · exact hfree
    · exact h.free jp hj

theorem Books.iunlock (h : Books s₀ l k s) (hik : ip ∈ k) (hn : Fs.iunlock ip s = .ok t) :
    Books s₀ l (k.erase ip) t ∧ t.quirks = s.quirks := by
  obtain ⟨-, -, rfl⟩ := iunlock_cases hn
  refine ⟨{ h with
    ref := fun jp => ?_
    lock := fun jp => ?_
    free := fun jp hj => h.free jp (List.mem_of_mem_erase hj)
    nodup := h.nodup.erase ip }, rfl⟩
  · rw [← h.ref jp]
    by_cases hj : jp = ip
    · subst hj
      rw [FS.setLock, FS.setInode_same]
    · rw [FS.setLock, FS.setInode_of_ne _ _ _ hj]
  · by_cases hj : jp = ip
    · subst hj
      rw [FS.setLock, FS.setInode_same, if_neg h.nodup.not_mem_erase]
      exact (h.free jp hik).symm
    · rw [FS.setLock, FS.setInode_of_ne _ _ _ hj, h.lock]
      simp [List.mem_erase_of_ne hj]

theorem Books.iget {dev inum : ℕ} (h : Books s₀ l k s) (hn : Fs.iget dev inum s = .ok (ip, t)) :
    Books s₀ (ip :: l) k t ∧ t.quirks = s.quirks := by
  rcases iget_cases hn with ⟨-, -, -, rfl⟩ | ⟨-, h0, rfl⟩
  · exact ⟨h.take rfl rfl, rfl⟩
  · exact ⟨h.take (by rw [h0]) rfl, rfl⟩

theorem Books.ialloc {dev : ℕ} {type : UInt16} (h : Books s₀ l k s)
    (hn : Fs.ialloc dev type s = .ok (some ip, t)) :
    Books s₀ (ip :: l) k t ∧ t.quirks = s.quirks := by
  obtain ⟨inum, -, -, hg⟩ := ialloc_eq_some hn
  have hclaim : Books s₀ l k (s.claimInode inum type) :=
    h.same rfl rfl (List.suffix_refl _) (fun _ => rfl) fun _ => rfl
  exact hclaim.iget hg

theorem Books.iput (h : Books s₀ (ip :: l) k s) (hn : Fs.iput ip s = .ok t) :
    Books s₀ l k t := by
  have hq := iput_suffix hn
  rcases iput_cases hn with ⟨-, u, hu, rfl⟩ | ⟨-, rfl⟩
  · refine h.drop hu.sb hu.pid hq (fun jp hj => ?_) ?_ ?_
    · rw [FS.setInode_of_ne _ _ _ hj, hu.other jp hj]
    · rw [FS.setInode_same, hu.ref]
    · rw [FS.setInode_same]
      exact hu.lock.trans hu.unlocked.symm
  · refine h.drop rfl rfl hq (fun jp hj => FS.setInode_of_ne _ _ _ hj) ?_ ?_
    · rw [FS.setInode_same]
    · rw [FS.setInode_same]

end Books

/-! ## Calls on inodes -/

section Inodes

variable {I : FS → Prop} (hI : Kept I) {s₀ s : FS} {l l' k k' : List Slot} {ip : Slot}

theorem acct_start (h : I s₀) (ht : Table s₀) : Acct I s₀ [] [] s₀ :=
  ⟨books_start ht, fun _ => h⟩

theorem Acct.perm (h : Acct I s₀ l k s) (hp : l.Perm l') : Acct I s₀ l' k s :=
  ⟨h.books.perm hp, h.clean⟩

theorem Acct.regular {t : FS} (h : Acct I s₀ l k s) (hb : Books s₀ l' k' t)
    (hq : t.quirks = s.quirks) (hkeep : I s → s.quirks = [] → I t) : Acct I s₀ l' k' t :=
  ⟨hb, fun ht => hkeep (h.clean (hq ▸ ht)) (hq ▸ ht)⟩

theorem setAttrs_ne_bfree (ip : Slot) (a b c : UInt16) (s : FS) (q : List Quirk) :
    setAttrs ip a b c s ≠ .error (.bfree q) := by
  intro h
  rw [setAttrs, iupdate] at h
  split_ifs at h
  cases h

theorem Acct.of_ok {α : Type} {x : Except Panic α} {Q : α → Prop}
    (hne : ∀ q, x ≠ .error (.bfree q)) (h : ∀ r, x = .ok r → Q r) : Safe Fatal Q x :=
  (safe_of_ne hne).mono h

include hI

theorem ilock_acct (h : Acct I s₀ l k s) :
    Safe Fatal (Acct I s₀ l (ip :: k)) (ilock ip s) := by
  refine Acct.of_ok (ilock_ne_bfree ip s) fun t ht => ?_
  obtain ⟨hb, hqt⟩ := h.books.ilock ht
  exact h.regular hb hqt fun hs _ => hI.ilock hs ht

theorem iunlock_acct (h : Acct I s₀ l k s) (hik : ip ∈ k) :
    Safe Fatal (Acct I s₀ l (k.erase ip)) (iunlock ip s) := by
  refine Acct.of_ok (iunlock_ne_bfree ip s) fun t ht => ?_
  obtain ⟨hb, hqt⟩ := h.books.iunlock hik ht
  exact h.regular hb hqt fun hs _ => hI.iunlock hs ht

theorem iput_acct (h : Acct I s₀ (ip :: l) k s) (hk : ip ∈ k → ip ∈ l) :
    Safe Fatal (Acct I s₀ l k) (iput ip s) := by
  have hclean : Safe Fatal (Clean I) (iput ip s) := by
    by_cases hq : s.quirks = []
    · exact hI.iput (h.clean hq) (h.books.droppable hk)
    · exact (iput_irregular hq).mono fun t ht hq => absurd hq ht
  exact (hclean.and_of_ok fun t ht => ht).mono fun t ht => ⟨h.books.iput ht.2, ht.1⟩

theorem iunlockput_acct (h : Acct I s₀ (ip :: l) k s) (hik : ip ∈ k) :
    Safe Fatal (Acct I s₀ l (k.erase ip)) (iunlockput ip s) := by
  rw [iunlockput]
  refine (iunlock_acct hI h hik).bind fun t ht => iput_acct hI ht fun hmem => ?_
  exact absurd hmem h.books.nodup.not_mem_erase

theorem iget_acct {dev inum : ℕ} (h : Acct I s₀ l k s)
    (hi : s.quirks = [] → dev = ROOTDEV ∧ inum < s.sb.records) :
    Safe Fatal (fun r => Acct I s₀ (r.1 :: l) k r.2) (iget dev inum s) := by
  refine (iget_safe dev inum s).mono fun r hr => ?_
  obtain ⟨hb, hqt⟩ := h.books.iget hr
  refine h.regular hb hqt fun hs hq => ?_
  obtain ⟨rfl, hlt⟩ := hi hq
  exact hI.iget hs hlt hr

theorem idup_acct (h : Acct I s₀ l k s) (hpos : s.quirks = [] → 0 < (s.itable ip).ref) :
    Acct I s₀ (ip :: l) k (idup ip s) :=
  h.regular (h.books.take rfl rfl) rfl fun hs hq => hI.idup hs (hpos hq)

theorem ialloc_acct {dev : ℕ} {type : UInt16} (h : Acct I s₀ l k s)
    (hdev : s.quirks = [] → dev = ROOTDEV) :
    Safe Fatal (fun r => Acct I s₀ (r.1.toList ++ l) k r.2) (ialloc dev type s) := by
  refine Acct.of_ok (ialloc_ne_bfree dev type s) fun r hr => ?_
  obtain ⟨r, t⟩ := r
  cases r with
  | none =>
    obtain rfl := ialloc_eq_none hr
    exact h
  | some ip =>
    obtain ⟨hb, hqt⟩ := h.books.ialloc hr
    refine h.regular hb hqt fun hs hq => ?_
    obtain rfl := hdev hq
    exact hI.ialloc hs hr

theorem setAttrs_acct {a b c : UInt16} (h : Acct I s₀ l k s) :
    Safe Fatal (Acct I s₀ l k) (setAttrs ip a b c s) := by
  refine Acct.of_ok (setAttrs_ne_bfree ip a b c s) fun t ht => ?_
  have hup := updated_of_iupdate ht
  have hqt : t.quirks = s.quirks := by
    have hhist := iupdate_history ip (s.setInode ip
      { s.itable ip with major := a, minor := b, nlink := c })
    exact hhist.of_eq_ok ht
  refine h.regular (h.books.same hup.sb hup.pid (hqt ▸ List.suffix_refl _) (fun jp => ?_)
    fun jp => ?_) hqt fun hs _ => hI.setAttrs hs ht
  · rw [hup.itable]
    by_cases hj : jp = ip
    · subst hj
      rw [FS.setInode_same]
    · rw [FS.setInode_of_ne _ _ _ hj]
  · rw [hup.itable]
    by_cases hj : jp = ip
    · subst hj
      rw [FS.setInode_same]
    · rw [FS.setInode_of_ne _ _ _ hj]

theorem writei_acct {src : Source} {off n : ℕ} (h : Acct I s₀ l k s) :
    Safe Fatal (fun r => Acct I s₀ l k r.2) (writei ip src off n s) := by
  have hclean : Safe Fatal (fun r => Clean I r.2) (writei ip src off n s) := by
    by_cases hq : s.quirks = []
    · exact hI.writei (h.clean hq)
    · exact (fatal_of_freed (writei_stays ip src off n s)).mono fun r hr hq' => absurd hq' (hr.ne_nil hq)
  refine (hclean.and_of_ok fun r hr => hr).mono fun r hr => ⟨?_, hr.1⟩
  exact h.books.stays ((writei_stays ip src off n s).of_eq_ok hr.2)

omit hI in
theorem Acct.reads {t : FS} (h : Acct I s₀ l k s) (ht : Peeks s t) : Acct I s₀ l k t := by
  refine ⟨h.books.stays ht.stays, fun hq => ?_⟩
  have heq := ht.same hq
  rw [heq] at hq ⊢
  exact h.clean hq

end Inodes

/-! ## Directories and paths -/

section Paths

variable {I : FS → Prop} (hI : Kept I) {s₀ s : FS} {l k : List Slot} {dp ip : Slot}

theorem Acct.dev (hI : Kept I) (h : Acct I s₀ l k s) (hdp : dp ∈ l) (hq : s.quirks = []) :
    (s.itable dp).dev = ROOTDEV :=
  (hI.table (h.clean hq)).dev dp (h.books.ref_pos hdp)

include hI

theorem dirlookup_acct {name : ℕ → UInt8} (h : Acct I s₀ l k s) (hdp : dp ∈ l) :
    Safe Fatal (fun r => Acct I s₀ ((r.1.map Prod.fst).toList ++ l) k r.2)
      (dirlookup dp name s) := by
  rw [dirlookup]
  refine Safe.bind (findEntry_reads s) fun r hr => ?_
  have h₁ := h.reads hr.toPeeks
  obtain ⟨found, s₁⟩ := r
  cases found with
  | none => exact h₁
  | some e =>
    dsimp only
    rw [FS.noteRange]
    split_ifs with hlt
    · refine Safe.bind (iget_acct hI h₁ fun hq => ⟨h₁.dev hI hdp hq, hlt⟩) fun r hr => hr
    · -- the inode number does not exist
      have h₂ : Acct I s₀ l k (s₁.note .range) := by
        refine ⟨h₁.books.same rfl rfl (List.suffix_cons _ _) (fun _ => rfl) fun _ => rfl, ?_⟩
        exact fun hq => absurd hq (List.cons_ne_nil _ _)
      exact Safe.bind (iget_acct hI h₂ fun hq => absurd hq (List.cons_ne_nil _ _))
        fun r hr => hr

theorem dirlink_acct {name : ℕ → UInt8} {inum : ℕ} {junk : Dirent} (h : Acct I s₀ l k s)
    (hdk : dp ∈ k) (hkl : k ⊆ l) :
    Safe Fatal (fun r => Acct I s₀ l k r.2) (dirlink dp name inum junk s) := by
  rw [dirlink]
  refine Safe.bind (dirlookup_acct hI h (hkl hdk)) fun r hr => ?_
  obtain ⟨found, s₁⟩ := r
  cases found with
  | some e => exact (iput_acct hI hr fun hmem => hkl hmem).bind fun t ht => ht
  | none =>
    refine Safe.bind (linkLoop_reads _ _ _ _) fun r hread => ?_
    exact Safe.bind (writei_acct hI (hr.reads hread.toPeeks)) fun r' hr' => hr'

omit hI in
theorem skipelem_length {path name rest : List UInt8} (h : skipelem path = some (name, rest)) :
    rest.length < path.length := by
  rw [skipelem] at h
  split_ifs at h with hnil
  obtain ⟨-, rfl⟩ := h
  have h1 := (List.dropWhile_suffix (· == slash) (l := path)).length_le
  have h2 := (List.dropWhile_suffix (· == slash)
    (l := (path.dropWhile (· == slash)).dropWhile (· != slash))).length_le
  -- the first character after the slashes is not one
  obtain ⟨c, cs, hcs⟩ := List.exists_cons_of_ne_nil hnil
  have hc : (c != slash) = true := by
    have := List.head_dropWhile_not (· == slash) hnil
    simp only [hcs, List.head_cons] at this
    simpa [bne] using this
  rw [hcs] at h1 h2 ⊢
  have hdrop : (c :: cs).dropWhile (· != slash) = cs.dropWhile (· != slash) :=
    List.dropWhile_cons_of_pos hc
  rw [hdrop] at h2 ⊢
  have h3 := (List.dropWhile_suffix (· != slash) (l := cs)).length_le
  simp only [List.length_cons] at h1
  omega

theorem namexLoop_acct (parent : Bool) (fuel : ℕ) (ip : Slot) (name path : List UInt8) (s : FS)
    (h : Acct I s₀ [ip] [] s) (hfuel : path.length < fuel) :
    Safe Fatal (fun r => Acct I s₀ (r.1.map Prod.fst).toList [] r.2)
      (namexLoop parent fuel ip name path s) := by
  induction fuel generalizing ip name path s with
  | zero => exact absurd hfuel (Nat.not_lt_zero _)
  | succ fuel ih =>
    rw [namexLoop]
    split
    · split_ifs
      · exact (iput_acct hI h fun hmem => hmem).bind fun t ht => ht
      · exact h
    · rename_i name' rest hskip
      have hrest := skipelem_length hskip
      refine (ilock_acct hI h).bind fun s₁ h₁ => ?_
      split_ifs with htype hparent
      · refine (iunlockput_acct hI h₁ (List.mem_singleton_self ip)).bind fun t ht => ?_
        rwa [List.erase_cons_head] at ht
      · refine (iunlock_acct hI h₁ (List.mem_singleton_self ip)).bind fun t ht => ?_
        rwa [List.erase_cons_head] at ht
      · refine (dirlookup_acct hI h₁ (List.mem_singleton_self ip)).bind fun r hr => ?_
        obtain ⟨found, s₂⟩ := r
        have hr' := hr.perm List.perm_append_comm
        refine (iunlockput_acct hI hr' (List.mem_singleton_self ip)).bind fun t ht => ?_
        rw [List.erase_cons_head] at ht
        cases found with
        | none => exact ht
        | some e => exact ih e.1 name' rest t ht (by omega)

theorem namex_acct (parent : Bool) (path : List UInt8) (cwd : Slot) (h : Acct I s₀ [] [] s)
    (hcwd : s.quirks = [] → 0 < (s.itable cwd).ref) :
    Safe Fatal (fun r => Acct I s₀ (r.1.map Prod.fst).toList [] r.2)
      (namex parent path cwd s) := by
  have hstart : Safe Fatal (fun r : Slot × FS => Acct I s₀ [r.1] [] r.2)
      (namexStart path cwd s) := by
    rw [namexStart]
    split_ifs
    · exact iget_acct hI h fun hq => ⟨rfl, hI.root (h.clean hq)⟩
    · exact idup_acct hI h hcwd
  rw [namex]
  exact hstart.bind fun r hr => namexLoop_acct hI parent _ _ _ _ _ hr (Nat.lt_succ_self _)

/-! ## Creating and removing files -/

theorem setParentNlink_acct {type n : UInt16} (h : Acct I s₀ l k s) :
    Safe Fatal (Acct I s₀ l k) (setParentNlink dp type n s) := by
  rw [setParentNlink, setNlink]
  split_ifs
  · exact setAttrs_acct hI h
  · exact h

theorem createLinks_acct {name : List UInt8} {type : UInt16} {junk : ℕ → Dirent}
    (h : Acct I s₀ l k s) (hdp : dp ∈ k) (hip : ip ∈ k) (hkl : k ⊆ l) :
    Safe Fatal (fun r => Acct I s₀ l k r.2) (createLinks dp ip name type junk s) := by
  have hdots : Safe Fatal (fun r : Bool × FS => Acct I s₀ l k r.2)
      (createDots dp ip type junk s) := by
    rw [createDots]
    split_ifs
    · refine (dirlink_acct hI h hip hkl).bind fun r hr => ?_
      dsimp only
      split_ifs
      · exact dirlink_acct hI hr hip hkl
      · exact hr
    · exact h
  rw [createLinks]
  refine hdots.bind fun r hr => ?_
  dsimp only
  split_ifs
  · exact dirlink_acct hI hr hdp hkl
  · exact hr

theorem iunlockput_second (h : Acct I s₀ (dp :: l) [ip, dp] s) :
    Safe Fatal (Acct I s₀ l [ip]) (iunlockput dp s) := by
  have hne : ip ≠ dp := by
    have := h.books.nodup
    simpa using this
  refine (iunlockput_acct hI h (by simp)).mono fun t ht => ?_
  rwa [List.erase_cons_tail (by simpa using hne), List.erase_cons_head] at ht

theorem iunlockput_last (h : Acct I s₀ (ip :: l) (ip :: k) s) :
    Safe Fatal (Acct I s₀ l k) (iunlockput ip s) := by
  refine (iunlockput_acct hI h List.mem_cons_self).mono fun t ht => ?_
  rwa [List.erase_cons_head] at ht

theorem createNew_acct {name : List UInt8} {type major minor : UInt16} {junk : ℕ → Dirent}
    (h : Acct I s₀ [ip, dp] [dp] s) :
    Safe Fatal (fun r => Acct I s₀ r.1.toList r.1.toList r.2)
      (createNew dp ip name type major minor junk s) := by
  rw [createNew]
  refine (ilock_acct hI h).bind fun s₁ h₁ => ?_
  refine (setAttrs_acct hI h₁).bind fun s₂ h₂ => ?_
  refine (createLinks_acct hI h₂ (by simp) (by simp) (List.Subset.refl _)).bind fun r hr => ?_
  dsimp only
  split_ifs
  · refine (setParentNlink_acct hI hr).bind fun s₃ h₃ => ?_
    exact (iunlockput_second hI (h₃.perm (List.Perm.swap _ _ _))).bind fun t ht => ht
  · rw [setNlink]
    refine (setAttrs_acct hI hr).bind fun s₃ h₃ => ?_
    refine (iunlockput_last hI h₃).bind fun s₄ h₄ => ?_
    exact (iunlockput_last hI h₄).bind fun t ht => ht

theorem createAt_acct {name : List UInt8} {type major minor : UInt16} {junk : ℕ → Dirent}
    (h : Acct I s₀ [dp] [] s) :
    Safe Fatal (fun r => Acct I s₀ r.1.toList r.1.toList r.2)
      (createAt dp name type major minor junk s) := by
  rw [createAt]
  refine (ilock_acct hI h).bind fun s₁ h₁ => ?_
  refine (dirlookup_acct hI h₁ (List.mem_singleton_self dp)).bind fun r hr => ?_
  obtain ⟨found, s₂⟩ := r
  cases found with
  | some e =>
    refine (iunlockput_last hI (hr.perm (List.Perm.swap _ _ _))).bind fun s₃ h₃ => ?_
    refine (ilock_acct hI h₃).bind fun s₄ h₄ => ?_
    split_ifs
    · exact h₄
    · exact (iunlockput_last hI h₄).bind fun t ht => ht
  | none =>
    refine (ialloc_acct hI hr fun hq => hr.dev hI (by simp) hq).bind fun r' hr' => ?_
    obtain ⟨new, s₃⟩ := r'
    cases new with
    | none => exact (iunlockput_last hI hr').bind fun t ht => ht
    | some ip => exact createNew_acct hI hr'

/-- **`create` returns a pointer to an inode and its lock, and gives back everything else on each
of its exits.** -/
theorem create_acct {path : List UInt8} {type major minor : UInt16} {cwd : Slot}
    {junk : ℕ → Dirent} (h : Acct I s₀ [] [] s) (hcwd : s.quirks = [] → 0 < (s.itable cwd).ref) :
    Safe Fatal (fun r => Acct I s₀ r.1.toList r.1.toList r.2)
      (create path type major minor cwd junk s) := by
  rw [create, nameiparent]
  refine (namex_acct hI true path cwd h hcwd).bind fun r hr => ?_
  obtain ⟨found, s₁⟩ := r
  cases found with
  | none => exact hr
  | some e => exact createAt_acct hI hr

omit hI in
theorem emptyLoop_reads (fuel off : ℕ) (s : FS) :
    Safe Fatal (fun r => Reads dp s r.2) (emptyLoop dp fuel off s) := by
  induction fuel generalizing off s with
  | zero => exact .refl dp s
  | succ fuel ih =>
    rw [emptyLoop]
    split_ifs
    · refine Safe.bind (readEntry_reads (by simp [Fatal]) off s) fun r hr => ?_
      dsimp only
      split_ifs
      · exact hr
      · exact (ih _ r.2).mono fun r' hr' => hr.trans hr'
    · exact .refl dp s

omit hI in
theorem mayUnlink_reads (s : FS) : Safe Fatal (fun r => Reads ip s r.2) (mayUnlink ip s) := by
  rw [mayUnlink]
  split_ifs
  · exact emptyLoop_reads _ _ s
  · exact .refl ip s

theorem removeEntry_acct {off : ℕ} (h : Acct I s₀ [ip, dp] [ip, dp] s) :
    Safe Fatal (Acct I s₀ [] []) (removeEntry dp ip off s) := by
  rw [removeEntry]
  refine (writei_acct hI h).bind fun r hr => ?_
  dsimp only
  split_ifs
  · simp [Safe, Fatal]
  · refine (setParentNlink_acct hI hr).bind fun s₁ h₁ => ?_
    refine (iunlockput_second hI (h₁.perm (List.Perm.swap _ _ _))).bind fun s₂ h₂ => ?_
    rw [setNlink]
    exact (setAttrs_acct hI h₂).bind fun s₃ h₃ => iunlockput_last hI h₃

theorem unlinkAt_acct {name : List UInt8} (h : Acct I s₀ [dp] [] s) :
    Safe Fatal (fun r => Acct I s₀ [] [] r.2) (unlinkAt dp name s) := by
  rw [unlinkAt]
  refine (ilock_acct hI h).bind fun s₁ h₁ => ?_
  split_ifs
  · exact (iunlockput_last hI h₁).bind fun t ht => ht
  · refine (dirlookup_acct hI h₁ (List.mem_singleton_self dp)).bind fun r hr => ?_
    obtain ⟨found, s₂⟩ := r
    dsimp only at hr ⊢
    cases found with
    | none => exact (iunlockput_last hI hr).bind fun t ht => ht
    | some e =>
      refine (ilock_acct hI hr).bind fun s₃ h₃ => ?_
      split_ifs
      · simp [Safe, Fatal]
      · refine (mayUnlink_reads s₃).bind fun r hread => ?_
        have h₄ := h₃.reads hread.toPeeks
        split_ifs
        · exact (removeEntry_acct hI h₄).bind fun t ht => ht
        · refine (iunlockput_last hI h₄).bind fun s₅ h₅ => ?_
          exact (iunlockput_last hI h₅).bind fun t ht => ht

/-- **`sys_unlink` gives back everything on each of its exits.** -/
theorem sysUnlink_acct {path : List UInt8} {cwd : Slot} (h : Acct I s₀ [] [] s)
    (hcwd : s.quirks = [] → 0 < (s.itable cwd).ref) :
    Safe Fatal (fun r => Acct I s₀ [] [] r.2) (sysUnlink path cwd s) := by
  rw [sysUnlink, nameiparent]
  refine (namex_acct hI true path cwd h hcwd).bind fun r hr => ?_
  obtain ⟨found, s₁⟩ := r
  cases found with
  | none => exact hr
  | some e => exact unlinkAt_acct hI hr

end Paths

/-! ## Consistency is kept -/

/-- A consistent file system that has a record for the root directory and for the inodes that somebody
points to. -/
structure Sound (s : FS) : Prop extends Consistent s where
  root : ROOTINO < s.sb.records
  known : ∀ ip, 0 < (s.itable ip).ref → (s.itable ip).inum < s.sb.records

section Sound

variable {s t : FS} {ip : Slot}

theorem Consistent.setAttrs {a b c : UInt16} (h : Consistent s)
    (hn : Fs.setAttrs ip a b c s = .ok t) : Consistent t := by
  have hheld := (updated_of_iupdate hn).held
  rw [FS.setInode_same, FS.setInode_pid] at hheld
  obtain ⟨hpos, hv⟩ := h.table.locked ip _ hheld
  have htype := (h.table.coherent ip hpos hv).2
  have ho := (h.owned_recs hpos hv).setInode
    (v := { s.itable ip with major := a, minor := b, nlink := c }) rfl rfl rfl
  exact h.finish (v := { s.itable ip with major := a, minor := b, nlink := c }) (.refl ip s) rfl
    htype ho hn

theorem Consistent.itrunc (h : Consistent s) (hlock : (s.itable ip).lock = some s.pid) :
    Safe Fatal (fun u => u.quirks = s.quirks ∧ u.sb = s.sb ∧ Consistent u)
      (Fs.itrunc ip s) := by
  obtain ⟨hpos, hv⟩ := h.table.locked ip _ hlock
  have htype := (h.table.coherent ip hpos hv).2
  have hi := h.table.range ip hpos hv
  refine ((itrunc_owned (h.owned_recs hpos hv) h.table.layout hi htype).and_of_ok
    fun u hu => itrunc_frame hu).mono fun u hu => ?_
  obtain ⟨⟨ho, hq, hsb, -⟩, s₁, hf, hup⟩ := hu
  refine ⟨hq, hsb, h.table.edit hf ?_ ?_ (updated_of_iupdate hup), ho, hsb ▸ h.small⟩
  · rw [hf.self]
  · rw [hf.self]
    exact htype

/-- The slots in use stand for the same inodes as before. -/
theorem Sound.of_slots (h : Sound s) (ht : Consistent t) (hsb : t.sb = s.sb)
    (hslot : ∀ jp, 0 < (t.itable jp).ref → 0 < (s.itable jp).ref ∧ (t.itable jp).inum = (s.itable jp).inum) :
    Sound t := by
  refine ⟨ht, hsb ▸ h.root, fun jp hj => ?_⟩
  obtain ⟨hpos, hinum⟩ := hslot jp hj
  rw [hinum, hsb]
  exact h.known jp hpos

theorem Sound.iget {inum : ℕ} (h : Sound s) (hi : inum < s.sb.records)
    (hn : Fs.iget ROOTDEV inum s = .ok (ip, t)) : Sound t := by
  have hc := (h.toConsistent.iget hn).1
  rcases iget_cases hn with ⟨hpos, -, -, rfl⟩ | ⟨-, -, rfl⟩
  · refine h.of_slots hc rfl fun jp hj => ?_
    by_cases hjp : jp = ip
    · rw [hjp, FS.setInode_same]
      exact ⟨hpos, rfl⟩
    · rw [FS.setInode_of_ne _ _ _ hjp] at hj ⊢
      exact ⟨hj, rfl⟩
  · refine ⟨hc, h.root, fun jp hj => ?_⟩
    by_cases hjp : jp = ip
    · rw [hjp, FS.setInode_same]
      exact hi
    · rw [FS.setInode_of_ne _ _ _ hjp] at hj ⊢
      exact h.known jp hj

theorem Sound.claim {inum : ℕ} (h : Sound s) (hi : inum < s.sb.records) (h0 : (s.dinode inum).type = 0)
    (type : UInt16) : Sound (s.claimInode inum type) :=
  h.of_slots (h.toConsistent.claim hi h0 type) rfl fun _ hj => ⟨hj, rfl⟩

theorem iput_inum (hn : Fs.iput ip s = .ok t) (jp : Slot) : (t.itable jp).inum = (s.itable jp).inum := by
  rcases iput_cases hn with ⟨-, u, hu, rfl⟩ | ⟨-, rfl⟩ <;> by_cases hj : jp = ip
  · rw [hj, FS.setInode_same, hu.inum]
  · rw [FS.setInode_of_ne _ _ _ hj, hu.other jp hj]
  · rw [hj, FS.setInode_same]
  · rw [FS.setInode_of_ne _ _ _ hj]

theorem Sound.dropped (h : Sound s) (hd : Droppable ip s) (ht : Dropped ip s t) (hn : Fs.iput ip s = .ok t) :
    Sound t := by
  refine h.of_slots ht.consistent ht.sb fun jp hj => ⟨?_, iput_inum hn jp⟩
  by_cases hjp : jp = ip
  · exact hjp ▸ hd.1
  · rwa [ht.other jp hjp] at hj

theorem Sound.stays (h : Sound s) (ht : Consistent t) (hst : Stays s t) : Sound t := by
  refine h.of_slots ht hst.sb fun jp hj => ?_
  rw [hst.slot jp] at hj ⊢
  exact ⟨hj, rfl⟩

/-- **Every call on an inode keeps the file system sound.** -/
theorem kept_sound : Kept Sound where
  table h := h.table
  root h := h.root
  ilock {s t ip} h hn := by
    obtain ⟨hsb, hslot⟩ := ilock_same hn
    refine h.of_slots (h.toConsistent.ilock (h.known ip (ilock_cases hn).1) hn) hsb fun jp hj => ?_
    rw [(hslot jp).1] at hj
    exact ⟨hj, (hslot jp).2⟩
  iunlock {s t ip} h hn := by
    have hc := (h.toConsistent.iunlock hn).1
    obtain ⟨-, -, rfl⟩ := iunlock_cases hn
    refine h.of_slots hc rfl fun jp hj => ?_
    obtain ⟨l, hl⟩ := s.setLock_slot ip none jp
    rw [hl] at hj ⊢
    exact ⟨hj, rfl⟩
  idup {s ip} h hpos := by
    refine h.of_slots (h.toConsistent.idup hpos) rfl fun jp hj => ?_
    by_cases hjp : jp = ip
    · subst hjp
      rw [Fs.idup, FS.setInode_same]
      exact ⟨hpos, rfl⟩
    · rw [Fs.idup, FS.setInode_of_ne _ _ _ hjp] at hj ⊢
      exact ⟨hj, rfl⟩
  iget h hi hn := h.iget hi hn
  ialloc h hn := by
    obtain ⟨inum, hi, h0, hg⟩ := ialloc_eq_some hn
    have hi' := hi.trans_le h.table.layout.ninodes_le
    exact (h.claim hi' h0 _).iget hi' hg
  setAttrs {s t ip a b c} h hn := by
    have hup := updated_of_iupdate hn
    refine h.of_slots (h.toConsistent.setAttrs hn) hup.sb fun jp hj => ?_
    rw [hup.itable] at hj ⊢
    by_cases hjp : jp = ip
    · subst hjp
      rw [FS.setInode_same] at hj ⊢
      exact ⟨hj, rfl⟩
    · rw [FS.setInode_of_ne _ _ _ hjp] at hj ⊢
      exact ⟨hj, rfl⟩
  iput {s ip} h hd := by
    refine ((iput_dropped h.toConsistent hd).and_of_ok fun t ht => ht).mono fun t ht hq => ?_
    exact h.dropped hd (ht.1 hq) ht.2
  writei {s ip src off n} h := by
    refine (h.toConsistent.writei.and_of_ok fun r hr =>
      (writei_stays ip src off n s).of_eq_ok hr).mono fun r hr hq => ?_
    exact h.stays (hr.1 hq) hr.2

end Sound

end RiscvOs.Fs
