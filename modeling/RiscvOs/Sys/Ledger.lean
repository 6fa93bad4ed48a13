import RiscvOs.Sys.Calls
import RiscvOs.Fs.Blocks
import RiscvOs.Lib.Counting

set_option autoImplicit false

/-!
# What a system call holds

A pointer to an open file is in a descriptor, or in the hands of the running call. A pointer to an
inode is in an open file, the directory of a process, in the hands of the running call, or in those of
another one. A ledger says for every point of a system call that the counters are the sums of these,
which locks the call has, and whether it is inside a transaction. It is built on the books of the
calls into the file system.

## Main results

* `Holds.rebase` — a pointer changes hands.
* `Ledger.call` — a call into the file system.
* `Ledger.filedup`, `Ledger.fileclose` — open files.
-/

namespace RiscvOs.Sys

open Function Fs Loop

/-! ## Inodes -/

/-- The counter of every inode is `h` plus the pointers `l` of the running call; it has the locks
`q`, and the other locks are `b`. -/
def Holds (h : Slot → ℕ) (b : Slot → Option ℕ) (l q : List Slot) (s : FS) : Prop :=
  ∃ s₀, Acct Sound s₀ l q s ∧ ∀ jp, (s₀.itable jp).ref = h jp ∧ (s₀.itable jp).lock = b jp

section Holds

variable {h h' : Slot → ℕ} {b : Slot → Option ℕ} {l l' q : List Slot} {s : FS}

theorem Holds.ref (hs : Holds h b l q s) (jp : Slot) : (s.itable jp).ref = h jp + l.count jp := by
  obtain ⟨s₀, ha, hb⟩ := hs
  rw [ha.books.ref, (hb jp).1]

theorem Holds.lock (hs : Holds h b l q s) (jp : Slot) :
    (s.itable jp).lock = if jp ∈ q then some s.pid else b jp := by
  obtain ⟨s₀, ha, hb⟩ := hs
  rw [ha.books.lock, ha.books.pid, (hb jp).2]

theorem Holds.post {α : Type} (hs : Holds h b l q s) {f : FS → Except Fs.Panic α} {t : α → FS}
    {l' q' : α → List Slot}
    (hf : ∀ s₀, Acct Sound s₀ l q s → Safe Fatal (fun r => Acct Sound s₀ (l' r) (q' r) (t r)) (f s)) :
    Post (fun r => Holds h b (l' r) (q' r) (t r)) (f s) := by
  obtain ⟨s₀, ha, hb⟩ := hs
  exact (hf s₀ ha).post.mono fun r hr => ⟨s₀, hr, hb⟩

/-- **A pointer changes hands**: the sum of the pointers stays the same. -/
theorem Holds.rebase (hs : Holds h b l q s)
    (hsum : ∀ jp, h jp + l.count jp = h' jp + l'.count jp) (hb' : ∀ jp, b jp ≠ none → 0 < h' jp) :
    Holds h' b l' q s := by
  obtain ⟨s₀, ha, hb⟩ := hs
  refine ⟨{ s₀ with itable := fun jp => { s₀.itable jp with ref := h' jp } }, ⟨?_, ha.clean⟩,
    fun jp => ⟨rfl, (hb jp).2⟩⟩
  refine ⟨ha.books.layout, ha.books.sb, ha.books.pid, ha.books.history, fun jp => ?_, ha.books.lock,
    fun jp hj => ?_, ha.books.free, ha.books.nodup⟩
  · show (s.itable jp).ref = h' jp + l'.count jp
    rw [ha.books.ref, (hb jp).1]
    exact hsum jp
  · exact hb' jp ((hb jp).2 ▸ hj)

theorem Holds.switch (hs : Holds h b l [] s) (pid : ℕ) : Holds h b l [] { s with pid := pid } := by
  obtain ⟨s₀, ha, hb⟩ := hs
  refine ⟨{ s₀ with pid := pid }, ⟨?_, fun hq => ?_⟩, hb⟩
  · exact { ha.books with
      pid := rfl
      lock := fun jp => by simpa using ha.books.lock jp
      free := fun jp hj => absurd hj List.not_mem_nil }
  · exact Blocks.keptOps_sound.switch (ha.clean hq) pid

end Holds

/-! ## The ledger -/

/-- The number of descriptors that point to an open file. -/
def fdRefs (k : Kernel) (f : FileNo) : ℕ :=
  ∑ x : Fin NPROC × Fin NOFILE, if (k.proc x.1).ofile x.2 = some f then 1 else 0

/-- The number of open files that point to an inode. -/
def fileRefs (k : Kernel) (ip : Slot) : ℕ :=
  ∑ f, if (k.file f).type ≠ .none ∧ (k.file f).ip = ip then 1 else 0

/-- The number of processes whose directory an inode is. -/
def cwdRefs (k : Kernel) (ip : Slot) : ℕ := ∑ p, if (k.proc p).cwd = some ip then 1 else 0

/-- What other processes, which may be in the middle of a call, have: pointers to inodes, and locks of
inodes to which they have a pointer. -/
structure Others where
  extra : Slot → ℕ
  lock : Slot → Option ℕ
  held : ∀ jp, lock jp ≠ none → 0 < extra jp

/-- No other process is in the middle of a call. -/
def nobody : Others := ⟨fun _ => 0, fun _ => none, fun _ h => absurd rfl h⟩

/-- What the running call has in its hands: pointers to open files and to inodes, locks, whether it is
inside a transaction, and whether it has called `log_write` outside of one. -/
structure Taken where
  files : List FileNo
  inodes : List Slot
  locks : List Slot
  tx : Bool
  outside : Bool

/-- The pointers to an inode that are not in the hands of the running call. -/
def Kernel.refs (k : Kernel) (o : Others) (ip : Slot) : ℕ :=
  fileRefs k ip + cwdRefs k ip + o.extra ip

/-- A process that is alive has a directory; one that is not has neither a directory nor open files. A
process that is being set up may have anything. -/
structure Proc.Fine (v : Proc) : Prop where
  alive : v.state = .alive → v.cwd ≠ .none
  dead : v.state = .unused ∨ v.state = .zombie → (∀ fd, v.ofile fd = .none) ∧ v.cwd = .none

/-- **The ledger** of a running call: the counters of open files and inodes are the numbers of
pointers to them, an open file is in use exactly if it has a type, and the account of transactions is
in order. -/
structure Ledger (o : Others) (t : Taken) (k : Kernel) : Prop where
  file : ∀ f, (k.file f).ref = fdRefs k f + t.files.count f
  typed : ∀ f, (k.file f).type = .none ∧ (k.file f).ref = 0 ∨
    ((k.file f).type = .inode ∨ (k.file f).type = .device) ∧ 0 < (k.file f).ref
  inode : Holds (k.refs o) o.lock t.inodes t.locks k.fs
  procs : ∀ p, (k.proc p).Fine
  begins : k.account.begins = k.account.ends + t.tx.toNat
  inside : k.account.inside = t.tx
  nested : k.account.nested = false
  outside : k.account.outside = t.outside

section Ledger

variable {o : Others} {fl : List FileNo} {l l' q q' : List Slot} {tx out : Bool} {t : Taken}
  {k k' : Kernel} {f : FileNo} {p : Fin NPROC} {fd : Fin NOFILE}

theorem Ledger.beginOp (h : Ledger o ⟨fl, l, q, false, out⟩ k) :
    Ledger o ⟨fl, l, q, true, out⟩ (beginOp k) where
  file := h.file
  typed := h.typed
  inode := h.inode
  procs := h.procs
  begins := by
    have := h.begins
    simp only [Sys.beginOp, Bool.toNat_true]
    simp only [Bool.toNat_false] at this
    omega
  inside := rfl
  nested := by
    simp only [Sys.beginOp, h.nested, h.inside, Bool.or_false]
  outside := h.outside

theorem Ledger.endOp (h : Ledger o ⟨fl, l, q, true, out⟩ k) :
    Ledger o ⟨fl, l, q, false, out⟩ (endOp k) where
  file := h.file
  typed := h.typed
  inode := h.inode
  procs := h.procs
  begins := by
    have := h.begins
    simp only [Sys.endOp, Bool.toNat_false]
    simp only [Bool.toNat_true] at this
    omega
  inside := rfl
  nested := h.nested
  outside := h.outside

theorem Ledger.enter (h : Ledger o ⟨fl, l, q, true, out⟩ k) {s : FS}
    (hs : Holds (k.refs o) o.lock l' q' s) : Ledger o ⟨fl, l', q', true, out⟩ (k.enter s) where
  file := h.file
  typed := h.typed
  inode := hs
  procs := h.procs
  begins := h.begins
  inside := h.inside
  nested := h.nested
  outside := by
    have := h.inside
    simp only [Kernel.enter, this, Bool.not_true, Bool.false_and, Bool.or_false]
    exact h.outside

theorem Ledger.enterQuiet (h : Ledger o ⟨fl, l, q, tx, out⟩ k) {s : FS}
    (hlog : s.logged = k.fs.logged) (hs : Holds (k.refs o) o.lock l' q' s) :
    Ledger o ⟨fl, l', q', tx, out⟩ (k.enter s) where
  file := h.file
  typed := h.typed
  inode := hs
  procs := h.procs
  begins := h.begins
  inside := h.inside
  nested := h.nested
  outside := by
    simp only [Kernel.enter, hlog, ne_eq, not_true_eq_false, decide_false, Bool.and_false,
      Bool.or_false]
    exact h.outside

theorem Ledger.enterAny (h : Ledger o ⟨fl, l, q, tx, out⟩ k) {s : FS}
    (hs : Holds (k.refs o) o.lock l' q' s) :
    Ledger o ⟨fl, l', q', tx, (k.enter s).account.outside⟩ (k.enter s) where
  file := h.file
  typed := h.typed
  inode := hs
  procs := h.procs
  begins := h.begins
  inside := h.inside
  nested := h.nested
  outside := rfl

/-- **A call into the file system**, described by its books. -/
theorem Ledger.call {α : Type} (h : Ledger o ⟨fl, l, q, true, out⟩ k)
    {f : FS → Except Fs.Panic (α × FS)} (l' q' : α → List Slot)
    (hf : ∀ s₀, Acct Sound s₀ l q k.fs →
      Safe Fatal (fun r => Acct Sound s₀ (l' r.1) (q' r.1) r.2) (f k.fs)) :
    Post (fun r => Ledger o ⟨fl, l' r.1, q' r.1, true, out⟩ r.2) (k.call f) := by
  have hpost := h.inode.post hf
  rintro ⟨a, k'⟩ hr
  obtain ⟨s, hs, rfl⟩ := call_eq_ok hr
  exact h.enter (hpost _ hs)

theorem Ledger.callUnit (h : Ledger o ⟨fl, l, q, true, out⟩ k) {f : FS → Except Fs.Panic FS}
    (hf : ∀ s₀, Acct Sound s₀ l q k.fs → Safe Fatal (Acct Sound s₀ l' q') (f k.fs)) :
    Post (Ledger o ⟨fl, l', q', true, out⟩) (k.callUnit f) := by
  have hpost := h.inode.post hf
  intro k' hr
  obtain ⟨s, hs, -, rfl⟩ := callUnit_eq_ok hr
  exact h.enter (hpost _ hs)

/-! ## Open files and descriptors -/

@[simp] theorem Kernel.setFile_same (k : Kernel) (f : FileNo) (v : File) :
    (k.setFile f v).file f = v := update_self ..

theorem Kernel.setFile_of_ne (k : Kernel) {f g : FileNo} (v : File) (h : g ≠ f) :
    (k.setFile f v).file g = k.file g := update_of_ne h _ _

@[simp] theorem Kernel.setProc_same (k : Kernel) (p : Fin NPROC) (v : Proc) :
    (k.setProc p v).proc p = v := update_self ..

theorem Kernel.setProc_of_ne (k : Kernel) {p p' : Fin NPROC} (v : Proc) (h : p' ≠ p) :
    (k.setProc p v).proc p' = k.proc p' := update_of_ne h _ _

@[simp] theorem Kernel.setFd_cwd (k : Kernel) (p : Fin NPROC) (fd : Fin NOFILE) (v : Option FileNo)
    (p' : Fin NPROC) : ((k.setFd p fd v).proc p').cwd = (k.proc p').cwd := by
  by_cases hp : p' = p
  · subst hp
    simp [Kernel.setFd]
  · rw [Kernel.setFd, Kernel.setProc_of_ne _ _ hp]

theorem fdRefs_setFd (k : Kernel) (p : Fin NPROC) (fd : Fin NOFILE) (v : Option FileNo) (f : FileNo) :
    fdRefs (k.setFd p fd v) f + (if (k.proc p).ofile fd = some f then 1 else 0) =
      fdRefs k f + if v = some f then 1 else 0 := by
  have hother : ∀ x : Fin NPROC × Fin NOFILE, x ≠ (p, fd) →
      ((k.setFd p fd v).proc x.1).ofile x.2 = (k.proc x.1).ofile x.2 := by
    rintro ⟨p', fd'⟩ hne
    by_cases hp : p' = p
    · subst hp
      have hfd : fd' ≠ fd := by
        rintro rfl
        exact hne rfl
      simp [Kernel.setFd, update_of_ne hfd]
    · simp only [Kernel.setFd, Kernel.setProc_of_ne _ _ hp]
  have hself : ((k.setFd p fd v).proc p).ofile fd = v := by
    simp [Kernel.setFd]
  have hsum := Counting.sum_add_of_eq_off
    (f := fun x : Fin NPROC × Fin NOFILE => if (k.proc x.1).ofile x.2 = some f then 1 else 0)
    (g := fun x => if ((k.setFd p fd v).proc x.1).ofile x.2 = some f then 1 else 0) (p, fd)
    fun x hx => by rw [hother x hx]
  unfold fdRefs
  simpa only [hself] using hsum

theorem fileRefs_setFile (k : Kernel) (f : FileNo) (v : File) (ip : Slot) :
    fileRefs (k.setFile f v) ip + (if (k.file f).type ≠ .none ∧ (k.file f).ip = ip then 1 else 0) =
      fileRefs k ip + if v.type ≠ .none ∧ v.ip = ip then 1 else 0 := by
  have hsum := Counting.sum_add_of_eq_off
    (f := fun g => if (k.file g).type ≠ .none ∧ (k.file g).ip = ip then 1 else 0)
    (g := fun g => if ((k.setFile f v).file g).type ≠ .none ∧ ((k.setFile f v).file g).ip = ip
      then 1 else 0) f fun g hg => by rw [Kernel.setFile_of_ne _ _ hg]
  unfold fileRefs
  simpa only [Kernel.setFile_same] using hsum

theorem refs_setFd (k : Kernel) (p : Fin NPROC) (fd : Fin NOFILE) (v : Option FileNo) (o : Others) :
    (k.setFd p fd v).refs o = k.refs o := by
  funext ip
  simp [Kernel.refs, fileRefs, cwdRefs, Kernel.setFd_cwd, show (k.setFd p fd v).file = k.file from rfl]

theorem cwdRefs_setProc (k : Kernel) (p : Fin NPROC) (v : Proc) (ip : Slot) :
    cwdRefs (k.setProc p v) ip + (if (k.proc p).cwd = some ip then 1 else 0) =
      cwdRefs k ip + if v.cwd = some ip then 1 else 0 := by
  have hsum := Counting.sum_add_of_eq_off
    (f := fun p' => if (k.proc p').cwd = some ip then 1 else 0)
    (g := fun p' => if ((k.setProc p v).proc p').cwd = some ip then 1 else 0) p
    fun p' hp => by rw [Kernel.setProc_of_ne _ _ hp]
  unfold cwdRefs
  simpa only [Kernel.setProc_same] using hsum

theorem fdRefs_setProc (k : Kernel) {p : Fin NPROC} {v : Proc} (hv : v.ofile = (k.proc p).ofile)
    (f : FileNo) : fdRefs (k.setProc p v) f = fdRefs k f := by
  unfold fdRefs
  refine Finset.sum_congr rfl fun x _ => ?_
  by_cases hx : x.1 = p
  · rw [hx, Kernel.setProc_same, hv]
  · rw [Kernel.setProc_of_ne _ _ hx]

theorem Ledger.setProc {v : Proc} (h : Ledger o ⟨fl, l, q, tx, out⟩ k)
    (hof : v.ofile = (k.proc p).ofile) (hfine : v.Fine)
    (hsum : ∀ jp, (if (k.proc p).cwd = some jp then 1 else 0) + l.count jp =
      (if v.cwd = some jp then 1 else 0) + l'.count jp) :
    Ledger o ⟨fl, l', q, tx, out⟩ (k.setProc p v) where
  file g := by
    rw [fdRefs_setProc k hof]
    exact h.file g
  typed := h.typed
  inode := by
    refine h.inode.rebase (fun jp => ?_) fun jp hj => ?_
    · have hcwd := cwdRefs_setProc k p v jp
      have := hsum jp
      have hfile : fileRefs (k.setProc p v) jp = fileRefs k jp := rfl
      simp only [Kernel.refs, hfile]
      omega
    · have := o.held jp hj
      simp only [Kernel.refs]
      omega
  procs p' := by
    by_cases hp : p' = p
    · subst hp
      rwa [Kernel.setProc_same]
    · rw [Kernel.setProc_of_ne _ _ hp]
      exact h.procs p'
  begins := h.begins
  inside := h.inside
  nested := h.nested
  outside := h.outside

theorem Proc.Fine.setFd {v : Option FileNo} {p' : Fin NPROC} (h : (k.proc p').Fine)
    (hv : v = none ∨ (k.proc p).state = .alive ∨ (k.proc p).state = .used) :
    ((k.setFd p fd v).proc p').Fine := by
  by_cases hp : p' = p
  · subst hp
    rw [Kernel.setFd, Kernel.setProc_same]
    refine ⟨h.alive, fun hdead => ⟨fun fd' => ?_, (h.dead hdead).2⟩⟩
    by_cases hfd : fd' = fd
    · subst hfd
      simp only [update_self]
      rcases hv with hv | hv | hv
      · exact hv
      · rcases hdead with hd | hd <;> cases hv.symm.trans hd
      · rcases hdead with hd | hd <;> cases hv.symm.trans hd
    · simp only [update_of_ne hfd]
      exact (h.dead hdead).1 fd'
  · rw [Kernel.setFd, Kernel.setProc_of_ne _ _ hp]
    exact h

theorem Ledger.clearFd (h : Ledger o ⟨fl, l, q, tx, out⟩ k) (hfd : (k.proc p).ofile fd = some f) :
    Ledger o ⟨f :: fl, l, q, tx, out⟩ (k.setFd p fd none) where
  file g := by
    have hsum := fdRefs_setFd k p fd none g
    have href := h.file g
    rw [hfd] at hsum
    show (k.file g).ref = fdRefs (k.setFd p fd none) g + (f :: fl).count g
    rw [List.count_cons]
    simp only [Option.some.injEq, beq_iff_eq] at hsum ⊢
    simp only [reduceCtorEq, if_false] at hsum
    simp only at href
    omega
  typed := h.typed
  inode := by
    rw [refs_setFd]
    exact h.inode
  procs p' := (h.procs p').setFd (Or.inl rfl)
  begins := h.begins
  inside := h.inside
  nested := h.nested
  outside := h.outside

theorem Ledger.storeFd (h : Ledger o ⟨f :: fl, l, q, tx, out⟩ k) (hfd : (k.proc p).ofile fd = none)
    (hlive : (k.proc p).state = .alive ∨ (k.proc p).state = .used) :
    Ledger o ⟨fl, l, q, tx, out⟩ (k.setFd p fd (some f)) where
  file g := by
    have hsum := fdRefs_setFd k p fd (some f) g
    have href := h.file g
    rw [hfd] at hsum
    show (k.file g).ref = fdRefs (k.setFd p fd (some f)) g + fl.count g
    simp only [List.count_cons, beq_iff_eq] at href
    simp only [Option.some.injEq, reduceCtorEq, if_false] at hsum
    omega
  typed := h.typed
  inode := by
    rw [refs_setFd]
    exact h.inode
  procs p' := (h.procs p').setFd (Or.inr hlive)
  begins := h.begins
  inside := h.inside
  nested := h.nested
  outside := h.outside

/-- The counter of an open file changes, and nothing else that the ledger is about. -/
theorem Ledger.setRef {fl' : List FileNo} {v : File} (h : Ledger o ⟨fl, l, q, tx, out⟩ k)
    (htype : v.type = (k.file f).type) (hip : v.ip = (k.file f).ip)
    (href : v.ref + fl.count f = (k.file f).ref + fl'.count f)
    (hother : ∀ g, g ≠ f → fl'.count g = fl.count g) (hpos : v.ref = 0 ↔ (k.file f).ref = 0) :
    Ledger o ⟨fl', l, q, tx, out⟩ (k.setFile f v) where
  file g := by
    show ((k.setFile f v).file g).ref = fdRefs k g + fl'.count g
    have hg := h.file g
    simp only at hg
    by_cases hgf : g = f
    · subst hgf
      rw [Kernel.setFile_same]
      omega
    · rw [Kernel.setFile_of_ne _ _ hgf, hother g hgf]
      exact hg
  typed g := by
    by_cases hgf : g = f
    · subst hgf
      have hg := h.typed g
      rw [Kernel.setFile_same, htype, hpos, Nat.pos_iff_ne_zero, Ne, hpos, ← Ne,
        ← Nat.pos_iff_ne_zero]
      exact hg
    · rw [Kernel.setFile_of_ne _ _ hgf]
      exact h.typed g
  inode := by
    have hrefs : (k.setFile f v).refs o = k.refs o := by
      funext ip
      have hsum := fileRefs_setFile k f v ip
      rw [htype, hip] at hsum
      have hcwd : cwdRefs (k.setFile f v) ip = cwdRefs k ip := rfl
      simp only [Kernel.refs, hcwd]
      omega
    rw [hrefs]
    exact h.inode
  procs := h.procs
  begins := h.begins
  inside := h.inside
  nested := h.nested
  outside := h.outside

theorem Ledger.filedup (h : Ledger o ⟨fl, l, q, tx, out⟩ k) :
    Post (Ledger o ⟨f :: fl, l, q, tx, out⟩) (filedup f k) := by
  unfold Sys.filedup
  split_ifs with href
  · exact Post.error _
  · refine Post.ok (h.setRef rfl rfl ?_ (fun g hg => ?_) ?_)
    · simp only [List.count_cons_self]
      omega
    · exact List.count_cons_of_ne (Ne.symm hg)
    · simp only
      omega

/-- The last pointer to an open file is dropped: the pointer to its inode is in the hands of the
call. -/
theorem Ledger.lastFile (h : Ledger o ⟨f :: fl, l, q, tx, out⟩ k) (href : (k.file f).ref = 1) :
    Ledger o ⟨fl, (k.file f).ip :: l, q, tx, out⟩
      (k.setFile f { k.file f with ref := 0, type := .none }) where
  file g := by
    have hg := h.file g
    show ((k.setFile f _).file g).ref = fdRefs k g + fl.count g
    simp only [List.count_cons, beq_iff_eq] at hg
    by_cases hgf : g = f
    · subst hgf
      rw [if_pos rfl] at hg
      rw [Kernel.setFile_same]
      show 0 = _
      omega
    · rw [if_neg (Ne.symm hgf)] at hg
      rw [Kernel.setFile_of_ne _ _ hgf]
      exact hg
  typed g := by
    by_cases hgf : g = f
    · subst hgf
      rw [Kernel.setFile_same]
      exact Or.inl ⟨rfl, rfl⟩
    · rw [Kernel.setFile_of_ne _ _ hgf]
      exact h.typed g
  inode := by
    have htype : (k.file f).type ≠ .none := by
      rcases h.typed f with ⟨-, h0⟩ | ⟨ht, -⟩
      · omega
      · rcases ht with ht | ht <;>
        · rw [ht]
          decide
    refine h.inode.rebase (fun jp => ?_) fun jp hj => ?_
    · have hsum := fileRefs_setFile k f { k.file f with ref := 0, type := .none } jp
      have hcwd : cwdRefs (k.setFile f { k.file f with ref := 0, type := .none }) jp =
          cwdRefs k jp := rfl
      simp only [ne_eq, not_true_eq_false, false_and, if_false, htype, not_false_eq_true,
        true_and] at hsum
      simp only [Kernel.refs, hcwd, List.count_cons, beq_iff_eq]
      omega
    · have := o.held jp hj
      simp only [Kernel.refs]
      omega
  procs := h.procs
  begins := h.begins
  inside := h.inside
  nested := h.nested
  outside := h.outside

/-- **`fileclose` gives back a pointer** to an open file, and the pointer to the inode with the last
one. -/
theorem Ledger.fileclose (h : Ledger o ⟨f :: fl, l, [], false, out⟩ k) :
    Post (Ledger o ⟨fl, l, [], false, out⟩) (fileclose f k) := by
  unfold Sys.fileclose
  split_ifs with h1 h2
  · exact Post.error _
  · refine Post.ok (h.setRef rfl rfl ?_ (fun g hg => ?_) ?_)
    · simp only [List.count_cons_self]
      omega
    · exact (List.count_cons_of_ne (Ne.symm hg)).symm
    · simp only
      omega
  · -- an open file that is in use has a type
    have htype : (k.file f).type = .inode ∨ (k.file f).type = .device := by
      rcases h.typed f with ⟨-, h0⟩ | ⟨ht, -⟩
      · omega
      · exact ht
    have hlast := (h.lastFile (by omega)).beginOp
    rw [if_pos htype]
    refine (hlast.callUnit fun s₀ ha => iput_acct kept_sound ha ?_).bind fun k' hk' => ?_
    · exact fun hmem => absurd hmem List.not_mem_nil
    · exact Post.ok hk'.endOp

end Ledger

end RiscvOs.Sys
