import RiscvOs.Sys.Ledger
import RiscvOs.Sys.Exec

set_option autoImplicit false

/-!
# Every system call settles its ledger

Whatever a system call takes, it has given back or stored when it returns, on each of its exits. The
rules for the calls into the file system and for open files are put together here along the code of
the system calls.

## Main results

* `sysOpen_settles`, `sysDup_settles`, `sysClose_settles`,
  `sysMknod_settles`, `sysUnlink_settles`, `sysWrite_settles` —
  the system calls on files.
* `forkFiles_settles`, `kexit_settles`, `sysExec_settles` — the
  system calls on processes.
-/

namespace RiscvOs.Sys

open Function Fs Loop

/-- What a call has in its hands when it starts and when it returns: nothing. -/
abbrev Settled (o : Others) (out : Bool) (k : Kernel) : Prop := Ledger o ⟨[], [], [], false, out⟩ k

section Settle

variable {o : Others} {out : Bool} {t : Taken} {k k' : Kernel} {p : Fin NPROC} {f : FileNo} {ip : Slot}

theorem Ledger.dir_pos (h : Ledger o t k) (hp : (k.proc p).state = .alive) :
    0 < (k.fs.itable (k.dir p)).ref := by
  obtain ⟨d, hd⟩ := Option.ne_none_iff_exists'.mp ((h.procs p).alive hp)
  have hdir : k.dir p = d := by
    rw [Kernel.dir, hd, Option.getD_some]
  have hcwd := Counting.le_sum (fun p' => if (k.proc p').cwd = some d then 1 else 0) p
  rw [if_pos hd] at hcwd
  rw [h.inode.ref, hdir, Kernel.refs, cwdRefs]
  omega

/-! ## Descriptors -/

theorem argfd_eq_some {fd : ℤ} {fd' : Fin NOFILE} (h : argfd p fd k = some (fd', f)) :
    (k.proc p).ofile fd' = some f := by
  unfold argfd at h
  split_ifs at h with hfd
  obtain ⟨g, hg, heq⟩ := Option.map_eq_some_iff.mp h
  cases heq
  exact hg

theorem fdalloc_cases (p : Fin NPROC) (f : FileNo) (k : Kernel) :
    (∃ fd, (k.proc p).ofile fd = none ∧ fdalloc p f k = (some fd, k.setFd p fd (some f))) ∨
      fdalloc p f k = (none, k) := by
  unfold fdalloc
  split
  · rename_i fd hfind
    refine Or.inl ⟨fd, ?_, rfl⟩
    simpa using List.find?_some hfind
  · exact Or.inr rfl

theorem filealloc_cases (k : Kernel) :
    (∃ f, (k.file f).ref = 0 ∧ filealloc k = (some f, k.setFile f { k.file f with ref := 1 })) ∨
      filealloc k = (none, k) := by
  unfold filealloc
  split
  · rename_i f hfind
    refine Or.inl ⟨f, ?_, rfl⟩
    simpa using List.find?_some hfind
  · exact Or.inr rfl

theorem filedup_eq_ok (h : filedup f k = .ok k') :
    k' = k.setFile f { k.file f with ref := (k.file f).ref + 1 } := by
  unfold filedup at h
  split_ifs at h
  cases h
  rfl

theorem Settled.dupFd {fd : Fin NOFILE} (h : Settled o out k) (hfd : (k.proc p).ofile fd = none)
    (hlive : (k.proc p).state = .alive ∨ (k.proc p).state = .used) (hdup : filedup f k = .ok k') :
    Settled o out (k'.setFd p fd (some f)) := by
  have hled := h.filedup k' hdup
  have hproc : k'.proc = k.proc := by
    rw [filedup_eq_ok hdup]
    rfl
  apply hled.storeFd
  · rw [hproc]
    exact hfd
  · rw [hproc]
    exact hlive

theorem sysDup_settles {fd : ℤ} (h : Settled o out k) (hp : (k.proc p).state = .alive) :
    Post (fun r => Settled o out r.2) (sysDup p fd k) := by
  unfold sysDup
  cases hfd : argfd p fd k with
  | none => exact Post.ok h
  | some x =>
    obtain ⟨fd', f⟩ := x
    rcases fdalloc_cases p f k with ⟨fd₁, hnone, heq⟩ | heq
    · simp only [heq]
      intro r hr
      obtain ⟨k₁, hk₁, hr⟩ := bind_eq_ok.mp hr
      cases hr
      -- the descriptor is set first, and the counter next
      unfold filedup at hk₁
      split_ifs at hk₁ with href
      cases hk₁
      exact h.dupFd hnone (Or.inl hp) (if_neg href)
    · simp only [heq]
      exact Post.ok h

theorem sysClose_settles {fd : ℤ} (h : Settled o out k) :
    Post (fun r => Settled o out r.2) (sysClose p fd k) := by
  unfold sysClose
  cases hfd : argfd p fd k with
  | none => exact Post.ok h
  | some x =>
    have hclear := h.clearFd (argfd_eq_some hfd)
    exact hclear.fileclose.bind fun k' hk' => Post.ok hk'

/-! ## Paths -/

theorem Ledger.release (h : Ledger o ⟨[], [ip], [ip], true, out⟩ k) :
    Post (fun k => Settled o out (Sys.endOp k)) (k.callUnit (iunlockput ip)) := by
  refine (h.callUnit fun s₀ ha => iunlockput_last kept_sound ha).mono fun k' hk' => ?_
  exact hk'.endOp

theorem sysMknod_settles {path : Option (List UInt8)} {major minor : UInt16} {junk : ℕ → Dirent}
    (h : Settled o out k) (hp : (k.proc p).state = .alive) :
    Post (fun r => Settled o out r.2) (sysMknod p path major minor junk k) := by
  unfold sysMknod
  cases path with
  | none => exact Post.ok h.beginOp.endOp
  | some path =>
    have hcreate : Post (fun r => Ledger o ⟨[], r.1.toList, r.1.toList, true, out⟩ r.2)
        ((beginOp k).call (create path T_DEVICE major minor (k.dir p) junk)) :=
      h.beginOp.call _ _ fun s₀ ha => create_acct kept_sound ha fun _ => h.dir_pos hp
    refine hcreate.bind fun r hr => ?_
    obtain ⟨found, k₁⟩ := r
    cases found with
    | none => exact Post.ok hr.endOp
    | some ip => exact hr.release.bind fun k₂ hk₂ => Post.ok hk₂

theorem sysUnlink_settles {path : Option (List UInt8)} (h : Settled o out k)
    (hp : (k.proc p).state = .alive) : Post (fun r => Settled o out r.2) (sysUnlink p path k) := by
  unfold sysUnlink
  cases path with
  | none => exact Post.ok h
  | some path =>
    have hunlink : Post (fun r => Ledger o ⟨[], [], [], true, out⟩ r.2)
        ((beginOp k).call (Fs.sysUnlink path (k.dir p))) :=
      h.beginOp.call (fun _ => []) (fun _ => []) fun s₀ ha =>
        sysUnlink_acct kept_sound ha fun _ => h.dir_pos hp
    exact hunlink.bind fun r hr => Post.ok hr.endOp

theorem call_frame {α : Type} {g : FS → Except Fs.Panic (α × FS)} {a : α}
    (h : k.call g = .ok (a, k')) : k'.file = k.file ∧ k'.proc = k.proc := by
  obtain ⟨s, -, rfl⟩ := call_eq_ok h
  exact ⟨rfl, rfl⟩

theorem callUnit_frame {g : FS → Except Fs.Panic FS} (h : k.callUnit g = .ok k') :
    k'.file = k.file ∧ k'.proc = k.proc := by
  obtain ⟨s, -, -, rfl⟩ := callUnit_eq_ok h
  exact ⟨rfl, rfl⟩

theorem Ledger.namei {path : List UInt8} {cwd : Slot} (h : Ledger o ⟨[], [], [], true, out⟩ k)
    (hcwd : 0 < (k.fs.itable cwd).ref) :
    Post (fun r => Ledger o ⟨[], r.1.toList, [], true, out⟩ r.2) (k.call (Fs.namei path cwd)) := by
  refine h.call Option.toList (fun _ => []) fun s₀ ha => ?_
  unfold Fs.namei
  refine (namex_acct kept_sound false path cwd ha fun _ => hcwd).bind fun r hr => ?_
  exact hr

theorem openInode_settles {path : List UInt8} {omode : UInt32} {cwd : Slot} {junk : ℕ → Dirent}
    (h : Ledger o ⟨[], [], [], true, out⟩ k) (hcwd : 0 < (k.fs.itable cwd).ref) :
    Post (fun r => Ledger o ⟨[], r.1.toList, r.1.toList, true, out⟩ r.2 ∧ r.2.proc = k.proc)
      (openInode path omode cwd junk k) := by
  unfold openInode
  split_ifs
  · have hcreate : Post (fun r => Ledger o ⟨[], r.1.toList, r.1.toList, true, out⟩ r.2)
        (k.call (create path T_FILE 0 0 cwd junk)) :=
      h.call _ _ fun s₀ ha => create_acct kept_sound ha fun _ => hcwd
    exact fun r hr => ⟨hcreate r hr, (call_frame hr).2⟩
  · intro r hr
    obtain ⟨⟨found, k₁⟩, hk₁, hr⟩ := bind_eq_ok.mp hr
    have h₁ := h.namei hcwd _ hk₁
    have hproc₁ := (call_frame hk₁).2
    cases found with
    | none =>
      cases hr
      exact ⟨h₁, hproc₁⟩
    | some ip =>
      obtain ⟨k₂, hk₂, hr⟩ := bind_eq_ok.mp hr
      have h₂ := h₁.callUnit (fun s₀ ha => ilock_acct kept_sound ha) k₂ hk₂
      have hproc₂ := (callUnit_frame hk₂).2.trans hproc₁
      split_ifs at hr
      · obtain ⟨k₃, hk₃, hr⟩ := bind_eq_ok.mp hr
        cases hr
        have h₃ := h₂.callUnit (fun s₀ ha => iunlockput_last kept_sound ha) k₃ hk₃
        exact ⟨h₃, (callUnit_frame hk₃).2.trans hproc₂⟩
      · cases hr
        exact ⟨h₂, hproc₂⟩

theorem fileclose_fresh (h : Ledger o t k) (href : (k.file f).ref = 0) :
    fileclose f (k.setFile f { k.file f with ref := 1 }) = .ok k := by
  have htype : (k.file f).type = .none := by
    rcases h.typed f with ⟨ht, -⟩ | ⟨-, hpos⟩
    · exact ht
    · omega
  have hsame : (k.setFile f { k.file f with ref := 1 }).setFile f
      { k.file f with ref := 0, type := .none } = k := by
    have hv : ({ k.file f with ref := 0, type := .none } : File) = k.file f := by
      rw [← href, ← htype]
    rw [hv]
    simp [Kernel.setFile]
  unfold fileclose
  simpa [htype] using hsame

/-- **An inode is opened**: the pointer to it goes to the new open file, and the pointer to the open
file to a descriptor. -/
theorem Ledger.opened {fd : Fin NOFILE} {v : File} (h : Ledger o ⟨[], [ip], [ip], true, out⟩ k)
    (href : (k.file f).ref = 0) (hfd : (k.proc p).ofile fd = none) (hp : (k.proc p).state = .alive)
    (hv : v.ref = 1) (hip : v.ip = ip) (htype : v.type = .inode ∨ v.type = .device) :
    Ledger o ⟨[], [], [ip], true, out⟩ ((k.setFile f v).setFd p fd (some f)) := by
  have htypeF : (k.file f).type = .none := by
    rcases h.typed f with ⟨ht, -⟩ | ⟨-, hpos⟩
    · exact ht
    · omega
  have htypeV : v.type ≠ .none := by
    rcases htype with ht | ht <;>
    · rw [ht]
      decide
  have hopen : Ledger o ⟨[f], [], [ip], true, out⟩ (k.setFile f v) := by
    refine { h with file := fun g => ?_, typed := fun g => ?_, inode := ?_ }
    · have hg := h.file g
      show ((k.setFile f v).file g).ref = fdRefs k g + [f].count g
      by_cases hgf : g = f
      · subst hgf
        simp only [href, List.count_nil, Nat.add_zero] at hg
        rw [Kernel.setFile_same, hv, List.count_singleton_self, ← hg]
      · rw [Kernel.setFile_of_ne _ _ hgf, List.count_singleton, if_neg (by simpa using Ne.symm hgf)]
        exact hg
    · by_cases hgf : g = f
      · subst hgf
        rw [Kernel.setFile_same]
        exact Or.inr ⟨htype, by omega⟩
      · rw [Kernel.setFile_of_ne _ _ hgf]
        exact h.typed g
    · refine h.inode.rebase (fun jp => ?_) fun jp hj => ?_
      · have hsum := fileRefs_setFile k f v jp
        have hcwd : cwdRefs (k.setFile f v) jp = cwdRefs k jp := rfl
        simp only [htypeF, htypeV, hip, ne_eq, not_true_eq_false, false_and, if_false,
          not_false_eq_true, true_and] at hsum
        simp only [Kernel.refs, hcwd, List.count_cons, List.count_nil, beq_iff_eq]
        omega
      · have := o.held jp hj
        simp only [Kernel.refs]
        omega
  exact hopen.storeFd hfd (Or.inl hp)

theorem openFail_settles (h : Ledger o ⟨[], [ip], [ip], true, out⟩ k) :
    Post (fun r => Settled o out r.2) (openFail ip k) :=
  h.release.bind fun _ hk => Post.ok hk

theorem openedFile_spec (v : File) (ip : Slot) (w : Inode) (omode : UInt32) :
    (openedFile v ip w omode).ref = v.ref ∧ (openedFile v ip w omode).ip = ip ∧
      ((openedFile v ip w omode).type = .inode ∨ (openedFile v ip w omode).type = .device) := by
  unfold openedFile
  split_ifs
  · exact ⟨rfl, rfl, Or.inr rfl⟩
  · exact ⟨rfl, rfl, Or.inl rfl⟩

theorem Ledger.openTrunc {omode : UInt32} (h : Ledger o ⟨[], [], [ip], true, out⟩ k) :
    Post (Ledger o ⟨[], [], [ip], true, out⟩) (k.callUnit (openTrunc ip omode)) := by
  refine h.callUnit fun s₀ ha => ?_
  unfold Sys.openTrunc
  split_ifs
  · exact Blocks.keptOps_sound.itrunc_acct ha List.mem_cons_self
  · exact ha

theorem openFile_settles {omode : UInt32} (h : Ledger o ⟨[], [ip], [ip], true, out⟩ k)
    (hp : (k.proc p).state = .alive) :
    Post (fun r => Settled o out r.2) (openFile p ip omode k) := by
  unfold openFile
  split_ifs
  · exact openFail_settles h
  rcases filealloc_cases k with ⟨f, href, hf⟩ | hf
  · simp only [hf]
    rcases fdalloc_cases p f (k.setFile f { k.file f with ref := 1 }) with ⟨fd, hfd, heq⟩ | heq
    · simp only [heq]
      have hset : ∀ v, ((k.setFile f { k.file f with ref := 1 }).setFd p fd (some f)).setFile f v =
          (k.setFile f v).setFd p fd (some f) := by
        intro v
        simp [Kernel.setFile, Kernel.setFd, Kernel.setProc]
      rw [hset]
      obtain ⟨hv, hip, htype⟩ := openedFile_spec { k.file f with ref := 1 } ip (k.fs.itable ip) omode
      have hopen := h.opened href hfd hp (hv.trans rfl) hip htype
      have hfile : ((k.setFile f { k.file f with ref := 1 }).setFd p fd (some f)).file f =
          { k.file f with ref := 1 } := k.setFile_same f _
      rw [hfile]
      refine hopen.openTrunc.bind fun k₁ h₁ => ?_
      refine (h₁.callUnit fun s₀ ha => iunlock_acct kept_sound ha List.mem_cons_self).bind
        fun k₂ h₂ => ?_
      rw [List.erase_cons_head] at h₂
      exact Post.ok h₂.endOp
    · simp only [heq, fileclose_fresh h href]
      exact openFail_settles h
  · simp only [hf]
    exact openFail_settles h

theorem sysOpen_settles {path : Option (List UInt8)} {omode : UInt32} {junk : ℕ → Dirent}
    (h : Settled o out k) (hp : (k.proc p).state = .alive) :
    Post (fun r => Settled o out r.2) (sysOpen p path omode junk k) := by
  unfold sysOpen
  cases path with
  | none => exact Post.ok h
  | some path =>
    refine (openInode_settles h.beginOp (h.dir_pos hp)).bind fun r hr => ?_
    obtain ⟨found, k₁⟩ := r
    obtain ⟨h₁, hproc⟩ := hr
    cases found with
    | none => exact Post.ok h₁.endOp
    | some ip =>
      apply openFile_settles h₁
      rw [hproc]
      exact hp

/-! ## Writing -/

theorem writeInode_acct {src : Source} {n1 : ℕ} {v : File} {s₀ s : FS} {l : List Slot}
    (h : Acct Fs.Sound s₀ l [] s) :
    Safe Fatal (fun r => Acct Fs.Sound s₀ l [] r.2) (writeInode src n1 v s) := by
  unfold writeInode
  refine (ilock_acct kept_sound h).bind fun s₁ h₁ => ?_
  refine Safe.bind (writei_acct kept_sound h₁) fun r hr => ?_
  dsimp only
  rw [File.advance_ip]
  refine (iunlock_acct kept_sound hr List.mem_cons_self).bind fun s₃ h₃ => ?_
  rw [List.erase_cons_head] at h₃
  exact h₃

theorem writeInode_file {src : Source} {n1 : ℕ} {v w : File} {s s' : FS} {r : Option ℕ}
    (h : writeInode src n1 v s = .ok ((r, w), s')) : w = v.advance r := by
  unfold writeInode at h
  obtain ⟨s₁, -, h⟩ := bind_eq_ok.mp h
  obtain ⟨⟨r', s₂⟩, -, h⟩ := bind_eq_ok.mp h
  obtain ⟨s₃, -, h⟩ := bind_eq_ok.mp h
  cases h
  rfl

theorem Ledger.advance (h : Ledger o t k) (r : Option ℕ) :
    Ledger o t (k.setFile f ((k.file f).advance r)) := by
  have hv : ((k.file f).advance r).type = (k.file f).type ∧ ((k.file f).advance r).ref =
      (k.file f).ref := by
    unfold File.advance
    split
    · split_ifs <;> exact ⟨rfl, rfl⟩
    · exact ⟨rfl, rfl⟩
  refine h.setRef hv.1 (File.advance_ip _ r) ?_ (fun _ _ => rfl) ?_
  · rw [hv.2]
  · rw [hv.2]

theorem writeRound_settles {src : Source} {n1 : ℕ} (h : Settled o out k) :
    Post (fun r => Settled o out r.2) (writeRound f src n1 k) := by
  unfold writeRound
  intro r hr
  obtain ⟨⟨⟨m, v⟩, k₁⟩, hk₁, hr⟩ := bind_eq_ok.mp hr
  cases hr
  have h₁ : Ledger o ⟨[], [], [], true, out⟩ k₁ :=
    h.beginOp.call (fun _ => []) (fun _ => []) (fun s₀ ha => writeInode_acct ha) _ hk₁
  have hv : v = (k₁.file f).advance m := by
    obtain ⟨s, hs, rfl⟩ := call_eq_ok hk₁
    exact writeInode_file hs
  rw [hv]
  exact (h₁.advance m).endOp

theorem writeRounds_settles {src : Source} {n fuel i : ℕ} (h : Settled o out k) :
    Post (fun r => Settled o out r.2) (writeRounds f src n fuel i k) := by
  induction fuel generalizing i k with
  | zero => exact Post.ok h
  | succ fuel ih =>
    unfold writeRounds
    split_ifs
    · refine (writeRound_settles h).bind fun r hr => ?_
      obtain ⟨m, k₁⟩ := r
      dsimp only
      split_ifs
      · exact Post.ok hr
      · exact ih hr
    · exact Post.ok h

theorem sysWrite_settles {devsw : DevSw} {fd n : ℤ} {null : Bool} {src : Source}
    (h : Settled o out k) : Post (fun r => Settled o out r.2) (sysWrite devsw p fd null src n k) := by
  unfold sysWrite
  cases argfd p fd k with
  | none => exact Post.ok h
  | some x =>
    dsimp only
    split_ifs
    · exact Post.ok h
    unfold filewrite
    split_ifs
    · exact Post.ok h
    split
    · exact Post.ok h
    · split <;> exact Post.ok h
    · exact (writeRounds_settles h).bind fun r hr => Post.ok hr
    · exact Post.error _

/-! ## Reading -/

theorem readInode_acct {dst : Dest} {n : ℤ} {v : File} {s₀ s : FS} {l : List Slot}
    (h : Acct Fs.Sound s₀ l [] s) :
    Safe Fatal (fun r => Acct Fs.Sound s₀ l [] r.2) (readInode dst n v s) := by
  unfold readInode
  refine (ilock_acct kept_sound h).bind fun s₁ h₁ => ?_
  refine Safe.bind (readi_reads _ s₁) fun r hr => ?_
  have h₂ := h₁.reads hr.toPeeks
  dsimp only
  rw [File.advance_ip]
  refine (iunlock_acct kept_sound h₂ List.mem_cons_self).bind fun s₃ h₃ => ?_
  rw [List.erase_cons_head] at h₃
  exact h₃

theorem readInode_file {dst : Dest} {n : ℤ} {v w : File} {s s' : FS} {r : Option ℕ}
    {bytes : List UInt8} (h : readInode dst n v s = .ok ((r, bytes, w), s')) : w = v.advance r := by
  unfold readInode at h
  obtain ⟨s₁, -, h⟩ := bind_eq_ok.mp h
  obtain ⟨⟨⟨r', bytes'⟩, s₂⟩, -, h⟩ := bind_eq_ok.mp h
  obtain ⟨s₃, -, h⟩ := bind_eq_ok.mp h
  cases h
  rfl

theorem fileread_settles {devsw : DevSw} {dst : Dest} {n : ℤ} (h : Settled o out k) :
    Post (fun r => Settled o r.2.account.outside r.2) (fileread devsw f dst n k) := by
  have hself : Settled o k.account.outside k := by
    rw [h.outside]
    exact h
  unfold fileread
  split_ifs
  · exact Post.ok hself
  split
  · exact Post.ok hself
  · split <;> exact Post.ok hself
  · intro r hr
    obtain ⟨⟨⟨m, bytes, v⟩, k₁⟩, hk₁, hr⟩ := bind_eq_ok.mp hr
    cases hr
    obtain ⟨s, hs, rfl⟩ := call_eq_ok hk₁
    rw [readInode_file hs]
    have hread : Holds (k.refs o) o.lock [] [] s :=
      h.inode.post (fun s₀ ha => readInode_acct ha) _ hs
    exact (h.enterAny hread).advance m
  · exact Post.error _

theorem sysRead_settles {devsw : DevSw} {fd n : ℤ} {dst : Dest} (h : Settled o out k) :
    Post (fun r => Settled o r.2.account.outside r.2) (sysRead devsw p fd dst n k) := by
  unfold sysRead
  cases argfd p fd k with
  | none => exact Post.error _
  | some x => exact fileread_settles h

/-! ## Processes -/

theorem forkFd_settles {np : Fin NPROC} {fd : Fin NOFILE} (h : Settled o out k)
    (hnp : (k.proc np).state = .used) (hfd : (k.proc np).ofile fd = none) :
    Post (fun k' => Settled o out k' ∧
      (∃ v, k'.proc = (k.setFd np fd v).proc)) (forkFd p np k fd) := by
  unfold forkFd
  cases hof : (k.proc p).ofile fd with
  | none =>
    refine Post.ok ⟨h, none, ?_⟩
    funext p'
    by_cases hp : p' = np
    · subst hp
      simp [Kernel.setFd, ← hfd]
    · rw [Kernel.setFd, Kernel.setProc_of_ne _ _ hp]
  | some f =>
    intro r hr
    obtain ⟨k₁, hk₁, hr⟩ := bind_eq_ok.mp hr
    cases hr
    refine ⟨h.dupFd hfd (Or.inr hnp) hk₁, some f, ?_⟩
    rw [filedup_eq_ok hk₁]
    rfl

theorem forkFiles_settles {np : Fin NPROC} (h : Settled o out k) (hp : (k.proc p).state = .alive)
    (hnp : (k.proc np).state = .unused) : Post (Settled o out) (forkFiles p np k) := by
  have hne : p ≠ np := by
    rintro rfl
    cases hp.symm.trans hnp
  obtain ⟨hofile, hcwd⟩ := (h.procs np).dead (Or.inl hnp)
  -- the new process is being set up; it has copies of the descriptors before the rest `l`
  let I (l : List (Fin NOFILE)) (k₁ : Kernel) : Prop := Settled o out k₁ ∧ l.Nodup ∧
    k₁.proc p = k.proc p ∧ (k₁.proc np).state = .used ∧ (k₁.proc np).cwd = none ∧
    ∀ fd ∈ l, (k₁.proc np).ofile fd = none
  have hstart : I (List.finRange NOFILE) (k.setProc np { k.proc np with state := .used }) := by
    refine ⟨h.setProc rfl ⟨fun hs => ?_, fun hs => ?_⟩ fun _ => rfl, List.nodup_finRange _, ?_, ?_, ?_,
      fun fd _ => ?_⟩
    · cases hs
    · rcases hs with hs | hs <;> cases hs
    · exact k.setProc_of_ne _ hne
    · rw [Kernel.setProc_same]
    · rw [Kernel.setProc_same]
      exact hcwd
    · rw [Kernel.setProc_same]
      exact hofile fd
  unfold forkFiles
  refine (Post.foldlM I (fun fd l k₁ h₁ => ?_) hstart).bind fun k₁ h₁ => ?_
  · obtain ⟨hled, hnodup, hproc, hstate, hcwd₁, hof⟩ := h₁
    refine (forkFd_settles hled hstate (hof fd List.mem_cons_self)).mono fun k₂ h₂ => ?_
    obtain ⟨hled₂, v, hv⟩ := h₂
    have hnp₂ : k₂.proc np = { k₁.proc np with ofile := update (k₁.proc np).ofile fd v } := by
      rw [hv, Kernel.setFd, Kernel.setProc_same]
    refine ⟨hled₂, (List.nodup_cons.mp hnodup).2, ?_, ?_, ?_, fun fd' hfd' => ?_⟩
    · rw [hv, Kernel.setFd, Kernel.setProc_of_ne _ _ hne]
      exact hproc
    · rw [hnp₂]
      exact hstate
    · rw [hnp₂]
      exact hcwd₁
    · rw [hnp₂]
      have hne' : fd' ≠ fd := by
        rintro rfl
        exact (List.nodup_cons.mp hnodup).1 hfd'
      show update (k₁.proc np).ofile fd v fd' = none
      rw [update_of_ne hne']
      exact hof fd' (List.mem_cons_of_mem _ hfd')
  · obtain ⟨hled, -, hproc, hstate, hcwd₁, -⟩ := h₁
    have hdup : Ledger o ⟨[], [k₁.dir p], [], false, out⟩ (k₁.enter (idup (k₁.dir p) k₁.fs)) := by
      refine hled.enterQuiet rfl ?_
      obtain ⟨s₀, ha, hb⟩ := hled.inode
      exact ⟨s₀, idup_acct kept_sound ha fun _ => hled.dir_pos (hproc ▸ hp), hb⟩
    refine Post.ok (hdup.setProc rfl ⟨fun _ => Option.some_ne_none _, fun hs => ?_⟩ fun jp => ?_)
    · rcases hs with hs | hs <;> cases hs
    · have hcwd₂ : ((k₁.enter (idup (k₁.dir p) k₁.fs)).proc np).cwd = none := hcwd₁
      simp [hcwd₂, List.count_singleton]
      rfl

theorem callUnit_setProc {g : FS → Except Fs.Panic FS} {v : Proc} (h : k.callUnit g = .ok k') :
    (k.setProc p v).callUnit g = .ok (k'.setProc p v) := by
  obtain ⟨s, hs, hmay, rfl⟩ := callUnit_eq_ok h
  unfold Kernel.callUnit
  rw [show (k.setProc p v).fs = k.fs from rfl, hs]
  exact if_pos hmay

theorem fileclose_setProc {v : Proc} (h : fileclose f k = .ok k') :
    fileclose f (k.setProc p v) = .ok (k'.setProc p v) ∧ k'.proc = k.proc := by
  unfold fileclose at h ⊢
  rw [show (k.setProc p v).file f = k.file f from rfl]
  split_ifs at h ⊢
  · cases h
    exact ⟨rfl, rfl⟩
  · dsimp only at h ⊢
    split_ifs at h ⊢
    · obtain ⟨k₁, hk₁, h⟩ := bind_eq_ok.mp h
      cases h
      refine ⟨bind_eq_ok.mpr ⟨_, callUnit_setProc hk₁, rfl⟩, (callUnit_frame hk₁).2⟩
    · cases h
      exact ⟨rfl, rfl⟩

theorem exitFd_settles {fd : Fin NOFILE} (h : Settled o out k) :
    Post (fun k' => Settled o out k' ∧ k'.proc = (k.setFd p fd none).proc) (exitFd p k fd) := by
  unfold exitFd
  cases hof : (k.proc p).ofile fd with
  | none =>
    refine Post.ok ⟨h, ?_⟩
    funext p'
    by_cases hp : p' = p
    · subst hp
      simp [Kernel.setFd, ← hof]
    · rw [Kernel.setFd, Kernel.setProc_of_ne _ _ hp]
  | some f =>
    intro r hr
    obtain ⟨k₁, hk₁, hr⟩ := bind_eq_ok.mp hr
    cases hr
    have hproc : k₁.proc = k.proc :=
      (fileclose_setProc (p := p) (v := k.proc p) hk₁).2
    have hsame : k₁.setFd p fd none = k₁.setProc p
        { k.proc p with ofile := update (k.proc p).ofile fd none } := by
      rw [Kernel.setFd, hproc]
    refine ⟨?_, ?_⟩
    · rw [hsame]
      exact (h.clearFd hof).fileclose _ (fileclose_setProc hk₁).1
    · rw [Kernel.setFd, Kernel.setFd, hproc, Kernel.setProc, Kernel.setProc, hproc]

theorem kexit_settles (h : Settled o out k) (hp : (k.proc p).state = .alive) :
    Post (Settled o out) (kexit p k) := by
  obtain ⟨d, hd⟩ := Option.ne_none_iff_exists'.mp ((h.procs p).alive hp)
  -- the descriptors that are not in the rest `l` are empty
  let I (l : List (Fin NOFILE)) (k₁ : Kernel) : Prop := Settled o out k₁ ∧
    (k₁.proc p).cwd = some d ∧ ∀ fd, fd ∉ l → (k₁.proc p).ofile fd = none
  have hstart : I (List.finRange NOFILE) k :=
    ⟨h, hd, fun fd hfd => absurd (List.mem_finRange fd) hfd⟩
  unfold kexit
  refine (Post.foldlM I (fun fd l k₁ h₁ => ?_) hstart).bind fun k₁ h₁ => ?_
  · obtain ⟨hled, hcwd, hof⟩ := h₁
    refine (exitFd_settles hled).mono fun k₂ h₂ => ?_
    obtain ⟨hled₂, hproc⟩ := h₂
    have hp₂ : k₂.proc p = { k₁.proc p with ofile := update (k₁.proc p).ofile fd none } := by
      rw [hproc, Kernel.setFd, Kernel.setProc_same]
    refine ⟨hled₂, ?_, fun fd' hfd' => ?_⟩
    · rw [hp₂]
      exact hcwd
    · rw [hp₂]
      show update (k₁.proc p).ofile fd none fd' = none
      by_cases hne : fd' = fd
      · subst hne
        rw [update_self]
      · rw [update_of_ne hne]
        exact hof fd' fun hmem => (List.mem_cons.mp hmem).elim hne hfd'
  · obtain ⟨hled, hcwd, hof⟩ := h₁
    have hdir : k₁.dir p = d := by
      rw [Kernel.dir, hcwd, Option.getD_some]
    intro r hr
    obtain ⟨k₂, hk₂, hr⟩ := bind_eq_ok.mp hr
    cases hr
    have hproc : k₂.proc = k₁.proc := (callUnit_frame hk₂).2
    -- the pointer is taken from the process first
    have hgone : Ledger o ⟨[], [d], [], true, out⟩ ((beginOp k₁).setProc p
        { k₁.proc p with cwd := none, state := .zombie }) := by
      refine hled.beginOp.setProc rfl ⟨fun hs => ?_, fun _ => ⟨?_, rfl⟩⟩ fun jp => ?_
      · cases hs
      · exact fun fd => hof fd List.not_mem_nil
      · have hcwd' : ((beginOp k₁).proc p).cwd = some d := hcwd
        simp [hcwd', List.count_singleton]
    have hput := hgone.callUnit (fun s₀ ha => iput_acct kept_sound ha fun hmem =>
      absurd hmem List.not_mem_nil) _ (callUnit_setProc (hdir ▸ hk₂))
    rw [show (endOp k₂).proc p = k₁.proc p from congrFun hproc p]
    exact hput.endOp

/-! ## Programs -/

section Exec

variable {σ π : Type} {mem : Memory σ π} {m : σ}

theorem post_sys {α : Type} {P : α → Prop} {x : Except Panic α} (h : Post P x) :
    Post P (sys x : Except (Fault π) α) := h.mapError _

theorem post_vm {α : Type} (x : Except π α) : Post (fun _ => True) (vm x) :=
  Post.mapError (fun _ _ => trivial) _

theorem Ledger.readi {dst : Dest} {off n : ℕ} (h : Ledger o ⟨[], [ip], [ip], true, out⟩ k) :
    Post (fun r => Ledger o ⟨[], [ip], [ip], true, out⟩ r.2) (k.call (Fs.readi ip dst off n)) := by
  refine h.call (fun _ => [ip]) (fun _ => [ip]) fun s₀ ha => ?_
  exact (readi_reads off k.fs).mono fun r hr => ha.reads hr.toPeeks

theorem loadsegLoop_settles {va offset sz fuel i : ℕ}
    (h : Ledger o ⟨[], [ip], [ip], true, out⟩ k) :
    Post (fun r => Ledger o ⟨[], [ip], [ip], true, out⟩ r.2.1)
      (loadsegLoop mem ip va offset sz fuel i k m) := by
  induction fuel generalizing i k m with
  | zero => exact Post.ok h
  | succ fuel ih =>
    unfold loadsegLoop
    split_ifs
    · refine (post_sys h.readi).bind fun r hr => ?_
      dsimp only
      split_ifs
      · exact Post.ok hr
      · exact ih hr
    · exact Post.error _
    · exact Post.ok h

theorem loadPh_settles {ph : Proghdr} {sz : ℕ} (h : Ledger o ⟨[], [ip], [ip], true, out⟩ k) :
    Post (fun r => Ledger o ⟨[], [ip], [ip], true, out⟩ r.2.1) (loadPh mem ip ph sz k m) := by
  unfold loadPh
  split_ifs
  · exact Post.ok h
  · exact Post.ok h
  · exact Post.ok h
  · exact Post.ok h
  · refine (post_vm _).bind fun r _ => ?_
    dsimp only
    split_ifs
    · exact Post.ok h
    · exact (loadsegLoop_settles h).bind fun r hr => Post.ok hr

theorem loadPhs_settles {fuel off sz : ℕ} (h : Ledger o ⟨[], [ip], [ip], true, out⟩ k) :
    Post (fun r => Ledger o ⟨[], [ip], [ip], true, out⟩ r.2.1) (loadPhs mem ip fuel off sz k m) := by
  induction fuel generalizing off sz k m with
  | zero => exact Post.ok h
  | succ fuel ih =>
    unfold loadPhs
    refine (post_sys h.readi).bind fun r hr => ?_
    dsimp only
    split_ifs
    · exact Post.ok hr
    · refine (loadPh_settles hr).bind fun r hr => ?_
      split_ifs
      · exact ih hr
      · exact Post.ok hr

theorem loadImage_settles (h : Ledger o ⟨[], [ip], [ip], true, out⟩ k) :
    Post (fun r => Ledger o ⟨[], [ip], [ip], true, out⟩ r.2.1) (loadImage mem p ip k m) := by
  unfold loadImage
  refine (post_sys h.readi).bind fun r hr => ?_
  dsimp only
  split_ifs
  · exact Post.ok hr
  · exact Post.ok hr
  · refine (post_vm _).bind fun r _ => ?_
    split_ifs
    · exact (loadPhs_settles hr).bind fun r hr => Post.ok hr
    · exact Post.ok hr

theorem finishExec_settles {path : List UInt8} {argv : List (List UInt8)} {x : Loaded}
    (h : Ledger o ⟨[], [ip], [ip], true, out⟩ k) :
    Post (fun r => Settled o out r.2.1) (finishExec mem p path argv ip x k m) := by
  unfold finishExec
  cases x with
  | early => exact (post_sys h.release).bind fun k₁ h₁ => Post.ok h₁
  | bad sz =>
    refine (post_vm _).bind fun m₁ _ => ?_
    exact (post_sys h.release).bind fun k₁ h₁ => Post.ok h₁
  | done sz entry =>
    refine (post_sys h.release).bind fun k₁ h₁ => ?_
    exact (post_vm _).bind fun r _ => Post.ok h₁

theorem kexec_settles {path : List UInt8} {argv : List (List UInt8)} (h : Settled o out k)
    (hp : (k.proc p).state = .alive) :
    Post (fun r => Settled o out r.2.1) (kexec mem p path argv k m) := by
  unfold kexec
  refine (post_sys (h.beginOp.namei (h.dir_pos hp))).bind fun r hr => ?_
  obtain ⟨found, k₁⟩ := r
  cases found with
  | none => exact Post.ok hr.endOp
  | some ip =>
    have hlock : Post (Ledger o ⟨[], [ip], [ip], true, out⟩) (k₁.callUnit (ilock ip)) :=
      hr.callUnit fun s₀ ha => ilock_acct kept_sound ha
    refine (post_sys hlock).bind fun k₂ h₂ => ?_
    refine (loadImage_settles h₂).bind fun r hr => ?_
    exact finishExec_settles hr

theorem sysExec_settles {path : Option (List UInt8)} (h : Settled o out k)
    (hp : (k.proc p).state = .alive) :
    Post (fun r => Settled o out r.2.1) (sysExec mem p path k m) := by
  unfold sysExec
  cases path with
  | none => exact Post.ok h
  | some path =>
    refine (post_vm _).bind fun r _ => ?_
    obtain ⟨argv, m₁⟩ := r
    cases argv with
    | none => exact (post_vm _).bind fun m₂ _ => Post.ok h
    | some argv =>
      refine (kexec_settles h hp).bind fun r hr => ?_
      exact (post_vm _).bind fun m₃ _ => Post.ok hr

theorem kfork_settles (h : Settled o out k) (hp : (k.proc p).state = .alive) :
    Post (fun r => Settled o out r.2.1) (kfork mem p k m) := by
  unfold kfork
  cases hnp : findUnused k with
  | none => exact Post.ok h
  | some np =>
    have hunused : (k.proc np).state = .unused := by
      simpa using List.find?_some hnp
    refine (post_vm _).bind fun r _ => ?_
    dsimp only
    split_ifs
    · exact (post_sys (forkFiles_settles h hp hunused)).bind fun k₁ h₁ => Post.ok h₁
    · exact Post.ok h

theorem reapChild_settles {q : Fin NPROC} (h : Settled o out k) :
    Post (fun r => Settled o out r.1) (reapChild mem q k m) := by
  unfold reapChild
  split_ifs with hz
  · refine (post_vm _).bind fun m₁ _ => Post.ok (h.setProc rfl ⟨fun hs => ?_, fun _ => ?_⟩ fun _ => rfl)
    · cases hs
    · exact (h.procs q).dead (Or.inr hz)
  · exact Post.ok h

end Exec

end Settle

end RiscvOs.Sys
