import RiscvOs.Sys.File
import RiscvOs.Fs.Contents
import RiscvOs.Lib.Machine

set_option autoImplicit false

/-!
# A shared file offset (`kernel/disk/file.c`)

After `fork` or `dup` several processes use one `struct file`, and with it one offset. `fileread`
and `filewrite` pass the offset to `readi` or `writei` and advance it by what these return, both
while they hold the lock of the inode. `filewrite` cuts a long write into pieces and gives up the
lock between them.

Here the two functions are programs of any number of processes, which take turns after every
statement. The steps are the pieces of `readInode` and `writeInode`. Between the steps the rest of
the system may do to the file system whatever it likes, except to the lock of this inode.

## Main results

* `Inv.step` — a step keeps the offset in agreement with the history.
* `offset_loses_no_update` — the ranges are consecutive and disjoint, and the
  offset is their sum.
* `exec_readInode`, `exec_writeInode` — without interference
  the steps do what `readInode` and `writeInode` do.
-/

namespace RiscvOs.Sys

open Function Fs

/-! ## What `writei` can return -/

section Lengths

variable {ip : Slot} {n off r : ℕ} {s t : FS}

theorem writeLoop_le {src : Source} {fuel tot e : ℕ} (htot : tot ≤ n)
    (h : writeLoop ip src n fuel tot off s = .ok ((r, e), t)) : r ≤ n := by
  induction fuel generalizing tot off s with
  | zero =>
    cases h
    exact htot
  | succ fuel ih =>
    rw [writeLoop] at h
    split_ifs at h with hlt
    · obtain ⟨⟨a, s₁⟩, -, h⟩ := Loop.bind_eq_ok.mp h
      have hchunk := chunk_le tot off n
      dsimp only at h
      split_ifs at h
      · cases h
        exact htot
      · exact ih (by omega) h
      · cases h
        exact htot
    · cases h
      exact htot

theorem writei_le {src : Source} (h : writei ip src off n s = .ok (some r, t)) :
    r ≤ n ∧ off + r ≤ MAXFILE * BSIZE := by
  unfold writei at h
  split_ifs at h with h1 h2
  · cases h
  · cases h
  · obtain ⟨⟨⟨tot, e⟩, s₁⟩, hloop, h⟩ := Loop.bind_eq_ok.mp h
    obtain ⟨s₂, -, h⟩ := Loop.bind_eq_ok.mp h
    cases h
    have := writeLoop_le (Nat.zero_le _) hloop
    omega

end Lengths

namespace Offset

open Machine

/-- A range of bytes that `readi` or `writei` has transferred for a process. -/
structure Piece where
  pid : ℕ
  off : ℕ
  len : ℕ
  deriving DecidableEq

/-- The variables of a running `filewrite`, with the ranges it has written. -/
structure Write where
  src : Source
  n : ℤ
  i : ℕ
  pieces : List Piece

/-- `n1`: the length of the next piece. -/
def Write.len (w : Write) : ℕ := min (w.n.toNat - w.i) maxWrite

/-- What a process does next in `fileread` or `filewrite`. The offset that was passed to `readi` or
`writei`, and what it returned, are kept until the offset has been advanced. -/
inductive Pc where
  | idle
  | readLock (dst : Dest) (n : ℤ)
  | readCall (dst : Dest) (n : ℤ)
  | readAdd (off : ℕ) (r : Option ℕ)
  | readUnlock (r : Option ℕ)
  | readDone (r : Option ℕ)
  | writeTest (w : Write)
  | writeLock (w : Write)
  | writeCall (w : Write)
  | writeAdd (w : Write) (off : ℕ) (r : Option ℕ)
  | writeUnlock (w : Write) (r : Option ℕ)
  | writeDone (w : Write) (ret : Option ℕ)

/-- The file system, the open file, the processes, and the ranges so far, the oldest first. -/
structure State where
  fs : FS
  file : File
  pc : ℕ → Pc
  log : List Piece

/-- A process calls one of the functions or takes a step, or the rest of the system changes the file
system. -/
inductive Op where
  | read (p : ℕ) (dst : Dest) (n : ℤ)
  | write (p : ℕ) (src : Source) (n : ℤ)
  | step (p : ℕ)
  | other (t : FS)

/-- The range that a call has transferred, if it has returned a positive number. -/
def transferred (p off : ℕ) : Option ℕ → List Piece
  | some r => if 0 < r ∧ r < 2 ^ 31 then [⟨p, off, r⟩] else []
  | none => []

/-- Continue process `p` at `c`. -/
def State.goto (s : State) (p : ℕ) (c : Pc) : State := { s with pc := update s.pc p c }

/-- Continue process `p` at `c` after a call into the file system. -/
def State.enter (s : State) (t : FS) (p : ℕ) (c : Pc) : State := { s with fs := t }.goto p c

/-- The file system as process `p` uses it. -/
def State.fsOf (s : State) (p : ℕ) : FS := { s.fs with pid := p }

/-- The next statement of process `p`. -/
def stepOf (s : State) (p : ℕ) : Except Fs.Panic State :=
  match s.pc p with
  | .readLock dst n => do
    let t ← ilock s.file.ip (s.fsOf p)
    .ok (s.enter t p (.readCall dst n))
  | .readCall dst n => do
    let ((r, _), t) ← readi s.file.ip dst s.file.off.toNat (asUint n) (s.fsOf p)
    .ok (s.enter t p (.readAdd s.file.off.toNat r))
  | .readAdd off r =>
    .ok ({ s with file := s.file.advance r, log := s.log ++ transferred p off r }.goto p
      (.readUnlock r))
  | .readUnlock r => do
    let t ← iunlock s.file.ip (s.fsOf p)
    .ok (s.enter t p (.readDone r))
  | .writeTest w =>
    if (w.i : ℤ) < w.n then .ok (s.goto p (.writeLock w))
    else .ok (s.goto p (.writeDone w (if (w.i : ℤ) = w.n then some w.i else none)))
  | .writeLock w => do
    let t ← ilock s.file.ip (s.fsOf p)
    .ok (s.enter t p (.writeCall w))
  | .writeCall w => do
    let (r, t) ← writei s.file.ip (fun j => w.src (w.i + j)) s.file.off.toNat w.len (s.fsOf p)
    .ok (s.enter t p (.writeAdd w s.file.off.toNat r))
  | .writeAdd w off r =>
    .ok ({ s with file := s.file.advance r, log := s.log ++ transferred p off r }.goto p
      (.writeUnlock { w with pieces := w.pieces ++ transferred p off r } r))
  | .writeUnlock w r => do
    let t ← iunlock s.file.ip (s.fsOf p)
    if r ≠ some w.len then
      .ok (s.enter t p (.writeDone w (if (w.i : ℤ) = w.n then some w.i else none)))
    else .ok (s.enter t p (.writeTest { w with i := w.i + w.len }))
  | .idle | .readDone _ | .writeDone _ _ => .ok s

/-- What an operation does. `fileread` and `filewrite` first look at the mode of the file. -/
def next (s : State) : Op → Except Fs.Panic State
  | .read p dst n =>
    if s.file.readable then .ok (s.goto p (.readLock dst n)) else .ok (s.goto p (.readDone none))
  | .write p src n =>
    if s.file.writable then .ok (s.goto p (.writeTest ⟨src, n, 0, []⟩))
    else .ok (s.goto p (.writeDone ⟨src, n, 0, []⟩ none))
  | .step p => stepOf s p
  | .other t => .ok { s with fs := t }

/-- The process is not inside one of the functions. -/
def Pc.Outside : Pc → Prop
  | .idle | .readDone _ | .writeDone _ _ => True
  | _ => False

/-- A process makes one call at a time, and the lock of an inode is left alone by others. -/
def Legal (s : State) : Op → Prop
  | .read p _ _ | .write p _ _ => (s.pc p).Outside
  | .step _ => True
  | .other t => (t.itable s.file.ip).lock = (s.fs.itable s.file.ip).lock

/-- The start: no process is inside one of the functions. -/
structure Start (s : State) : Prop where
  pc : ∀ p, s.pc p = .idle
  log : s.log = []

/-! ## Consecutive ranges -/

/-- The ranges start at `a`, each one where the one before it ends, and `b` is the end of the last
one. -/
def Consecutive (a : ℕ) : List Piece → ℕ → Prop
  | [], b => b = a
  | x :: l, b => x.off = a ∧ Consecutive (a + x.len) l b

section Consecutive

variable {a b : ℕ} {l l' : List Piece}

theorem Consecutive.append {c : ℕ} (h : Consecutive a l b) (h' : Consecutive b l' c) :
    Consecutive a (l ++ l') c := by
  induction l generalizing a with
  | nil =>
    obtain rfl : b = a := h
    exact h'
  | cons x l ih => exact ⟨h.1, ih h.2⟩

theorem Consecutive.eq_sum (h : Consecutive a l b) : b = a + (l.map Piece.len).sum := by
  induction l generalizing a with
  | nil => exact h
  | cons x l ih =>
    rw [ih h.2, List.map_cons, List.sum_cons, Nat.add_assoc]

theorem Consecutive.le_off (h : Consecutive a l b) : ∀ x ∈ l, a ≤ x.off := by
  induction l generalizing a with
  | nil =>
    intro x hx
    exact absurd hx List.not_mem_nil
  | cons y l ih =>
    intro x hx
    rcases List.mem_cons.mp hx with rfl | hx
    · exact h.1.ge
    · exact (Nat.le_add_right _ _).trans (ih h.2 x hx)

theorem Consecutive.pairwise (h : Consecutive a l b) :
    l.Pairwise fun x y => x.off + x.len ≤ y.off := by
  induction l generalizing a with
  | nil => exact .nil
  | cons x l ih =>
    refine List.pairwise_cons.mpr ⟨fun y hy => ?_, ih h.2⟩
    rw [h.1]
    exact h.2.le_off y hy

end Consecutive

/-! ## The invariant -/

/-- The process holds the lock of the inode. -/
def Pc.Locked : Pc → Prop
  | .readCall _ _ | .readAdd _ _ | .readUnlock _ => True
  | .writeCall _ | .writeAdd _ _ _ | .writeUnlock _ _ => True
  | _ => False

/-- The offset that was passed to `readi` or `writei`, and what it returned, while the offset has
not been advanced. -/
def Pc.pending : Pc → Option (ℕ × Option ℕ)
  | .readAdd off r | .writeAdd _ off r => some (off, r)
  | _ => none

/-- The ranges that `filewrite` has written are its own, and not too long. -/
structure Write.Mine (w : Write) (p : ℕ) (log : List Piece) : Prop where
  sublist : w.pieces.Sublist log
  own : ∀ x ∈ w.pieces, x.pid = p ∧ x.len ≤ maxWrite

/-- What is known of a running `filewrite` at each of its statements. -/
def Pc.Counts (p : ℕ) (log : List Piece) : Pc → Prop
  | .writeTest w => w.Mine p log ∧ (w.pieces.map Piece.len).sum = w.i
  | .writeLock w | .writeCall w =>
    w.Mine p log ∧ (w.pieces.map Piece.len).sum = w.i ∧ (w.i : ℤ) < w.n
  | .writeAdd w _ r =>
    w.Mine p log ∧ (w.pieces.map Piece.len).sum = w.i ∧ (w.i : ℤ) < w.n ∧
      ∀ t, r = some t → t ≤ w.len
  | .writeUnlock w r =>
    w.Mine p log ∧ (r = some w.len → (w.pieces.map Piece.len).sum = w.i + w.len) ∧
      (w.i : ℤ) < w.n
  | .writeDone w ret =>
    w.Mine p log ∧ ∀ m, ret = some m → (m : ℤ) = w.n ∧ (w.pieces.map Piece.len).sum = m
  | _ => True

/-- The offset agrees with the history, which started at `start`. -/
structure Inv (start : ℕ) (s : State) : Prop where
  locked : ∀ p, (s.pc p).Locked → (s.fs.itable s.file.ip).lock = some p
  pending : ∀ p off r, (s.pc p).pending = some (off, r) →
    off = s.file.off.toNat ∧ ∀ t, r = some t → 0 < t → off + t < 2 ^ 32
  log : Consecutive start s.log s.file.off.toNat
  counts : ∀ p, (s.pc p).Counts p s.log

theorem inv_of_start {s : State} (h : Start s) : Inv s.file.off.toNat s where
  locked p hp := by
    rw [h.pc p] at hp
    exact hp.elim
  pending p off r hp := by
    rw [h.pc p] at hp
    cases hp
  log := by
    rw [h.log]
    rfl
  counts p := by
    rw [h.pc p]
    trivial

section Steps

variable {start p : ℕ} {s s' : State} {t : FS} {c : Pc}

theorem Pc.locked_of_pending {x : ℕ × Option ℕ} (h : c.pending = some x) : c.Locked := by
  cases c <;> trivial

theorem Write.mine_nil (src : Source) (n : ℤ) (p : ℕ) (log : List Piece) :
    Write.Mine ⟨src, n, 0, []⟩ p log :=
  ⟨List.nil_sublist _, fun _ hx => absurd hx List.not_mem_nil⟩

theorem Write.Mine.mono {w : Write} {log : List Piece} (h : w.Mine p log) (l : List Piece) :
    w.Mine p (log ++ l) :=
  ⟨h.sublist.trans (List.sublist_append_left _ _), h.own⟩

theorem Pc.Counts.mono {log : List Piece} (h : c.Counts p log) (l : List Piece) :
    c.Counts p (log ++ l) := by
  cases c <;> first | trivial | exact ⟨h.1.mono l, h.2⟩

theorem Inv.alone (h : Inv start s) (hp : (s.pc p).Locked) {q : ℕ} (hq : (s.pc q).Locked) :
    q = p := by
  have := (h.locked q hq).symm.trans (h.locked p hp)
  exact Option.some.inj this

theorem Inv.enter (h : Inv start s)
    (hother : ∀ q, q ≠ p → (s.pc q).Locked → (t.itable s.file.ip).lock = some q)
    (hlock : c.Locked → (t.itable s.file.ip).lock = some p)
    (hpend : ∀ off r, c.pending = some (off, r) →
      off = s.file.off.toNat ∧ ∀ m, r = some m → 0 < m → off + m < 2 ^ 32)
    (hcount : c.Counts p s.log) : Inv start (s.enter t p c) := by
  refine ⟨fun q hq => ?_, fun q off r hq => ?_, h.log, fun q => ?_⟩ <;>
  by_cases hqp : q = p
  · subst hqp
    simp only [State.enter, State.goto, update_self] at hq
    exact hlock hq
  · simp only [State.enter, State.goto, update_of_ne hqp] at hq
    exact hother q hqp hq
  · subst hqp
    simp only [State.enter, State.goto, update_self] at hq
    exact hpend off r hq
  · simp only [State.enter, State.goto, update_of_ne hqp] at hq
    exact h.pending q off r hq
  · subst hqp
    simp only [State.enter, State.goto, update_self]
    exact hcount
  · simp only [State.enter, State.goto, update_of_ne hqp]
    exact h.counts q

theorem Inv.goto (h : Inv start s) (hlock : ¬ c.Locked) (hcount : c.Counts p s.log) :
    Inv start (s.goto p c) := by
  refine h.enter (fun q _ hq => h.locked q hq) (fun hc => absurd hc hlock) ?_ hcount
  intro off r hc
  exact absurd (Pc.locked_of_pending hc) hlock

theorem Inv.ilock (h : Inv start s) (ht : Fs.ilock s.file.ip (s.fsOf p) = .ok t)
    (hpend : c.pending = none) (hcount : c.Counts p s.log) : Inv start (s.enter t p c) := by
  have hnone : (s.fs.itable s.file.ip).lock = none := by
    rw [Fs.ilock] at ht
    split_ifs at ht with h1 h2 <;> exact not_not.mp h2
  refine h.enter (fun q _ hq => ?_) (fun _ => ?_) (fun off r hc => ?_) hcount
  · have := h.locked q hq
    rw [hnone] at this
    cases this
  · rcases (ilock_cases ht).2 with ⟨-, rfl⟩ | ⟨-, -, rfl⟩
    · rw [FS.setLock, FS.setInode_same]
      rfl
    · rw [FS.setInode_same]
      rfl
  · rw [hpend] at hc
    cases hc

theorem Inv.iunlock (h : Inv start s) (ht : Fs.iunlock s.file.ip (s.fsOf p) = .ok t)
    (hlock : ¬ c.Locked) (hcount : c.Counts p s.log) : Inv start (s.enter t p c) := by
  obtain ⟨-, hp, rfl⟩ := iunlock_cases ht
  refine h.enter (fun q hqp hq => ?_) (fun hc => absurd hc hlock) (fun off r hc => ?_) hcount
  · exact absurd (Option.some.inj ((h.locked q hq).symm.trans hp)) hqp
  · exact absurd (Pc.locked_of_pending hc) hlock

theorem Inv.transfer (h : Inv start s) (hp : (s.pc p).Locked) (ht : Stays (s.fsOf p) t)
    {r : Option ℕ} (hc : c.pending = some (s.file.off.toNat, r))
    (hr : ∀ m, r = some m → 0 < m → s.file.off.toNat + m < 2 ^ 32)
    (hcount : c.Counts p s.log) : Inv start (s.enter t p c) := by
  have hsame := ht.lock s.file.ip
  refine h.enter (fun q _ hq => hsame.trans (h.locked q hq)) (fun _ => hsame.trans (h.locked p hp))
    (fun off r' hc' => ?_) hcount
  rw [hc] at hc'
  cases hc'
  exact ⟨rfl, hr⟩

/-- The offset is advanced by the process that holds the lock, from the value that it has passed to
`readi` or `writei`. -/
theorem Inv.advance (h : Inv start s) {off : ℕ} {r : Option ℕ}
    (hp : (s.pc p).pending = some (off, r)) (hc : c.pending = none)
    (hcount : c.Counts p (s.log ++ transferred p off r)) :
    Inv start ({ s with
      file := s.file.advance r, log := s.log ++ transferred p off r }.goto p c) := by
  have hlocked := Pc.locked_of_pending hp
  obtain ⟨hoff, hfit⟩ := h.pending p off r hp
  have hlog : Consecutive s.file.off.toNat (transferred p off r) (s.file.advance r).off.toNat := by
    unfold File.advance transferred
    cases r with
    | none => rfl
    | some m =>
      dsimp only
      split_ifs with hm
      · have := hfit m rfl hm.1
        refine ⟨hoff, ?_⟩
        show (s.file.off + UInt32.ofNat m).toNat = s.file.off.toNat + m
        rw [UInt32.toNat_add, UInt32.toNat_ofNat_of_lt' (show m < 2 ^ 32 by omega)]
        omega
      · rfl
  refine ⟨fun q hq => ?_, fun q off' r' hq => ?_, h.log.append hlog, fun q => ?_⟩ <;>
  by_cases hqp : q = p
  · subst hqp
    show (s.fs.itable (s.file.advance r).ip).lock = some q
    rw [File.advance_ip]
    exact h.locked q hlocked
  · simp only [State.goto, update_of_ne hqp] at hq
    exact absurd (h.alone hlocked hq) hqp
  · subst hqp
    simp only [State.goto, update_self] at hq
    rw [hc] at hq
    cases hq
  · simp only [State.goto, update_of_ne hqp] at hq
    exact absurd (h.alone hlocked (Pc.locked_of_pending hq)) hqp
  · subst hqp
    simp only [State.goto, update_self]
    exact hcount
  · simp only [State.goto, update_of_ne hqp]
    exact (h.counts q).mono _

theorem sum_transferred {off m : ℕ} (h0 : 0 < m) (h1 : m < 2 ^ 31) :
    ((transferred p off (some m)).map Piece.len).sum = m := by
  rw [transferred, if_pos ⟨h0, h1⟩]
  simp

theorem Write.len_pos {w : Write} (h : (w.i : ℤ) < w.n) : 0 < w.len := by
  have : 0 < maxWrite := by decide
  rw [Write.len]
  omega

theorem Write.len_le (w : Write) : w.len ≤ maxWrite := Nat.min_le_right _ _

theorem Write.Mine.add {w : Write} {log : List Piece} (h : w.Mine p log) {off : ℕ} {r : Option ℕ}
    (hr : ∀ m, r = some m → m ≤ w.len) :
    Write.Mine { w with pieces := w.pieces ++ transferred p off r } p
      (log ++ transferred p off r) := by
  refine ⟨h.sublist.append (List.Sublist.refl _), fun x hx => ?_⟩
  rcases List.mem_append.mp hx with hx | hx
  · exact h.own x hx
  · cases r with
    | none => exact absurd hx List.not_mem_nil
    | some m =>
      rw [transferred] at hx
      split_ifs at hx
      · obtain rfl := List.mem_singleton.mp hx
        exact ⟨rfl, (hr m rfl).trans w.len_le⟩
      · exact absurd hx List.not_mem_nil

/-- **A statement of a process keeps the offset in agreement with the history.** -/
theorem Inv.stepOf (h : Inv start s) (hn : stepOf s p = .ok s') : Inv start s' := by
  have hcount := h.counts p
  unfold Offset.stepOf at hn
  split at hn
  case h_1 dst n hpc =>
    obtain ⟨t, ht, hn⟩ := Loop.bind_eq_ok.mp hn
    cases hn
    exact h.ilock ht rfl trivial
  case h_2 dst n hpc =>
    obtain ⟨⟨⟨r, bytes⟩, t⟩, ht, hn⟩ := Loop.bind_eq_ok.mp hn
    cases hn
    refine h.transfer (by rw [hpc]; trivial) ((readi_peeks _ _).of_eq_ok ht).stays rfl ?_ trivial
    rintro m rfl hm
    exact (((readi_length ht).2 _ rfl).2 hm).trans_lt (UInt32.toNat_lt _)
  case h_3 off r hpc =>
    cases hn
    exact h.advance (by rw [hpc]; rfl) rfl trivial
  case h_4 r hpc =>
    obtain ⟨t, ht, hn⟩ := Loop.bind_eq_ok.mp hn
    cases hn
    exact h.iunlock ht id trivial
  case h_5 w hpc =>
    rw [hpc] at hcount
    split_ifs at hn with hlt heq <;> cases hn
    · exact h.goto id ⟨hcount.1, hcount.2, hlt⟩
    · refine h.goto id ⟨hcount.1, fun m hm => ?_⟩
      cases hm
      exact ⟨heq, hcount.2⟩
    · exact h.goto id ⟨hcount.1, fun m hm => absurd hm (Option.some_ne_none m).symm⟩
  case h_6 w hpc =>
    rw [hpc] at hcount
    obtain ⟨t, ht, hn⟩ := Loop.bind_eq_ok.mp hn
    cases hn
    exact h.ilock ht rfl hcount
  case h_7 w hpc =>
    rw [hpc] at hcount
    obtain ⟨⟨r, t⟩, ht, hn⟩ := Loop.bind_eq_ok.mp hn
    cases hn
    refine h.transfer (by rw [hpc]; trivial) ((writei_stays _ _ _ _ _).of_eq_ok ht) rfl ?_
      ⟨hcount.1, hcount.2.1, hcount.2.2, ?_⟩
    · rintro m rfl -
      have hle : MAXFILE * BSIZE < 2 ^ 32 := by decide
      exact (writei_le ht).2.trans_lt hle
    · rintro m rfl
      exact (writei_le ht).1
  case h_8 w off r hpc =>
    rw [hpc] at hcount
    obtain ⟨hmine, hsum, hlt, hr⟩ := hcount
    cases hn
    refine h.advance (by rw [hpc]; rfl) rfl ⟨hmine.add hr, ?_, hlt⟩
    intro hlen
    obtain rfl : r = some w.len := hlen
    have hmax : maxWrite < 2 ^ 31 := by decide
    rw [List.map_append, List.sum_append, hsum]
    exact congrArg (w.i + ·) (sum_transferred (Write.len_pos hlt) (w.len_le.trans_lt hmax))
  case h_9 w r hpc =>
    rw [hpc] at hcount
    obtain ⟨hmine, hsum, hlt⟩ := hcount
    obtain ⟨t, ht, hn⟩ := Loop.bind_eq_ok.mp hn
    -- a piece that was not written whole ends the loop before `i` has reached `n`
    rw [if_neg hlt.ne] at hn
    split_ifs at hn with hr <;> cases hn
    · exact h.iunlock ht id ⟨hmine, fun m hm => absurd hm (Option.some_ne_none m).symm⟩
    · exact h.iunlock ht id ⟨⟨hmine.sublist, hmine.own⟩, hsum (not_not.mp hr)⟩
  all_goals
    cases hn
    exact h

theorem Inv.step {op : Op} (h : Inv start s) (hl : Legal s op) (hn : next s op = .ok s') :
    Inv start s' := by
  cases op with
  | read p dst n =>
    rw [next] at hn
    split_ifs at hn <;> cases hn
    · exact h.goto id trivial
    · exact h.goto id trivial
  | write p src n =>
    rw [next] at hn
    split_ifs at hn <;> cases hn
    · exact h.goto id ⟨Write.mine_nil src n p s.log, rfl⟩
    · refine h.goto id ⟨Write.mine_nil src n p s.log, fun m hm => ?_⟩
      exact absurd hm (Option.some_ne_none m).symm
  | step p => exact h.stepOf hn
  | other t =>
    cases hn
    refine ⟨fun q hq => ?_, h.pending, h.log, h.counts⟩
    exact Eq.trans hl (h.locked q hq)

end Steps

/-- **No update of a shared offset is lost**: in every state that any number of processes reach with
any calls of `fileread` and `filewrite`, the ranges of bytes that were read and written start where
the offset was, follow each other without a gap and do not overlap; the offset has advanced by their
lengths; and a `filewrite` of `n` bytes that has returned `n` has written ranges of `n` bytes
together, each of at most `maxWrite`. -/
theorem offset_loses_no_update {s₀ s : State} (h₀ : Start s₀) (hr : Reach next Legal s₀ s) :
    Consecutive s₀.file.off.toNat s.log s.file.off.toNat ∧
      s.log.Pairwise (fun x y => x.off + x.len ≤ y.off) ∧
      s.file.off.toNat = s₀.file.off.toNat + (s.log.map Piece.len).sum ∧
      ∀ p w m, s.pc p = .writeDone w (some m) →
        (m : ℤ) = w.n ∧ (w.pieces.map Piece.len).sum = m ∧ w.pieces.Sublist s.log ∧
          ∀ x ∈ w.pieces, x.pid = p ∧ x.len ≤ maxWrite := by
  have h : Inv s₀.file.off.toNat s := by
    refine hr.invariant (inv_of_start h₀) ?_
    intro s op s' hs hl hn
    exact hs.step hl hn
  refine ⟨h.log, h.log.pairwise, h.log.eq_sum, ?_⟩
  intro p w m hpc
  have hcount := h.counts p
  rw [hpc] at hcount
  obtain ⟨hmine, hret⟩ := hcount
  exact ⟨(hret m rfl).1, (hret m rfl).2, hmine.sublist, hmine.own⟩

instance (pc : Pc) : Decidable pc.Outside := by
  cases pc <;> unfold Pc.Outside <;> infer_instance

instance (s : State) (op : Op) : Decidable (Legal s op) := by
  cases op <;> unfold Legal <;> infer_instance

/-- A new file that two processes have open. -/
def sharedFile : State where
  fs := Contents.fileFS
  file := ⟨.inode, 2, true, true, firstSlot, 0, 0⟩
  pc := fun _ => .idle
  log := []

/-- Processes 1 and 2 write three and two bytes at the same time. -/
def twoWriters : List Op :=
  [.write 1 (kernelSrc fun _ => 7) 3, .write 2 (kernelSrc fun _ => 8) 2, .step 1, .step 2,
    .step 1, .step 1, .step 1, .step 1, .step 2, .step 2, .step 1, .step 2, .step 2, .step 2]

theorem offset_loses_no_update_twoWriters :
    (after next sharedFile twoWriters).log = [⟨1, 0, 3⟩, ⟨2, 3, 2⟩] ∧
      (after next sharedFile twoWriters).file.off.toNat =
        sharedFile.file.off.toNat +
          ((after next sharedFile twoWriters).log.map Piece.len).sum := by
  have hrun : errorOf (exec next sharedFile twoWriters) = none ∧
      Along next Legal sharedFile twoWriters ∧
      (after next sharedFile twoWriters).log = [⟨1, 0, 3⟩, ⟨2, 3, 2⟩] := by
    decide +kernel
  have hr := reach_of_exec hrun.2.1 (exec_eq_after hrun.1)
  exact ⟨hrun.2.2, (offset_loses_no_update ⟨fun _ => rfl, rfl⟩ hr).2.2.1⟩

/-! ## Without interference -/

section Alone

variable {p : ℕ} {s : State} {t u : FS} {f : File} {l : List Piece} {r : Option ℕ}

theorem ilock_pid {ip : Slot} (h : ilock ip t = .ok u) : u.pid = t.pid := by
  rcases (ilock_cases h).2 with ⟨-, rfl⟩ | ⟨-, -, rfl⟩ <;> rfl

/-- The state in which process `p` has come to `c`, and every other process is where it was. -/
def State.alone (s : State) (p : ℕ) (t : FS) (f : File) (l : List Piece) (c : Pc) : State :=
  ⟨t, f, update s.pc p c, l⟩

@[simp] theorem State.alone_pc (c : Pc) : (s.alone p t f l c).pc p = c := update_self ..

@[simp] theorem State.alone_enter (c d : Pc) :
    (s.alone p t f l c).enter u p d = s.alone p u f l d := by
  simp [State.alone, State.enter, State.goto]

@[simp] theorem State.alone_goto {g : File} {m : List Piece} (c d : Pc) :
    ({ s.alone p t f l c with file := g, log := m } : State).goto p d = s.alone p t g m d := by
  simp [State.alone, State.goto]

theorem State.fsOf_alone (c : Pc) (h : t.pid = p) : (s.alone p t f l c).fsOf p = t := by
  subst h
  rfl

@[simp] theorem State.alone_file (c : Pc) : (s.alone p t f l c).file = f := rfl

@[simp] theorem State.alone_log (c : Pc) : (s.alone p t f l c).log = l := rfl

/-- **A process that is not disturbed reads as `readInode` does.** -/
theorem exec_readInode {dst : Dest} {n : ℤ} {bytes : List UInt8} {g : File} (hp : t.pid = p)
    (h : readInode dst n f t = .ok ((r, bytes, g), u)) :
    exec next (s.alone p t f l (.readLock dst n)) [.step p, .step p, .step p, .step p] =
      .ok (s.alone p u g (l ++ transferred p f.off.toNat r) (.readDone r)) := by
  unfold readInode at h
  obtain ⟨t₁, h₁, h⟩ := Loop.bind_eq_ok.mp h
  obtain ⟨⟨⟨r', bytes'⟩, t₂⟩, h₂, h⟩ := Loop.bind_eq_ok.mp h
  obtain ⟨t₃, h₃, h⟩ := Loop.bind_eq_ok.mp h
  cases h
  have hp₁ : t₁.pid = p := (ilock_pid h₁).trans hp
  have hp₂ : t₂.pid = p := ((readi_peeks _ _).of_eq_ok h₂).stays.pid.trans hp₁
  rw [File.advance_ip] at h₃
  simp [exec, next, stepOf, State.fsOf_alone, hp, hp₁, hp₂, h₁, h₂, h₃, bind, Except.bind]

/-- **A round of `filewrite` that is not disturbed does what `writeInode` does**, and goes on if the
piece was written whole. -/
theorem exec_writeInode {w : Write} {g : File} (hp : t.pid = p)
    (h : writeInode (fun j => w.src (w.i + j)) w.len f t = .ok ((r, g), u)) :
    exec next (s.alone p t f l (.writeLock w)) [.step p, .step p, .step p, .step p] =
      .ok (s.alone p u g (l ++ transferred p f.off.toNat r)
        (if r = some w.len then
          .writeTest ⟨w.src, w.n, w.i + w.len, w.pieces ++ transferred p f.off.toNat r⟩
        else
          .writeDone ⟨w.src, w.n, w.i, w.pieces ++ transferred p f.off.toNat r⟩
            (if (w.i : ℤ) = w.n then some w.i else none))) := by
  unfold writeInode at h
  obtain ⟨t₁, h₁, h⟩ := Loop.bind_eq_ok.mp h
  obtain ⟨⟨r', t₂⟩, h₂, h⟩ := Loop.bind_eq_ok.mp h
  obtain ⟨t₃, h₃, h⟩ := Loop.bind_eq_ok.mp h
  cases h
  have hp₁ : t₁.pid = p := (ilock_pid h₁).trans hp
  have hp₂ : t₂.pid = p := ((writei_stays _ _ _ _ _).of_eq_ok h₂).pid.trans hp₁
  have hlen : ∀ m, Write.len ⟨w.src, w.n, w.i, m⟩ = w.len := fun _ => rfl
  rw [File.advance_ip] at h₃
  by_cases hr : r = some w.len <;>
    simp [exec, next, stepOf, State.fsOf_alone, hp, hp₁, hp₂, h₁, h₂, h₃, hlen, hr, bind, Except.bind]

end Alone

end Offset

end RiscvOs.Sys
