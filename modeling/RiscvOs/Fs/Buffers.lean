import RiscvOs.Fs.File

set_option autoImplicit false

/-!
# Locked buffers (`kernel/disk/fs.c`, `kernel/disk/log.c`)

The functions of the file system that work on blocks, with the calls of `bread` and `brelse` that the
rest of the development leaves out. `bread` returns a buffer whose lock the process then has, and
waits for ever if it has it already; `brelse` releases it. Each of these functions gives back every
buffer it takes, and does otherwise what the function without buffers does.

## Main results

* `Call.releases` — a call that returns has released its buffers.
-/

namespace RiscvOs.Fs.Buffers

open Loop

/-- The file system, and the blocks whose buffers the calling process has locked. -/
structure Locked where
  fs : FS
  held : List ℕ

/-- Why a function does not return: a panic of the file system, a buffer that the process waits for
although it has it, or the panic of `brelse`. -/
inductive Stop where
  | fs (e : Panic)
  | deadlock
  | brelse

def bread (b : ℕ) (x : Locked) : Except Stop Locked :=
  if b ∈ x.held then .error .deadlock else .ok { x with held := b :: x.held }

def brelse (b : ℕ) (x : Locked) : Except Stop Locked :=
  if b ∈ x.held then .ok { x with held := x.held.erase b } else .error .brelse

/-- A change of the file system that needs no buffer. -/
def Locked.set (x : Locked) (s : FS) : Locked := { x with fs := s }

/-- A statement between `bread` and `brelse` that can panic. -/
def Locked.try (x : Locked) (y : Except Panic FS) : Except Stop Locked :=
  match y with
  | .ok s => .ok (x.set s)
  | .error e => .error (.fs e)

/-- `bp = bread(dev, b); body; brelse(bp)`. -/
def withBuf (b : ℕ) (body : FS → Except Panic FS) (x : Locked) : Except Stop Locked := do
  let x ← bread b x
  let x ← x.try (body x.fs)
  brelse b x

def bfree (b : ℕ) (x : Locked) : Except Stop Locked := withBuf (BBLOCK b x.fs.sb) (Fs.bfree b) x

def bzero (b : ℕ) (x : Locked) : Except Stop Locked := withBuf b (fun s => .ok (Fs.bzero b s)) x

/-- The loop of `balloc`, over the bitmap blocks that are left. -/
def ballocLoop : List ℕ → Locked → Except Stop (ℕ × Locked)
  | [], x => .ok (0, x)
  | i :: l, x => do
    let x ← bread (BBLOCK (i * BPB) x.fs.sb) x
    match ballocScan (x.fs.buf (BBLOCK (i * BPB) x.fs.sb)) (i * BPB) x.fs.sb.size with
    | some bi => do
      let x := x.set ({ x.fs with buf := setUsed x.fs.sb x.fs.buf (i * BPB + bi) }.logWrite
        (BBLOCK (i * BPB) x.fs.sb))
      let x ← brelse (BBLOCK (i * BPB) x.fs.sb) x
      let x ← bzero (i * BPB + bi) x
      .ok (i * BPB + bi, x)
    | none => do
      let x ← brelse (BBLOCK (i * BPB) x.fs.sb) x
      ballocLoop l x

def balloc (x : Locked) : Except Stop (ℕ × Locked) :=
  ballocLoop (List.range ((x.fs.sb.size + BPB - 1) / BPB)) x

/-- The address `k` of the slot; a block is allocated if it is zero. -/
def mapAddr (ip : Slot) (k : ℕ) (x : Locked) : Except Stop (ℕ × Locked) :=
  if (x.fs.itable ip).addr k = 0 then do
    let (a, x) ← balloc x
    if a = 0 then .ok (0, x) else .ok (a, x.set (x.fs.setAddr ip k a))
  else .ok ((x.fs.itable ip).addr k, x)

/-- The number at index `k` of the array over the buffer of block `b`, which is locked. -/
def mapEntry (b k : ℕ) (x : Locked) : Except Stop (ℕ × Locked) :=
  if bufWord x.fs b k = 0 then do
    let (a, x) ← balloc x
    if a = 0 then .ok (0, x)
    else .ok (a, x.set ((setBufWord x.fs b k (UInt32.ofNat a)).logWrite b))
  else .ok ((bufWord x.fs b k).toNat, x)

def bmap (ip : Slot) (bn : ℕ) (x : Locked) : Except Stop (ℕ × Locked) :=
  if bn < NDIRECT then mapAddr ip bn x
  else if bn - NDIRECT < NINDIRECT then do
    let (b, x) ← mapAddr ip NDIRECT x
    if b = 0 then .ok (0, x)
    else do
      let x ← bread b x
      let (a, x) ← mapEntry b (bn - NDIRECT) (x.set (x.fs.note .indirect))
      let x ← brelse b x
      .ok (a, x)
  else .error (.fs .bmap)

def iupdate (ip : Slot) (x : Locked) : Except Stop Locked :=
  withBuf (IBLOCK (x.fs.itable ip).inum x.fs.sb) (Fs.iupdate ip) x

/-- `ilock` reads the record if that was not done yet. -/
def ilock (ip : Slot) (x : Locked) : Except Stop Locked :=
  if (x.fs.itable ip).valid then x.try (Fs.ilock ip x.fs)
  else withBuf (IBLOCK (x.fs.itable ip).inum x.fs.sb) (Fs.ilock ip) x

/-- One round of the first loop of `itrunc`. -/
def freeDirect (ip : Slot) (x : Locked) (i : ℕ) : Except Stop Locked :=
  if (x.fs.itable ip).addr i = 0 then .ok x
  else do
    let x ← bfree ((x.fs.itable ip).addr i) x
    .ok (x.set (x.fs.setAddr ip i 0))

/-- One round of the second loop of `itrunc`, while the buffer of `b` is locked. -/
def freeEntry (b : ℕ) (x : Locked) (j : ℕ) : Except Stop Locked :=
  if x.fs.entry b j = 0 then .ok x else bfree (x.fs.entry b j) x

/-- The second half of `itrunc`. -/
def freeIndirect (ip : Slot) (x : Locked) : Except Stop Locked :=
  if (x.fs.itable ip).addr NDIRECT = 0 then .ok x
  else do
    let b := (x.fs.itable ip).addr NDIRECT
    let x ← bread b x
    let x ← (List.range NINDIRECT).foldlM (freeEntry b) x
    let x ← brelse b x
    let x ← bfree ((x.fs.itable ip).addr NDIRECT) x
    .ok (x.set (x.fs.setAddr ip NDIRECT 0))

def itrunc (ip : Slot) (x : Locked) : Except Stop Locked := do
  let x ← (List.range NDIRECT).foldlM (freeDirect ip) x
  let x ← freeIndirect ip x
  iupdate ip (x.set (x.fs.setInode ip { x.fs.itable ip with size := 0 }))

/-- The loop of `ialloc`, over the inode numbers that are left. -/
def iallocLoop (dev : ℕ) (type : UInt16) : List ℕ → Locked → Except Stop (Option Slot × Locked)
  | [], x => .ok (none, x)
  | inum :: l, x => do
    let x ← bread (IBLOCK inum x.fs.sb) x
    if (x.fs.dinode inum).type = 0 then do
      let x := x.set (x.fs.claimInode inum type)
      let x ← brelse (IBLOCK inum x.fs.sb) x
      match iget dev inum x.fs with
      | .ok (ip, s) => .ok (some ip, x.set s)
      | .error e => .error (.fs e)
    else do
      let x ← brelse (IBLOCK inum x.fs.sb) x
      iallocLoop dev type l x

def ialloc (dev : ℕ) (type : UInt16) (x : Locked) : Except Stop (Option Slot × Locked) :=
  iallocLoop dev type (List.range' 1 (x.fs.sb.ninodes - 1)) x

/-- The loop of `readi`. -/
def readLoop (ip : Slot) (dst : Dest) (n : ℕ) : (fuel tot off : ℕ) → List UInt8 → Locked →
    Except Stop ((Option ℕ × List UInt8) × Locked)
  | 0, tot, _, out, x => .ok ((some tot, out), x)
  | fuel + 1, tot, off, out, x =>
    if tot < n then do
      let (addr, x) ← bmap ip (off / BSIZE) (x.set (x.fs.noteHole ip (off / BSIZE)))
      if addr = 0 then .ok ((some tot, out), x)
      else do
        let x ← bread addr x
        let m := chunk tot off n
        let (bytes, ok) := eitherCopyout dst tot m (off % BSIZE) (x.fs.buf addr)
        let x ← brelse addr x
        if ok then readLoop ip dst n fuel (tot + m) (off + m) (out ++ bytes) x
        else .ok ((none, out ++ bytes), x)
    else .ok ((some tot, out), x)

def readi (ip : Slot) (dst : Dest) (off n : ℕ) (x : Locked) :
    Except Stop ((Option ℕ × List UInt8) × Locked) :=
  if (x.fs.itable ip).size.toNat < off ∨ (off + n) % 2 ^ 32 < off then .ok ((some 0, []), x)
  else
    let n := if (x.fs.itable ip).size.toNat < off + n then (x.fs.itable ip).size.toNat - off else n
    readLoop ip dst n n 0 off [] x

/-- The loop of `writei`. -/
def writeLoop (ip : Slot) (src : Source) (n : ℕ) : (fuel tot off : ℕ) → Locked →
    Except Stop ((ℕ × ℕ) × Locked)
  | 0, tot, off, x => .ok ((tot, off), x)
  | fuel + 1, tot, off, x =>
    if tot < n then do
      let (addr, x) ← bmap ip (off / BSIZE) x
      if addr = 0 then .ok ((tot, off), x)
      else do
        let x ← bread addr x
        let m := chunk tot off n
        let (b, ok) := eitherCopyin src tot m (off % BSIZE) (x.fs.buf addr)
        if ok then do
          let x ← brelse addr (x.set ((x.fs.setBuf addr b).logWrite addr))
          writeLoop ip src n fuel (tot + m) (off + m) x
        else do
          let x ← brelse addr (x.set (x.fs.setBuf addr b))
          .ok ((tot, off), x)
    else .ok ((tot, off), x)

def writei (ip : Slot) (src : Source) (off n : ℕ) (x : Locked) : Except Stop (Option ℕ × Locked) :=
  if (x.fs.itable ip).size.toNat < off ∨ (off + n) % 2 ^ 32 < off then .ok (none, x)
  else if MAXFILE * BSIZE < off + n then .ok (none, x)
  else do
    let ((tot, off), x) ← writeLoop ip src n n 0 off x
    let x ← iupdate ip (x.set (x.fs.grow ip off))
    .ok (some tot, x)

/-- One round of `write_log`: the log block is locked first, and released last. The contents of these
blocks are the subject of the modules on the log. -/
def writeLogRound (dst src : ℕ) (x : Locked) : Except Stop Locked := do
  let x ← bread dst x
  let x ← bread src x
  let x ← brelse src x
  brelse dst x

/-- One round of `install_trans`: the log block is locked first, and released first. -/
def installRound (lbuf dbuf : ℕ) (x : Locked) : Except Stop Locked := do
  let x ← bread lbuf x
  let x ← bread dbuf x
  let x ← brelse lbuf x
  brelse dbuf x

/-- The block with the header of the log is written. -/
def writeHead (start : ℕ) (x : Locked) : Except Stop Locked := withBuf start .ok x

/-- The buffers that `commit` locks, for the blocks `lh` of the header. -/
def commit (start : ℕ) (lh : List ℕ) (x : Locked) : Except Stop Locked :=
  if lh = [] then .ok x
  else do
    let x ← (List.range lh.length).foldlM (fun x t => writeLogRound (start + t + 1) (lh.getD t 0) x) x
    let x ← writeHead start x
    let x ← (List.range lh.length).foldlM (fun x t => installRound (start + t + 1) (lh.getD t 0) x) x
    writeHead start x

/-! ## Buffers are released -/

section Releases

variable {b : ℕ} {s : FS} {l : List ℕ} {ip : Slot}

/-- A function leaves the file system `s`, with the buffers `l` locked. -/
def Leaves (l : List ℕ) (y : Locked) (s : FS) : Prop := y = ⟨s, l⟩

@[inherit_doc Leaves] def Returns {α : Type} (l : List ℕ) (r : α × Locked) (q : α × FS) : Prop := r = (q.1, ⟨q.2, l⟩)

theorem bread_bind {α β : Type} {R : α → β → Prop} {f : Locked → Except Stop α} {y : Except Panic β}
    (h : Sim R (f ⟨s, b :: l⟩) y) : Sim R (bread b ⟨s, l⟩ >>= f) y := by
  unfold bread
  split_ifs
  · exact Sim.error _
  · exact h

theorem brelse_head (b : ℕ) (s : FS) (l : List ℕ) : brelse b ⟨s, b :: l⟩ = .ok ⟨s, l⟩ := by
  rw [brelse, if_pos List.mem_cons_self, List.erase_cons_head]

theorem try_leaves (y : Except Panic FS) : Sim (Leaves l) (Locked.try ⟨s, l⟩ y) y := by
  cases y with
  | ok t => exact Sim.ok rfl
  | error e => exact Sim.error _

/-- **A buffer that is taken for some statements is given back.** -/
theorem withBuf_leaves (b : ℕ) (body : FS → Except Panic FS) :
    Sim (Leaves l) (withBuf b body ⟨s, l⟩) (body s) := by
  refine bread_bind ?_
  dsimp only
  cases body s with
  | ok t =>
    change Sim _ (brelse b ⟨t, b :: l⟩) _
    rw [brelse_head]
    exact Sim.ok rfl
  | error e => exact Sim.error _

theorem bzero_leaves : Sim (Leaves l) (bzero b ⟨s, l⟩) (.ok (Fs.bzero b s) : Except Panic FS) := withBuf_leaves _ _

theorem ballocLoop_returns (L : List ℕ) : Sim (Returns l) (ballocLoop L ⟨s, l⟩) (.ok
    (match L.findSome? fun i => (ballocScan (s.buf (BBLOCK (i * BPB) s.sb)) (i * BPB) s.sb.size).map
        fun bi => i * BPB + bi with
      | some b => (b, s.take b)
      | none => (0, s)) : Except Panic (ℕ × FS)) := by
  induction L with
  | nil => exact Sim.ok rfl
  | cons i L ih =>
    rw [List.findSome?_cons]
    refine bread_bind ?_
    dsimp only [Locked.set]
    cases hscan : ballocScan (s.buf (BBLOCK (i * BPB) s.sb)) (i * BPB) s.sb.size with
    | some bi =>
      have hbi : bi < BPB := (ballocScan_some hscan).1
      rw [Option.map_some]
      dsimp only
      change Sim _ (brelse (BBLOCK (i * BPB) s.sb) _ >>= _) _
      rw [FS.take, BBLOCK_add _ hbi, brelse_head, ok_bind]
      refine bzero_leaves.bind_ok ?_
      rintro _ rfl
      exact Sim.ok rfl
    | none =>
      dsimp only
      rw [brelse_head]
      exact ih

theorem balloc_returns : Sim (Returns l) (balloc ⟨s, l⟩) (.ok (Fs.balloc s) : Except Panic (ℕ × FS)) :=
  ballocLoop_returns _

theorem balloc_bind (store : ℕ → FS → FS) :
    Sim (Returns l) (balloc ⟨s, l⟩ >>= fun (a, x) => if a = 0 then .ok (0, x) else .ok (a, x.set (store a x.fs)))
      (.ok (match Fs.balloc s with
        | (0, s) => (0, s)
        | (a, s) => (a, store a s)) : Except Panic (ℕ × FS)) := by
  refine balloc_returns.bind_ok ?_
  rintro _ rfl
  obtain ⟨a, t⟩ := Fs.balloc s
  cases a with
  | zero => exact Sim.ok rfl
  | succ a => exact Sim.ok rfl

theorem mapAddr_returns (k : ℕ) :
    Sim (Returns l) (mapAddr ip k ⟨s, l⟩) (.ok (Fs.mapAddr ip k s) : Except Panic (ℕ × FS)) := by
  dsimp only [mapAddr, Fs.mapAddr]
  split_ifs
  · exact balloc_bind fun a s => s.setAddr ip k a
  · exact Sim.ok rfl

theorem mapEntry_returns (k : ℕ) :
    Sim (Returns l) (mapEntry b k ⟨s, l⟩) (.ok (Fs.mapEntry b k s) : Except Panic (ℕ × FS)) := by
  dsimp only [mapEntry, Fs.mapEntry]
  split_ifs
  · exact balloc_bind fun a s => (setBufWord s b k (UInt32.ofNat a)).logWrite b
  · exact Sim.ok rfl

theorem bmap_returns (bn : ℕ) : Sim (Returns l) (bmap ip bn ⟨s, l⟩) (Fs.bmap ip bn s) := by
  dsimp only [bmap, Fs.bmap]
  split_ifs
  · exact mapAddr_returns bn
  · refine (mapAddr_returns NDIRECT).bind_ok ?_
    rintro _ rfl
    obtain ⟨b, t⟩ := Fs.mapAddr ip NDIRECT s
    cases b with
    | zero => exact Sim.ok rfl
    | succ b =>
      refine bread_bind ((mapEntry_returns _).bind_ok ?_)
      rintro _ rfl
      dsimp only
      rw [brelse_head]
      exact Sim.ok rfl
  · exact Sim.error _

theorem iupdate_leaves : Sim (Leaves l) (iupdate ip ⟨s, l⟩) (Fs.iupdate ip s) := withBuf_leaves _ _

theorem ilock_leaves : Sim (Leaves l) (ilock ip ⟨s, l⟩) (Fs.ilock ip s) := by
  unfold ilock
  split_ifs
  · exact try_leaves _
  · exact withBuf_leaves _ _

theorem freeDirect_leaves (i : ℕ) : Sim (Leaves l) (freeDirect ip ⟨s, l⟩ i) (Fs.freeDirect ip s i) := by
  dsimp only [freeDirect, Fs.freeDirect]
  split_ifs
  · exact Sim.ok rfl
  · refine (withBuf_leaves _ _).bind ?_
    rintro _ t rfl
    exact Sim.ok rfl

theorem freeEntry_leaves (j : ℕ) : Sim (Leaves l) (freeEntry b ⟨s, l⟩ j) (Fs.freeEntry b s j) := by
  dsimp only [freeEntry, Fs.freeEntry]
  split_ifs
  · exact Sim.ok rfl
  · exact withBuf_leaves _ _

theorem freeIndirect_leaves : Sim (Leaves l) (freeIndirect ip ⟨s, l⟩) (Fs.freeIndirect ip s) := by
  dsimp only [freeIndirect, Fs.freeIndirect]
  split_ifs
  · exact Sim.ok rfl
  · refine bread_bind ((Sim.foldlM (R := Leaves ((s.itable ip).addr NDIRECT :: l)) ?_ rfl).bind ?_)
    · rintro _ t j rfl
      exact freeEntry_leaves j
    · rintro _ t rfl
      rw [brelse_head]
      refine (withBuf_leaves _ _).bind ?_
      rintro _ u rfl
      exact Sim.ok rfl

theorem itrunc_leaves : Sim (Leaves l) (itrunc ip ⟨s, l⟩) (Fs.itrunc ip s) := by
  refine (Sim.foldlM (R := Leaves l) ?_ rfl).bind ?_
  · rintro _ t i rfl
    exact freeDirect_leaves i
  · rintro _ t rfl
    refine freeIndirect_leaves.bind ?_
    rintro _ u rfl
    exact iupdate_leaves

theorem iallocLoop_returns (dev : ℕ) (type : UInt16) (L : List ℕ) : Sim (Returns l) (iallocLoop dev type L ⟨s, l⟩)
    (match L.find? fun inum => (s.dinode inum).type == 0 with
      | none => .ok (none, s)
      | some inum => do
        let (ip, s) ← iget dev inum (s.claimInode inum type)
        .ok (some ip, s)) := by
  induction L with
  | nil => exact Sim.ok rfl
  | cons inum L ih =>
    refine bread_bind ?_
    dsimp only [Locked.set]
    by_cases h0 : (s.dinode inum).type = 0
    · rw [if_pos h0, List.find?_cons_of_pos (by simpa using h0)]
      change Sim _ (brelse (IBLOCK inum s.sb) _ >>= _) _
      rw [brelse_head]
      dsimp only [bind, Except.bind]
      cases iget dev inum (s.claimInode inum type) with
      | ok z => exact Sim.ok rfl
      | error e => exact Sim.error _
    · rw [if_neg h0, brelse_head, List.find?_cons_of_neg (by simpa using h0)]
      exact ih

theorem readLoop_returns (dst : Dest) (n fuel tot off : ℕ) (out : List UInt8) :
    Sim (Returns l) (readLoop ip dst n fuel tot off out ⟨s, l⟩) (Fs.readLoop ip dst n fuel tot off out s) := by
  induction fuel generalizing tot off out s with
  | zero => exact Sim.ok rfl
  | succ fuel ih =>
    rw [readLoop, Fs.readLoop]
    split_ifs
    · refine (bmap_returns _).bind ?_
      rintro _ ⟨addr, t⟩ rfl
      dsimp only
      by_cases haddr : addr = 0
      · rw [if_pos haddr, if_pos haddr]
        exact Sim.ok rfl
      · rw [if_neg haddr, if_neg haddr]
        refine bread_bind ?_
        rw [brelse_head]
        dsimp only [bind, Except.bind]
        split_ifs
        · exact ih _ _ _
        · exact Sim.ok rfl
    · exact Sim.ok rfl

theorem readi_returns (dst : Dest) (off n : ℕ) :
    Sim (Returns l) (readi ip dst off n ⟨s, l⟩) (Fs.readi ip dst off n s) := by
  dsimp only [readi, Fs.readi]
  by_cases hout : (s.itable ip).size.toNat < off ∨ (off + n) % 2 ^ 32 < off
  · rw [if_pos hout, if_pos hout]
    exact Sim.ok rfl
  · rw [if_neg hout, if_neg hout]
    exact readLoop_returns _ _ _ _ _ _

theorem writeLoop_returns (src : Source) (n fuel tot off : ℕ) :
    Sim (Returns l) (writeLoop ip src n fuel tot off ⟨s, l⟩) (Fs.writeLoop ip src n fuel tot off s) := by
  induction fuel generalizing tot off s with
  | zero => exact Sim.ok rfl
  | succ fuel ih =>
    rw [writeLoop, Fs.writeLoop]
    split_ifs
    · refine (bmap_returns _).bind ?_
      rintro _ ⟨addr, t⟩ rfl
      dsimp only
      by_cases haddr : addr = 0
      · rw [if_pos haddr, if_pos haddr]
        exact Sim.ok rfl
      · rw [if_neg haddr, if_neg haddr]
        refine bread_bind ?_
        dsimp only [Locked.set]
        rw [brelse_head, brelse_head]
        split_ifs
        · exact ih _ _
        · exact Sim.ok rfl
    · exact Sim.ok rfl

theorem writei_returns (src : Source) (off n : ℕ) :
    Sim (Returns l) (writei ip src off n ⟨s, l⟩) (Fs.writei ip src off n s) := by
  dsimp only [writei, Fs.writei]
  split_ifs
  · exact Sim.ok rfl
  · exact Sim.ok rfl
  · refine (writeLoop_returns _ _ _ _ _).bind ?_
    rintro _ ⟨⟨tot, off'⟩, t⟩ rfl
    refine iupdate_leaves.bind ?_
    rintro _ u rfl
    exact Sim.ok rfl

theorem writeLogRound_leaves (dst src : ℕ) :
    Sim (Leaves l) (writeLogRound dst src ⟨s, l⟩) (.ok s : Except Panic FS) := by
  refine bread_bind (bread_bind ?_)
  rw [brelse_head]
  change Sim _ (brelse dst _) _
  rw [brelse_head]
  exact Sim.ok rfl

theorem installRound_leaves (lbuf dbuf : ℕ) :
    Sim (Leaves l) (installRound lbuf dbuf ⟨s, l⟩) (.ok s : Except Panic FS) := by
  refine bread_bind ?_
  -- the second `bread` returns only if the two buffers differ
  by_cases hne : dbuf = lbuf
  · rw [bread, if_pos (by simp [hne])]
    exact Sim.error _
  · refine bread_bind ?_
    rw [brelse, if_pos (by simp), List.erase_cons_tail (by simpa using hne), List.erase_cons_head]
    change Sim _ (brelse dbuf _) _
    rw [brelse_head]
    exact Sim.ok rfl

theorem foldlM_leaves {f : Locked → ℕ → Except Stop Locked} (L : List ℕ)
    (hf : ∀ i, Sim (Leaves l) (f ⟨s, l⟩ i) (.ok s : Except Panic FS)) :
    Sim (Leaves l) (L.foldlM f ⟨s, l⟩) (.ok s : Except Panic FS) := by
  induction L with
  | nil => exact Sim.ok rfl
  | cons i L ih =>
    rw [List.foldlM_cons]
    refine (hf i).bind_ok ?_
    rintro _ rfl
    exact ih

theorem commit_leaves (start : ℕ) (lh : List ℕ) :
    Sim (Leaves l) (commit start lh ⟨s, l⟩) (.ok s : Except Panic FS) := by
  unfold commit
  split_ifs
  · exact Sim.ok rfl
  · refine (foldlM_leaves _ fun _ => writeLogRound_leaves _ _).bind_ok ?_
    rintro _ rfl
    refine (withBuf_leaves _ _).bind_ok ?_
    rintro _ rfl
    refine (foldlM_leaves _ fun _ => installRound_leaves _ _).bind_ok ?_
    rintro _ rfl
    exact withBuf_leaves _ _

end Releases

/-! ## Every function -/

/-- The functions that lock buffers, with their arguments. -/
inductive Call where
  | bmap (ip : Slot) (bn : ℕ)
  | iupdate (ip : Slot)
  | ilock (ip : Slot)
  | itrunc (ip : Slot)
  | ialloc (dev : ℕ) (type : UInt16)
  | readi (ip : Slot) (dst : Dest) (off n : ℕ)
  | writei (ip : Slot) (src : Source) (off n : ℕ)
  | endOp (start : ℕ) (lh : List ℕ)

/-- What the function does with the buffers that the process has, without its value. -/
def Call.run : Call → Locked → Except Stop Locked
  | .bmap ip bn, x => Prod.snd <$> Buffers.bmap ip bn x
  | .iupdate ip, x => Buffers.iupdate ip x
  | .ilock ip, x => Buffers.ilock ip x
  | .itrunc ip, x => Buffers.itrunc ip x
  | .ialloc dev type, x => Prod.snd <$> Buffers.ialloc dev type x
  | .readi ip dst off n, x => Prod.snd <$> Buffers.readi ip dst off n x
  | .writei ip src off n, x => Prod.snd <$> Buffers.writei ip src off n x
  | .endOp start lh, x => commit start lh x

/-- What the rest of the development takes the function to do. -/
def Call.plain : Call → FS → Except Panic FS
  | .bmap ip bn, s => Prod.snd <$> Fs.bmap ip bn s
  | .iupdate ip, s => Fs.iupdate ip s
  | .ilock ip, s => Fs.ilock ip s
  | .itrunc ip, s => Fs.itrunc ip s
  | .ialloc dev type, s => Prod.snd <$> Fs.ialloc dev type s
  | .readi ip dst off n, s => Prod.snd <$> Fs.readi ip dst off n s
  | .writei ip src off n, s => Prod.snd <$> Fs.writei ip src off n s
  | .endOp _ _, s => .ok s

section Call

variable {x y : Locked}

theorem map_snd_leaves {α : Type} {f : Except Stop (α × Locked)} {g : Except Panic (α × FS)} {l : List ℕ}
    (h : Sim (Returns l) f g) : Sim (Leaves l) (Prod.snd <$> f) (Prod.snd <$> g) := by
  cases f with
  | error e => exact Sim.error _
  | ok r =>
    obtain ⟨q, rfl, rfl⟩ := h r rfl
    exact Sim.ok rfl

theorem Call.run_leaves (c : Call) (x : Locked) : Sim (Leaves x.held) (c.run x) (c.plain x.fs) := by
  cases c with
  | bmap ip bn => exact map_snd_leaves (bmap_returns bn)
  | iupdate ip => exact iupdate_leaves
  | ilock ip => exact ilock_leaves
  | itrunc ip => exact itrunc_leaves
  | ialloc dev type => exact map_snd_leaves (iallocLoop_returns dev type _)
  | readi ip dst off n => exact map_snd_leaves (readi_returns dst off n)
  | writei ip src off n => exact map_snd_leaves (writei_returns src off n)
  | endOp start lh => exact commit_leaves start lh

/-- **A function that returns has released every buffer that it has taken**, and has done what the
function without buffers does. -/
theorem Call.releases (c : Call) (h : c.run x = .ok y) :
    y.held = x.held ∧ c.plain x.fs = .ok y.fs := by
  obtain ⟨s, hs, rfl⟩ := c.run_leaves x y h
  exact ⟨rfl, hs⟩

end Call

end RiscvOs.Fs.Buffers
