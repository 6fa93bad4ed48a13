import RiscvOs.Sys.References
import RiscvOs.Fs.Buffers

set_option autoImplicit false

/-!
# System calls are balanced

When a system call returns, the process has no lock, every `begin_op` was followed by an `end_op` and
none came inside a transaction. `log_write` is called inside transactions only, with one exception:
`fileread` opens no transaction, because it expects that reading writes nothing, but `bmap` allocates
a block where it finds none.

## Main results

* `readi_quiet` — when `readi` calls `log_write`.
* `calls_balanced` — which calls are balanced.

## Implementation notes

The account of a call does not say who calls `bread` and `brelse`. The functions that lock buffers are
those of `RiscvOs.Fs.Buffers`, and each of them releases its buffers before it returns. So does a system
call, which locks buffers only in these functions; that is said of each of them, not of the call as a whole.
-/

namespace RiscvOs.Sys.Balance

open Fs Loop Machine References

/-- `bmap` finds block `bn` of a file with the record `d`. Behind the direct blocks it looks at the
words of the buffer, not at its data. -/
def Present (s : FS) (d : Dinode) (bn : ℕ) : Prop :=
  if bn < NDIRECT then d.addr bn ≠ 0
  else d.addr NDIRECT ≠ 0 ∧ bufWord s (d.addr NDIRECT) (bn - NDIRECT) ≠ 0

/-- `balloc` finds no block. -/
def DiskFull (s : FS) : Prop := ∀ b < s.sb.size, s.used b = true

/-- The number of bytes that a read of `n` bytes from `off` on can return. -/
def readLen (d : Dinode) (off n : ℕ) : ℕ :=
  if d.size.toNat < off ∨ (off + n) % 2 ^ 32 < off then 0
  else if d.size.toNat < off + n then d.size.toNat - off else n

/-- The record of a slot, as a process that locks it sees it. -/
def record (s : FS) (ip : Slot) : Dinode :=
  if (s.itable ip).valid then (s.itable ip).toDinode else s.dinode (s.itable ip).inum

/-- Every block that `bmap` is asked for is there: those of the bytes that are read, up to the first
one that cannot be copied to the destination. -/
def BlocksPresent (s : FS) (d : Dinode) (dst : Dest) (off n : ℕ) : Prop :=
  ∀ j < readLen d off n, (∀ i < j, dst i = true) → Present s d ((off + j) / BSIZE)

/-- Reading from an open file allocates nothing. -/
def ReadsPresent (s : FS) (f : File) (dst : Dest) (n : ℤ) : Prop :=
  DiskFull s ∨ BlocksPresent s (record s f.ip) dst f.off.toNat (asUint n)

/-! ## What reading writes -/

section Reading

variable {s t : FS} {ip : Slot} {dst : Dest} {a bn n fuel tot off : ℕ}

theorem balloc_full (h : DiskFull s) : balloc s = (0, s) := by
  rcases balloc_cases s with ⟨b, hb, hfree, -, -⟩ | ⟨-, heq⟩
  · rw [h b hb] at hfree
    cases hfree
  · exact heq

theorem balloc_logs (h : ¬ DiskFull s) : s.logged.length < (balloc s).2.logged.length := by
  rcases balloc_cases s with ⟨b, -, -, -, heq⟩ | ⟨hfull, -⟩
  · rw [heq]
    show s.logged.length < s.logged.length + 1 + 1
    omega
  · exact absurd hfull h

/-- What a function that looks for a block number, and allocates a block if there is none, does to the
log. -/
inductive Outcome (s : FS) (present : Prop) (r : ℕ × FS) : Prop
  | found (hp : present) (ha : r.1 ≠ 0) (q : List Quirk) (hs : r.2 = { s with quirks := q })
  | full (hp : ¬ present) (hf : DiskFull s) (ha : r.1 = 0) (hlog : r.2.logged = s.logged)
  | logs (hp : ¬ present) (hf : ¬ DiskFull s) (hlog : s.logged.length < r.2.logged.length)

theorem Outcome.le {p : Prop} {r : ℕ × FS} (h : Outcome s p r) :
    s.logged.length ≤ r.2.logged.length := by
  cases h with
  | found _ _ q hs => rw [hs]
  | full _ _ _ hlog => rw [hlog]
  | logs _ _ hlog => exact hlog.le

theorem mapAddr_outcome (ip : Slot) (k : ℕ) (s : FS) :
    Outcome s ((s.itable ip).addr k ≠ 0) (mapAddr ip k s) := by
  unfold mapAddr
  split_ifs with h0
  · by_cases hf : DiskFull s
    · rw [balloc_full hf]
      exact .full (not_not.mpr h0) hf rfl rfl
    · have hlog := balloc_logs hf
      apply Outcome.logs (not_not.mpr h0) hf
      split
      · rename_i heq
        rwa [heq] at hlog
      · rename_i heq
        rwa [heq] at hlog
  · exact .found h0 h0 s.quirks rfl

theorem setBufWord_logged (s : FS) (b k : ℕ) (v : UInt32) : (setBufWord s b k v).logged = s.logged := by
  unfold setBufWord
  split_ifs <;> rfl

theorem mapEntry_outcome (b k : ℕ) (s : FS) : Outcome s (bufWord s b k ≠ 0) (mapEntry b k s) := by
  unfold mapEntry
  split_ifs with h0
  · by_cases hf : DiskFull s
    · rw [balloc_full hf]
      exact .full (not_not.mpr h0) hf rfl rfl
    · have hlog := balloc_logs hf
      apply Outcome.logs (not_not.mpr h0) hf
      split
      · rename_i heq
        rwa [heq] at hlog
      · rename_i a t _ heq
        rw [heq] at hlog
        show _ < ((setBufWord t b k (UInt32.ofNat a)).logged).length + 1
        rw [setBufWord_logged]
        exact Nat.lt_succ_of_lt hlog
  · refine .found h0 (fun hc => h0 ?_) s.quirks rfl
    exact UInt32.toNat_inj.mp (hc.trans UInt32.toNat_zero.symm)

/-- **What `bmap` does to the log.** -/
theorem bmap_outcome (h : bmap ip bn s = .ok (a, t)) :
    Outcome s (Present s (s.itable ip).toDinode bn) (a, t) := by
  unfold bmap at h
  unfold Present
  by_cases hbn : bn < NDIRECT
  · rw [if_pos hbn] at h ⊢
    rw [← Except.ok.inj h]
    exact mapAddr_outcome ip bn s
  · rw [if_neg hbn] at h ⊢
    split_ifs at h with hin
    have hout := mapAddr_outcome ip NDIRECT s
    cases hm : mapAddr ip NDIRECT s with
    | mk b u =>
      rw [hm] at h hout
      cases b with
      | zero =>
        cases h
        cases hout with
        | found _ ha => exact absurd rfl ha
        | full hp hf _ hlog => exact .full (fun hc => hp hc.1) hf rfl hlog
        | logs hp hf hlog => exact .logs (fun hc => hp hc.1) hf hlog
      | succ b =>
        have hmap := Except.ok.inj h
        -- the recorded branch is the only change between the two addresses
        have hentry := mapEntry_outcome (b + 1) (bn - NDIRECT) (u.note .indirect)
        rw [hmap] at hentry
        cases hout with
        | found hp _ q hs =>
          obtain rfl : u = _ := hs
          have hb : (s.itable ip).addr NDIRECT = b + 1 := by
            have := congrArg Prod.fst hm
            rwa [mapAddr, if_neg hp] at this
          rw [hb]
          cases hentry with
          | found hw ha q' hs' => exact .found ⟨Nat.succ_ne_zero b, hw⟩ ha q' hs'
          | full hw hf ha hlog => exact .full (fun hc => hw hc.2) hf ha hlog
          | logs hw hf hlog => exact .logs (fun hc => hw hc.2) hf hlog
        | full _ _ ha => exact absurd ha (Nat.succ_ne_zero b)
        | logs hp hf hlog => exact .logs (fun hc => hp hc.1) hf (hlog.trans_le hentry.le)

theorem noteHole_eq (s : FS) (ip : Slot) (bn : ℕ) : ∃ q, s.noteHole ip bn = { s with quirks := q } := by
  unfold FS.noteHole
  split_ifs
  · exact ⟨_, rfl⟩
  · exact ⟨s.quirks, rfl⟩

theorem bmap_noteHole_outcome (h : bmap ip bn (s.noteHole ip bn) = .ok (a, t)) :
    Outcome s (Present s (s.itable ip).toDinode bn) (a, t) := by
  obtain ⟨q, hq⟩ := noteHole_eq s ip bn
  rw [hq] at h
  cases bmap_outcome h with
  | found hp ha q' hs => exact .found hp ha q' hs
  | full hp hf ha hlog => exact .full hp hf ha hlog
  | logs hp hf hlog => exact .logs hp hf hlog

theorem readLoop_logs_le {out : List UInt8} {r : Option ℕ × List UInt8}
    (h : readLoop ip dst n fuel tot off out s = .ok (r, t)) : s.logged.length ≤ t.logged.length := by
  induction fuel generalizing tot off out s with
  | zero =>
    cases h
    exact le_refl _
  | succ fuel ih =>
    rw [readLoop] at h
    by_cases htot : tot < n
    · rw [if_pos htot] at h
      obtain ⟨⟨addr, u⟩, hb, h⟩ := bind_eq_ok.mp h
      have hle : s.logged.length ≤ u.logged.length := (bmap_noteHole_outcome hb).le
      dsimp only at h
      split_ifs at h
      · cases h
        exact hle
      · exact hle.trans (ih h)
      · cases h
        exact hle
    · rw [if_neg htot] at h
      cases h
      exact le_refl _

theorem eitherCopyout_iff (dst : Dest) (pos m o : ℕ) (b : Block) :
    (eitherCopyout dst pos m o b).2 = true ↔ ∀ i < m, dst (pos + i) = true := by
  refine ⟨fun h => ?_, fun h => ?_⟩
  · have hlen : copyLen dst pos m = m := by simpa [eitherCopyout] using h
    exact fun i hi => ok_of_lt_copyLen (hi.trans_eq hlen.symm)
  · simp [eitherCopyout, copyLen_eq h]

theorem block_of_chunk {j : ℕ} (hj : tot ≤ j) (hj' : j < tot + chunk tot (off + tot) n) :
    (off + j) / BSIZE = (off + tot) / BSIZE := by
  have hblock := chunk_le_block tot (off + tot) n
  rw [show BSIZE = 1024 from rfl] at hblock ⊢
  omega

/-- The loop of `readi` writes nothing exactly if the disk is full or it meets only blocks that are
there. -/
theorem readLoop_quiet {out : List UInt8} {r : Option ℕ × List UInt8}
    (h : readLoop ip dst n fuel tot (off + tot) out s = .ok (r, t)) (hfuel : n ≤ fuel + tot)
    (hdst : ∀ i < tot, dst i = true) :
    t.logged = s.logged ↔ DiskFull s ∨ ∀ j, tot ≤ j → j < n → (∀ i < j, dst i = true) →
      Present s (s.itable ip).toDinode ((off + j) / BSIZE) := by
  induction fuel generalizing tot out s with
  | zero =>
    cases h
    exact ⟨fun _ => Or.inr fun j hj hjn => absurd hjn (by omega), fun _ => rfl⟩
  | succ fuel ih =>
    rw [readLoop] at h
    by_cases htot : tot < n
    · rw [if_pos htot] at h
      obtain ⟨⟨addr, u⟩, hb, h⟩ := bind_eq_ok.mp h
      dsimp only at h
      have hpos := chunk_pos (off + tot) htot
      cases bmap_noteHole_outcome hb with
      | found hp ha q hs =>
        rw [if_neg ha] at h
        obtain rfl : u = _ := hs
        -- the blocks of the bytes of this round are there; the others are those of the next rounds
        have hround : ∀ j, tot ≤ j → j < tot + chunk tot (off + tot) n →
            Present s (s.itable ip).toDinode ((off + j) / BSIZE) := by
          intro j hj hj'
          rw [block_of_chunk hj hj']
          exact hp
        by_cases hok : (eitherCopyout dst tot (chunk tot (off + tot) n) ((off + tot) % BSIZE)
            (s.buf addr)).2 = true
        · have hcopy := (eitherCopyout_iff ..).mp hok
          rw [if_pos hok, Nat.add_assoc] at h
          have hdst' : ∀ i < tot + chunk tot (off + tot) n, dst i = true := by
            intro i hi
            rcases Nat.lt_or_ge i tot with hlt | hge
            · exact hdst i hlt
            · have := hcopy (i - tot) (by omega)
              rwa [Nat.add_sub_cancel' hge] at this
          refine (ih h (by omega) hdst').trans (or_congr Iff.rfl ⟨fun hall j hj hjn hd => ?_,
            fun hall j hj hjn hd => hall j (by omega) hjn hd⟩)
          rcases Nat.lt_or_ge j (tot + chunk tot (off + tot) n) with hlt | hge
          · exact hround j hj hlt
          · exact hall j hge hjn hd
        · rw [if_neg hok] at h
          cases h
          refine ⟨fun _ => Or.inr fun j hj hjn hd => ?_, fun _ => rfl⟩
          rcases Nat.lt_or_ge j (tot + chunk tot (off + tot) n) with hlt | hge
          · exact hround j hj hlt
          · exact absurd ((eitherCopyout_iff ..).mpr fun i hi => hd _ (by omega)) hok
      | full hp hf ha hlog =>
        rw [if_pos ha] at h
        cases h
        exact ⟨fun _ => Or.inl hf, fun _ => hlog⟩
      | logs hp hf hlog =>
        have hle : u.logged.length ≤ t.logged.length := by
          split_ifs at h
          · cases h
            exact le_refl _
          · exact readLoop_logs_le h
          · cases h
            exact le_refl _
        refine ⟨fun heq => ?_, fun hor => ?_⟩
        · rw [heq] at hle
          exact absurd (hlog.trans_le hle) (lt_irrefl _)
        · rcases hor with hfull | hall
          · exact absurd hfull hf
          · exact absurd (hall tot (le_refl _) htot hdst) hp
    · rw [if_neg htot] at h
      cases h
      exact ⟨fun _ => Or.inr fun j hj hjn => absurd hjn (by omega), fun _ => rfl⟩

/-- **When `readi` writes nothing.** -/
theorem readi_quiet {r : Option ℕ × List UInt8} (h : readi ip dst off n s = .ok (r, t)) :
    t.logged = s.logged ↔ DiskFull s ∨ BlocksPresent s (s.itable ip).toDinode dst off n := by
  unfold readi at h
  unfold BlocksPresent readLen
  by_cases hout : (s.itable ip).size.toNat < off ∨ (off + n) % 2 ^ 32 < off
  · rw [if_pos hout] at h
    cases h
    rw [if_pos hout]
    exact ⟨fun _ => Or.inr fun j hj => absurd hj (Nat.not_lt_zero j), fun _ => rfl⟩
  · rw [if_neg hout] at h
    rw [if_neg hout]
    have hfirst : ∀ i < 0, dst i = true := fun i hi => absurd hi (Nat.not_lt_zero i)
    refine (readLoop_quiet h (by omega) hfirst).trans ?_
    exact or_congr Iff.rfl ⟨fun hall j hj hd => hall j (Nat.zero_le j) hj hd,
      fun hall j _ hj hd => hall j hj hd⟩

theorem ilock_record (h : ilock ip s = .ok t) :
    (t.itable ip).toDinode = record s ip ∧ t.sb = s.sb ∧ t.buf = s.buf ∧ t.hdr = s.hdr ∧
      t.logged = s.logged := by
  unfold ilock at h
  unfold record
  split_ifs at h with h1 h2 h3 h4
  · cases h
    rw [if_pos h3, FS.setInode_same]
    exact ⟨rfl, rfl, rfl, rfl, rfl⟩
  · cases h
    rw [if_neg h3, FS.setInode_same]
    exact ⟨rfl, rfl, rfl, rfl, rfl⟩

theorem iunlock_logged (h : iunlock ip s = .ok t) : t.logged = s.logged := by
  unfold iunlock at h
  split_ifs at h
  cases h
  rfl

/-- **When `fileread` writes nothing.** -/
theorem readInode_quiet {f : File} {m : ℤ} {r : Option ℕ × List UInt8 × File}
    (h : readInode dst m f s = .ok (r, t)) : t.logged = s.logged ↔ ReadsPresent s f dst m := by
  unfold readInode at h
  obtain ⟨s₁, h₁, h⟩ := bind_eq_ok.mp h
  obtain ⟨⟨⟨r', bytes⟩, s₂⟩, h₂, h⟩ := bind_eq_ok.mp h
  obtain ⟨s₃, h₃, h⟩ := bind_eq_ok.mp h
  cases h
  obtain ⟨hrec, hsb, hbuf, hhdr, hlog⟩ := ilock_record h₁
  have hq := readi_quiet h₂
  rw [iunlock_logged h₃, ← hlog, hq, hrec]
  unfold ReadsPresent DiskFull BlocksPresent Present bufWord FS.used
  rw [hsb, hbuf, hhdr]

end Reading

/-! ## Balanced calls -/

/-- Process `p` has no lock of an inode, each of its transactions has ended, none was begun inside
another one, and all calls of `log_write` were inside one. -/
structure Balanced (p : Fin NPROC) (k : Kernel) : Prop where
  unlocked : ∀ ip, (k.fs.itable ip).lock ≠ some p.val
  ended : k.account.begins = k.account.ends
  flat : k.account.nested = false
  inside : k.account.outside = false

/-- If the call is a read from a file, it meets only blocks that are there, or the disk is full. -/
def Quiet (k : Kernel) : Op → Prop
  | .read p fd dst n => ∀ x, argfd p fd k = some x → (k.file x.2).readable = true →
      (k.file x.2).type = .inode → ReadsPresent k.fs (k.file x.2) dst n
  | _ => True

section Calls

variable {σ π : Type} {mem : Memory σ π} {devsw : DevSw} {x x' : Kernel × σ} {op : Op} {o : Others}
  {k k' : Kernel} {p : Fin NPROC}

/-- Whether a read that starts with a fresh account calls `log_write` outside of a transaction. -/
theorem fileread_outside {f : FileNo} {dst : Dest} {n : ℤ} {r : Option ℕ × List UInt8}
    (hk : k.account = .fresh) (h : fileread devsw f dst n k = .ok (r, k')) :
    k'.account.outside = false ↔ ((k.file f).readable = true → (k.file f).type = .inode →
      ReadsPresent k.fs (k.file f) dst n) := by
  have hout : k.account.outside = false := by
    rw [hk]
    rfl
  unfold fileread at h
  by_cases hread : (k.file f).readable = false
  · rw [if_pos hread] at h
    cases h
    simp [hread, hout]
  · rw [if_neg hread] at h
    cases htype : (k.file f).type with
    | none =>
      rw [htype] at h
      cases h
    | pipe =>
      rw [htype] at h
      cases h
      simp [hout]
    | device =>
      rw [htype] at h
      dsimp only at h
      split at h
      · cases h
        simp [hout]
      · cases h
        simp [hout]
    | inode =>
      rw [htype] at h
      obtain ⟨⟨⟨m, bytes, v⟩, k₁⟩, hk₁, h⟩ := bind_eq_ok.mp h
      cases h
      obtain ⟨s, hs, rfl⟩ := call_eq_ok hk₁
      have hq := readInode_quiet hs
      have houter : ((k.enter s).setFile f v).account.outside = decide (s.logged ≠ k.fs.logged) := by
        simp [Kernel.setFile, Kernel.enter, hk, Account.fresh]
      rw [houter, decide_eq_false_iff_not, not_not, hq]
      simp [hread]

theorem sysRead_outside {fd n : ℤ} {dst : Dest} (hk : k.account = .fresh) :
    Post (fun r => r.2.account.outside = false ↔ Quiet k (.read p fd dst n))
      (sysRead devsw p fd dst n k) := by
  rintro ⟨r, k'⟩ h
  unfold sysRead at h
  unfold Quiet
  cases hfd : argfd p fd k with
  | none =>
    rw [hfd] at h
    cases h
  | some x =>
    rw [hfd] at h
    rw [fileread_outside hk h]
    refine ⟨fun hread y hy => ?_, fun hall => hall x hfd⟩
    cases hfd.symm.trans hy
    exact hread

theorem settled_balanced {out : Bool} (ho : ∀ ip, o.lock ip ≠ some p.val) (h : Settled o out k) :
    Balanced p k ↔ out = false := by
  refine ⟨fun hb => h.outside.symm.trans hb.inside, fun hout => ⟨fun ip => ?_, h.begins, h.nested, ?_⟩⟩
  · rw [h.inode.lock ip, if_neg List.not_mem_nil]
    exact ho ip
  · exact h.outside.trans hout

/-- **System calls are balanced**: a call that returns has left nothing locked and has ended its
transactions, and `log_write` was called inside them unless the call is a read that meets a block
which is not there. The functions that lock buffers have released them when they return. -/
theorem calls_balanced (ho : ∀ ip, o.lock ip ≠ some op.caller.val)
    (h : Settled o false (x.1.start op.caller)) (hl : Legal x op)
    (hn : next mem devsw x op = .ok x') :
    (Balanced op.caller x'.1 ↔ Quiet x.1 op) ∧
      ∀ (c : Buffers.Call) (y y' : Buffers.Locked), c.run y = .ok y' →
        y'.held = y.held ∧ c.plain y.fs = .ok y'.fs := by
  refine ⟨?_, fun c y y' hc => c.releases hc⟩
  obtain ⟨out, hs, hread⟩ := settled_next h hl x' hn
  rw [settled_balanced ho hs]
  by_cases hop : ∃ p fd dst n, op = .read p fd dst n
  · obtain ⟨p, fd, dst, n, rfl⟩ := hop
    rw [show out = x'.1.account.outside from hs.outside.symm]
    have hread := post_onKernel (Q := fun k' => k'.account.outside = false ↔
      Quiet (x.1.start p) (.read p fd dst n)) (sysRead_outside rfl) x' hn
    exact hread
  · have hout : out = false := by
      cases out with
      | false => rfl
      | true => exact absurd (hread rfl) hop
    refine ⟨fun _ => ?_, fun _ => hout⟩
    cases op with
    | read p fd dst n => exact absurd ⟨p, fd, dst, n, rfl⟩ hop
    | _ => trivial

end Calls

/-! ## Two reads -/

/-- A file of fourteen blocks, as `mkfs` makes it: the last two are in the indirect block. -/
def longRecord : Dinode :=
  { Dinode.zero with
    type := T_FILE
    nlink := 1
    size := 14 * 1024
    addrs := fun k => UInt32.ofNat (40 + k.val) }

/-- The small disk with this file as inode 2, of which a pointer is in an open file. -/
def longFS : FS :=
  { smallFS with
    buf := fun b =>
      if b = 32 then writeDinode (smallFS.buf 32) 2 longRecord
      else if b = 34 then fun i => if i.val < 6 then 255 else if i.val = 6 then 127 else 0
      else if b = 52 then ByteBlock.setU32 (ByteBlock.setU32 (fun _ => 0) 0 53) 4 54
      else fun _ => 0
    itable := fun ip =>
      if ip.val = 0 then { Inode.empty with dev := ROOTDEV, inum := ROOTINO, ref := 1 }
      else if ip.val = 1 then { Inode.empty with dev := ROOTDEV, inum := 2, ref := 1 }
      else Inode.empty
    quirks := [.indirect] }

/-- A process has the file open at offset `off`. Another process is inside a transaction. -/
def longKernel (off : UInt32) : Kernel where
  fs := longFS
  file := fun f => if f.val = 0 then ⟨.inode, 1, true, false, secondSlot, off, 0⟩
    else ⟨.none, 0, false, false, firstSlot, 0, 0⟩
  proc := fun p =>
    if p.val = 0 then ⟨.alive, fun fd => if fd.val = 0 then some ⟨0, by decide⟩ else none,
      some firstSlot⟩
    else ⟨.unused, fun _ => none, none⟩
  account := .fresh
  outstanding := 1

/-- Block `bn` of a file is there: its number is in the record, or in the data of the indirect
block. -/
def OnDisk (s : FS) (d : Dinode) (bn : ℕ) : Prop :=
  if bn < NDIRECT then d.addr bn ≠ 0
  else d.addr NDIRECT ≠ 0 ∧ s.entry (d.addr NDIRECT) (bn - NDIRECT) ≠ 0

instance (s : FS) (d : Dinode) (bn : ℕ) : Decidable (OnDisk s d bn) := by
  unfold OnDisk
  infer_instance

/-- All blocks of the files on the disk are there. -/
def NoHoles (s : FS) : Prop :=
  ∀ i < s.sb.ninodes, (s.dinode i).type ≠ 0 →
    ∀ bn < MAXFILE, bn * BSIZE < (s.dinode i).size.toNat → OnDisk s (s.dinode i) bn

instance (s : FS) : Decidable (NoHoles s) := by
  unfold NoHoles
  infer_instance

theorem ofile_longKernel (off : UInt32) (x : Fin NPROC × Fin NOFILE) (f : FileNo) :
    ((longKernel off).proc x.1).ofile x.2 = some f ↔
      f.val = 0 ∧ x = (⟨0, by decide⟩, ⟨0, by decide⟩) := by
  unfold longKernel
  dsimp only
  split_ifs with hp
  · simp [Prod.ext_iff, Fin.ext_iff, hp, eq_comm, and_comm]
  · simp [Prod.ext_iff, Fin.ext_iff, hp]

theorem fdRefs_longKernel (off : UInt32) (f : FileNo) :
    ((longKernel off).file f).ref = fdRefs (longKernel off) f := by
  unfold fdRefs
  simp only [ofile_longKernel]
  by_cases hf : f.val = 0
  · simp [longKernel, hf]
  · simp [longKernel, hf]

theorem refs_longKernel (off : UInt32) (ip : Slot) :
    (longFS.itable ip).ref = fileRefs (longKernel off) ip + cwdRefs (longKernel off) ip := by
  have hzero : ∀ ip, (longFS.itable ip).ref =
      fileRefs (longKernel 0) ip + cwdRefs (longKernel 0) ip := by
    decide +kernel
  -- the pointers do not depend on the offset
  have hfile : ∀ f, ((longKernel off).file f).type = ((longKernel 0).file f).type ∧
      ((longKernel off).file f).ip = ((longKernel 0).file f).ip := by
    intro f
    unfold longKernel
    dsimp only
    split_ifs <;> exact ⟨rfl, rfl⟩
  have hrefs : fileRefs (longKernel off) ip = fileRefs (longKernel 0) ip := by
    unfold fileRefs
    refine Finset.sum_congr rfl fun f _ => ?_
    rw [(hfile f).1, (hfile f).2]
  rw [hrefs]
  exact hzero ip

theorem settled_longKernel (off : UInt32) :
    Settled nobody false ((longKernel off).start ⟨0, by decide⟩) where
  file f := by
    rw [List.count_nil, Nat.add_zero]
    exact fdRefs_longKernel off f
  typed f := by
    unfold longKernel Kernel.start
    dsimp only
    split_ifs
    · exact Or.inr ⟨Or.inl rfl, Nat.one_pos⟩
    · exact Or.inl ⟨rfl, rfl⟩
  inode := by
    have hlock : ∀ ip, (longFS.itable ip).lock = none := by decide
    refine ⟨{ longFS with pid := 0 }, ⟨?_, fun hq => ?_⟩, fun ip => ⟨?_, hlock ip⟩⟩
    · refine ⟨layout_smallSb, rfl, rfl, List.suffix_refl _, fun _ => rfl, fun _ => rfl, fun ip hip => ?_,
        fun ip hip => absurd hip List.not_mem_nil, List.nodup_nil⟩
      exact absurd (hlock ip) hip
    · cases hq
    · rw [Kernel.refs, show nobody.extra ip = 0 from rfl, Nat.add_zero]
      exact refs_longKernel off ip
  procs p := by
    unfold longKernel Kernel.start
    dsimp only
    split_ifs
    · refine ⟨fun _ => Option.some_ne_none _, fun hs => ?_⟩
      rcases hs with hs | hs <;> cases hs
    · refine ⟨fun hs => ?_, fun _ => ⟨fun _ => rfl, rfl⟩⟩
      cases hs
  begins := rfl
  inside := rfl
  nested := rfl
  outside := rfl

theorem nobody_lock_ne (pid : ℕ) (ip : Slot) : nobody.lock ip ≠ some pid := (Option.some_ne_none pid).symm

/-- A read of one byte by the first process. -/
def readByte : Op := .read firstProc 0 kernelDst 1

/-- No device has handlers. -/
def noDevices : DevSw := fun _ => ⟨none, none⟩

/-- The state after the read. -/
def afterRead (off : UInt32) : Kernel × Unit :=
  after (next freeMemory noDevices) (longKernel off, ()) [readByte]

theorem next_readByte {off : UInt32}
    (h : errorOf (exec (next freeMemory noDevices) (longKernel off, ()) [readByte]) = none) :
    next freeMemory noDevices (longKernel off, ()) readByte = .ok (afterRead off) := by
  exact (exec_singleton _ _).symm.trans (exec_eq_after h)

theorem calls_balanced_firstByte :
    Legal (longKernel 0, ()) readByte ∧
      next freeMemory noDevices (longKernel 0, ()) readByte = .ok (afterRead 0) ∧
      Quiet (longKernel 0) readByte ∧ Balanced ⟨0, by decide⟩ (afterRead 0).1 := by
  have hrun : errorOf (exec (next freeMemory noDevices) (longKernel 0, ()) [readByte]) = none ∧
      Legal (longKernel 0, ()) readByte ∧ (afterRead 0).1.account.outside = false := by
    decide
  have hn := next_readByte hrun.1
  have h := (calls_balanced (o := nobody) (nobody_lock_ne _) (settled_longKernel 0) hrun.2.1 hn).1
  have hb : Balanced ⟨0, by decide⟩ (afterRead 0).1 := by
    obtain ⟨out, hs, -⟩ := settled_next (settled_longKernel 0) hrun.2.1 _ hn
    exact (settled_balanced (nobody_lock_ne _) hs).mpr (hs.outside.symm.trans hrun.2.2)
  exact ⟨hrun.2.1, hn, h.mp hb, hb⟩

/-- **A read writes outside of a transaction**: no file has a hole and the state is in order, but for
the block after the first indirect one `bmap` finds a zero in the header of the buffer, and allocates
a block. -/
theorem read_writes_outside :
    NoHoles longFS ∧ Settled nobody false ((longKernel 13312).start ⟨0, by decide⟩) ∧
      Legal (longKernel 13312, ()) readByte ∧
      next freeMemory noDevices (longKernel 13312, ()) readByte = .ok (afterRead 13312) ∧
      (afterRead 13312).1.account.outside = true ∧ ¬ Balanced ⟨0, by decide⟩ (afterRead 13312).1 := by
  have hrun : NoHoles longFS ∧
      errorOf (exec (next freeMemory noDevices) (longKernel 13312, ()) [readByte]) = none ∧
      Legal (longKernel 13312, ()) readByte ∧ (afterRead 13312).1.account.outside = true := by
    decide +kernel
  refine ⟨hrun.1, settled_longKernel 13312, hrun.2.2.1, next_readByte hrun.2.1, hrun.2.2.2, fun hb => ?_⟩
  exact Bool.false_ne_true (hb.inside.symm.trans hrun.2.2.2)

end RiscvOs.Sys.Balance
