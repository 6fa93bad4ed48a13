import RiscvOs.Fs.Consistent

set_option autoImplicit false

/-!
# The calls on inodes keep the disk consistent

One lemma for each call on an inode, for states in which no branch was recorded. A call that is
composed of others goes through states that may have become irregular on the way; the lemmas
are stated for all states, and say nothing about an irregular one except that `bfree` does not
blame a regular history.

## Main results

* `Consistent.ilock`, `Consistent.iunlock`, `Consistent.iget`,
  `Consistent.ialloc` — calls that free no block.
* `itrunc_history`, `iput_history` — a panic of `bfree` shows the branches
  that were recorded before.
* `iput_dropped` — `iput` keeps the disk consistent.
* `Settled.dropped`, `settled_iget` — `iput` of a slot that has a copy of the inode, or is not the last pointer.
-/

namespace RiscvOs.Fs

open Function Loop

/-! ## Calls that free no block -/

section Slots

variable {s t : FS} {ip : Slot}

theorem Consistent.of_table (h : Consistent s) (ht : Table t) (hsb : t.sb = s.sb)
    (hbuf : t.buf = s.buf) : Consistent t := by
  refine ⟨ht, ?_, hsb ▸ h.small⟩
  have hdin : t.dinode = s.dinode := by
    funext i
    rw [FS.dinode, FS.dinode, hsb, hbuf]
  rw [hdin, hsb, hbuf]
  exact h.owned

/-- Changing the lock of a slot. -/
def FS.setLock (s : FS) (ip : Slot) (l : Option ℕ) : FS :=
  s.setInode ip { s.itable ip with lock := l }

theorem FS.setLock_slot (s : FS) (ip : Slot) (l : Option ℕ) (jp : Slot) :
    ∃ l', (s.setLock ip l).itable jp = { s.itable jp with lock := l' } := by
  by_cases hj : jp = ip
  · subst hj
    exact ⟨l, FS.setInode_same _ _ _⟩
  · exact ⟨(s.itable jp).lock, FS.setInode_of_ne _ _ _ hj⟩

theorem ilock_cases (hn : ilock ip s = .ok t) :
    0 < (s.itable ip).ref ∧
      (((s.itable ip).valid = true ∧
          t = s.setLock ip (some s.pid)) ∨
        ((s.itable ip).valid = false ∧ (s.dinode (s.itable ip).inum).type ≠ 0 ∧
          t = s.setInode ip { s.itable ip with
            toDinode := s.dinode (s.itable ip).inum, lock := some s.pid, valid := true })) := by
  rw [ilock] at hn
  split_ifs at hn with h1 h2 hv h3 <;> cases hn
  · exact ⟨by omega, Or.inl ⟨hv, rfl⟩⟩
  · exact ⟨by omega, Or.inr ⟨by simpa using hv, h3, rfl⟩⟩

theorem ilock_same (hn : ilock ip s = .ok t) :
    t.sb = s.sb ∧ ∀ jp, (t.itable jp).ref = (s.itable jp).ref ∧ (t.itable jp).inum = (s.itable jp).inum := by
  obtain ⟨-, ⟨-, rfl⟩ | ⟨-, -, rfl⟩⟩ := ilock_cases hn
  · refine ⟨rfl, fun jp => ?_⟩
    obtain ⟨l, hl⟩ := s.setLock_slot ip (some s.pid) jp
    rw [hl]
    exact ⟨rfl, rfl⟩
  · refine ⟨rfl, fun jp => ?_⟩
    by_cases hj : jp = ip
    · rw [hj, FS.setInode_same]
      exact ⟨rfl, rfl⟩
    · rw [FS.setInode_of_ne _ _ _ hj]
      exact ⟨rfl, rfl⟩

theorem Consistent.ilock (h : Consistent s) (hi : (s.itable ip).inum < s.sb.records)
    (hn : Fs.ilock ip s = .ok t) : Consistent t := by
  refine h.of_table (h.table.ilock hi hn) ?_ ?_ <;>
    rcases ilock_cases hn with ⟨-, ⟨-, rfl⟩ | ⟨-, -, rfl⟩⟩ <;> rfl

theorem iunlock_cases (hn : iunlock ip s = .ok t) :
    0 < (s.itable ip).ref ∧ (s.itable ip).lock = some s.pid ∧
      t = s.setLock ip none := by
  rw [iunlock] at hn
  split_ifs at hn with h1
  cases hn
  rw [not_or, not_lt, not_not] at h1
  exact ⟨h1.1, h1.2, rfl⟩

theorem Consistent.iunlock (h : Consistent s) (hn : Fs.iunlock ip s = .ok t) :
    Consistent t ∧ Droppable ip t := by
  obtain ⟨ht, hd⟩ := h.table.iunlock hn
  obtain ⟨-, -, rfl⟩ := iunlock_cases hn
  exact ⟨h.of_table ht rfl rfl, hd⟩

theorem Consistent.idup (h : Consistent s) (hpos : 0 < (s.itable ip).ref) :
    Consistent (Fs.idup ip s) :=
  h.of_table (h.table.idup hpos) rfl rfl

theorem Consistent.iget {inum : ℕ} (h : Consistent s) (hn : Fs.iget ROOTDEV inum s = .ok (ip, t)) :
    Consistent t ∧ Droppable ip t := by
  obtain ⟨ht, hd, -⟩ := h.table.iget hn
  refine ⟨?_, hd⟩
  rcases iget_cases hn with ⟨-, -, -, rfl⟩ | ⟨-, -, rfl⟩ <;> exact h.of_table ht rfl rfl

theorem Consistent.claim {inum : ℕ} (h : Consistent s) (hi : inum < s.sb.records)
    (h0 : (s.dinode inum).type = 0) (type : UInt16) : Consistent (s.claimInode inum type) := by
  refine ⟨h.table.claim h0 type, ?_, h.small⟩
  have hnew : ({ Dinode.zero with type := type } : Dinode).Bare := Or.inr fun k => by
    rw [Dinode.addr]
    split_ifs <;> rfl
  refine (h.owned.update_bare (Or.inl h0) hnew).setDinode h.table.layout.wide hi _ fun j _ => ?_
  rw [FS.dinode_claimInode]
  by_cases hj : j = inum
  · rw [if_pos hj, hj, update_self]
  · rw [if_neg hj, update_of_ne hj]

theorem Consistent.ialloc {type : UInt16} (h : Consistent s)
    (hn : Fs.ialloc ROOTDEV type s = .ok (some ip, t)) : Consistent t ∧ Droppable ip t := by
  obtain ⟨inum, hi, h0, hg⟩ := ialloc_eq_some hn
  exact (h.claim (hi.trans_le h.table.layout.ninodes_le) h0 type).iget hg

theorem consistent_smallFS : Consistent smallFS := by
  refine ⟨⟨layout_smallSb, fun _ h => absurd h (lt_irrefl 0), fun _ h => absurd h (lt_irrefl 0),
    fun _ _ h => absurd h (lt_irrefl 0), fun _ h => absurd h (lt_irrefl 0),
    fun _ _ h => absurd h (by simp [smallFS, Inode.empty])⟩, ?_, by decide⟩
  have haddrs : ∀ i < smallSb.records, ∀ k, (smallFS.dinode i).addrs k = 0 := by decide
  have hbits : ∀ b < smallSb.size, blockUsed smallSb smallFS.buf b = decide (b < smallSb.dataStart) := by
    decide
  refine owned_of_bare (fun i hi => Or.inr fun k => ?_) (fun b hb => ?_) (fun b h1 h2 => ?_)
    (by decide)
  · rw [Dinode.addr]
    split_ifs
    · rw [haddrs i hi]
      rfl
    · rfl
  · exact (hbits b (hb.trans (by decide))).trans (decide_eq_true hb)
  · exact (hbits b h2).trans (decide_eq_false (Nat.not_lt.mpr h1))

end Slots

/-! ## Calls that free blocks -/

/-- The state satisfies `Q` unless one of the recorded branches was taken. -/
def Clean (Q : FS → Prop) (s : FS) : Prop := s.quirks = [] → Q s

theorem safe_of_ne {α : Type} {x : Except Panic α} (h : ∀ q, x ≠ .error (.bfree q)) :
    Safe Fatal (fun r => x = .ok r) x := by
  cases x with
  | ok r => rfl
  | error e =>
    intro he
    exact h [] (congrArg Except.error he)

theorem ilock_ne_bfree (ip : Slot) (s : FS) (q : List Quirk) : ilock ip s ≠ .error (.bfree q) := by
  intro h
  rw [ilock] at h
  split_ifs at h <;> cases h

theorem iunlock_ne_bfree (ip : Slot) (s : FS) (q : List Quirk) : iunlock ip s ≠ .error (.bfree q) := by
  intro h
  rw [iunlock] at h
  split_ifs at h
  cases h

theorem iget_ne_bfree (dev inum : ℕ) (s : FS) (q : List Quirk) :
    iget dev inum s ≠ .error (.bfree q) := by
  intro hq
  rw [iget] at hq
  split at hq
  · cases hq
  · split at hq <;> cases hq

theorem iget_safe (dev inum : ℕ) (s : FS) :
    Safe Fatal (fun r => iget dev inum s = .ok r) (iget dev inum s) :=
  safe_of_ne (iget_ne_bfree dev inum s)

theorem ialloc_ne_bfree (dev : ℕ) (type : UInt16) (s : FS) (q : List Quirk) :
    ialloc dev type s ≠ .error (.bfree q) := by
  intro hq
  rw [ialloc] at hq
  split at hq
  · cases hq
  · rename_i inum _
    cases hg : iget dev inum (s.claimInode inum type) with
    | ok r =>
      rw [hg] at hq
      cases hq
    | error e =>
      rw [hg] at hq
      cases hq
      exact iget_ne_bfree _ _ _ q hg

/-- A panic of `bfree` that shows another history than `q`. -/
def Shows (q : List Quirk) (e : Panic) : Prop := ∃ q', e = .bfree q' ∧ q' ≠ q

section History

variable {s : FS} {ip : Slot}

theorem not_shows_bfree (q : List Quirk) : ¬ Shows q (.bfree q) := by
  rintro ⟨q', he, hne⟩
  injection he with he
  exact hne he.symm

theorem bfree_history (b : ℕ) (s : FS) :
    Safe (Shows s.quirks) (fun t : FS => t.quirks = s.quirks) (bfree b s) := by
  rw [bfree]
  split_ifs
  · rfl
  · exact not_shows_bfree _

theorem history_bind {q : List Quirk} {x : Except Panic FS} {f : FS → Except Panic FS}
    (hx : Safe (Shows q) (fun t : FS => t.quirks = q) x)
    (hf : ∀ t : FS, Safe (Shows t.quirks) (fun u : FS => u.quirks = t.quirks) (f t)) :
    Safe (Shows q) (fun t : FS => t.quirks = q) (x >>= f) := by
  refine hx.bind fun t ht => ?_
  have := hf t
  rwa [ht] at this

theorem history_loop {f : FS → ℕ → Except Panic FS} (n : ℕ) (s : FS)
    (hf : ∀ (t : FS) i, Safe (Shows t.quirks) (fun u : FS => u.quirks = t.quirks) (f t i)) :
    Safe (Shows s.quirks) (fun t : FS => t.quirks = s.quirks)
      ((List.range n).foldlM f s) := by
  refine Safe.foldlM_range (fun _ (t : FS) => t.quirks = s.quirks) rfl fun i _ t ht => ?_
  have := hf t i
  rwa [ht] at this

theorem iupdate_history (ip : Slot) (s : FS) :
    Safe (Shows s.quirks) (fun t : FS => t.quirks = s.quirks) (iupdate ip s) := by
  rw [iupdate]
  split_ifs
  · simp [Safe, Shows]
  · rfl

theorem freeDirect_history (i : ℕ) (s : FS) :
    Safe (Shows s.quirks) (fun t : FS => t.quirks = s.quirks) (freeDirect ip s i) := by
  rw [freeDirect]
  split_ifs
  · rfl
  · exact history_bind (bfree_history _ s) fun t => rfl

theorem freeIndirect_history (s : FS) :
    Safe (Shows s.quirks) (fun t : FS => t.quirks = s.quirks) (freeIndirect ip s) := by
  rw [freeIndirect]
  split_ifs
  · rfl
  · refine history_bind (history_loop _ s fun t i => ?_) fun t =>
      history_bind (bfree_history _ t) fun u => rfl
    rw [freeEntry]
    split_ifs
    · rfl
    · exact bfree_history _ t

theorem itrunc_history (ip : Slot) (s : FS) :
    Safe (Shows s.quirks) (fun t : FS => t.quirks = s.quirks) (itrunc ip s) := by
  rw [itrunc]
  exact history_bind (history_loop _ s fun t i => freeDirect_history i t) fun t =>
    history_bind (freeIndirect_history t) fun u => iupdate_history ip _

theorem destroy_history (ip : Slot) (s : FS) :
    Safe (Shows s.quirks) (fun t : FS => t.quirks = s.quirks) (destroy ip s) := by
  rw [destroy]
  split_ifs
  · simp [Safe, Shows]
  · exact history_bind (itrunc_history ip (s.setInode ip _)) fun t =>
      history_bind (iupdate_history ip _) fun u => rfl

theorem iput_history (ip : Slot) (s : FS) : ∃ q, s.quirks <:+ q ∧
    Safe (Shows q) (fun t : FS => t.quirks = q) (iput ip s) := by
  rw [iput]
  split_ifs
  · exact ⟨s.quirks, List.suffix_refl _, history_bind (destroy_history ip s) fun t => rfl⟩
  · exact ⟨.stale :: s.quirks, List.suffix_cons _ _,
      history_bind (destroy_history ip (s.note .stale)) fun t => rfl⟩
  · exact ⟨s.quirks, List.suffix_refl _, rfl⟩

theorem safe_of_shows {q : List Quirk} {x : Except Panic FS} {Q : FS → Prop} (hq : q ≠ [])
    (h : Safe (Shows q) Q x) : Safe Fatal Q x := by
  cases x with
  | ok t => exact h
  | error e =>
    intro he
    exact h ⟨[], he, Ne.symm hq⟩

theorem iput_irregular (hq : s.quirks ≠ []) :
    Safe Fatal (fun t : FS => t.quirks ≠ []) (iput ip s) := by
  obtain ⟨q, hsuf, hsafe⟩ := iput_history ip s
  have hne : q ≠ [] := by
    rintro rfl
    exact hq (List.suffix_nil.mp hsuf)
  exact (safe_of_shows hne hsafe).mono fun t ht => ht ▸ hne

/-- `iput` does not free an inode of which the slot has no copy. -/
def Settled (ip : Slot) (s : FS) : Prop :=
  (s.itable ip).valid = true ∨ (s.itable ip).ref ≠ 1 ∨ (s.itable ip).nlink ≠ 0

theorem iput_settled (h : Settled ip s) :
    Safe (Shows s.quirks) (fun t : FS => t.quirks = s.quirks) (iput ip s) := by
  rw [iput]
  split_ifs with hfree hv
  · exact history_bind (destroy_history ip s) fun t => rfl
  · rcases h with h | h | h
    · exact absurd h hv
    · exact absurd hfree.1 h
    · exact absurd hfree.2 h
  · rfl

theorem iput_suffix {t : FS} (hn : iput ip s = .ok t) : s.quirks <:+ t.quirks := by
  obtain ⟨q, hsuf, hsafe⟩ := iput_history ip s
  rw [hsafe.of_eq_ok hn]
  exact hsuf

end History

section Stale

variable {s t : FS} {ip : Slot}

/-- No slot stands for the inode, and the slot that `iget` would take has no links left from the inode before. -/
def Stale (s : FS) (inum : ℕ) : Prop :=
  (∀ ip, 0 < (s.itable ip).ref → (s.itable ip).inum ≠ inum) ∧
    ∃ ip, (s.itable ip).ref = 0 ∧ (∀ jp < ip, 0 < (s.itable jp).ref) ∧ (s.itable ip).nlink = 0

theorem iget_first {dev inum : ℕ} (hn : iget dev inum s = .ok (ip, t)) (h0 : (s.itable ip).ref = 0) :
    (∀ jp, 0 < (s.itable jp).ref → (s.itable jp).dev = dev → (s.itable jp).inum ≠ inum) ∧
      ∀ jp < ip, 0 < (s.itable jp).ref := by
  rcases iget_cases hn with ⟨hpos, -⟩ | ⟨hno, -, -⟩
  · omega
  · refine ⟨hno, ?_⟩
    rw [iget] at hn
    split at hn
    · rename_i jp hlive
      have hjp := List.find?_some hlive
      simp only [Bool.and_eq_true, decide_eq_true_eq, beq_iff_eq] at hjp
      exact absurd hjp.2 (hno jp hjp.1.1 hjp.1.2)
    · split at hn
      · cases hn
      · rename_i hfree
        cases hn
        obtain ⟨-, k, hk, hget, hbefore⟩ := List.find?_eq_some_iff_getElem.mp hfree
        intro jp hjp
        have hval : k = ip.val := by
          rw [← hget, List.getElem_finRange]
          rfl
        have hlt : jp.val < k := hval ▸ hjp
        have hnot := hbefore jp.val hlt
        exact Nat.pos_of_ne_zero fun hzero => by simp [hzero] at hnot

theorem settled_iget {inum : ℕ} (h : Table s) (hstale : ¬ Stale s inum)
    (hn : iget ROOTDEV inum s = .ok (ip, t)) : Settled ip t := by
  rcases iget_cases hn with ⟨hpos, -, -, rfl⟩ | ⟨hno, h0, rfl⟩
  · refine Or.inr (Or.inl ?_)
    rw [FS.setInode_same]
    exact fun h1 => hpos.ne' (Nat.succ.inj h1)
  · refine Or.inr (Or.inr ?_)
    rw [FS.setInode_same]
    exact fun hnlink => hstale ⟨fun jp hj => hno jp hj (h.dev jp hj), ip, h0, (iget_first hn h0).2, hnlink⟩

end Stale

section Iput

variable {s t : FS} {ip : Slot}

theorem destroy_owned (h : Consistent s) (hpos : 0 < (s.itable ip).ref)
    (hv : (s.itable ip).valid = true) :
    Safe Fatal (fun u => Owned u.sb.wide u.buf u.dinode ∧ u.quirks = s.quirks ∧
      ∀ b, s.sb.dataStart ≤ b → b < s.sb.size → u.buf b = s.buf b) (destroy ip s) := by
  have hi := h.table.range ip hpos hv
  have ht := (h.table.coherent ip hpos hv).2
  have ho := (h.owned_recs hpos hv).setInode
    (v := { s.itable ip with lock := some s.pid }) rfl rfl rfl
  rw [destroy]
  split_ifs
  · simp [Safe, Fatal]
  · have htrunc := itrunc_owned (s := s.setInode ip { s.itable ip with lock := some s.pid }) ho
      h.table.layout (by rw [FS.setInode_same]; exact hi) (by rw [FS.setInode_same]; exact ht)
    refine htrunc.bind fun u ⟨hou, hq, hsb, hdata, hinum, hbare⟩ => ?_
    rw [FS.setInode_same] at hinum hbare
    refine Safe.bind (P := fun w => iupdate ip (u.setInode ip { u.itable ip with type := 0 }) =
      .ok w) (fatal_of_freed (iupdate_safe fun w hw => hw)) fun w hw => ?_
    have hi' : ((u.setInode ip { u.itable ip with type := 0 }).itable ip).inum < u.sb.records := by
      rw [FS.setInode_same, hsb]
      exact hinum ▸ hi
    have hnew : Owned u.sb.wide u.buf ((u.setInode ip { u.itable ip with type := 0 }).recs ip) := by
      rw [FS.recs, FS.setInode_same]
      exact hou.update_bare (hinum ▸ hbare) (Or.inl rfl)
    have how := hnew.iupdate (t := u.setInode ip { u.itable ip with type := 0 })
      (hsb ▸ h.table.layout) hi' hw
    obtain ⟨-, rfl⟩ := iupdate_eq_ok.mp hw
    refine ⟨how, hq, fun b hlo hhi => ?_⟩
    refine Eq.trans (update_of_ne ?_ _ _) (hdata b hlo hhi)
    rw [FS.setInode_same, FS.setInode_sb, hsb, hinum]
    exact (h.table.layout.inode_lt (record_lt hi) hlo hhi).ne'

/-- What `iput` leaves behind in a regular state. -/
structure Dropped (ip : Slot) (s t : FS) : Prop where
  consistent : Consistent t
  sb : t.sb = s.sb
  pid : t.pid = s.pid
  other : ∀ jp, jp ≠ ip → t.itable jp = s.itable jp
  ref : (t.itable ip).ref = (s.itable ip).ref - 1
  lock : (t.itable ip).lock = (s.itable ip).lock
  shared : 1 < (s.itable ip).ref →
    t.itable ip = { s.itable ip with ref := (s.itable ip).ref - 1 }
  data : ∀ b, s.sb.dataStart ≤ b → b < s.sb.size → t.buf b = s.buf b

theorem dropped_drop (h : Consistent s) (hd : Droppable ip s) :
    Dropped ip s (s.setInode ip { s.itable ip with ref := (s.itable ip).ref - 1 }) := by
  refine ⟨h.of_table (h.table.drop hd) rfl rfl, rfl, rfl, fun jp hj => FS.setInode_of_ne _ _ _ hj,
    ?_, ?_, fun _ => FS.setInode_same _ _ _, fun _ _ _ => rfl⟩
  · rw [FS.setInode_same]
  · rw [FS.setInode_same]

theorem dropped_destroy {u : FS} (h : Consistent s) (hd : Droppable ip s)
    (hfree : (s.itable ip).ref = 1 ∧ (s.itable ip).nlink = 0)
    (hu : destroy ip s = .ok u) (ho : Owned u.sb.wide u.buf u.dinode)
    (hdata : ∀ b, s.sb.dataStart ≤ b → b < s.sb.size → u.buf b = s.buf b) :
    Dropped ip s (u.setInode ip { u.itable ip with ref := (u.itable ip).ref - 1 }) := by
  have hdes := destroyed_of_destroy hu
  have htab : Table (u.setInode ip { u.itable ip with ref := (u.itable ip).ref - 1 }) := by
    refine (h.table.destroyed hd.1 hdes).drop ⟨?_, Or.inl hdes.lock⟩
    rw [hdes.ref]
    exact hd.1
  refine ⟨⟨htab, ho, hdes.sb ▸ h.small⟩, hdes.sb, hdes.pid, fun jp hj => ?_, ?_, ?_, fun hlt => ?_, hdata⟩
  · rw [FS.setInode_of_ne _ _ _ hj, hdes.other jp hj]
  · rw [FS.setInode_same, hdes.ref]
  · rw [FS.setInode_same]
    exact hdes.lock.trans hdes.unlocked.symm
  · omega

theorem Settled.dropped (hs : Settled ip s) (h : Consistent s) (hd : Droppable ip s) :
    Safe Fatal (Dropped ip s) (iput ip s) := by
  rw [iput]
  by_cases hfree : (s.itable ip).ref = 1 ∧ (s.itable ip).nlink = 0
  · have hv : (s.itable ip).valid = true := hs.resolve_right fun hor =>
      hor.elim (fun h1 => h1 hfree.1) fun h0 => h0 hfree.2
    rw [if_pos hfree, if_pos hv]
    have hdes := (destroy_owned h hd.1 hv).and_of_ok (R := fun u => destroy ip s = .ok u)
      fun u hu => hu
    exact hdes.bind fun u hu => dropped_destroy h hd hfree hu.2 hu.1.1 hu.1.2.2
  · rw [if_neg hfree]
    exact dropped_drop h hd

/-- **`iput` in a regular state** keeps the disk consistent, unless it frees an inode of which the
slot has no copy. -/
theorem iput_dropped (h : Consistent s) (hd : Droppable ip s) :
    Safe Fatal (Clean (Dropped ip s)) (iput ip s) := by
  by_cases hs : Settled ip s
  · exact (hs.dropped h hd).mono fun t ht _ => ht
  · rw [Settled, not_or, not_or, not_not, not_not] at hs
    rw [iput, if_pos hs.2, if_neg hs.1]
    have hq : (s.note .stale).quirks ≠ [] := List.cons_ne_nil _ _
    refine (safe_of_shows hq (destroy_history ip (s.note .stale))).bind fun u hu hq' => ?_
    exact absurd (hu.symm.trans hq') hq

end Iput

end RiscvOs.Fs
