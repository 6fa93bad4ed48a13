import RiscvOs.Fs.Table
import RiscvOs.Lib.Machine

set_option autoImplicit false

/-!
# References to inodes

Any order of `iget`, `idup`, `ilock`, `iunlock`, `iput` and `ialloc` by any number of processes,
with the changes of `nlink` that `create` and `sys_unlink` make under the lock. Each pointer to
a table slot belongs to a process, which drops it with `iput` after it has released the lock.

## Main results

* `Inv.step` — every step preserves the invariant.
* `iput_frees_only_unlinked_iff` — in every reachable state `iput` does what it
  should exactly if the slot was locked before, or the inode has no links on the disk.
* `iput_destroys_root` — `iput` of a slot that was never locked can destroy the root directory.
-/

namespace RiscvOs.Fs.Refs

open Function Loop Machine

/-- The file system, and for each slot the processes that have a pointer to it, one for each
pointer. -/
structure State where
  fs : FS
  holders : Slot → Multiset ℕ

/-- The file system seen by process `p`. -/
def State.asProc (s : State) (p : ℕ) : FS := { s.fs with pid := p }

/-- The calls. `setNlink` is `ip->nlink = n; iupdate(ip)`. -/
inductive Call where
  | iget (p inum : ℕ)
  | idup (p : ℕ) (ip : Slot)
  | ilock (p : ℕ) (ip : Slot)
  | iunlock (p : ℕ) (ip : Slot)
  | setNlink (p : ℕ) (ip : Slot) (n : UInt16)
  | ialloc (p : ℕ) (type : UInt16)
  | iput (p : ℕ) (ip : Slot)

/-- Give process `p` a pointer to the slot. -/
def State.grant (s : State) (fs : FS) (p : ℕ) (ip : Slot) : State :=
  ⟨fs, update s.holders ip (p ::ₘ s.holders ip)⟩

/-- One call. -/
def next (s : State) : Call → Except Panic State
  | .iget p inum => do
    let (ip, t) ← iget ROOTDEV inum (s.asProc p)
    .ok (s.grant t p ip)
  | .idup p ip => .ok (s.grant (idup ip (s.asProc p)) p ip)
  | .ilock p ip => do
    let t ← ilock ip (s.asProc p)
    .ok ⟨t, s.holders⟩
  | .iunlock p ip => do
    let t ← iunlock ip (s.asProc p)
    .ok ⟨t, s.holders⟩
  | .setNlink p ip n => do
    let t ← iupdate ip ((s.asProc p).setInode ip { s.fs.itable ip with nlink := n })
    .ok ⟨t, s.holders⟩
  | .ialloc p type => do
    let (r, t) ← ialloc ROOTDEV type (s.asProc p)
    match r with
    | some ip => .ok (s.grant t p ip)
    | none => .ok ⟨t, s.holders⟩
  | .iput p ip => do
    let t ← iput ip (s.asProc p)
    .ok ⟨t, update s.holders ip ((s.holders ip).erase p)⟩

/-- The calls that a process may make: on slots it has a pointer to, unlocking what it has
locked, and dropping what it has unlocked. -/
def Legal (s : State) : Call → Prop
  | .iget _ inum => inum < s.fs.sb.ninodes
  | .idup p ip => p ∈ s.holders ip
  | .ilock p ip => p ∈ s.holders ip ∧ (s.fs.itable ip).lock = none
  | .iunlock p ip | .setNlink p ip _ => (s.fs.itable ip).lock = some p
  | .ialloc _ _ => True
  | .iput p ip => p ∈ s.holders ip ∧ (s.fs.itable ip).lock ≠ some p

/-- `iput` is about to free an inode that is linked on the disk: the slot was taken for the
inode and never locked, and the link count in it is a leftover. -/
def FreesLinked (s : State) : Call → Prop
  | .iput _ ip => (s.fs.itable ip).ref = 1 ∧ (s.fs.itable ip).nlink = 0 ∧
      (s.fs.itable ip).valid = false ∧ (s.fs.dinode (s.fs.itable ip).inum).nlink ≠ 0
  | _ => False

/-- What `iput` should do: free the inode only if it has no links on the disk and the caller
has the only pointer to it, and otherwise write nothing. -/
def FreesOnlyUnlinked (s s' : State) (p : ℕ) (ip : Slot) : Prop :=
  ((s.fs.dinode (s.fs.itable ip).inum).nlink = 0 ∧ s.holders ip = {p} ∧
      ∀ i, i < s.fs.sb.ninodes → i ≠ (s.fs.itable ip).inum → s'.fs.dinode i = s.fs.dinode i) ∨
    ((∀ i, i < s.fs.sb.ninodes → s'.fs.dinode i = s.fs.dinode i) ∧
      ∀ b, s'.fs.used b = s.fs.used b)

/-- After boot: nobody has a pointer, whatever the slots contain. -/
structure Booted (s : State) : Prop where
  layout : Layout s.fs.sb
  small : s.fs.sb.size < 2 ^ 31
  free : ∀ ip, (s.fs.itable ip).ref = 0 ∧ (s.fs.itable ip).lock = none ∧ s.holders ip = 0

/-- The inode table agrees with the records and with the owners of the pointers. -/
structure Inv (s : State) : Prop where
  table : Table s.fs
  known : ∀ ip, 0 < (s.fs.itable ip).ref → (s.fs.itable ip).inum < s.fs.sb.ninodes
  ref_eq : ∀ ip, (s.fs.itable ip).ref = Multiset.card (s.holders ip)
  holder : ∀ ip p, (s.fs.itable ip).lock = some p → p ∈ s.holders ip

theorem Booted.inv {s : State} (h : Booted s) : Inv s := by
  have h0 : ∀ ip, ¬ 0 < (s.fs.itable ip).ref := fun ip => by
    rw [(h.free ip).1]
    exact lt_irrefl 0
  have hl : ∀ ip p, (s.fs.itable ip).lock ≠ some p := fun ip p hp => by
    rw [(h.free ip).2.1] at hp
    cases hp
  refine ⟨⟨h.layout, fun ip hp => absurd hp (h0 ip), fun ip hp => absurd hp (h0 ip),
    fun ip jp hp => absurd hp (h0 ip), fun ip hp => absurd hp (h0 ip), fun ip p hp => absurd hp (hl ip p)⟩,
    fun ip hp => absurd hp (h0 ip), fun ip => ?_,
    fun ip p hp => absurd hp (hl ip p)⟩
  rw [(h.free ip).1, (h.free ip).2.2, Multiset.card_zero]

section Steps

variable {s s' : State} {p : ℕ} {ip : Slot} {t : FS}

theorem Inv.change (h : Inv s) {m : Multiset ℕ} (ht : Table t) (hsb : t.sb = s.fs.sb)
    (hslot : ∀ jp, jp ≠ ip → t.itable jp = s.fs.itable jp)
    (hinum : 0 < (t.itable ip).ref → (t.itable ip).inum < s.fs.sb.ninodes)
    (href : (t.itable ip).ref = Multiset.card m)
    (hlock : ∀ p, (t.itable ip).lock = some p → p ∈ m) :
    Inv ⟨t, update s.holders ip m⟩ := by
  refine ⟨ht, fun jp hj => ?_, fun jp => ?_, fun jp p hp => ?_⟩
  · change (t.itable jp).inum < t.sb.ninodes
    rw [hsb]
    by_cases hji : jp = ip
    · subst hji
      exact hinum hj
    · rw [hslot jp hji] at hj ⊢
      exact h.known jp hj
  · change (t.itable jp).ref = Multiset.card (update s.holders ip m jp)
    by_cases hj : jp = ip
    · rw [hj, update_self, href]
    · rw [update_of_ne hj, hslot jp hj, h.ref_eq]
  · change p ∈ update s.holders ip m jp
    by_cases hj : jp = ip
    · subst hj
      rw [update_self]
      exact hlock p hp
    · rw [update_of_ne hj]
      rw [hslot jp hj] at hp
      exact h.holder jp p hp

theorem Inv.keep (h : Inv s) (ip : Slot) (ht : Table t) (hsb : t.sb = s.fs.sb)
    (hslot : ∀ jp, jp ≠ ip → t.itable jp = s.fs.itable jp)
    (hinum : (t.itable ip).inum = (s.fs.itable ip).inum)
    (href : (t.itable ip).ref = (s.fs.itable ip).ref)
    (hlock : ∀ p, (t.itable ip).lock = some p → p ∈ s.holders ip) : Inv ⟨t, s.holders⟩ := by
  have := h.change ht hsb hslot (fun hp => hinum ▸ h.known ip (href ▸ hp)) (href.trans (h.ref_eq ip)) hlock
  rwa [update_eq_self] at this

theorem Table.asProc (h : Table s.fs) (p : ℕ) : Table (s.asProc p) := h.congr rfl rfl rfl

theorem Inv.ref_pos (h : Inv s) (hp : p ∈ s.holders ip) : 0 < (s.fs.itable ip).ref := by
  rw [h.ref_eq]
  exact Multiset.card_pos_iff_exists_mem.mpr ⟨p, hp⟩

theorem Inv.grant (h : Inv s) (ht : Table t) (hsb : t.sb = s.fs.sb)
    (hslot : ∀ jp, jp ≠ ip → t.itable jp = s.fs.itable jp)
    (hinum : (t.itable ip).inum < s.fs.sb.ninodes)
    (href : (t.itable ip).ref = (s.fs.itable ip).ref + 1)
    (hlock : (t.itable ip).lock = (s.fs.itable ip).lock) : Inv (s.grant t p ip) := by
  refine h.change ht hsb hslot (fun _ => hinum) ?_ fun q hq => ?_
  · rw [href, h.ref_eq, Multiset.card_cons]
  · rw [hlock] at hq
    exact Multiset.mem_cons_of_mem (h.holder ip q hq)

theorem Inv.iget {u : FS} {inum : ℕ} (h : Inv s) (hu : Table u) (hsb : u.sb = s.fs.sb) (hit : u.itable = s.fs.itable)
    (hi : inum < s.fs.sb.ninodes) (hn : Fs.iget ROOTDEV inum u = .ok (ip, t)) :
    Inv (s.grant t p ip) := by
  obtain ⟨ht, -, hinum⟩ := hu.iget hn
  rw [← hinum] at hi
  rcases iget_cases hn with ⟨-, -, -, rfl⟩ | ⟨-, h0, rfl⟩
  · refine h.grant ht hsb (fun jp hj => ?_) hi ?_ ?_
    · rw [FS.setInode_of_ne _ _ _ hj, hit]
    · rw [FS.setInode_same, hit]
    · rw [FS.setInode_same, hit]
  · refine h.grant ht hsb (fun jp hj => ?_) hi ?_ ?_
    · rw [FS.setInode_of_ne _ _ _ hj, hit]
    · rw [FS.setInode_same, ← hit, h0]
    · rw [FS.setInode_same, hit]

theorem Inv.ilock (h : Inv s) (hp : p ∈ s.holders ip) (hn : Fs.ilock ip (s.asProc p) = .ok t) :
    Inv ⟨t, s.holders⟩ := by
  have hi := (h.known ip (h.ref_pos hp)).trans_le h.table.layout.ninodes_le
  have ht := (Table.asProc h.table p).ilock hi hn
  rw [Fs.ilock] at hn
  split_ifs at hn <;> cases hn
  all_goals
    refine h.keep ip ht rfl (fun jp hj => FS.setInode_of_ne _ _ _ hj) ?_ ?_ fun q hq => ?_
    · rw [FS.setInode_same]
      rfl
    · rw [FS.setInode_same]
      rfl
    · rw [FS.setInode_same] at hq
      cases hq
      exact hp

theorem Inv.iunlock (h : Inv s) (hn : Fs.iunlock ip (s.asProc p) = .ok t) :
    Inv ⟨t, s.holders⟩ := by
  have ht := ((Table.asProc h.table p).iunlock hn).1
  rw [Fs.iunlock] at hn
  split_ifs at hn
  cases hn
  refine h.keep ip ht rfl (fun jp hj => FS.setInode_of_ne _ _ _ hj) ?_ ?_ fun q hq => ?_
  · rw [FS.setInode_same]
    rfl
  · rw [FS.setInode_same]
    rfl
  · rw [FS.setInode_same] at hq
    cases hq

theorem Inv.setNlink (h : Inv s) (hl : (s.fs.itable ip).lock = some p) {n : UInt16}
    (hn : iupdate ip ((s.asProc p).setInode ip { s.fs.itable ip with nlink := n }) = .ok t) :
    Inv ⟨t, s.holders⟩ := by
  have hu := updated_of_iupdate hn
  obtain ⟨hpos, hv⟩ := h.table.locked ip p hl
  have hself : t.itable ip = { s.fs.itable ip with nlink := n } := by
    rw [hu.itable, FS.setInode_same]
  have ht : Table t := (Table.asProc h.table p).edit (v := { s.fs.itable ip with nlink := n })
    (.refl ip _) rfl (h.table.coherent ip hpos hv).2 hu
  refine h.keep ip ht hu.sb (fun jp hj => ?_) ?_ ?_ fun q hq => ?_
  · rw [hu.itable, FS.setInode_of_ne _ _ _ hj]
    rfl
  · rw [hself]
  · rw [hself]
  · rw [hself] at hq
    exact h.holder ip q hq

theorem Inv.ialloc {type : UInt16} (h : Inv s)
    (hn : Fs.ialloc ROOTDEV type (s.asProc p) = .ok (some ip, t)) : Inv (s.grant t p ip) := by
  obtain ⟨inum, hi, hfree, hg⟩ := ialloc_eq_some hn
  exact h.iget ((Table.asProc h.table p).claim hfree type) rfl rfl hi hg

/-- `iput` keeps the invariant, also where it frees an inode. -/
theorem Inv.iput (h : Inv s) (hp : p ∈ s.holders ip) (hl : (s.fs.itable ip).lock ≠ some p)
    (hn : Fs.iput ip (s.asProc p) = .ok t) :
    Inv ⟨t, update s.holders ip ((s.holders ip).erase p)⟩ := by
  have hcard : (s.fs.itable ip).ref - 1 = Multiset.card ((s.holders ip).erase p) := by
    rw [Multiset.card_erase_of_mem hp, h.ref_eq, Nat.pred_eq_sub_one]
  have herase : ∀ q, (s.fs.itable ip).lock = some q → q ∈ (s.holders ip).erase p := by
    intro q hq
    have hqp : q ≠ p := fun he => hl (he ▸ hq)
    exact (Multiset.mem_erase_of_ne hqp).mpr (h.holder ip q hq)
  -- whoever has the lock has a pointer of their own
  have hd : Droppable ip (s.asProc p) := by
    refine ⟨h.ref_pos hp, ?_⟩
    cases hq : (s.fs.itable ip).lock with
    | none => exact Or.inl hq
    | some q =>
      refine Or.inr ?_
      have := Multiset.card_pos_iff_exists_mem.mpr ⟨q, herase q hq⟩
      change 1 < (s.fs.itable ip).ref
      omega
  have ht := (Table.asProc h.table p).iput hd hn
  rcases iput_cases (s := s.asProc p) hn with ⟨-, u, hu, rfl⟩ | ⟨-, rfl⟩
  · refine h.change ht hu.sb (fun jp hj => ?_) (fun _ => ?_) ?_ fun q hq => ?_
    · rw [FS.setInode_of_ne _ _ _ hj, hu.other jp hj]
      rfl
    · rw [FS.setInode_same]
      exact hu.inum ▸ h.known ip (h.ref_pos hp)
    · rw [FS.setInode_same, ← hcard]
      exact congrArg (· - 1) hu.ref
    · rw [FS.setInode_same] at hq
      exact absurd (hu.lock.symm.trans hq) (by simp)
  · refine h.change ht rfl (fun jp hj => FS.setInode_of_ne _ _ _ hj) (fun _ => ?_) ?_ fun q hq => ?_
    · rw [FS.setInode_same]
      exact h.known ip (h.ref_pos hp)
    · rw [FS.setInode_same, ← hcard]
      rfl
    · rw [FS.setInode_same] at hq
      exact herase q hq

/-- **Every call preserves the invariant.** -/
theorem Inv.step {c : Call} (h : Inv s) (hl : Legal s c) (hn : next s c = .ok s') : Inv s' := by
  cases c with
  | iget p inum =>
    obtain ⟨⟨ip, t⟩, hg, hn⟩ := bind_eq_ok.mp hn
    cases hn
    exact h.iget (Table.asProc h.table p) rfl rfl hl hg
  | idup p ip =>
    cases hn
    refine h.grant ((Table.asProc h.table p).idup (h.ref_pos hl)) rfl
      (fun jp hj => FS.setInode_of_ne _ _ _ hj) ?_ ?_ ?_
    · rw [idup, FS.setInode_same]
      exact h.known ip (h.ref_pos hl)
    · rw [idup, FS.setInode_same]
      rfl
    · rw [idup, FS.setInode_same]
      rfl
  | ilock p ip =>
    obtain ⟨t, ht, hn⟩ := bind_eq_ok.mp hn
    cases hn
    exact h.ilock hl.1 ht
  | iunlock p ip =>
    obtain ⟨t, ht, hn⟩ := bind_eq_ok.mp hn
    cases hn
    exact h.iunlock ht
  | setNlink p ip n =>
    obtain ⟨t, ht, hn⟩ := bind_eq_ok.mp hn
    cases hn
    exact h.setNlink hl ht
  | ialloc p type =>
    obtain ⟨⟨r, t⟩, ht, hn⟩ := bind_eq_ok.mp hn
    cases r with
    | none =>
      cases hn
      rw [ialloc_eq_none ht]
      exact ⟨Table.asProc h.table p, h.known, h.ref_eq, h.holder⟩
    | some ip =>
      cases hn
      exact h.ialloc ht
  | iput p ip =>
    obtain ⟨t, ht, hn⟩ := bind_eq_ok.mp hn
    cases hn
    exact h.iput hl.1 hl.2 ht

end Steps

/-! ## What `iput` frees -/

theorem Inv.holders_eq {s : State} {p : ℕ} {ip : Slot} (h : Inv s) (hp : p ∈ s.holders ip)
    (h1 : (s.fs.itable ip).ref = 1) : s.holders ip = {p} := by
  rw [h.ref_eq, Multiset.card_eq_one] at h1
  obtain ⟨q, hq⟩ := h1
  rw [hq, Multiset.mem_singleton] at hp
  rw [hq, hp]

/-- **`iput` frees only what is not in use**, in every state that any order of calls can reach,
exactly if it does not free the inode of a slot that was never read from the disk while the
record has links.

**Proof sketch.** If the slot is valid it agrees with the record, so the link count that `iput`
looks at is the one on the disk. If it is not valid and `iput` frees the inode, the record on
the disk gets the leftover count `0`; if the record had links, neither alternative holds. -/
theorem iput_frees_only_unlinked_iff {s₀ s s' : State} {p : ℕ} {ip : Slot} (h₀ : Booted s₀)
    (hr : Reach next Legal s₀ s) (hl : Legal s (.iput p ip))
    (hn : next s (.iput p ip) = .ok s') :
    FreesOnlyUnlinked s s' p ip ↔ ¬ FreesLinked s (.iput p ip) := by
  have h : Inv s := hr.invariant h₀.inv fun h hl hn => h.step hl hn
  have hpos := h.ref_pos hl.1
  obtain ⟨t, ht, hn⟩ := bind_eq_ok.mp hn
  cases hn
  rcases iput_cases (s := s.asProc p) ht with ⟨hfree, u, hd, rfl⟩ | ⟨hno, rfl⟩
  · have hothers : ∀ i, i < s.fs.sb.ninodes → i ≠ (s.fs.itable ip).inum →
        u.dinode i = s.fs.dinode i := fun i hi => hd.dinode i (hi.trans_le h.table.layout.ninodes_le)
    constructor
    · rintro (⟨h0, -, -⟩ | ⟨hsame, -⟩) hbad
      · exact hbad.2.2.2 h0
      · -- the record on the disk has got the count of the slot
        refine hbad.2.2.2 ?_
        rw [← hsame _ (h.known ip hpos)]
        exact hd.record.2.trans hfree.2
    · intro hok
      refine Or.inl ⟨?_, h.holders_eq hl.1 hfree.1, hothers⟩
      by_contra hlinks
      cases hv : (s.fs.itable ip).valid with
      | false => exact hok ⟨hfree.1, hfree.2, hv, hlinks⟩
      | true =>
        rw [← (h.table.coherent ip hpos hv).1] at hlinks
        exact hlinks hfree.2
  · exact ⟨fun _ hbad => hno ⟨hbad.1, hbad.2.1⟩, fun _ => Or.inr ⟨fun _ _ => rfl, fun _ => rfl⟩⟩

/-- The small file system after boot. -/
def boot : State := ⟨smallFS, fun _ => 0⟩

theorem booted_boot : Booted boot := ⟨layout_smallSb, by decide, fun _ => ⟨rfl, rfl, rfl⟩⟩

instance (s : State) (c : Call) : Decidable (Legal s c) := by
  cases c <;> unfold Legal <;> infer_instance

/-- A process allocates an inode, locks and unlocks it. -/
def allocRun : List Call :=
  [.ialloc 1 T_FILE, .ilock 1 firstSlot, .iunlock 1 firstSlot]

/-- The state in which the process drops the inode. -/
def allocated : State := after next boot allocRun

theorem iput_frees_only_unlinked_allocRun :
    FreesOnlyUnlinked allocated (after next allocated [.iput 1 firstSlot])
      1 firstSlot := by
  have hr : Reach next Legal boot allocated :=
    reach_of_exec (by decide) (exec_eq_after (by decide))
  have hn : next allocated (.iput 1 firstSlot) =
      .ok (after next allocated [.iput 1 firstSlot]) :=
    (exec_singleton ..).symm.trans (exec_eq_after (by decide))
  exact (iput_frees_only_unlinked_iff booted_boot hr (by decide) hn).mpr fun hbad =>
    absurd hbad.2.2.1 (by decide)

theorem iput_destroys_root :
    Along next Legal boot [.iget 1 ROOTINO, .iput 1 firstSlot] ∧
      errorOf (exec next boot [.iget 1 ROOTINO, .iput 1 firstSlot]) = none ∧
      (boot.fs.dinode ROOTINO).nlink = 1 ∧ (boot.fs.dinode ROOTINO).type = T_DIR ∧
      ((after next boot [.iget 1 ROOTINO, .iput 1 firstSlot]).fs.dinode ROOTINO).type
        = 0 := by
  decide

end RiscvOs.Fs.Refs
