import RiscvOs.Disk.BioRefs

set_option autoImplicit false

/-!
# The order of the buffer cache

`brelse` puts a buffer that nobody refers to any more in front of the list, so the list has the buffers in the
order of their last releases, the latest first, and then the buffers that were never released. `bget` looks for
a buffer to recycle from the front of the list, where the notes on the design start at its end. So it takes
the buffer that was released last.

## Main results

* `LatestFirst.step` — every step keeps the order of the list.
* `bget_recycles_oldest_iff` — when `bget` recycles the least recently used buffer.
* `bget_recycles_latest` — it recycles the most recently used one.
-/

namespace RiscvOs.Bio

open Function Machine

/-! ## The times of the releases -/

/-- The cache, the number of releases so far, and for each buffer the number of its last release, 0 if there was
none. The last two fields are history and do not influence any step. -/
structure Timed (P : Type) where
  cache : State P
  clock : ℕ
  last : BufId → ℕ

section Code

variable {P : Type}

/-- The buffer whose `refcnt` a `brelse` brings to 0. -/
def released (s : State P) : Event P → Option BufId
  | .drop _ b => if (s.buf b).refcnt - 1 = 0 then some b else none
  | _ => none

/-- The history after a release. -/
def Timed.record (s : Timed P) (c : State P) : Option BufId → Timed P
  | none => { s with cache := c }
  | some b => ⟨c, s.clock + 1, update s.last b (s.clock + 1)⟩

@[simp] theorem Timed.record_cache (s : Timed P) (c : State P) (b : BufId) : (s.record c (some b)).cache = c := rfl

@[simp] theorem Timed.record_clock (s : Timed P) (c : State P) (b : BufId) :
    (s.record c (some b)).clock = s.clock + 1 := rfl

theorem Timed.record_last_self (s : Timed P) (c : State P) (b : BufId) :
    (s.record c (some b)).last b = s.clock + 1 := update_self ..

theorem Timed.record_last_of_ne (s : Timed P) (c : State P) {b x : BufId} (hx : x ≠ b) :
    (s.record c (some b)).last x = s.last x := update_of_ne hx ..

variable [DecidableEq P]

/-- One step of a process, with the history. -/
def nextTimed (s : Timed P) (e : Event P) : Except Panic (Timed P) :=
  (next s.cache e).map fun c => s.record c (released s.cache e)

/-- After `binit`. -/
def initTimed (P : Type) (disk : UInt32 → Block) : Timed P := ⟨init P disk, 0, fun _ => 0⟩

/-- The step a process is about to make. -/
def EnabledTimed (s : Timed P) (e : Event P) : Prop := Enabled s.cache e

instance (s : Timed P) (e : Event P) : Decidable (EnabledTimed s e) := inferInstanceAs (Decidable (Enabled _ _))

end Code

/-! ## The order of the list -/

section Order

variable {P : Type} {s t : Timed P} {b : BufId}

/-- Nobody refers to the buffer. -/
def Timed.Free (s : Timed P) (b : BufId) : Prop := (s.cache.buf b).refcnt = 0

/-- A buffer that nobody refers to, and no such buffer was released before it. -/
def Oldest (s : Timed P) (b : BufId) : Prop := s.Free b ∧ ∀ c, s.Free c → s.last b ≤ s.last c

/-- The list is in the order of the last releases, the latest first; at its end are the buffers that were never
released. -/
structure LatestFirst (s : Timed P) : Prop where
  ring : ∃ l, Ring.IsRing s.cache.links l ∧ (∀ b, b ∈ l) ∧
    l.Pairwise fun b c => s.last c < s.last b ∨ (s.last b = 0 ∧ s.last c = 0)
  le_clock : ∀ b, s.last b ≤ s.clock

theorem LatestFirst.congr (h : LatestFirst s) {c : State P} (hlinks : c.links = s.cache.links) :
    LatestFirst { s with cache := c } :=
  ⟨by rw [hlinks]; exact h.ring, h.le_clock⟩

theorem LatestFirst.release (h : LatestFirst s) {c : State P}
    (hlinks : c.links = (s.cache.links.unlink b).pushFront b) : LatestFirst (s.record c (some b)) := by
  obtain ⟨l, hl, hall, hsorted⟩ := h.ring
  obtain ⟨l₁, l₂, rfl⟩ := List.append_of_mem (hall b)
  have hmoved := hl.moveToFront
  have hnot : b ∉ l₁ ++ l₂ := (List.nodup_cons.mp hmoved.nodup).1
  have hrest : (l₁ ++ l₂).Pairwise fun b c => s.last c < s.last b ∨ (s.last b = 0 ∧ s.last c = 0) :=
    hsorted.sublist (List.Sublist.append_left (List.sublist_cons_self b l₂) l₁)
  -- the releases of the other buffers are the same
  have hother : ∀ x ∈ l₁ ++ l₂, (s.record c (some b)).last x = s.last x := by
    intro x hx
    apply Timed.record_last_of_ne
    rintro rfl
    exact hnot hx
  refine ⟨⟨b :: (l₁ ++ l₂), ?_, fun x => ?_, List.pairwise_cons.mpr ⟨fun x hx => Or.inl ?_, ?_⟩⟩, fun x => ?_⟩
  · rw [Timed.record_cache, hlinks]
    exact hmoved
  · have hx := hall x
    simp only [List.mem_append, List.mem_cons] at hx ⊢
    tauto
  · rw [hother x hx, Timed.record_last_self]
    exact Nat.lt_succ_of_le (h.le_clock x)
  · refine hrest.imp_of_mem fun {x y} hx hy hxy => ?_
    rw [hother x hx, hother y hy]
    exact hxy
  · by_cases hxb : x = b
    · rw [hxb, Timed.record_last_self, Timed.record_clock]
    · rw [Timed.record_last_of_ne s c hxb, Timed.record_clock]
      exact (h.le_clock x).trans (Nat.le_succ _)

theorem latestFirst_init (disk : UInt32 → Block) : LatestFirst (initTimed P disk) := by
  refine ⟨⟨_, isRing_binitLinks, fun b => by simp, ?_⟩, fun b => le_refl 0⟩
  exact List.Pairwise.imp (fun _ => Or.inr ⟨rfl, rfl⟩) isRing_binitLinks.nodup

variable [DecidableEq P]

/-- **What a step does to the list**: a release moves its buffer to the front, and nothing else changes it. -/
theorem links_next {s t : State P} {e : Event P} (h : next s e = .ok t) :
    (released s e = none ∧ t.links = s.links) ∨
      ∃ b, released s e = some b ∧ t.links = (s.links.unlink b).pushFront b := by
  cases e with
  | bget p r =>
    refine Or.inl ⟨rfl, ?_⟩
    rw [next] at h
    cases hhit : s.links.scan (holdsBlock s r) NBUF (s.links.next none) with
    | none => simp [hhit] at h
    | some x =>
      cases x with
      | some b =>
        simp only [hhit, Except.ok.injEq] at h
        rw [← h]
        rfl
      | none =>
        cases hmiss : s.links.scan (unreferenced s) NBUF (s.links.next none) with
        | none => simp [hhit, hmiss] at h
        | some y =>
          cases y with
          | none => simp [hhit, hmiss] at h
          | some b =>
            simp only [hhit, hmiss, Except.ok.injEq] at h
            rw [← h]
            rfl
  | fill p b r =>
    rw [next] at h
    split_ifs at h <;> cases h <;> exact Or.inl ⟨rfl, rfl⟩
  | bwrite p b | brelse p b =>
    rw [next] at h
    split_ifs at h
    cases h
    exact Or.inl ⟨rfl, rfl⟩
  | drop p b =>
    rw [next] at h
    split_ifs at h with h0 <;> cases h
    · exact Or.inr ⟨b, if_pos h0, rfl⟩
    · exact Or.inl ⟨if_neg h0, rfl⟩
  | acquiresleep p b r hit | load p b r | inc p b r v | store p b data | bpin p b | bunpin p b =>
    cases h
    exact Or.inl ⟨rfl, rfl⟩

/-- **Every step keeps the order of the list.** -/
theorem LatestFirst.step (h : LatestFirst s) {e : Event P} (hn : nextTimed s e = .ok t) : LatestFirst t := by
  rw [nextTimed] at hn
  cases hc : next s.cache e with
  | error x => simp [hc, Except.map] at hn
  | ok c =>
    rw [hc, Except.map, Except.ok.injEq] at hn
    subst hn
    rcases links_next hc with ⟨hnone, hlinks⟩ | ⟨b, hsome, hlinks⟩
    · rw [hnone]
      exact h.congr hlinks
    · rw [hsome]
      exact h.release hlinks

theorem latestFirst_of_reach {disk : UInt32 → Block}
    (h : Reach nextTimed EnabledTimed (initTimed P disk) s) : LatestFirst s :=
  h.invariant (latestFirst_init disk) fun hI _ hn => hI.step hn

/-- **`bget` recycles the buffer that was released last**: no other one that it could take was released later. -/
theorem LatestFirst.bget_miss (h : LatestFirst s) (p : P) {r : Req}
    (hmiss : ∀ b, (s.cache.buf b).key ≠ r) (hfree : ∃ b, s.Free b) :
    ∃ b, next s.cache (.bget p r) = .ok (s.cache.recycle p b r) ∧ s.Free b ∧
      ∀ c, s.Free c → c ≠ b → s.last c < s.last b ∨ (s.last b = 0 ∧ s.last c = 0) := by
  obtain ⟨l, hl, hall, hsorted⟩ := h.ring
  have hlen := length_le_NBUF hl.nodup
  have hhit : s.cache.links.scan (holdsBlock s.cache r) NBUF (s.cache.links.next none) = some none := by
    rw [hl.scan _ hlen, List.find?_eq_none.mpr]
    exact fun b _ hb => hmiss b (holdsBlock_iff.mp hb)
  have hfound : l.find? (unreferenced s.cache) ≠ none := by
    obtain ⟨b, hb⟩ := hfree
    intro hnone
    exact List.find?_eq_none.mp hnone b (hall b) (beq_iff_eq.mpr hb)
  obtain ⟨b, hb⟩ := Option.ne_none_iff_exists'.mp hfound
  obtain ⟨htest, l₁, l₂, rfl, hbefore⟩ := List.find?_eq_some_iff_append.mp hb
  refine ⟨b, ?_, beq_iff_eq.mp htest, fun c hc hcb => ?_⟩
  · rw [next, hhit]
    rw [hl.scan _ hlen, hb]
  · -- the buffers before it in the list are in use
    rcases List.mem_append.mp (hall c) with hc₁ | hc₂
    · have hused := hbefore c hc₁
      rw [unreferenced, hc] at hused
      cases hused
    · have hafter := (List.mem_cons.mp hc₂).resolve_left hcb
      have htail := (List.pairwise_append.mp hsorted).2.1
      exact (List.pairwise_cons.mp htail).1 c hafter

end Order

/-! ## The least recently used buffer -/

/-- **When `bget` recycles the least recently used buffer.** In every state that any number of processes reach
with the functions of the cache, and for every block that is not in the cache, `bget` recycles a buffer if there
is one that nobody refers to. It is one whose last release is the oldest if and only if there is no choice: only
one buffer can be recycled, or none of them was ever released. -/
theorem bget_recycles_oldest_iff {P : Type} [DecidableEq P] {disk : UInt32 → Block} {s : Timed P}
    (hr : Reach nextTimed EnabledTimed (initTimed P disk) s) (p : P) {r : Req}
    (hmiss : ∀ b, (s.cache.buf b).key ≠ r) (hfree : ∃ b, s.Free b) :
    ∃ b, next s.cache (.bget p r) = .ok (s.cache.recycle p b r) ∧
      (Oldest s b ↔ (∀ c c', s.Free c → s.Free c' → c = c') ∨ ∀ c, s.Free c → s.last c = 0) := by
  obtain ⟨b, hnext, hb, hlatest⟩ := (latestFirst_of_reach hr).bget_miss p hmiss hfree
  refine ⟨b, hnext, fun hold => ?_, fun hcond => ⟨hb, fun c hc => ?_⟩⟩
  · by_cases hone : ∀ c, s.Free c → c = b
    · exact Or.inl fun c c' hc hc' => (hone c hc).trans (hone c' hc').symm
    · obtain ⟨c, hc, hcb⟩ : ∃ c, s.Free c ∧ c ≠ b := by
        push Not at hone
        exact hone
      -- another one is neither older nor younger, so neither was ever released
      have hzero : ∀ x, s.Free x → x ≠ b → s.last b = 0 ∧ s.last x = 0 := fun x hx hxb =>
        (hlatest x hx hxb).resolve_left (Nat.not_lt.mpr (hold.2 x hx))
      refine Or.inr fun x hx => ?_
      by_cases hxb : x = b
      · rw [hxb]
        exact (hzero c hc hcb).1
      · exact (hzero x hx hxb).2
  · rcases hcond with hone | hnever
    · rw [hone c b hc hb]
    · rw [hnever b hb]
      exact Nat.zero_le _

/-- A process reads a block. -/
def readOnce : List (Event Unit) :=
  [.bget () block5, .acquiresleep () front block5 false, .fill () front block5]

/-- A process reads a block and releases it. -/
def readRelease : List (Event Unit) := readOnce ++ [.brelse () front, .drop () front]

theorem bget_recycles_oldest_iff_readOnce :
    ∃ b, next (after nextTimed (initTimed Unit zeroSectors) readOnce).cache (.bget () block6) =
        .ok ((after nextTimed (initTimed Unit zeroSectors) readOnce).cache.recycle () b block6) ∧
      Oldest (after nextTimed (initTimed Unit zeroSectors) readOnce) b := by
  have hl : Along nextTimed EnabledTimed (initTimed Unit zeroSectors) readOnce := by decide +kernel
  have hr := reach_of_exec hl (exec_eq_after (by decide +kernel))
  obtain ⟨b, hnext, hiff⟩ := bget_recycles_oldest_iff hr () (r := block6) (by decide +kernel)
    ⟨⟨0, by decide⟩, by unfold Timed.Free; decide +kernel⟩
  exact ⟨b, hnext, hiff.mpr (Or.inr (by unfold Timed.Free; decide +kernel))⟩

/-- **`bget` recycles the buffer that was just released**, although there are buffers that were never released. -/
theorem bget_recycles_latest :
    Along nextTimed EnabledTimed (initTimed Unit zeroSectors) readRelease ∧
      errorOf (exec nextTimed (initTimed Unit zeroSectors) readRelease) = none ∧
      ∃ b c, ((next (after nextTimed (initTimed Unit zeroSectors) readRelease).cache
            (.bget () block6)).toOption.map fun t => (t.buf b).key) = some block6 ∧
        (after nextTimed (initTimed Unit zeroSectors) readRelease).Free c ∧
        (after nextTimed (initTimed Unit zeroSectors) readRelease).last c <
          (after nextTimed (initTimed Unit zeroSectors) readRelease).last b := by
  refine ⟨?_, ?_, front, ⟨0, by decide⟩, ?_, ?_, ?_⟩
  · decide +kernel
  · decide +kernel
  · decide +kernel
  · unfold Timed.Free
    decide +kernel
  · decide +kernel

end RiscvOs.Bio
