import RiscvOs.Driver.VirtioDisk

set_option autoImplicit false

/-!
# The descriptors of the disk

What the functions of the driver do with the table of descriptors: `alloc3_desc` takes three of them or
none, `free_chain` gives them back, and the chains of the requests in flight stay apart from each other
and from the free descriptors.

## Main results

* `alloc3Desc_cases`, `freeChain_eq` — what the functions on
  descriptors do.
* `Requests.waiting`, `Requests.returned` — a request is submitted, and
  is finished.
-/

namespace RiscvOs.Virtio

open Function

/-- The descriptors of a request are chained, and the last one has the address of the status byte. -/
structure Linked {B : Type} (desc : Fin NUM → Desc B) (ix : Idx) : Prop where
  nodup : ix.list.Nodup
  next0 : (desc ix.i0).flags &&& VRING_DESC_F_NEXT ≠ 0 ∧ (desc ix.i0).next = ix.i1
  next1 : (desc ix.i1).flags &&& VRING_DESC_F_NEXT ≠ 0 ∧ (desc ix.i1).next = ix.i2
  next2 : (desc ix.i2).flags &&& VRING_DESC_F_NEXT = 0 ∧ (desc ix.i2).addr = .status ix.i0

/-- The requests in flight: their descriptors are chained, not free and not shared, and the driver has
noted their buffers; all other descriptors are free, and no two processes use one buffer. -/
structure Requests {P B : Type} (s : State P B) : Prop where
  linked : ∀ p b ix, InFlight s p b ix → Linked s.desc ix
  info : ∀ p b ix, InFlight s p b ix → (s.info ix.i0).b = some b
  disjoint : ∀ p q b c ix jx i, InFlight s p b ix → InFlight s q c jx → i ∈ ix.list → i ∈ jx.list → p = q
  free_iff : ∀ i, s.free i = true ↔ ∀ p b ix, InFlight s p b ix → i ∉ ix.list
  bufs : ∀ p q b, (s.pc p).buf = some b → (s.pc q).buf = some b → p = q

/-! ## Processes -/

section Processes

variable {P B : Type} {s t : State P B}

@[simp] theorem req_wakeupFree (pc : P → Pc B) (p : P) : (wakeupFree pc p).req = (pc p).req := by
  unfold wakeupFree
  cases pc p <;> rfl

@[simp] theorem buf_wakeupFree (pc : P → Pc B) (p : P) : (wakeupFree pc p).buf = (pc p).buf := by
  unfold wakeupFree
  cases pc p <;> rfl

@[simp] theorem req_wakeupBuf [DecidableEq B] (b : B) (pc : P → Pc B) (p : P) :
    (wakeupBuf b pc p).req = (pc p).req := by
  unfold wakeupBuf
  cases pc p <;> try rfl
  dsimp only
  split_ifs <;> rfl

@[simp] theorem buf_wakeupBuf [DecidableEq B] (b : B) (pc : P → Pc B) (p : P) :
    (wakeupBuf b pc p).buf = (pc p).buf := by
  unfold wakeupBuf
  cases pc p <;> try rfl
  dsimp only
  split_ifs <;> rfl

theorem InFlight.buf {p : P} {b : B} {ix : Idx} (h : InFlight s p b ix) : (s.pc p).buf = some b := by
  unfold InFlight at h
  cases hp : s.pc p <;> rw [hp] at h <;> cases h <;> rfl

/-- The processes of two states have the same requests and buffers. -/
structure SameReqs (s t : State P B) : Prop where
  req : ∀ p, (t.pc p).req = (s.pc p).req
  buf : ∀ p, (t.pc p).buf = (s.pc p).buf

theorem SameReqs.inFlight_iff (h : SameReqs s t) {p : P} {b : B} {ix : Idx} :
    InFlight t p b ix ↔ InFlight s p b ix := by
  unfold InFlight
  rw [h.req]

/-- Descriptors that are not free, and the notes about them, do not change. -/
structure SameTable (s t : State P B) : Prop where
  free : t.free = s.free
  desc : ∀ i, s.free i = false → t.desc i = s.desc i
  info : ∀ i, (t.info i).b = (s.info i).b

theorem Linked.congr {desc desc' : Fin NUM → Desc B} {ix : Idx} (h : Linked desc ix)
    (hdesc : ∀ i ∈ ix.list, desc' i = desc i) : Linked desc' ix := by
  have h0 := hdesc ix.i0 (by simp [Idx.list])
  have h1 := hdesc ix.i1 (by simp [Idx.list])
  have h2 := hdesc ix.i2 (by simp [Idx.list])
  refine ⟨h.nodup, ?_, ?_, ?_⟩
  · rw [h0]
    exact h.next0
  · rw [h1]
    exact h.next1
  · rw [h2]
    exact h.next2

theorem Requests.busy (h : Requests s) {p : P} {b : B} {ix : Idx} (hp : InFlight s p b ix) {i : Fin NUM}
    (hi : i ∈ ix.list) : s.free i = false := by
  apply Bool.eq_false_iff.mpr
  intro hfree
  exact (h.free_iff i).mp hfree p b ix hp hi

theorem Requests.congr (h : Requests s) (hr : SameReqs s t) (ht : SameTable s t) : Requests t where
  linked p b ix hp := by
    rw [hr.inFlight_iff] at hp
    exact (h.linked p b ix hp).congr fun i hi => ht.desc i (h.busy hp hi)
  info p b ix hp := by
    rw [hr.inFlight_iff] at hp
    rw [ht.info]
    exact h.info p b ix hp
  disjoint p q b c ix jx i hp hq := by
    rw [hr.inFlight_iff] at hp hq
    exact h.disjoint p q b c ix jx i hp hq
  free_iff i := by
    simp only [hr.inFlight_iff, ht.free]
    exact h.free_iff i
  bufs p q b hp hq := by
    rw [hr.buf] at hp hq
    exact h.bufs p q b hp hq

theorem Requests.eq_of_head (h : Requests s) {p q : P} {b c : B} {ix jx : Idx} (hp : InFlight s p b ix)
    (hq : InFlight s q c jx) (hhead : ix.i0 = jx.i0) : p = q ∧ b = c ∧ ix = jx := by
  obtain rfl := h.disjoint p q b c ix jx ix.i0 hp hq (by simp [Idx.list]) (by simp [Idx.list, hhead])
  have heq : some (b, ix) = some (c, jx) := hp.symm.trans hq
  simp only [Option.some.injEq, Prod.mk.injEq] at heq
  exact ⟨rfl, heq.1, heq.2⟩

end Processes

/-! ## Descriptors -/

section Descriptors

variable {P B : Type} {s : State P B} {i : Fin NUM}

theorem allocDesc_eq_some (h : allocDesc s = some i) : s.free i = true := List.find?_some h

theorem freeDesc_eq (h : s.free i = false) : freeDesc i s = .ok (s.giveDesc i) := by
  simp [freeDesc, h]

@[simp] theorem free_takeDesc (j : Fin NUM) :
    (s.takeDesc i).free j = if j = i then false else s.free j := by
  simp [State.takeDesc, update_apply]

@[simp] theorem free_giveDesc (j : Fin NUM) :
    (s.giveDesc i).free j = if j = i then true else s.free j := by
  simp [State.giveDesc, update_apply]

/-- `s` with three descriptors marked as used. -/
def State.takeChain (s : State P B) (ix : Idx) : State P B :=
  ((s.takeDesc ix.i0).takeDesc ix.i1).takeDesc ix.i2

theorem free_takeChain (ix : Idx) (j : Fin NUM) :
    (s.takeChain ix).free j = true ↔ s.free j = true ∧ j ∉ ix.list := by
  simp only [State.takeChain, free_takeDesc, Idx.list, List.mem_cons, List.not_mem_nil, or_false, not_or]
  split_ifs with h2 h1 h0 <;> simp [*]

/-- `alloc3_desc` that fails has changed nothing but descriptors that are free, and has woken up
processes. -/
structure Rolled (s t : State P B) : Prop where
  eq : t = { s with desc := t.desc, pc := t.pc }
  same : SameReqs s t
  desc : ∀ i, s.free i = false → t.desc i = s.desc i

theorem Rolled.refl (s : State P B) : Rolled s s := ⟨rfl, ⟨fun _ => rfl, fun _ => rfl⟩, fun _ _ => rfl⟩

theorem rolled_give (hi : s.free i = true) : Rolled s ((s.takeDesc i).giveDesc i) where
  eq := by
    have hfree : update (update s.free i false) i true = s.free := by
      funext j
      by_cases hj : j = i
      · subst hj
        simp [hi]
      · simp [update_of_ne hj]
    simp [State.takeDesc, State.giveDesc, hfree]
  same := ⟨fun p => by simp [State.takeDesc, State.giveDesc],
    fun p => by simp [State.takeDesc, State.giveDesc]⟩
  desc j hj := by
    have hne : j ≠ i := by
      rintro rfl
      simp [hi] at hj
    simp [State.takeDesc, State.giveDesc, update_of_ne hne]

theorem rolled_give_two {j : Fin NUM} (hi : s.free i = true) (hj : s.free j = true) :
    Rolled s ((((s.takeDesc i).takeDesc j).giveDesc i).giveDesc j) where
  eq := by
    have hfree : update (update (update (update s.free i false) j
        false) i true) j true = s.free := by
      funext k
      by_cases hkj : k = j
      · subst hkj
        simp [hj]
      · by_cases hki : k = i
        · subst hki
          simp [hi, update_of_ne hkj]
        · simp [update_of_ne hkj, update_of_ne hki]
    simp [State.takeDesc, State.giveDesc, hfree]
  same := ⟨fun p => by simp [State.takeDesc, State.giveDesc],
    fun p => by simp [State.takeDesc, State.giveDesc]⟩
  desc k hk := by
    have hki : k ≠ i := by
      rintro rfl
      simp [hi] at hk
    have hkj : k ≠ j := by
      rintro rfl
      simp [hj] at hk
    simp [State.takeDesc, State.giveDesc, update_of_ne hki, update_of_ne hkj]

/-- **`alloc3_desc` takes three different free descriptors, or leaves everything as it was.** -/
theorem alloc3Desc_cases (s : State P B) :
    (∃ ix, alloc3Desc s = .ok (some ix, s.takeChain ix) ∧ ix.list.Nodup ∧
        ∀ i ∈ ix.list, s.free i = true) ∨
      ∃ t, alloc3Desc s = .ok (none, t) ∧ Rolled s t := by
  unfold alloc3Desc
  cases h0 : allocDesc s with
  | none => exact Or.inr ⟨s, rfl, .refl s⟩
  | some i0 =>
    have f0 := allocDesc_eq_some h0
    dsimp only
    cases h1 : allocDesc (s.takeDesc i0) with
    | none =>
      right
      refine ⟨(s.takeDesc i0).giveDesc i0, ?_, rolled_give f0⟩
      rw [freeDesc_eq (by simp)]
      rfl
    | some i1 =>
      have f1 := allocDesc_eq_some h1
      simp only [free_takeDesc, Bool.if_false_left, Bool.and_eq_true, Bool.not_eq_true',
        decide_eq_false_iff_not] at f1
      dsimp only
      cases h2 : allocDesc ((s.takeDesc i0).takeDesc i1) with
      | none =>
        right
        refine ⟨(((s.takeDesc i0).takeDesc i1).giveDesc i0).giveDesc i1, ?_, rolled_give_two f0 f1.2⟩
        rw [freeDesc_eq (by simp)]
        dsimp only [bind, Except.bind]
        rw [freeDesc_eq (by simp [f1.1])]
      | some i2 =>
        have f2 := allocDesc_eq_some h2
        simp only [free_takeDesc, Bool.if_false_left, Bool.and_eq_true, Bool.not_eq_true',
          decide_eq_false_iff_not] at f2
        left
        refine ⟨⟨i0, i1, i2⟩, rfl, ?_, ?_⟩
        · simp only [Idx.list, List.nodup_cons, List.mem_cons, List.not_mem_nil, or_false, not_or,
            not_false_eq_true, List.nodup_nil, and_true]
          exact ⟨⟨fun h => f1.1 h.symm, fun h => f2.2.1 h.symm⟩, fun h => f2.1 h.symm⟩
        · intro i hi
          simp only [Idx.list, List.mem_cons, List.not_mem_nil, or_false] at hi
          rcases hi with rfl | rfl | rfl
          · exact f0
          · exact f1.2
          · exact f2.2.2

/-- `s` with three descriptors given back. -/
def State.giveChain (s : State P B) (ix : Idx) : State P B :=
  ((s.giveDesc ix.i0).giveDesc ix.i1).giveDesc ix.i2

theorem free_giveChain (ix : Idx) (j : Fin NUM) :
    (s.giveChain ix).free j = true ↔ s.free j = true ∨ j ∈ ix.list := by
  simp only [State.giveChain, free_giveDesc, Idx.list, List.mem_cons, List.not_mem_nil, or_false]
  split_ifs with h2 h1 h0 <;> simp [*]

theorem freeChain_succ (fuel : ℕ) (h : s.free i = false) :
    freeChain (fuel + 1) i s =
      if (s.desc i).flags &&& VRING_DESC_F_NEXT ≠ 0 then freeChain fuel (s.desc i).next (s.giveDesc i)
      else .ok (s.giveDesc i) := by
  rw [freeChain, dif_pos i.isLt, freeDesc_eq h]
  rfl

theorem desc_giveDesc_of_ne {j : Fin NUM} (h : j ≠ i) : (s.giveDesc i).desc j = s.desc j := by
  simp [State.giveDesc, update_of_ne h]

/-- **`free_chain` frees the three descriptors of a request.** -/
theorem freeChain_eq {ix : Idx} (hd : Linked s.desc ix)
    (hfree : ∀ i ∈ ix.list, s.free i = false) (fuel : ℕ) :
    freeChain (fuel + 3) ix.i0 s = .ok (s.giveChain ix) := by
  have hne := hd.nodup
  simp only [Idx.list, List.nodup_cons, List.mem_cons, List.not_mem_nil, or_false, not_or,
    not_false_eq_true, List.nodup_nil, and_true] at hne
  have h10 : ix.i1 ≠ ix.i0 := fun h => hne.1.1 h.symm
  have h20 : ix.i2 ≠ ix.i0 := fun h => hne.1.2 h.symm
  have h21 : ix.i2 ≠ ix.i1 := fun h => hne.2 h.symm
  have f0 := hfree ix.i0 (by simp [Idx.list])
  have f1 := hfree ix.i1 (by simp [Idx.list])
  have f2 := hfree ix.i2 (by simp [Idx.list])
  rw [freeChain_succ _ f0, if_pos hd.next0.1, hd.next0.2]
  rw [freeChain_succ _ (by simp [h10, f1]), desc_giveDesc_of_ne h10, if_pos hd.next1.1, hd.next1.2]
  rw [freeChain_succ _ (by simp [h20, h21, f2]), desc_giveDesc_of_ne h21, desc_giveDesc_of_ne h20,
    if_neg (not_not.mpr hd.next2.1)]
  rfl

end Descriptors

/-! ## Requests -/

section Free

variable {P B : Type} {s : State P B} {ix : Idx}

theorem Requests.not_mem (h : Requests s) (hfree : ∀ i ∈ ix.list, s.free i = true) {q : P} {c : B}
    {jx : Idx} (hq : InFlight s q c jx) {i : Fin NUM} (hi : i ∈ jx.list) : i ∉ ix.list := by
  intro hi'
  have := h.busy hq hi
  simp [hfree i hi'] at this

theorem Requests.head_ne (h : Requests s) (hfree : ∀ i ∈ ix.list, s.free i = true) {q : P} {c : B}
    {jx : Idx} (hq : InFlight s q c jx) : jx.i0 ≠ ix.i0 := by
  intro he
  exact h.not_mem hfree hq (i := jx.i0) (by simp [Idx.list]) (by simp [Idx.list, he])

end Free

section Moves

variable {P B : Type} [DecidableEq P] {s : State P B} {p : P}

theorem inFlight_setPc {c : Pc B} {q : P} {d : B} {jx : Idx} :
    InFlight (s.setPc p c) q d jx ↔
      (q = p ∧ c.req = some (d, jx)) ∨ (q ≠ p ∧ InFlight s q d jx) := by
  unfold InFlight State.setPc
  by_cases hq : q = p
  · subst hq
    simp
  · simp [hq]

theorem inFlight_call {b c : B} {write : Bool} {q : P} {jx : Idx} (hp : s.pc p = .idle) :
    InFlight (s.setPc p (.trying b write)) q c jx ↔ InFlight s q c jx := by
  rw [inFlight_setPc]
  by_cases hq : q = p
  · subst hq
    simp [InFlight, hp, Pc.req]
  · simp [hq]

theorem buf_setPc_of_ne {c : Pc B} {q : P} (hq : q ≠ p) : ((s.setPc p c).pc q).buf = (s.pc q).buf := by
  simp [State.setPc, update_of_ne hq]

theorem sameReqs_setPc {c : Pc B} (hreq : c.req = (s.pc p).req) (hbuf : c.buf = (s.pc p).buf) :
    SameReqs s (s.setPc p c) where
  req q := by
    by_cases hq : q = p
    · subst hq
      simpa [State.setPc] using hreq
    · simp [State.setPc, update_of_ne hq]
  buf q := by
    by_cases hq : q = p
    · subst hq
      simpa [State.setPc] using hbuf
    · exact buf_setPc_of_ne hq

end Moves

theorem formatDesc_of_not_mem {B : Type} {desc : Fin NUM → Desc B} {b : B} {write : Bool} {ix : Idx}
    {i : Fin NUM} (hi : i ∉ ix.list) : formatDesc b write ix desc i = desc i := by
  simp only [Idx.list, List.mem_cons, List.not_mem_nil, or_false, not_or] at hi
  simp [formatDesc, update_of_ne hi.1, update_of_ne hi.2.1, update_of_ne hi.2.2]

theorem linked_formatDesc {B : Type} {desc : Fin NUM → Desc B} {b : B} {write : Bool} {ix : Idx}
    (hnd : ix.list.Nodup) : Linked (formatDesc b write ix desc) ix := by
  have hne := hnd
  simp only [Idx.list, List.nodup_cons, List.mem_cons, List.not_mem_nil, or_false, not_or,
    not_false_eq_true, List.nodup_nil, and_true] at hne
  obtain ⟨⟨h01, h02⟩, h12⟩ := hne
  refine ⟨hnd, ?_, ?_, ?_⟩
  · simp only [formatDesc, update_of_ne h01, update_of_ne h02, update_self]
    exact ⟨by decide, trivial⟩
  · simp only [formatDesc, update_of_ne h12, update_self]
    cases write
    · exact ⟨by decide, trivial⟩
    · exact ⟨by decide, trivial⟩
  · simp only [formatDesc, update_self]
    exact ⟨by decide, trivial⟩

section Requests

variable {P B : Type} [DecidableEq P] [DecidableEq B] {s t : State P B} {p : P} {b : B} {ix : Idx}
  {blockno : B → UInt32} {write : Bool}

/-- The state in which a process has submitted its request and sleeps. -/
def State.waiting (s : State P B) (blockno : B → UInt32) (p : P) (b : B) (write : Bool) (ix : Idx) :
    State P B :=
  (submit blockno b write ix (s.takeChain ix)).setPc p (.asleep b ix)

theorem inFlight_waiting {q : P} {c : B} {jx : Idx} :
    InFlight (s.waiting blockno p b write ix) q c jx ↔
      (q = p ∧ c = b ∧ jx = ix) ∨ (q ≠ p ∧ InFlight s q c jx) := by
  rw [State.waiting, inFlight_setPc]
  simp only [Pc.req, Option.some.injEq, Prod.mk.injEq]
  constructor
  · rintro (⟨rfl, rfl, rfl⟩ | hq)
    · exact Or.inl ⟨rfl, rfl, rfl⟩
    · exact Or.inr hq
  · rintro (⟨rfl, rfl, rfl⟩ | hq)
    · exact Or.inl ⟨rfl, rfl, rfl⟩
    · exact Or.inr hq

/-- **A new request** with three free descriptors. -/
theorem Requests.waiting (h : Requests s) (hp : s.pc p = .trying b write) (hnd : ix.list.Nodup)
    (hfree : ∀ i ∈ ix.list, s.free i = true) : Requests (s.waiting blockno p b write ix) where
  linked q c jx hq := by
    rcases inFlight_waiting.mp hq with ⟨rfl, rfl, rfl⟩ | ⟨-, hq⟩
    · exact linked_formatDesc hnd
    · exact (h.linked q c jx hq).congr fun i hi => formatDesc_of_not_mem (h.not_mem hfree hq hi)
  info q c jx hq := by
    rcases inFlight_waiting.mp hq with ⟨rfl, rfl, rfl⟩ | ⟨-, hq⟩
    · simp [State.waiting, submit, State.setPc]
    · have hinfo := h.info q c jx hq
      simpa [State.waiting, submit, State.setPc, State.takeChain, State.takeDesc,
        update_of_ne (h.head_ne hfree hq)] using hinfo
  disjoint q r c d jx kx i hq hr hi hi' := by
    rcases inFlight_waiting.mp hq with ⟨hqp, -, hjx⟩ | ⟨-, hq'⟩ <;>
      rcases inFlight_waiting.mp hr with ⟨hrp, -, hkx⟩ | ⟨-, hr'⟩
    · rw [hqp, hrp]
    · exact absurd (hjx ▸ hi) (h.not_mem hfree hr' hi')
    · exact absurd (hkx ▸ hi') (h.not_mem hfree hq' hi)
    · exact h.disjoint q r c d jx kx i hq' hr' hi hi'
  free_iff i := by
    have hiff : (s.waiting blockno p b write ix).free i = true ↔ s.free i = true ∧ i ∉ ix.list :=
      free_takeChain ix i
    rw [hiff, h.free_iff]
    refine ⟨fun hall q c jx hq => ?_, fun hall => ⟨fun q c jx hq => ?_, ?_⟩⟩
    · rcases inFlight_waiting.mp hq with ⟨rfl, rfl, rfl⟩ | ⟨-, hq⟩
      · exact hall.2
      · exact hall.1 q c jx hq
    · apply hall q c jx
      refine inFlight_waiting.mpr (Or.inr ⟨?_, hq⟩)
      rintro rfl
      simp [InFlight, hp, Pc.req] at hq
    · exact hall p b ix (inFlight_waiting.mpr (Or.inl ⟨rfl, rfl, rfl⟩))
  bufs q r c hq hr := by
    have hbuf : ∀ q, ((s.waiting blockno p b write ix).pc q).buf = (s.pc q).buf := by
      intro q
      by_cases hqp : q = p
      · subst hqp
        simp [State.waiting, State.setPc, hp, Pc.buf]
      · exact buf_setPc_of_ne hqp
    rw [hbuf] at hq hr
    exact h.bufs q r c hq hr

end Requests

section Returns

variable {P B : Type} [DecidableEq P] {s : State P B} {p : P} {b : B} {ix : Idx} {write : Bool}

/-- The note on the buffer of a request is cleared. -/
def State.forget (s : State P B) (i : Fin NUM) : State P B :=
  { s with info := update s.info i { s.info i with b := none } }

/-- The state in which `virtio_disk_rw` returns. -/
def State.returned (s : State P B) (p : P) (ix : Idx) : State P B :=
  ((s.forget ix.i0).giveChain ix).setPc p .idle

theorem finish_eq (h : Requests s) (hp : InFlight s p b ix) : finish p ix s = .ok (s.returned p ix) := by
  have hchain := freeChain_eq (s := s.forget ix.i0) (h.linked p b ix hp) (fun i hi => h.busy hp hi) 6
  unfold finish
  change (freeChain (6 + 3) ix.i0 (s.forget ix.i0) >>= _) = _
  rw [hchain]
  rfl

theorem inFlight_returned {q : P} {c : B} {jx : Idx} :
    InFlight (s.returned p ix) q c jx ↔ q ≠ p ∧ InFlight s q c jx := by
  have hstep : InFlight ((s.forget ix.i0).giveChain ix) q c jx ↔ InFlight s q c jx := by
    simp [InFlight, State.forget, State.giveChain, State.giveDesc]
  rw [State.returned, inFlight_setPc, hstep]
  simp [Pc.req]

/-- **A request is finished.** -/
theorem Requests.returned (h : Requests s) (hp : InFlight s p b ix) : Requests (s.returned p ix) := by
  -- the descriptors of the other requests are not touched
  have hother : ∀ q c jx i, q ≠ p → InFlight s q c jx → i ∈ jx.list → i ∉ ix.list := by
    intro q c jx i hne hq hi hi'
    exact hne (h.disjoint q p c b jx ix i hq hp hi hi')
  refine ⟨fun q c jx hq => ?_, fun q c jx hq => ?_, fun q r c d jx kx i hq hr hi hi' => ?_, fun i => ?_,
    fun q r c hq hr => ?_⟩
  · obtain ⟨hne, hq⟩ := inFlight_returned.mp hq
    refine (h.linked q c jx hq).congr fun i hi => ?_
    have hni := hother q c jx i hne hq hi
    simp only [Idx.list, List.mem_cons, List.not_mem_nil, or_false, not_or] at hni
    simp [State.returned, State.setPc, State.forget, State.giveChain, State.giveDesc, update_of_ne hni.1,
      update_of_ne hni.2.1, update_of_ne hni.2.2]
  · obtain ⟨hne, hq⟩ := inFlight_returned.mp hq
    have hi0 : jx.i0 ≠ ix.i0 := by
      intro he
      exact hother q c jx jx.i0 hne hq (by simp [Idx.list]) (by simp [Idx.list, he])
    have hinfo := h.info q c jx hq
    simpa [State.returned, State.setPc, State.forget, State.giveChain, State.giveDesc, update_of_ne hi0] using
      hinfo
  · obtain ⟨-, hq⟩ := inFlight_returned.mp hq
    obtain ⟨-, hr⟩ := inFlight_returned.mp hr
    exact h.disjoint q r c d jx kx i hq hr hi hi'
  · have hiff : (s.returned p ix).free i = true ↔ s.free i = true ∨ i ∈ ix.list :=
      free_giveChain (s := s.forget ix.i0) ix i
    rw [hiff, h.free_iff]
    refine ⟨fun hor q c jx hq hi => ?_, fun hall => ?_⟩
    · obtain ⟨hne, hq⟩ := inFlight_returned.mp hq
      rcases hor with hfree | hmem
      · exact hfree q c jx hq hi
      · exact hother q c jx i hne hq hi hmem
    · by_cases hi : i ∈ ix.list
      · exact Or.inr hi
      · refine Or.inl fun q c jx hq => ?_
        by_cases hqp : q = p
        · subst hqp
          cases hp.symm.trans hq
          exact hi
        · exact hall q c jx (inFlight_returned.mpr ⟨hqp, hq⟩)
  · have hbuf : ∀ q d, ((s.returned p ix).pc q).buf = some d → (s.pc q).buf = some d := by
      intro q d hq
      by_cases hqp : q = p
      · subst hqp
        simp [State.returned, State.setPc, Pc.buf] at hq
      · rw [State.returned, buf_setPc_of_ne hqp] at hq
        simpa [State.forget, State.giveChain, State.giveDesc] using hq
    exact h.bufs q r c (hbuf q c hq) (hbuf r c hr)

theorem Requests.call (h : Requests s) (hp : s.pc p = .idle) (hb : ∀ q, (s.pc q).buf ≠ some b) :
    Requests (s.setPc p (.trying b write)) := by
  have hin : ∀ q c jx, InFlight (s.setPc p (.trying b write)) q c jx ↔ InFlight s q c jx :=
    fun q c jx => inFlight_call hp
  refine ⟨fun q c jx hq => ?_, fun q c jx hq => ?_, fun q r c d jx kx i hq hr => ?_, fun i => ?_,
    fun q r c hq hr => ?_⟩
  · exact h.linked q c jx ((hin q c jx).mp hq)
  · exact h.info q c jx ((hin q c jx).mp hq)
  · exact h.disjoint q r c d jx kx i ((hin q c jx).mp hq) ((hin r d kx).mp hr)
  · simp only [hin]
    exact h.free_iff i
  · by_cases hqp : q = p <;> by_cases hrp : r = p
    · rw [hqp, hrp]
    · subst hqp
      rw [buf_setPc_of_ne hrp] at hr
      simp only [State.setPc, update_self, Pc.buf, Option.some.injEq] at hq
      exact absurd (hq ▸ hr) (hb r)
    · subst hrp
      rw [buf_setPc_of_ne hqp] at hq
      simp only [State.setPc, update_self, Pc.buf, Option.some.injEq] at hr
      exact absurd (hr ▸ hq) (hb q)
    · rw [buf_setPc_of_ne hqp] at hq
      rw [buf_setPc_of_ne hrp] at hr
      exact h.bufs q r c hq hr

end Returns

end RiscvOs.Virtio
