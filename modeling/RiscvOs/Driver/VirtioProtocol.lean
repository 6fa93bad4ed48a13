import RiscvOs.Driver.VirtioChains
import RiscvOs.Lib.Loop

set_option autoImplicit false

/-!
# The request protocol of the disk

For any number of processes and a device that finishes the chains it is given in any order: the
descriptors are the disjoint union of the free ones and of the chains in flight, no entry of a ring is
overwritten before it is read, and each completion reaches the buffer of its own request.

## Main results

* `Inv.step` — every step keeps the invariant.
* `Inv.no_panic` — no step panics.
* `request_protocol` — the laws in every reachable state.
-/

namespace RiscvOs.Virtio

open Function Machine IndexRing

open Loop (Safe)

/-- The rings: the indices count the entries of the histories, and the entries that are not read yet
are in their slots. -/
structure Rings {P B : Type} (s : State P B) : Prop where
  avail : Queue s.avail.ring s.avail.idx s.seen s.submitted s.taken
  used : Queue s.used.ring s.used.idx s.usedIdx s.finished s.handled

/-- The heads that the handler has not read: they are those of the requests whose buffers have the flag
set, and the device has cleared the status of those in the `used` ring. -/
structure Flow {P B : Type} (s : State P B) : Prop where
  nodup : s.outstanding.Nodup
  mem_iff : ∀ h, h ∈ s.outstanding ↔ ∃ p b ix, InFlight s p b ix ∧ ix.i0.val = h ∧ s.disk b = true
  status : ∀ h ∈ s.finished.drop s.handled, (s.info (Fin.ofNat NUM h)).status = 0

/-- The invariant. -/
structure Inv {P B : Type} (s : State P B) : Prop where
  rings : Rings s
  requests : Requests s
  flow : Flow s

/-! ## Heads -/

section Heads

variable {P B : Type} {s t : State P B} {p : P} {b : B} {ix : Idx}

theorem Flow.perm (h : Flow s) (hr : ∀ p b ix, InFlight t p b ix ↔ InFlight s p b ix)
    (hout : t.outstanding.Perm s.outstanding) (hdisk : t.disk = s.disk)
    (hstatus : ∀ x ∈ t.finished.drop t.handled, (t.info (Fin.ofNat NUM x)).status = 0) : Flow t where
  nodup := hout.nodup_iff.mpr h.nodup
  mem_iff x := by
    simp only [hout.mem_iff, hr, hdisk]
    exact h.mem_iff x
  status := hstatus

theorem Flow.lt (h : Flow s) {x : ℕ} (hx : x ∈ s.outstanding) : x < NUM := by
  obtain ⟨p, b, ix, -, rfl, -⟩ := (h.mem_iff x).mp hx
  exact ix.i0.isLt

theorem length_le_NUM {l : List ℕ} (hl : l.Nodup) (hlt : ∀ x ∈ l, x < NUM) : l.length ≤ NUM := by
  rw [← List.toFinset_card_of_nodup hl, ← Finset.card_range NUM]
  apply Finset.card_le_card
  intro x hx
  exact Finset.mem_range.mpr (hlt x (List.mem_toFinset.mp hx))

theorem Flow.length_le (h : Flow s) : s.outstanding.length ≤ NUM :=
  length_le_NUM h.nodup fun _ hx => h.lt hx

theorem mem_outstanding_of_finished {x : ℕ} (hx : x ∈ s.finished.drop s.handled) : x ∈ s.outstanding := by
  simp [State.outstanding, hx]

theorem ofNat_val (i : Fin NUM) : Fin.ofNat NUM i.val = i := by
  apply Fin.ext
  simp [Fin.ofNat, Nat.mod_eq_of_lt i.isLt]

theorem statusAddr_eq (h : Linked s.desc ix) : statusAddr s.desc ix.i0 = some ix.i0 := by
  simp only [statusAddr, ofNat_val, h.next0.2, h.next1.2, h.next2.2]

/-- The state after the device has taken a head. -/
def State.fetched (s : State P B) (x : ℕ) : State P B :=
  { s with work := x :: s.work, seen := s.seen + 1, taken := s.taken + 1 }

theorem Flow.fetched (h : Flow s) (hn : s.taken < s.submitted.length) :
    Flow (s.fetched s.submitted[s.taken]) := by
  refine h.perm (fun _ _ _ => Iff.rfl) ?_ rfl h.status
  simp only [State.outstanding, State.fetched, List.drop_eq_getElem_cons hn, List.append_assoc,
    List.cons_append]
  exact List.perm_middle

theorem b_deviceDone {x : ℕ} (i : Fin NUM) : ((deviceDone x s).info i).b = (s.info i).b := by
  unfold deviceDone
  cases statusAddr s.desc x with
  | none => rfl
  | some j =>
    by_cases hij : i = j
    · subst hij
      simp
    · simp [update_of_ne hij]

/-- **The device finishes a request.** -/
theorem Flow.deviceDone (h : Flow s) (hr : Requests s) (hk : Rings s) {x : ℕ} (hx : x ∈ s.work) :
    Flow (deviceDone x s) := by
  have hmem : x ∈ s.outstanding := by simp [State.outstanding, hx]
  obtain ⟨p, b, ix, hp, rfl, -⟩ := (h.mem_iff x).mp hmem
  have hd : (s.finished ++ [ix.i0.val]).drop s.handled = s.finished.drop s.handled ++ [ix.i0.val] :=
    List.drop_append_of_le_length hk.used.le
  refine h.perm (fun _ _ _ => Iff.rfl) ?_ rfl fun y hy => ?_
  · change (s.submitted.drop s.taken ++ s.work.erase ix.i0.val ++
      (s.finished ++ [ix.i0.val]).drop s.handled).Perm _
    rw [hd, State.outstanding, List.append_assoc, List.append_assoc]
    apply List.Perm.append_left
    calc s.work.erase ix.i0.val ++ (s.finished.drop s.handled ++ [ix.i0.val])
        |>.Perm (ix.i0.val :: (s.work.erase ix.i0.val ++ s.finished.drop s.handled)) := by
          rw [← List.append_assoc]
          exact List.perm_append_singleton _ _
      _ |>.Perm (s.work ++ s.finished.drop s.handled) :=
          (List.perm_cons_erase hx).symm.append_right _
  · change y ∈ (s.finished ++ [ix.i0.val]).drop s.handled at hy
    rw [hd, List.mem_append, List.mem_singleton] at hy
    simp only [Virtio.deviceDone, statusAddr_eq (hr.linked p b ix hp)]
    by_cases hyi : Fin.ofNat NUM y = ix.i0
    · rw [hyi, update_self]
    · rw [update_of_ne hyi]
      rcases hy with hy | rfl
      · exact h.status y hy
      · exact absurd (ofNat_val _) hyi

section Driver

variable [DecidableEq P] {blockno : B → UInt32} {write : Bool}

theorem Flow.returned (h : Flow s) (hp : InFlight s p b ix) (hflag : s.disk b = false) :
    Flow (s.returned p ix) := by
  have hstatus : ∀ i, ((s.returned p ix).info i).status = (s.info i).status := by
    intro i
    by_cases hi : i = ix.i0
    · subst hi
      simp [State.returned, State.setPc, State.giveChain, State.giveDesc, State.forget]
    · simp [State.returned, State.setPc, State.giveChain, State.giveDesc, State.forget,
        update_of_ne hi]
  refine ⟨h.nodup, fun x => ?_, fun x hx => ?_⟩
  · change x ∈ s.outstanding ↔ ∃ q c jx, InFlight (s.returned p ix) q c jx ∧ jx.i0.val = x ∧ s.disk c = true
    rw [h.mem_iff]
    constructor
    · rintro ⟨q, c, jx, hq, hhead, hc⟩
      refine ⟨q, c, jx, inFlight_returned.mpr ⟨?_, hq⟩, hhead, hc⟩
      rintro rfl
      cases hp.symm.trans hq
      simp [hflag] at hc
    · rintro ⟨q, c, jx, hq, hhead, hc⟩
      exact ⟨q, c, jx, (inFlight_returned.mp hq).2, hhead, hc⟩
  · rw [hstatus]
    exact h.status x hx

variable (blockno) in
/-- A request that a process has just submitted. -/
theorem Flow.waiting [DecidableEq B] (h : Flow s) (hr : Requests s) (hk : Rings s) (hp : s.pc p = .trying b write)
    (hfree : ∀ i ∈ ix.list, s.free i = true) : Flow (s.waiting blockno p b write ix) := by
  have hout : (s.waiting blockno p b write ix).outstanding.Perm (ix.i0.val :: s.outstanding) := by
    have hd : (s.submitted ++ [ix.i0.val]).drop s.taken = s.submitted.drop s.taken ++ [ix.i0.val] :=
      List.drop_append_of_le_length hk.avail.le
    change ((s.submitted ++ [ix.i0.val]).drop s.taken ++ s.work ++ s.finished.drop s.handled).Perm _
    rw [hd]
    simp only [State.outstanding, List.append_assoc, List.singleton_append]
    exact List.perm_middle
  have hnew : ix.i0.val ∉ s.outstanding := by
    intro hmem
    obtain ⟨q, c, jx, hq, hhead, -⟩ := (h.mem_iff _).mp hmem
    exact hr.head_ne hfree hq (Fin.ext hhead)
  have hpb : ∀ q c jx, InFlight s q c jx → c ≠ b := by
    rintro q c jx hq rfl
    obtain rfl := hr.bufs q p c hq.buf (by simp [hp, Pc.buf])
    simp [InFlight, hp, Pc.req] at hq
  refine ⟨hout.nodup_iff.mpr (List.nodup_cons.mpr ⟨hnew, h.nodup⟩), fun x => ?_, fun x hx => ?_⟩
  · rw [hout.mem_iff, List.mem_cons, h.mem_iff]
    constructor
    · rintro (rfl | ⟨q, c, jx, hq, hhead, hflag⟩)
      · refine ⟨p, b, ix, inFlight_waiting.mpr (Or.inl ⟨rfl, rfl, rfl⟩), rfl, ?_⟩
        simp [State.waiting, State.setPc, submit]
      · refine ⟨q, c, jx, inFlight_waiting.mpr (Or.inr ⟨?_, hq⟩), hhead, ?_⟩
        · rintro rfl
          simp [InFlight, hp, Pc.req] at hq
        · simpa [State.waiting, State.setPc, submit, State.takeChain, State.takeDesc,
            update_of_ne (hpb q c jx hq)] using hflag
    · rintro ⟨q, c, jx, hq, hhead, hflag⟩
      rcases inFlight_waiting.mp hq with ⟨-, -, rfl⟩ | ⟨-, hq⟩
      · exact Or.inl hhead.symm
      · refine Or.inr ⟨q, c, jx, hq, hhead, ?_⟩
        simpa [State.waiting, State.setPc, submit, State.takeChain, State.takeDesc,
          update_of_ne (hpb q c jx hq)] using hflag
  · have hne : Fin.ofNat NUM x ≠ ix.i0 := by
      intro he
      have hmem : x ∈ s.outstanding := mem_outstanding_of_finished hx
      apply hnew
      rw [← he]
      simpa [Fin.ofNat, Nat.mod_eq_of_lt (h.lt hmem)] using hmem
    change (update s.info ix.i0 _ (Fin.ofNat NUM x)).status = 0
    rw [update_of_ne hne]
    exact h.status x hx

end Driver

section Handler

variable [DecidableEq B]

/-- The state after a round of the loop of `virtio_disk_intr`. -/
def State.completed (s : State P B) (b : B) : State P B :=
  { s with
    disk := update s.disk b false
    pc := wakeupBuf b s.pc
    usedIdx := s.usedIdx + 1
    handled := s.handled + 1 }

theorem sameReqs_completed : SameReqs s (s.completed b) :=
  ⟨fun q => by simp [State.completed], fun q => by simp [State.completed]⟩

/-- **The handler reads the head of a request**, and finds the buffer of that request. -/
theorem diskIntr_eq (h : Flow s) (hr : Requests s) (hn : s.handled < s.finished.length) :
    ∃ p b ix, InFlight s p b ix ∧ ix.i0.val = s.finished[s.handled] ∧ s.disk b = true ∧
      diskIntr s.finished[s.handled] s = .ok (s.completed b) := by
  have hmem : s.finished[s.handled] ∈ s.finished.drop s.handled := by
    rw [List.drop_eq_getElem_cons hn]
    exact List.mem_cons_self
  obtain ⟨p, b, ix, hp, hhead, hflag⟩ := (h.mem_iff _).mp (mem_outstanding_of_finished hmem)
  refine ⟨p, b, ix, hp, hhead, hflag, ?_⟩
  have hst := h.status _ hmem
  rw [← hhead] at hst ⊢
  rw [ofNat_val] at hst
  simp [diskIntr, hst, hr.info p b ix hp, State.completed]

theorem Flow.completed (h : Flow s) (hr : Requests s) (hn : s.handled < s.finished.length)
    (hp : InFlight s p b ix) (hhead : ix.i0.val = s.finished[s.handled]) : Flow (s.completed b) := by
  have hout : s.outstanding.Perm (ix.i0.val :: (s.completed b).outstanding) := by
    simp only [State.outstanding, State.completed, List.drop_eq_getElem_cons hn, hhead]
    exact List.perm_middle
  have hnd := List.nodup_cons.mp (hout.nodup_iff.mp h.nodup)
  have hmem : ∀ x, x ∈ (s.completed b).outstanding ↔ x ∈ s.outstanding ∧ x ≠ ix.i0.val := by
    intro x
    rw [hout.mem_iff, List.mem_cons]
    constructor
    · intro hx
      refine ⟨Or.inr hx, ?_⟩
      rintro rfl
      exact hnd.1 hx
    · rintro ⟨rfl | hx, hne⟩
      · exact absurd rfl hne
      · exact hx
  refine ⟨hnd.2, fun x => ?_, fun x hx => ?_⟩
  · simp only [hmem, h.mem_iff, sameReqs_completed.inFlight_iff]
    constructor
    · rintro ⟨⟨q, c, jx, hq, rfl, hc⟩, hne⟩
      refine ⟨q, c, jx, hq, rfl, ?_⟩
      -- one buffer, one process, one head
      have hcb : c ≠ b := by
        rintro rfl
        obtain rfl := hr.bufs p q c hp.buf hq.buf
        cases hp.symm.trans hq
        exact hne rfl
      simpa [State.completed, update_of_ne hcb] using hc
    · rintro ⟨q, c, jx, hq, rfl, hc⟩
      have hcb : c ≠ b := by
        rintro rfl
        simp [State.completed] at hc
      refine ⟨⟨q, c, jx, hq, rfl, ?_⟩, fun he => ?_⟩
      · simpa [State.completed, update_of_ne hcb] using hc
      · exact hcb (hr.eq_of_head hp hq (Fin.ext he.symm)).2.1.symm
  · apply h.status
    rw [List.drop_eq_getElem_cons hn]
    exact List.mem_cons_of_mem _ hx

end Handler

end Heads

/-! ## Rings -/

section Rings

variable {P B : Type} {s : State P B}

theorem NUM_dvd : NUM ∣ 2 ^ 16 := by decide

theorem Flow.avail_le (h : Flow s) : s.submitted.length ≤ s.taken + NUM := by
  have hle := h.length_le
  simp only [State.outstanding, List.length_append, List.length_drop] at hle
  omega

theorem Flow.used_le (h : Flow s) : s.finished.length ≤ s.handled + NUM := by
  have hle := h.length_le
  simp only [State.outstanding, List.length_append, List.length_drop] at hle
  omega

/-- What the law of the rings is about. -/
def State.ringPart (s : State P B) :=
  (s.avail, s.used, s.usedIdx, s.seen, s.submitted, s.taken, s.finished, s.handled)

theorem Rings.congr {t : State P B} (h : Rings s) (heq : t.ringPart = s.ringPart) : Rings t := by
  simp only [State.ringPart, Prod.mk.injEq] at heq
  obtain ⟨ha, hu, hi, hs, hsub, ht, hf, hh⟩ := heq
  constructor
  · rw [ha, hs, hsub, ht]
    exact h.avail
  · rw [hu, hi, hf, hh]
    exact h.used

/-- **A head is put into the `avail` ring**, which has a free slot because the descriptors of the request
were free. -/
theorem Rings.waiting [DecidableEq P] [DecidableEq B] {blockno : B → UInt32} {p : P} {b : B}
    {write : Bool} {ix : Idx} (h : Rings s) (hf : Flow (s.waiting blockno p b write ix)) :
    Rings (s.waiting blockno p b write ix) :=
  ⟨h.avail.push NUM_dvd hf.avail_le, h.used⟩

/-- **A head is put into the `used` ring.** -/
theorem Rings.deviceDone {x : ℕ} (h : Rings s) (hf : Flow (deviceDone x s)) :
    Rings (deviceDone x s) :=
  ⟨h.avail, h.used.push NUM_dvd hf.used_le⟩

theorem Rings.fetched {x : ℕ} (h : Rings s) (hn : s.taken < s.submitted.length) : Rings (s.fetched x) :=
  ⟨h.avail.pop hn, h.used⟩

theorem Rings.completed [DecidableEq B] {b : B} (h : Rings s) (hn : s.handled < s.finished.length) :
    Rings (s.completed b) :=
  ⟨h.avail, h.used.pop hn⟩

theorem lt_add_of_le_NUM {m n : ℕ} (h : m ≤ n + NUM) : m < n + 2 ^ 16 := by
  simp only [NUM] at h
  omega

theorem Rings.avail_next (h : Rings s) (hf : Flow s) (hne : s.seen ≠ s.avail.idx) :
    ∃ hn : s.taken < s.submitted.length, s.avail.ring (slot NUM s.seen) = s.submitted[s.taken] :=
  h.avail.next NUM_dvd (lt_add_of_le_NUM hf.avail_le) hne

theorem Rings.used_next (h : Rings s) (hf : Flow s) (hne : s.usedIdx ≠ s.used.idx) :
    ∃ hn : s.handled < s.finished.length, s.used.ring (slot NUM s.usedIdx) = s.finished[s.handled] :=
  h.used.next NUM_dvd (lt_add_of_le_NUM hf.used_le) hne

end Rings

/-! ## Steps -/

section Steps

variable {P B : Type} {s t : State P B}

theorem Start.inv (h : Start s) : Inv s := by
  have hno : ∀ p b ix, ¬ InFlight s p b ix := by
    intro p b ix hp
    simp [InFlight, h.pc, Pc.req] at hp
  refine ⟨⟨?_, ?_⟩, ⟨?_, ?_, ?_, ?_, ?_⟩, ⟨?_, ?_, ?_⟩⟩
  · rw [h.avail, h.seen, h.submitted, h.taken]
    exact queue_nil _
  · rw [h.used, h.usedIdx, h.finished, h.handled]
    exact queue_nil _
  · exact fun p b ix hp => absurd hp (hno p b ix)
  · exact fun p b ix hp => absurd hp (hno p b ix)
  · exact fun p q b c ix jx i hp => absurd hp (hno p b ix)
  · intro i
    simp [h.free, hno]
  · intro p q b hp
    simp [h.pc, Pc.buf] at hp
  · simp [State.outstanding, h.submitted, h.work, h.finished]
  · intro x
    simp [State.outstanding, h.submitted, h.work, h.finished, hno]
  · intro x hx
    simp [h.finished] at hx

theorem Inv.rolled (h : Inv s) (hr : Rolled s t) : Inv t := by
  have hreq := h.requests.congr hr.same ⟨by rw [hr.eq], hr.desc, fun _ => by rw [hr.eq]⟩
  have hflow := h.flow.perm (fun _ _ _ => hr.same.inFlight_iff) (.of_eq (by rw [hr.eq]; rfl))
    (by rw [hr.eq]) (by rw [hr.eq]; exact h.flow.status)
  refine ⟨?_, hreq, hflow⟩
  exact h.rings.congr (by rw [hr.eq]; rfl)

theorem Inv.intr (h : Inv s) (v : Bool) : Inv { s with intr := v } :=
  ⟨h.rings.congr rfl, h.requests.congr ⟨fun _ => rfl, fun _ => rfl⟩ ⟨rfl, fun _ _ => rfl, fun _ => rfl⟩,
    h.flow.perm (fun _ _ _ => Iff.rfl) (.refl _) rfl h.flow.status⟩

theorem Inv.intrStep [DecidableEq B] (h : Inv s) (hne : s.usedIdx ≠ s.used.idx) :
    ∃ p b ix, InFlight s p b ix ∧ s.finished[s.handled]? = some ix.i0.val ∧ s.disk b = true ∧
      diskIntr (s.used.ring (slot NUM s.usedIdx)) s = .ok (s.completed b) ∧ Inv (s.completed b) := by
  obtain ⟨hn, hread⟩ := h.rings.used_next h.flow hne
  obtain ⟨p, b, ix, hp, hhead, hflag, hok⟩ := diskIntr_eq h.flow h.requests hn
  refine ⟨p, b, ix, hp, ?_, hflag, hread ▸ hok, h.rings.completed hn, ?_,
    h.flow.completed h.requests hn hp hhead⟩
  · rw [List.getElem?_eq_getElem hn, hhead]
  · exact h.requests.congr sameReqs_completed ⟨rfl, fun _ _ => rfl, fun _ => rfl⟩

theorem Inv.setPc [DecidableEq P] (h : Inv s) {p : P} {c : Pc B} (hreq : c.req = (s.pc p).req)
    (hbuf : c.buf = (s.pc p).buf) : Inv (s.setPc p c) where
  rings := h.rings.congr rfl
  requests := h.requests.congr (sameReqs_setPc hreq hbuf) ⟨rfl, fun _ _ => rfl, fun _ => rfl⟩
  flow := h.flow.perm (fun _ _ _ => (sameReqs_setPc hreq hbuf).inFlight_iff) (.refl _) rfl h.flow.status

theorem Inv.waitLoop [DecidableEq P] (h : Inv s) {p : P} {b : B} {ix : Idx} (hp : s.pc p = .testing b ix) :
    ∃ t, waitLoop p b ix s = .ok t ∧ Inv t := by
  have hin : InFlight s p b ix := by simp [InFlight, hp, Pc.req]
  unfold Virtio.waitLoop
  by_cases hflag : s.disk b = true
  · rw [if_pos hflag]
    exact ⟨_, rfl, h.setPc (by simp [hp, Pc.req]) (by simp [hp, Pc.buf])⟩
  · rw [if_neg hflag]
    refine ⟨_, finish_eq h.requests hin, ?_, h.requests.returned hin,
      h.flow.returned hin (by simpa using hflag)⟩
    exact h.rings.congr rfl

variable [DecidableEq P] [DecidableEq B] {blockno : B → UInt32}

variable (blockno) in
theorem Inv.diskRw (h : Inv s) {p : P} {b : B} {write : Bool} (hp : s.pc p = .trying b write) :
    ∃ t, diskRw blockno p b write s = .ok t ∧ Inv t := by
  rcases alloc3Desc_cases s with ⟨ix, heq, hnd, hfree⟩ | ⟨u, heq, hu⟩
  · refine ⟨s.waiting blockno p b write ix, ?_, ?_⟩
    · -- the flag of the buffer has just been set
      simp [Virtio.diskRw, heq, Virtio.waitLoop, submit, State.waiting, bind, Except.bind]
    · have hflow := h.flow.waiting blockno h.requests h.rings hp hfree
      exact ⟨h.rings.waiting hflow, h.requests.waiting hp hnd hfree, hflow⟩
  · refine ⟨u.setPc p (.noDesc b write), ?_, ?_⟩
    · simp [Virtio.diskRw, heq, bind, Except.bind]
    · refine (h.rolled hu).setPc ?_ ?_
      · rw [hu.same.req, hp]
        rfl
      · rw [hu.same.buf, hp]
        rfl

theorem safe_elsewhere {α : Type} {Q : α → Prop} : Safe (· ≠ Stop.elsewhere) Q (.error .elsewhere) :=
  not_not.mpr rfl

/-- A step keeps the invariant, or it is not its turn. -/
theorem Inv.safe (h : Inv s) (e : Event P B) :
    Safe (· ≠ .elsewhere) (fun t => Legal s e → Inv t) (next blockno s e) := by
  cases e with
  | call p b write =>
    cases hp : s.pc p with
    | idle =>
      simp only [next, hp]
      refine fun he => ⟨?_, h.requests.call hp he, h.flow.perm (fun _ _ _ => inFlight_call hp) (.refl _) rfl
        h.flow.status⟩
      exact h.rings.congr rfl
    | _ =>
      simp only [next, hp]
      exact safe_elsewhere
  | «try» p =>
    cases hp : s.pc p with
    | trying b write =>
      obtain ⟨u, hu, hinv⟩ := h.diskRw blockno hp
      simp only [next, hp, hu]
      split_ifs
      · exact safe_elsewhere
      · exact fun _ => hinv
    | _ =>
      simp only [next, hp]
      exact safe_elsewhere
  | test p =>
    cases hp : s.pc p with
    | testing b ix =>
      obtain ⟨u, hu, hinv⟩ := h.waitLoop hp
      simp only [next, hp, hu]
      split_ifs
      · exact safe_elsewhere
      · exact fun _ => hinv
    | _ =>
      simp only [next, hp]
      exact safe_elsewhere
  | wake p =>
    cases hp : s.pc p with
    | noDesc b write | asleep b ix =>
      simp only [next, hp]
      exact fun _ => h.setPc (by simp [hp, Pc.req]) (by simp [hp, Pc.buf])
    | _ =>
      simp only [next, hp]
      exact safe_elsewhere
  | intrEnter =>
    simp only [next]
    split_ifs
    · exact safe_elsewhere
    · exact fun _ => h.intr true
  | intrStep =>
    simp only [next]
    split_ifs with hif
    · obtain ⟨p, b, ix, -, -, -, hok, hinv⟩ := h.intrStep hif.2
      rw [hok]
      exact fun _ => hinv
    · exact safe_elsewhere
  | intrLeave =>
    simp only [next]
    split_ifs
    · exact fun _ => h.intr false
    · exact safe_elsewhere
  | deviceTake =>
    simp only [next]
    split_ifs with hne
    · exact safe_elsewhere
    · obtain ⟨hlt, hread⟩ := h.rings.avail_next h.flow hne
      rw [hread]
      exact fun _ => ⟨h.rings.fetched hlt, h.requests.congr ⟨fun _ => rfl, fun _ => rfl⟩
        ⟨rfl, fun _ _ => rfl, fun _ => rfl⟩, h.flow.fetched hlt⟩
  | deviceDone head =>
    simp only [next]
    split_ifs with hmem
    · have hflow := h.flow.deviceDone h.requests h.rings hmem
      exact fun _ => ⟨h.rings.deviceDone hflow, h.requests.congr ⟨fun _ => rfl, fun _ => rfl⟩
        ⟨rfl, fun _ _ => rfl, b_deviceDone⟩, hflow⟩
    · exact safe_elsewhere

/-- **Every step keeps the invariant.** -/
theorem Inv.step (h : Inv s) {e : Event P B} (he : Legal s e) (hn : next blockno s e = .ok t) : Inv t :=
  (h.safe e).of_eq_ok hn he

/-- **No step panics**: an error says that it is not the turn of this step. -/
theorem Inv.no_panic (h : Inv s) {e : Event P B} {x : Stop} (hn : next blockno s e = .error x) :
    x = .elsewhere :=
  by_contra fun hx => (h.safe e).ne_error hx hn

end Steps

/-! ## The protocol -/

/-- The laws of a state. -/
structure Protocol {P B : Type} (s : State P B) : Prop where
  /-- The descriptors of a request in flight are a chain in the table. -/
  chains : ∀ p b ix, InFlight s p b ix → ix.list.Nodup ∧ chain s.desc NUM ix.i0 = ix.list
  /-- The chains of two processes are disjoint. -/
  disjoint : ∀ p q b c ix jx, InFlight s p b ix → InFlight s q c jx → p ≠ q →
    ix.list.Disjoint jx.list
  /-- The free descriptors are those that are in no chain. -/
  free_iff : ∀ i, s.free i = true ↔ ∀ p b ix, InFlight s p b ix → i ∉ ix.list
  /-- The heads that are submitted and not yet taken by the device are in the `avail` ring. -/
  avail : s.taken ≤ s.submitted.length ∧ s.submitted.length ≤ s.taken + NUM ∧
    ∀ k (hk : k < s.submitted.length), s.taken ≤ k →
      s.avail.ring (slot NUM (UInt16.ofNat k)) = s.submitted[k]
  /-- The heads that are finished and not yet read by the handler are in the `used` ring. -/
  used : s.handled ≤ s.finished.length ∧ s.finished.length ≤ s.handled + NUM ∧
    ∀ k (hk : k < s.finished.length), s.handled ≤ k →
      s.used.ring (slot NUM (UInt16.ofNat k)) = s.finished[k]
  /-- The indices are the numbers of entries, in 16 bits. -/
  indices : s.avail.idx = UInt16.ofNat s.submitted.length ∧ s.seen = UInt16.ofNat s.taken ∧
    s.used.idx = UInt16.ofNat s.finished.length ∧ s.usedIdx = UInt16.ofNat s.handled
  /-- A head is outstanding once, as long as the flag of its buffer is set. -/
  nodup : s.outstanding.Nodup
  flag : ∀ p b ix, InFlight s p b ix → (s.disk b = true ↔ ix.i0.val ∈ s.outstanding)

section Laws

variable {P B : Type} {s : State P B}

theorem Linked.chain_eq {ix : Idx} (h : Linked s.desc ix) : chain s.desc NUM ix.i0 = ix.list := by
  change chain s.desc (5 + 1 + 1 + 1) ix.i0 = ix.list
  rw [chain, if_pos h.next0.1, h.next0.2, ofNat_val, chain,
    if_pos h.next1.1, h.next1.2, ofNat_val, chain, if_neg (not_not.mpr h.next2.1)]
  rfl

theorem Inv.protocol (h : Inv s) : Protocol s where
  chains p b ix hp := ⟨(h.requests.linked p b ix hp).nodup, (h.requests.linked p b ix hp).chain_eq⟩
  disjoint p q b c ix jx hp hq hne i hi hj := hne (h.requests.disjoint p q b c ix jx i hp hq hi hj)
  free_iff := h.requests.free_iff
  avail := by
    refine ⟨h.rings.avail.le, h.flow.avail_le, fun k hk hn => ?_⟩
    rw [slot_ofNat NUM_dvd]
    exact h.rings.avail.holds k hk hn
  used := by
    refine ⟨h.rings.used.le, h.flow.used_le, fun k hk hn => ?_⟩
    rw [slot_ofNat NUM_dvd]
    exact h.rings.used.holds k hk hn
  indices := ⟨h.rings.avail.idx_eq, h.rings.avail.seen_eq, h.rings.used.idx_eq, h.rings.used.seen_eq⟩
  nodup := h.flow.nodup
  flag p b ix hp := by
    rw [h.flow.mem_iff]
    refine ⟨fun hflag => ⟨p, b, ix, hp, rfl, hflag⟩, ?_⟩
    rintro ⟨q, c, jx, hq, hhead, hflag⟩
    obtain ⟨-, rfl, -⟩ := h.requests.eq_of_head hq hp (Fin.ext hhead)
    exact hflag

end Laws

/-- **The request protocol.** From the state after `virtio_disk_init`, for any number of processes and any
order in which the device finishes its work: the laws hold, no step panics, and every completion that the
handler reads clears the flag of the buffer of its own request, and of no other. -/
theorem request_protocol {P B : Type} [DecidableEq P] [DecidableEq B] (blockno : B → UInt32)
    {s₀ s : State P B} (h₀ : Start s₀) (h : Reach (next blockno) Legal s₀ s) :
    Protocol s ∧
      (∀ e x, next blockno s e = .error x → x = .elsewhere) ∧
      ∀ t, next blockno s .intrStep = .ok t → ∃ p b ix, InFlight s p b ix ∧
        s.finished[s.handled]? = some ix.i0.val ∧ s.disk b = true ∧
        t.disk = update s.disk b false := by
  have hinv : Inv s := h.invariant (I := Inv) h₀.inv fun hi hl hn => hi.step hl hn
  refine ⟨hinv.protocol, fun e x hn => hinv.no_panic hn, fun t hn => ?_⟩
  simp only [next] at hn
  split_ifs at hn with hif
  obtain ⟨p, b, ix, hp, hhead, hflag, hok, -⟩ := hinv.intrStep hif.2
  cases hok.symm.trans hn
  exact ⟨p, b, ix, hp, hhead, hflag, rfl⟩

/-- The state after `virtio_disk_init`, for two processes and three buffers. -/
def start : State (Fin 2) (Fin 3) where
  desc _ := .zero
  avail := ⟨fun _ => 0, 0⟩
  used := ⟨fun _ => 0, 0⟩
  free _ := true
  usedIdx := 0
  info _ := ⟨none, 0⟩
  ops _ := ⟨false, 0⟩
  disk _ := false
  pc _ := .idle
  intr := false
  seen := 0
  work := []
  submitted := []
  taken := 0
  finished := []
  handled := 0

/-- Two requests are submitted, and the device has finished the second one first. -/
def twoRequests : List (Event (Fin 2) (Fin 3)) :=
  [.call left ⟨0, by decide⟩ false, .try left, .call right ⟨2, by decide⟩ true, .try right, .deviceTake,
    .deviceTake, .deviceDone 3, .intrEnter]

theorem request_protocol_twoRequests :
    (after (next fun b : Fin 3 => UInt32.ofNat b.val) start twoRequests).outstanding = [0, 3] ∧
      Protocol (after (next fun b : Fin 3 => UInt32.ofNat b.val) start twoRequests) := by
  have hstart : Start start :=
    ⟨fun _ => rfl, rfl, rfl, rfl, fun _ => rfl, rfl, rfl, rfl, rfl, rfl, rfl, rfl⟩
  have hok : errorOf (exec (next fun b : Fin 3 => UInt32.ofNat b.val) start twoRequests) = none := by
    decide
  have hlegal : Along (next fun b : Fin 3 => UInt32.ofNat b.val) Legal start twoRequests := by
    decide
  exact ⟨by decide, (request_protocol (fun b : Fin 3 => UInt32.ofNat b.val) hstart
    (reach_of_exec hlegal (exec_eq_after hok))).1⟩

end RiscvOs.Virtio
