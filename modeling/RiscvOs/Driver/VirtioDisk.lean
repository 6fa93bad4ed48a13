import RiscvOs.Param
import RiscvOs.Lib.IndexRing
import RiscvOs.Lib.Machine

set_option autoImplicit false

/-!
# The disk driver and its device (`kernel/driver/virtio_disk.c`)

Processes submit requests as chains of three descriptors. The driver writes the head of a chain to the
`avail` ring, the device takes it from there, works on any of the chains it has taken, and writes the
head of a finished one to the `used` ring, which the interrupt handler reads.

## Implementation notes

A step of a process is what `virtio_disk_rw` does between acquiring `vdisk_lock` and the next `sleep`,
which releases it. The device looks at a chain only after `avail->idx` has been increased, which comes
last, and no more after it has put the head into the `used` ring, so these steps of the driver are
atomic for it. The handler holds the lock over several steps, between which the device works. The
contents of the buffers and of the disk are not modelled.
-/

namespace RiscvOs.Virtio

open Function Machine

/-- The number of descriptors. -/
def NUM : ℕ := 8

instance : NeZero NUM := ⟨by decide⟩

/-- The addresses that the driver stores in descriptors. -/
inductive Addr (B : Type) where
  | null
  | op (i : Fin NUM)
  | data (b : B)
  | status (i : Fin NUM)

/-- `struct virtq_desc`. -/
structure Desc (B : Type) where
  addr : Addr B
  len : ℕ
  flags : UInt16
  next : ℕ

/-- Chained with another descriptor. -/
def VRING_DESC_F_NEXT : UInt16 := 1

/-- The device writes. -/
def VRING_DESC_F_WRITE : UInt16 := 2

/-- A descriptor of zeros. -/
def Desc.zero {B : Type} : Desc B := ⟨.null, 0, 0, 0⟩

/-- `struct virtio_blk_req`; the type is that of a write. -/
structure BlkReq where
  out : Bool
  sector : UInt32

/-- The driver's notes on a request, under the number of its first descriptor. -/
structure Info (B : Type) where
  b : Option B
  status : UInt8

/-- `idx`: the descriptors of a request. -/
structure Idx where
  i0 : Fin NUM
  i1 : Fin NUM
  i2 : Fin NUM
  deriving DecidableEq

def Idx.list (ix : Idx) : List (Fin NUM) := [ix.i0, ix.i1, ix.i2]

/-- Where a process is: outside of `virtio_disk_rw`, before or asleep in the first loop, before or
asleep in the second loop. -/
inductive Pc (B : Type) where
  | idle
  | trying (b : B) (write : Bool)
  | noDesc (b : B) (write : Bool)
  | testing (b : B) (ix : Idx)
  | asleep (b : B) (ix : Idx)

/-- The buffer with which a process is in `virtio_disk_rw`. -/
def Pc.buf {B : Type} : Pc B → Option B
  | .idle => none
  | .trying b _ | .noDesc b _ | .testing b _ | .asleep b _ => some b

/-- The request of a process that has its descriptors. -/
def Pc.req {B : Type} : Pc B → Option (B × Idx)
  | .idle | .trying _ _ | .noDesc _ _ => none
  | .testing b ix | .asleep b ix => some (b, ix)

/-- A ring, and the index of the party that fills it. -/
structure Ring where
  ring : Fin NUM → ℕ
  idx : UInt16

/-- The state. `disk` is the field of that name in the buffers, and `intr` says that the handler has
the lock. The device has an index of its own into the `avail` ring and the heads of the chains it has
taken. The last fields are history: all heads that were submitted and finished, and how many of them
the device has taken and the handler has read. -/
structure State (P B : Type) where
  desc : Fin NUM → Desc B
  avail : Ring
  used : Ring
  free : Fin NUM → Bool
  usedIdx : UInt16
  info : Fin NUM → Info B
  ops : Fin NUM → BlkReq
  disk : B → Bool
  pc : P → Pc B
  intr : Bool
  seen : UInt16
  work : List ℕ
  submitted : List ℕ
  taken : ℕ
  finished : List ℕ
  handled : ℕ

/-- Why a step stops: the calls of `panic` in `free_desc` ("free_desc 1", "free_desc 2") and in
`virtio_disk_intr`, a null pointer to a buffer, a chain without end; or it is not the turn of this
step. -/
inductive Stop where
  | freeDesc1 | freeDesc2 | status | wild | loop | elsewhere
  deriving DecidableEq

/-- The steps. `wake` is a wakeup that has nothing to do with the disk, as in `kkill`. -/
inductive Event (P B : Type) where
  | call (p : P) (b : B) (write : Bool)
  | try (p : P)
  | test (p : P)
  | wake (p : P)
  | intrEnter
  | intrStep
  | intrLeave
  | deviceTake
  | deviceDone (head : ℕ)

section Code

variable {P B : Type} [DecidableEq P] [DecidableEq B]

def State.setPc (s : State P B) (p : P) (c : Pc B) : State P B :=
  { s with pc := update s.pc p c }

/-- `wakeup(&disk.free[0])`. -/
def wakeupFree (pc : P → Pc B) (p : P) : Pc B :=
  match pc p with
  | .noDesc b write => .trying b write
  | c => c

/-- `wakeup(b)`. -/
def wakeupBuf (b : B) (pc : P → Pc B) (p : P) : Pc B :=
  match pc p with
  | .asleep b' ix => if b' = b then .testing b' ix else .asleep b' ix
  | c => c

/-! ## Descriptors -/

/-- Find a free descriptor. -/
def allocDesc (s : State P B) : Option (Fin NUM) := (List.finRange NUM).find? fun i => s.free i

/-- Mark a descriptor as used. -/
def State.takeDesc (s : State P B) (i : Fin NUM) : State P B :=
  { s with free := update s.free i false }

/-- Clear a descriptor and mark it as free. -/
def State.giveDesc (s : State P B) (i : Fin NUM) : State P B :=
  { s with
    desc := update s.desc i .zero
    free := update s.free i true
    pc := wakeupFree s.pc }

def freeDesc (i : ℕ) (s : State P B) : Except Stop (State P B) :=
  if h : i < NUM then
    if s.free ⟨i, h⟩ then .error .freeDesc2 else .ok (s.giveDesc ⟨i, h⟩)
  else .error .freeDesc1

/-- Free a chain. The loop ends after `NUM` rounds at the latest, because `free_desc` does not free a
descriptor twice. -/
def freeChain : (fuel i : ℕ) → State P B → Except Stop (State P B)
  | 0, _, _ => .error .loop
  | fuel + 1, i, s =>
    if h : i < NUM then do
      let s' ← freeDesc i s
      if (s.desc ⟨i, h⟩).flags &&& VRING_DESC_F_NEXT ≠ 0 then
        freeChain fuel (s.desc ⟨i, h⟩).next s'
      else .ok s'
    else .error .freeDesc1

/-- Allocate three descriptors, or none. -/
def alloc3Desc (s : State P B) : Except Stop (Option Idx × State P B) :=
  match allocDesc s with
  | none => .ok (none, s)
  | some i0 =>
    let s₀ := s.takeDesc i0
    match allocDesc s₀ with
    | none => do
      let s ← freeDesc i0 s₀
      .ok (none, s)
    | some i1 =>
      let s₁ := s₀.takeDesc i1
      match allocDesc s₁ with
      | none => do
        let s ← freeDesc i0 s₁
        let s ← freeDesc i1 s
        .ok (none, s)
      | some i2 => .ok (some ⟨i0, i1, i2⟩, s₁.takeDesc i2)

/-! ## The driver -/

/-- Format the three descriptors of a request. -/
def formatDesc (b : B) (write : Bool) (ix : Idx) (desc : Fin NUM → Desc B) : Fin NUM → Desc B :=
  let d := update desc ix.i0 ⟨.op ix.i0, 16, VRING_DESC_F_NEXT, ix.i1⟩
  let d := update d ix.i1
    ⟨.data b, BSIZE, (if write then 0 else VRING_DESC_F_WRITE) ||| VRING_DESC_F_NEXT, ix.i2⟩
  update d ix.i2 ⟨.status ix.i0, 1, VRING_DESC_F_WRITE, 0⟩

/-- Format a request and tell the device about it. -/
def submit (blockno : B → UInt32) (b : B) (write : Bool) (ix : Idx) (s : State P B) : State P B :=
  { s with
    ops := update s.ops ix.i0 ⟨write, blockno b * UInt32.ofNat (BSIZE / 512)⟩
    desc := formatDesc b write ix s.desc
    info := update s.info ix.i0 ⟨some b, 0xff⟩
    disk := update s.disk b true
    avail := ⟨update s.avail.ring (IndexRing.slot NUM s.avail.idx) ix.i0, s.avail.idx + 1⟩
    submitted := s.submitted ++ [ix.i0.val] }

/-- What `virtio_disk_rw` does after its second loop. -/
def finish (p : P) (ix : Idx) (s : State P B) : Except Stop (State P B) := do
  let s ← freeChain (NUM + 1) ix.i0
    { s with info := update s.info ix.i0 { s.info ix.i0 with b := none } }
  .ok (s.setPc p .idle)

/-- The second loop of `virtio_disk_rw`: wait until the handler has cleared the flag. -/
def waitLoop (p : P) (b : B) (ix : Idx) (s : State P B) : Except Stop (State P B) :=
  if s.disk b then .ok (s.setPc p (.asleep b ix)) else finish p ix s

/-- A round of the first loop of `virtio_disk_rw`, and what follows if it got its descriptors. -/
def diskRw (blockno : B → UInt32) (p : P) (b : B) (write : Bool) (s : State P B) :
    Except Stop (State P B) := do
  let (r, s) ← alloc3Desc s
  match r with
  | none => .ok (s.setPc p (.noDesc b write))
  | some ix => waitLoop p b ix (submit blockno b write ix s)

/-- A round of the loop of `virtio_disk_intr`, for the head `id`. -/
def diskIntr (id : ℕ) (s : State P B) : Except Stop (State P B) :=
  if h : id < NUM then
    if (s.info ⟨id, h⟩).status ≠ 0 then .error .status
    else
      match (s.info ⟨id, h⟩).b with
      | none => .error .wild
      | some b => .ok { s with
          disk := update s.disk b false
          pc := wakeupBuf b s.pc
          usedIdx := s.usedIdx + 1
          handled := s.handled + 1 }
  else .error .wild

/-! ## The device -/

/-- The device follows a chain to the address of its status byte. -/
def statusAddr (desc : Fin NUM → Desc B) (head : ℕ) : Option (Fin NUM) :=
  let d0 := desc (Fin.ofNat NUM head)
  let d1 := desc (Fin.ofNat NUM d0.next)
  match (desc (Fin.ofNat NUM d1.next)).addr with
  | .status i => some i
  | _ => none

/-- The device finishes a request: it writes `0` to the status byte, and the head to the ring. -/
def deviceDone (head : ℕ) (s : State P B) : State P B :=
  { s with
    info := match statusAddr s.desc head with
      | some i => update s.info i { s.info i with status := 0 }
      | none => s.info
    used := ⟨update s.used.ring (IndexRing.slot NUM s.used.idx) head, s.used.idx + 1⟩
    work := s.work.erase head
    finished := s.finished ++ [head] }

/-! ## Steps -/

/-- One step. -/
def next (blockno : B → UInt32) (s : State P B) : Event P B → Except Stop (State P B)
  | .call p b write =>
    match s.pc p with
    | .idle => .ok (s.setPc p (.trying b write))
    | _ => .error .elsewhere
  | .try p =>
    match s.pc p with
    | .trying b write => if s.intr then .error .elsewhere else diskRw blockno p b write s
    | _ => .error .elsewhere
  | .test p =>
    match s.pc p with
    | .testing b ix => if s.intr then .error .elsewhere else waitLoop p b ix s
    | _ => .error .elsewhere
  | .wake p =>
    match s.pc p with
    | .noDesc b write => .ok (s.setPc p (.trying b write))
    | .asleep b ix => .ok (s.setPc p (.testing b ix))
    | _ => .error .elsewhere
  | .intrEnter => if s.intr then .error .elsewhere else .ok { s with intr := true }
  | .intrStep =>
    if s.intr ∧ s.usedIdx ≠ s.used.idx then
      diskIntr (s.used.ring (IndexRing.slot NUM s.usedIdx)) s
    else .error .elsewhere
  | .intrLeave =>
    if s.intr ∧ s.usedIdx = s.used.idx then .ok { s with intr := false } else .error .elsewhere
  | .deviceTake =>
    if s.seen = s.avail.idx then .error .elsewhere
    else .ok { s with
      work := s.avail.ring (IndexRing.slot NUM s.seen) :: s.work
      seen := s.seen + 1
      taken := s.taken + 1 }
  | .deviceDone head => if head ∈ s.work then .ok (deviceDone head s) else .error .elsewhere

/-- The caller of `virtio_disk_rw` has the lock of the buffer, so no other process is in it with the
same buffer. -/
def Legal (s : State P B) : Event P B → Prop
  | .call _ b _ => ∀ q, (s.pc q).buf ≠ some b
  | _ => True

instance [Fintype P] (s : State P B) (e : Event P B) : Decidable (Legal s e) := by
  cases e <;> unfold Legal <;> infer_instance

/-- The state after `virtio_disk_init`. -/
structure Start (s : State P B) : Prop where
  free : ∀ i, s.free i = true
  avail : s.avail.idx = 0
  used : s.used.idx = 0
  usedIdx : s.usedIdx = 0
  pc : ∀ p, s.pc p = .idle
  intr : s.intr = false
  seen : s.seen = 0
  work : s.work = []
  submitted : s.submitted = []
  taken : s.taken = 0
  finished : s.finished = []
  handled : s.handled = 0

/-- The request of a process is in flight. -/
def InFlight (s : State P B) (p : P) (b : B) (ix : Idx) : Prop := (s.pc p).req = some (b, ix)

/-- The heads of the requests that the handler has not read yet: in the `avail` ring, in the device, or
in the `used` ring. -/
def State.outstanding (s : State P B) : List ℕ :=
  s.submitted.drop s.taken ++ s.work ++ s.finished.drop s.handled

/-- The descriptors from `i` on, as the driver and the device follow them. -/
def chain (desc : Fin NUM → Desc B) : (fuel : ℕ) → Fin NUM → List (Fin NUM)
  | 0, _ => []
  | fuel + 1, i =>
    if (desc i).flags &&& VRING_DESC_F_NEXT ≠ 0 then i :: chain desc fuel (Fin.ofNat NUM (desc i).next)
    else [i]

end Code

end RiscvOs.Virtio
