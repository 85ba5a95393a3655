import Xv6.Lib.Ring
import Xv6.Param

/-!
# The Disk Driver

`kernel/virtio_disk.c` and the device it talks to: requests of any number of
processes, the interrupt handler, and a device that works on its own.

Driver and device share three tables. A request takes three descriptors, links them
into a chain, puts the number of the first one into the `avail` ring and advances
`avail->idx`. The device takes chains from that ring when it likes, finishes them in
any order, and puts the number of a finished one into the `used` ring. The interrupt
handler goes through the `used` ring and clears `b->disk` of the buffer recorded for
the chain, and the process that waits for it frees the descriptors.

Driver steps happen under `disk.vdisk_lock`, which a process releases while it
sleeps. The device does not know the lock, so its steps may come between any two
steps of the driver. Both indices of a ring run freely and wrap at `2 ^ 16`. A
process holds the sleep-lock of its buffer during a request, so two requests at one
time have different buffers.

The transfer of data is left out, and with it what only the transfer reads. Requests
are numbered; the numbers travel with the entries of the rings, and lists record
which requests the device has completed, which completions have cleared a buffer, and
which requests have returned. No step of the driver looks at any of this.

## Main definitions

* `Desc`, `Info`: A descriptor, and what the driver keeps for a chain.
* `Chain`: The descriptors of a request.
* `Pc`: Where a process or an interrupt handler stands.
* `System`: Driver, device and everybody who uses them.
* `freeDesc`: `free_desc`.
* `advance`: The next step of a process or handler.
* `fetch`, `complete`: The steps of the device.
-/

namespace Xv6.Virtio

open Function

def NUM : Nat := 8

instance : NeZero NUM := ⟨by decide⟩

-- The flags of a descriptor.
def VRING_DESC_F_NEXT : BitVec 16 := 1
def VRING_DESC_F_WRITE : BitVec 16 := 2

/-- What a descriptor can point to: the header of request `i`, the data of a
    buffer, or the status of request `i`. -/
inductive Addr (B : Type) where
  | null
  | ops (i : Nat)
  | data (b : B)
  | status (i : Nat)

/-- `struct virtq_desc`. -/
structure Desc (B : Type) where
  addr : Addr B
  flags : BitVec 16
  next : Nat

def Desc.zero {B : Type} : Desc B := { addr := .null, flags := 0, next := 0 }

/-- `disk.info[i]`. -/
structure Info (B : Type) where
  b : Option B
  status : Byte

/-- A request: its buffer, its descriptors and its number. -/
structure Chain (B : Type) where
  b : B
  i0 : Nat
  i1 : Nat
  i2 : Nat
  req : Nat

/-- Where a process stands in `virtio_disk_rw`, or a handler in `virtio_disk_intr`.
    Nobody holds the lock in `user`, in the states named after a lock they wait for
    and while asleep; everybody else does. -/
inductive Pc (B : Type) where
  | user
  | lock (b : B) (write : Bool)
  | alloc (b : B) (write : Bool) (idx : List Nat)
  | undo (b : B) (write : Bool) (idx : List Nat)
  | sleepFree (b : B) (write : Bool)
  | fill (b : B) (write : Bool) (i0 i1 i2 : Nat)
  | ring (c : Chain B)
  | publish (c : Chain B)
  | check (c : Chain B)
  | sleepBuf (c : Chain B)
  | relock (c : Chain B)
  | clear (c : Chain B)
  -- In `free_chain`, at descriptor `i`; those in `rest` are still to be freed.
  | free (c : Chain B) (i : Nat) (rest : List Nat)
  | unlock (c : Chain B)
  | ilock
  | iloop

structure System (T B : Type) where
  desc : Nat → Desc B
  avail : Fin NUM → Nat × Nat
  availIdx : BitVec 16
  used : Fin NUM → Nat × Nat
  usedDev : BitVec 16
  free : Nat → Bool
  usedIdx : BitVec 16
  info : Nat → Info B
  -- `b->disk`, and the sleep-lock of a buffer.
  disk : B → Bool
  held : B → Bool
  lock : Option T
  pc : T → Pc B
  -- The device: the next entry it will take, and the chains it works on.
  lastAvail : BitVec 16
  fetched : List (Nat × Nat)
  -- The record of requests.
  serial : Nat
  completed : List Nat
  cleared : List Nat
  returned : List Nat

/-- The driver after `virtio_disk_init`. The indices are 0 then; other values stand
    for a driver that has been in use, and long enough for them to wrap. -/
def boot (T B : Type) (a u : BitVec 16) : System T B :=
  { desc := fun _ => .zero, avail := fun _ => (0, 0), availIdx := a, used := fun _ => (0, 0)
    usedDev := u, free := fun i => decide (i < NUM), usedIdx := u
    info := fun _ => { b := none, status := 0 }, disk := fun _ => false
    held := fun _ => false, lock := none, pc := fun _ => .user, lastAvail := a, fetched := []
    serial := 0, completed := [], cleared := [], returned := [] }

inductive Event (T B : Type) where
  | rw (t : T) (b : B) (write : Bool)
  | intr (t : T)
  | step (t : T)
  | wake (t : T)
  | fetch
  | complete (k : Nat)

variable {T B : Type}

/-- `wakeup(&disk.free[0])` on one process. -/
def Pc.wakeFree : Pc B → Pc B
  | sleepFree b write => lock b write
  | pc => pc

/-- `wakeup(b)` on one process. -/
def Pc.wakeBuf [DecidableEq B] (b : B) : Pc B → Pc B
  | sleepBuf c => if c.b = b then relock c else sleepBuf c
  | pc => pc

/-- A sleeper resumes, for whatever reason, and has to get the lock again. -/
def Pc.resume : Pc B → Pc B
  | sleepFree b write => lock b write
  | sleepBuf c => relock c
  | pc => pc

/-- `alloc_desc`: the first free descriptor. -/
def System.allocDesc (s : System T B) : Option Nat := (List.range NUM).find? s.free

def freeDesc (s : System T B) (i : Nat) : Outcome Panic (System T B) :=
  if NUM ≤ i then .panic .freeDesc1
  else if s.free i then .panic .freeDesc2
  else
    .done { s with
      desc := update s.desc i .zero
      free := update s.free i true
      pc := fun t => (s.pc t).wakeFree }

/-- The descriptors of a request. -/
def Chain.descs (c : Chain B) (write : Bool) (desc : Nat → Desc B) : Nat → Desc B :=
  let d₀ : Desc B := { addr := .ops c.i0, flags := VRING_DESC_F_NEXT, next := c.i1 }
  let d₁ : Desc B :=
    { addr := .data c.b
      flags := (if write then 0 else VRING_DESC_F_WRITE) ||| VRING_DESC_F_NEXT
      next := c.i2 }
  let d₂ : Desc B := { addr := .status c.i0, flags := VRING_DESC_F_WRITE, next := 0 }
  update (update (update desc c.i0 d₀) c.i1 d₁) c.i2 d₂

/-- The device takes the next chain from the `avail` ring. -/
def fetch (s : System T B) : Outcome Panic (System T B) :=
  if s.lastAvail = s.availIdx then .wait
  else
    .done { s with
      lastAvail := s.lastAvail + 1
      fetched := s.fetched ++ [s.avail (Ring.slot NUM s.lastAvail)] }

/-- The device finishes one of the chains it works on: it writes 0 to where the
    third descriptor points, and puts the chain into the `used` ring. -/
def complete (s : System T B) (k : Nat) : Outcome Panic (System T B) :=
  match s.fetched[k]? with
  | none => .wait
  | some (i, r) =>
    match (s.desc (s.desc (s.desc i).next).next).addr with
    | .status j =>
      .done { s with
        info := update s.info j { s.info j with status := 0 }
        used := update s.used (Ring.slot NUM s.usedDev) (i, r)
        usedDev := s.usedDev + 1
        fetched := s.fetched.eraseIdx k
        completed := s.completed ++ [r] }
    | _ => .wait

variable [DecidableEq T] [DecidableEq B]

namespace System

def goto (s : System T B) (t : T) (pc : Pc B) : System T B :=
  { s with pc := update s.pc t pc }

def release (s : System T B) : System T B := { s with lock := none }

/-- `acquire(&disk.vdisk_lock)`. -/
def acquire (s : System T B) (t : T) (pc : Pc B) : Outcome Panic (System T B) :=
  match s.lock with
  | none => .done ({ s with lock := some t }.goto t pc)
  | some _ => .wait

end System

/-- One iteration of the loop of `virtio_disk_intr`. -/
def intr (s : System T B) (t : T) : Outcome Panic (System T B) :=
  if s.usedIdx = s.usedDev then .done (s.release.goto t .user)
  else
    let e := s.used (Ring.slot NUM s.usedIdx)
    if (s.info e.1).status ≠ 0 then .panic .virtioDiskIntrStatus
    else
      match (s.info e.1).b with
      -- The source follows the pointer without a check.
      | none => .panic .kerneltrap
      | some b =>
        .done { s with
          disk := update s.disk b false
          pc := fun u => (s.pc u).wakeBuf b
          usedIdx := s.usedIdx + 1
          cleared := s.cleared ++ [e.2] }

def advance (s : System T B) (t : T) : Outcome Panic (System T B) :=
  match s.pc t with
  | .user => .wait
  | .lock b write => s.acquire t (.alloc b write [])
  | .alloc b write idx =>
    match idx with
    | [i0, i1, i2] => .done (s.goto t (.fill b write i0 i1 i2))
    | _ =>
      match s.allocDesc with
      | none => .done (s.goto t (.undo b write idx))
      | some i =>
        .done ({ s with free := update s.free i false }.goto t
          (.alloc b write (idx ++ [i])))
  | .undo b write idx =>
    match idx with
    | [] => .done (s.release.goto t (.sleepFree b write))
    | i :: idx => do
      let s ← freeDesc s i
      return s.goto t (.undo b write idx)
  | .sleepFree _ _ => .wait
  | .fill b write i0 i1 i2 =>
    let c : Chain B := { b := b, i0 := i0, i1 := i1, i2 := i2, req := s.serial }
    .done ({ s with
      desc := c.descs write s.desc
      info := update s.info i0 { b := some b, status := 0xff }
      disk := update s.disk b true
      serial := s.serial + 1 }.goto t (.ring c))
  | .ring c =>
    .done ({ s with
      avail := update s.avail (Ring.slot NUM s.availIdx) (c.i0, c.req) }.goto t
        (.publish c))
  | .publish c => .done ({ s with availIdx := s.availIdx + 1 }.goto t (.check c))
  | .check c =>
    if s.disk c.b then .done (s.release.goto t (.sleepBuf c)) else .done (s.goto t (.clear c))
  | .sleepBuf _ => .wait
  | .relock c => s.acquire t (.check c)
  | .clear c =>
    .done ({ s with info := update s.info c.i0 { s.info c.i0 with b := none } }.goto t
      (.free c c.i0 [c.i0, c.i1, c.i2]))
  | .free c i rest => do
    let d := s.desc i
    let s ← freeDesc s i
    if d.flags &&& VRING_DESC_F_NEXT ≠ 0 then return s.goto t (.free c d.next rest.tail)
    else return s.goto t (.unlock c)
  | .unlock c =>
    .done ({ s.release with
      held := update s.held c.b false
      returned := s.returned ++ [c.req] }.goto t .user)
  | .ilock => s.acquire t .iloop
  | .iloop => intr s t

/-- Whether a process can start a call, or a handler. -/
def Pc.isUser : Pc B → Bool
  | user => true
  | _ => false

def step (s : System T B) : Event T B → Outcome Panic (System T B)
  | .rw t b write =>
    if (s.pc t).isUser ∧ s.held b = false then
      .done ({ s with held := update s.held b true }.goto t (.lock b write))
    else .wait
  | .intr t => if (s.pc t).isUser then .done (s.goto t .ilock) else .wait
  | .step t => advance s t
  | .wake t => .done (s.goto t (s.pc t).resume)
  | .fetch => fetch s
  | .complete k => complete s k

end Xv6.Virtio
