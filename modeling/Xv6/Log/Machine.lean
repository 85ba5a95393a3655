import Xv6.Log.Bio
import Xv6.Log.Header

/-!
# The Log on Disk

`kernel/log.c` together with the buffer cache and the disk: operations,
commits, crashes and recovery, as one machine.

Processes read and log blocks in any interleaving. A commit is a sequence of
steps of its own, one for every disk write it issues, so that a crash between
any two events is a crash after some prefix of the disk writes. A crash loses
everything but the disk. The kernel then boots into `recover_from_log`, which
again takes one step per disk write and can crash again.

Within a step a commit locks its buffers one after the other, and it waits as
a whole where it would wait for one of them. Other processes keep their
buffers locked across steps and go on reading while a commit runs.

Two fields are a record that no step reads: `txns` lists, for every commit
whose header reached the disk, the `log_write` calls it consists of, and
`pending` lists those made since.

## Main definitions

* `encodeHead`, `decodeHead`: The header block.
* `Phase`: Where a commit or a recovery stands.
* `writeLog`, `writeHead`, `installTrans`, `readHead`: The steps of `log.c`.
* `advance`: The next step of a commit or a recovery.
* `crash`: Losing everything but the disk.
-/

namespace Xv6.Wal

/-- `log.lh.n` as stored in a header block. It is an `int`, and a negative
    one makes every loop over the header empty. -/
def headN (d : Block) : Nat := (BitVec.ofNat 32 (Bytes.readLe d 0 4)).toInt.toNat

/-- The block numbers in a header block. -/
def decodeHead (d : Block) : List Nat :=
  (List.range (headN d)).map (fun i => Bytes.readLe d (4 + 4 * i) 4)

/-- Store a header in a block. Entries past the new ones stay. -/
def encodeHead (d : Block) (lh : List Nat) : Block :=
  Bytes.writeLes (Bytes.writeLe d 0 4 lh.length) 4 4 lh

/-- Where a commit or a recovery stands; `idle` is normal operation. -/
inductive Phase where
  | idle
  | writeLog (tail : Nat)
  | writeHead
  | install (tail : Nat)
  | clearHead
  | finish
  | recRead
  | recInstall (tail : Nat)
  | recClear
  deriving DecidableEq, Repr

/-- User processes run in every phase but those of recovery. -/
def Phase.running : Phase → Bool
  | recRead => false
  | recInstall _ => false
  | recClear => false
  | _ => true

structure Machine (P : Type) where
  disk : Disk
  bc : Bcache P
  log : Log
  phase : Phase
  -- References taken by `bget` whose owner still waits for the lock.
  waiting : List (P × Fin NBUF)
  txns : List (List (Nat × Block))
  pending : List (Nat × Block)

inductive Event (P : Type) where
  | beginOp
  | endOp
  | get (p : P) (b : Nat)
  | lock (p : P) (i : Fin NBUF)
  | write (p : P) (i : Fin NBUF) (d : Block)
  | relse (p : P) (i : Fin NBUF)
  | commit (p : P)
  | crash

/-- The block is outside the log. -/
def Home (l : Log) (b : Nat) : Prop := b < l.start ∨ l.start + l.size ≤ b

instance (l : Log) (b : Nat) : Decidable (Home l b) :=
  inferInstanceAs (Decidable (_ ∨ _))

/-- After power-on: nothing in memory, recovery about to run. -/
def boot (P : Type) (start size : Nat) (disk : Disk) : Machine P :=
  { disk := disk, bc := Bcache.binit P
    log := { start := start, size := size, outstanding := 0, committing := false, lh := [] }
    phase := .recRead, waiting := [], txns := [], pending := [] }

variable {P : Type} [DecidableEq P]

/-- One iteration of the loop of `write_log`. -/
def writeLog (m : Machine P) (p : P) (tail : Nat) : Outcome Panic (Machine P) := do
  let r ← m.bc.bread m.disk p ROOTDEV (m.log.start + tail + 1)
  let toBuf := r.2
  let r ← r.1.bread m.disk p ROOTDEV (m.log.lh.getD tail 0)
  let fromBuf := r.2
  let bc := r.1.setData toBuf (r.1.buf fromBuf).data
  let disk ← bc.bwrite m.disk p toBuf
  let bc ← bc.brelse p fromBuf
  let bc ← bc.brelse p toBuf
  return { m with disk := disk, bc := bc }

def writeHead (m : Machine P) (p : P) : Outcome Panic (Machine P) := do
  let r ← m.bc.bread m.disk p ROOTDEV m.log.start
  let bc := r.1.setData r.2 (encodeHead (r.1.buf r.2).data m.log.lh)
  let disk ← bc.bwrite m.disk p r.2
  let bc ← bc.brelse p r.2
  return { m with disk := disk, bc := bc }

/-- One iteration of the loop of `install_trans`. -/
def installTrans (m : Machine P) (p : P) (recovering : Bool) (tail : Nat) :
    Outcome Panic (Machine P) := do
  let r ← m.bc.bread m.disk p ROOTDEV (m.log.start + tail + 1)
  let lbuf := r.2
  let r ← r.1.bread m.disk p ROOTDEV (m.log.lh.getD tail 0)
  let dbuf := r.2
  let bc := r.1.setData dbuf (r.1.buf lbuf).data
  let disk ← bc.bwrite m.disk p dbuf
  let bc := if recovering then bc else bc.bunpin dbuf
  let bc ← bc.brelse p lbuf
  let bc ← bc.brelse p dbuf
  return { m with disk := disk, bc := bc }

def readHead (m : Machine P) (p : P) : Outcome Panic (Machine P) := do
  let r ← m.bc.bread m.disk p ROOTDEV m.log.start
  let lh := decodeHead (r.1.buf r.2).data
  let bc ← r.1.brelse p r.2
  return { m with bc := bc, log := { m.log with lh := lh } }

/-- The next step of `commit`, with the end of `end_op`, or of
    `recover_from_log`. The first header write of a commit is the moment its
    transaction is recorded. -/
def advance (m : Machine P) (p : P) : Outcome Panic (Machine P) :=
  match m.phase with
  | .idle => .wait
  | .writeLog tail =>
    if tail < m.log.lh.length then do
      let m ← writeLog m p tail
      return { m with phase := .writeLog (tail + 1) }
    else .done { m with phase := .writeHead }
  | .writeHead => do
    let m ← writeHead m p
    return { m with phase := .install 0, txns := m.txns ++ [m.pending], pending := [] }
  | .install tail =>
    if tail < m.log.lh.length then do
      let m ← installTrans m p false tail
      return { m with phase := .install (tail + 1) }
    else .done { m with phase := .clearHead, log := { m.log with lh := [] } }
  | .clearHead => do
    let m ← writeHead m p
    return { m with phase := .finish }
  | .finish => .done { m with phase := .idle, log := { m.log with committing := false } }
  | .recRead => do
    let m ← readHead m p
    return { m with phase := .recInstall 0 }
  | .recInstall tail =>
    if tail < m.log.lh.length then do
      let m ← installTrans m p true tail
      return { m with phase := .recInstall (tail + 1) }
    else .done { m with phase := .recClear, log := { m.log with lh := [] } }
  | .recClear => do
    let m ← writeHead m p
    return { m with phase := .idle }

omit [DecidableEq P] in
/-- A crash loses the memory; the record of the pending writes goes with it. -/
def crash (m : Machine P) : Machine P :=
  { boot P m.log.start m.log.size m.disk with txns := m.txns }

/-- `log_write` on a buffer the caller holds and has modified. -/
def logWrite (m : Machine P) (p : P) (i : Fin NBUF) (d : Block) : Outcome Panic (Machine P) :=
  if (m.bc.buf i).lock = some p ∧ Home m.log (m.bc.buf i).blockno then do
    let r ← m.log.logWrite (m.bc.buf i).blockno
    let bc := m.bc.setData i d
    return { m with
      log := r.1
      bc := if r.2 then bc.bpin i else bc
      pending := m.pending ++ [((m.bc.buf i).blockno, d)] }
  else .wait

def step (m : Machine P) : Event P → Outcome Panic (Machine P)
  | .crash => .done (crash m)
  | .commit p => advance m p
  | e =>
    if m.phase.running then
      match e with
      | .beginOp => do
        let l ← m.log.beginOp
        return { m with log := l }
      | .endOp =>
        if 0 < m.log.outstanding then do
          let r ← m.log.endOp
          let phase := if r.2 then (if r.1.lh = [] then .finish else .writeLog 0) else m.phase
          return { m with log := r.1, phase := phase }
        else .wait
      | .get p b =>
        if b < 2 ^ 32 then do
          let r ← m.bc.bget ROOTDEV b
          return { m with bc := r.1, waiting := (p, r.2) :: m.waiting }
        else .wait
      | .lock p i =>
        if (p, i) ∈ m.waiting then do
          let bc ← m.bc.acquiresleep p i
          return { m with bc := bc.fill m.disk i, waiting := m.waiting.erase (p, i) }
        else .wait
      | .write p i d => logWrite m p i d
      | .relse p i => do
        let bc ← m.bc.brelse p i
        return { m with bc := bc }
      | .commit _ => .wait
      | .crash => .wait
    else .wait

end Xv6.Wal
