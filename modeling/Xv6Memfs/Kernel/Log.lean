import Xv6Memfs.Kernel.Bio

/-! # The redo log, as one process runs it

`commit` and `recover_from_log` of `kernel/log.c` over the buffer cache and the disk.
`log.lh.block[0..n)` is the list `lh`, so `log.lh.n` is its length; the entries from `n`
on are never read. -/

namespace Xv6Memfs

open Lib Lib.Exec

/-- `struct log` without its lock. -/
structure Log where
  start : Nat
  size : Nat
  outstanding : Int
  committing : Bool
  dev : Nat
  lh : List Nat

/-- What the code of `log.c` works on. -/
structure Machine where
  bcache : Bcache
  disk : Memdisk
  log : Log

/-- Sequential kernel code below the file system. -/
abbrev BioM : Type → Type := Exec Machine Stop

def bgetM (dev blockno : Nat) : BioM (Fin nbuf) := fun m =>
  match bget m.bcache dev blockno with
  | .ok (i, c) => (.ok i, { m with bcache := c })
  | .error e => (.error e, m)

def iderwM (i : Fin nbuf) : BioM Unit := fun m =>
  match iderw (m.bcache.buf i) m.disk with
  | .ok (buf, d) => (.ok (), { m with bcache := m.bcache.set i buf, disk := d })
  | .error e => (.error e, m)

def brelseM (i : Fin nbuf) : BioM Unit := fun m =>
  match brelse m.bcache i with
  | .ok c => (.ok (), { m with bcache := c })
  | .error e => (.error e, m)

def bread (dev blockno : Nat) : BioM (Fin nbuf) := do
  let b ← bgetM dev blockno
  let buf ← gets fun m => m.bcache.buf b
  if !buf.valid then
    iderwM b
  pure b

def bwrite (b : Fin nbuf) : BioM Unit := do
  let buf ← gets fun m => m.bcache.buf b
  if !buf.busy then
    throw (.panic .bwrite)
  modify fun m => { m with bcache := m.bcache.set b { m.bcache.buf b with dirty := true } }
  iderwM b

def data (b : Fin nbuf) : BioM Block := gets fun m => (m.bcache.buf b).data

def setData (b : Fin nbuf) (v : Block) : BioM Unit :=
  modify fun m => { m with bcache := m.bcache.set b { m.bcache.buf b with data := v } }

/-! ## The header block -/

/-- Store `xs` as the words of a block from word `k` on. -/
def setWords (b : Block) (k : Nat) : List Nat → Block
  | [] => b
  | x :: xs => setWords (b.setWord k (BitVec.ofNat 32 x)) (k + 1) xs

/-- `hb->n = log.lh.n` and `hb->block[i] = log.lh.block[i]` for `i < n`: the rest of the
    header block keeps its bytes. -/
def encodeHead (b : Block) (lh : List Nat) : Block :=
  setWords (b.setWord 0 (BitVec.ofNat 32 lh.length)) 1 lh

/-- `lh->n` as a C `int`. -/
def headCount (b : Block) : Int := (b.word 0).toInt

/-- `lh->block[0..n)`. -/
def decodeHead (b : Block) : List Nat :=
  (List.range (headCount b).toNat).map fun i => (b.word (i + 1)).toNat

/-! ## log.c -/

def setLh (lh : List Nat) : BioM Unit := modify fun m => { m with log := { m.log with lh := lh } }

/-- The body of the loop of `install_trans`. -/
def installBlock (tail home : Nat) : BioM Unit := do
  let log ← gets Machine.log
  let lbuf ← bread log.dev (log.start + tail + 1)
  let dbuf ← bread log.dev home
  let v ← data lbuf
  setData dbuf v
  bwrite dbuf
  brelseM lbuf
  brelseM dbuf

/-- The body of the loop of `write_log`. -/
def logBlock (tail home : Nat) : BioM Unit := do
  let log ← gets Machine.log
  let tobuf ← bread log.dev (log.start + tail + 1)
  let frombuf ← bread log.dev home
  let v ← data frombuf
  setData tobuf v
  bwrite tobuf
  brelseM frombuf
  brelseM tobuf

/-- `for (tail = k; tail < log.lh.n; tail++)` over the entries of the header from `k` on. -/
def forTail {σ : Type} (body : Nat → Nat → Exec σ Stop Unit) (k : Nat) : List Nat → Exec σ Stop Unit
  | [] => pure ()
  | home :: rest => do
    body k home
    forTail body (k + 1) rest

def installTrans : BioM Unit := do
  let log ← gets Machine.log
  forTail installBlock 0 log.lh

def writeLog : BioM Unit := do
  let log ← gets Machine.log
  forTail logBlock 0 log.lh

def readHead : BioM Unit := do
  let log ← gets Machine.log
  let buf ← bread log.dev log.start
  let hb ← data buf
  setLh (decodeHead hb)
  brelseM buf

def writeHead : BioM Unit := do
  let log ← gets Machine.log
  let buf ← bread log.dev log.start
  let hb ← data buf
  setData buf (encodeHead hb log.lh)
  bwrite buf
  brelseM buf

def recoverFromLog : BioM Unit := do
  readHead
  installTrans
  setLh []
  writeHead

def commit : BioM Unit := do
  let log ← gets Machine.log
  if log.lh.length > 0 then
    writeLog
    writeHead
    installTrans
    setLh []
    writeHead

/-! ## begin_op, log_write and end_op

Each is given by what it does to the log in one critical section of `log.lock`. -/

namespace Log

/-- One turn of the loop of `begin_op`: `none` means that the caller goes to sleep. -/
def beginOp (l : Log) : Option Log :=
  if l.committing then none
  else if l.lh.length + (l.outstanding + 1) * maxopblocks > logsize then
    -- this op might exhaust log space; wait for commit
    none
  else some { l with outstanding := l.outstanding + 1 }

/-- The tests at the start of `log_write`, which are made without the lock. -/
def logWriteCheck (l : Log) : Except Stop Unit :=
  if l.lh.length ≥ logsize ∨ l.lh.length ≥ l.size - 1 then .error (.panic .tooBigTransaction)
  else if l.outstanding < 1 then .error (.panic .logWriteOutsideTrans)
  else .ok ()

/-- The loop of `log_write`: look for the block, and store its number there or at the end. -/
def absorb (blockno : Nat) : List Nat → List Nat
  | [] => [blockno]
  | b :: bs => if b = blockno then blockno :: bs else b :: absorb blockno bs

/-- The part of `log_write` under the lock. -/
def logWrite (l : Log) (blockno : Nat) : Log := { l with lh := absorb blockno l.lh }

/-- The first critical section of `end_op`; the result says whether to commit. -/
def endOp (l : Log) : Except Stop (Bool × Log) :=
  let l := { l with outstanding := l.outstanding - 1 }
  if l.committing then .error (.panic .logCommitting)
  else if l.outstanding = 0 then .ok (true, { l with committing := true })
  else .ok (false, l)

/-- The second critical section of `end_op`, after `commit`. -/
def endCommit (l : Log) : Log := { l with committing := false }

end Log

end Xv6Memfs
