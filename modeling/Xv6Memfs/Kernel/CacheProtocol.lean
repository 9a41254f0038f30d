import Xv6Memfs.Kernel.LogProtocol

/-! # The buffer cache and the log used by any number of processes

The processes of `LogProtocol` with the buffers they work on.  One action is one critical
section of `bcache.lock` or `log.lock`, or one access to a busy buffer: the second half
of `bread`, a change of `b->data`, one line of `write_log`, `write_head` or
`install_trans`. -/

namespace Xv6Memfs

open Lib Function

/-! ## commit() line by line -/

/-- The two buffers of the loops of `write_log` (`to` and `from`) and `install_trans`
    (`lbuf` and `dbuf`); `write_head` has its buffer in the first. -/
inductive Reg where
  | log
  | home
  deriving DecidableEq

inductive Instr where
  | bget (r : Reg) (blockno : Nat)
  | fill (r : Reg)          -- the rest of bread: read the block if the buffer is not valid
  | copy (dst src : Reg)    -- memmove(dst->data, src->data, BSIZE)
  | setHead (r : Reg)       -- hb->n = log.lh.n and hb->block[i] = log.lh.block[i]
  | bwrite (r : Reg)
  | brelse (r : Reg)
  | writeLog (tail : Nat)   -- the loop test of write_log
  | installTrans (tail : Nat)
  | clearLh                 -- log.lh.n = 0
  deriving DecidableEq

def writeLogBody (start tail home : Nat) : List Instr :=
  [.bget .log (start + tail + 1), .fill .log, .bget .home home, .fill .home,
    .copy .log .home, .bwrite .log, .brelse .home, .brelse .log]

def installTransBody (start tail home : Nat) : List Instr :=
  [.bget .log (start + tail + 1), .fill .log, .bget .home home, .fill .home,
    .copy .home .log, .bwrite .home, .brelse .log, .brelse .home]

def writeHeadBody (start : Nat) : List Instr :=
  [.bget .log start, .fill .log, .setHead .log, .bwrite .log, .brelse .log]

def installAndClear (start tail : Nat) : List Instr :=
  .installTrans tail :: .clearLh :: writeHeadBody start

/-- `commit()`.  On an empty header there is nothing to do, and clearing it changes nothing. -/
def commitProg (l : Log) : List Instr :=
  if l.lh.length > 0 then .writeLog 0 :: (writeHeadBody l.start ++ installAndClear l.start 0)
  else [.clearLh]

/-- A process in `commit`: the lines it still has to run, and its buffers. -/
structure Committer where
  prog : List Instr
  reg : Reg → Option (Fin nbuf)

/-! ## The system -/

/-- `owner` is the process that holds a busy buffer.  `touched` marks a held buffer whose
    data was changed and not yet passed to `log_write` or `bwrite`.  `cur` is only for the
    proofs: the contents that the operations have given to each block. -/
structure CacheSys (P : Type) where
  sys : LogSys P
  bcache : Bcache
  disk : Memdisk
  owner : Fin nbuf → Option P
  touched : Fin nbuf → Bool
  committer : P → Committer
  cur : Nat → Block

inductive CacheAct (P : Type) where
  | call (p : P)
  | tryBegin (p : P)
  | kill (p : P)
  | bget (p : P) (dev blockno : Nat)
  | fill (p : P) (i : Fin nbuf)
  | store (p : P) (i : Fin nbuf) (v : Block)
  | check (p : P) (i : Fin nbuf)
  | logWrite (p : P) (i : Fin nbuf)
  | brelse (p : P) (i : Fin nbuf)
  | endOp (p : P)
  | commit (p : P)
  | run (p : P)
  | endCommit (p : P)

namespace CacheSys

variable {P : Type} [DecidableEq P]

def buf (s : CacheSys P) (i : Fin nbuf) : Buf := s.bcache.buf i

def lift (s : CacheSys P) (a : LogAct P) : Option (CacheSys P) :=
  (s.sys.step a).map fun sys => { s with sys := sys }

/-- A panic stops everything; a process that would sleep on a busy buffer does not move. -/
def settle (s : CacheSys P) : Except Stop (CacheSys P) → Option (CacheSys P)
  | .ok t => some t
  | .error (.panic e) => some { s with sys := { s.sys with stopped := some e } }
  | .error .sleep => none

def bgetBy (s : CacheSys P) (p : P) (dev blockno : Nat) :
    Except Stop (Fin nbuf × CacheSys P) :=
  match bget s.bcache dev blockno with
  | .ok (i, c) => .ok (i, { s with bcache := c, owner := update s.owner i (some p) })
  | .error e => .error e

def iderwAt (s : CacheSys P) (i : Fin nbuf) : Except Stop (CacheSys P) :=
  match iderw (s.buf i) s.disk with
  | .ok (b, d) => .ok { s with bcache := s.bcache.set i b, disk := d }
  | .error e => .error e

def fillAt (s : CacheSys P) (i : Fin nbuf) : Except Stop (CacheSys P) :=
  if (s.buf i).valid then .ok s else s.iderwAt i

def setData (s : CacheSys P) (i : Fin nbuf) (v : Block) : CacheSys P :=
  { s with bcache := s.bcache.set i { s.buf i with data := v }
           touched := update s.touched i true }

/-- `b->flags |= B_DIRTY`: the changes of the buffer are in the log, or on their way to
    the disk. -/
def pin (s : CacheSys P) (i : Fin nbuf) : CacheSys P :=
  { s with bcache := s.bcache.set i { s.buf i with dirty := true }
           touched := update s.touched i false }

def bwriteAt (s : CacheSys P) (i : Fin nbuf) : Except Stop (CacheSys P) :=
  if !(s.buf i).busy then .error (.panic .bwrite)
  else (s.pin i).iderwAt i

def brelseAt (s : CacheSys P) (i : Fin nbuf) : Except Stop (CacheSys P) :=
  match Xv6Memfs.brelse s.bcache i with
  | .ok c => .ok { s with bcache := c, owner := update s.owner i none }
  | .error e => .error e

def setProg (s : CacheSys P) (p : P) (prog : List Instr) : CacheSys P :=
  { s with committer := update s.committer p { s.committer p with prog := prog } }

def setReg (s : CacheSys P) (p : P) (r : Reg) (i : Fin nbuf) : CacheSys P :=
  let c := s.committer p
  { s with committer := update s.committer p { c with reg := update c.reg r i } }

/-- Process `p` runs one line of `commit`; `s` has the rest of the program already. -/
def runInstr (s : CacheSys P) (p : P) : Instr → Option (CacheSys P)
  | .bget r blockno =>
    match s.bgetBy p s.sys.log.dev blockno with
    | .ok (i, t) => some (t.setReg p r i)
    | .error e => s.settle (.error e)
  | .fill r =>
    match (s.committer p).reg r with
    | some i => s.settle (s.fillAt i)
    | none => none
  | .copy dst src =>
    match (s.committer p).reg dst, (s.committer p).reg src with
    | some i, some j => some (s.setData i (s.buf j).data)
    | _, _ => none
  | .setHead r =>
    match (s.committer p).reg r with
    | some i => some (s.setData i (encodeHead (s.buf i).data s.sys.log.lh))
    | none => none
  | .bwrite r =>
    match (s.committer p).reg r with
    | some i => s.settle (s.bwriteAt i)
    | none => none
  | .brelse r =>
    match (s.committer p).reg r with
    | some i => s.settle (s.brelseAt i)
    | none => none
  | .writeLog tail =>
    match s.sys.log.lh[tail]? with
    | some home =>
      some (s.setProg p (writeLogBody s.sys.log.start tail home ++
        .writeLog (tail + 1) :: (s.committer p).prog))
    | none => some s
  | .installTrans tail =>
    match s.sys.log.lh[tail]? with
    | some home =>
      some (s.setProg p (installTransBody s.sys.log.start tail home ++
        .installTrans (tail + 1) :: (s.committer p).prog))
    | none => some s
  | .clearLh => s.lift (.clear p)

/-- Whether a process runs code outside `log.c`. -/
def atLarge (s : CacheSys P) (p : P) : Bool :=
  match s.sys.pc p with
  | .idle | .active _ => true
  | _ => false

/-- The state after an action, `none` if it cannot happen.  Outside `log.c` a process
    touches only buffers that `bread` has returned to it, changes them only inside an
    operation, and passes what it has changed to `log_write` before it goes on. -/
def step (s : CacheSys P) (a : CacheAct P) : Option (CacheSys P) :=
  if s.sys.stopped.isSome then none else
  match a with
  | .call p => s.lift (.call p)
  | .tryBegin p => s.lift (.tryBegin p)
  | .kill p => s.lift (.kill p)
  | .bget p dev blockno =>
    if s.atLarge p then s.settle ((s.bgetBy p dev blockno).map Prod.snd) else none
  | .fill p i =>
    if s.atLarge p ∧ s.owner i = some p then s.settle (s.fillAt i) else none
  | .store p i v =>
    match s.sys.pc p with
    | .active _ =>
      if s.owner i = some p ∧ (s.buf i).valid then
        some { s.setData i v with cur := update s.cur (s.buf i).blockno v }
      else none
    | _ => none
  | .check p i =>
    if s.owner i = some p ∧ (s.buf i).valid then s.lift (.check p (s.buf i).blockno) else none
  | .logWrite p i =>
    match s.sys.pc p with
    | .logging _ blockno =>
      -- the buffer that log_write was called with
      if s.owner i = some p ∧ (s.buf i).valid ∧ (s.buf i).blockno = blockno then
        (s.pin i).lift (.logWrite p)
      else none
    | _ => none
  | .brelse p i =>
    if s.atLarge p ∧ s.owner i = some p ∧ (s.buf i).valid ∧ !s.touched i then
      s.settle (s.brelseAt i)
    else none
  | .endOp p => if ∀ i, s.owner i = some p → !s.touched i then s.lift (.endOp p) else none
  | .commit p => (s.lift (.commit p)).map fun t => t.setProg p (commitProg s.sys.log)
  | .run p =>
    match (s.committer p).prog with
    | i :: rest => (s.setProg p rest).runInstr p i
    | [] => none
  | .endCommit p => if (s.committer p).prog = [] then s.lift (.endCommit p) else none

def init (start size : Nat) (disk : Memdisk) : CacheSys P where
  sys := LogSys.init start size
  bcache := binit
  disk := disk
  owner _ := none
  touched _ := false
  committer _ := { prog := [], reg := fun _ => none }
  cur := disk.block

end CacheSys

end Xv6Memfs
