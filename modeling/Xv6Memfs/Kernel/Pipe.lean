import Xv6Memfs.Kernel.Sleep

/-! # Pipes

`kernel/pipe.c` with any number of processes on one pipe.  Each process takes one step at a
time: a step takes or gives up a lock, does one turn of a loop, or is a step of `sleep` or
`wakeup`.  The page of the pipe stays as it is when the last end is closed: a process that
uses the pipe has an open descriptor for it. -/

namespace Xv6Memfs

open Function

def pipesize : Nat := 512

/-- `struct pipe` without its lock. -/
structure Pipe where
  data : Fin pipesize → Byte
  nread : BitVec 32
  nwrite : BitVec 32
  readopen : Bool
  writeopen : Bool

inductive PipeChan where
  | nread
  | nwrite
  deriving DecidableEq

namespace Pipe

def slot (k : BitVec 32) : Fin pipesize := ⟨k.toNat % pipesize, Nat.mod_lt _ (by decide)⟩

def full (p : Pipe) : Bool := p.nwrite == p.nread + BitVec.ofNat 32 pipesize

def empty (p : Pipe) : Bool := p.nread == p.nwrite

def store (p : Pipe) (b : Byte) : Pipe :=
  { p with data := update p.data (slot p.nwrite) b, nwrite := p.nwrite + 1 }

def front (p : Pipe) : Byte := p.data (slot p.nread)

def advance (p : Pipe) : Pipe := { p with nread := p.nread + 1 }

def unread (p : Pipe) : Nat := (p.nwrite - p.nread).toNat

def alloc (data : Fin pipesize → Byte) : Pipe := ⟨data, 0, 0, true, true⟩

def close (p : Pipe) (writable : Bool) : Pipe :=
  if writable then { p with writeopen := false } else { p with readopen := false }

end Pipe

inductive PipeCall where
  | write (n : Int) (addr : Nat → Byte)
  | read (n : Int)
  | close (writable : Bool)

/-- The arguments and variables of `pipewrite`, and the number of the call. -/
structure Writing where
  id : Nat
  n : Int
  addr : Nat → Byte
  i : Nat

/-- What a call returns, with the argument `n` of `piperead`. -/
inductive PipeRet where
  | wrote (r : Int)
  | read (n : Int) (r : Nat)
  | readFailed
  | closed
  deriving DecidableEq

/-- Where a process stands; `m` is the number of processes.  `enter` and `leave` are before the
    `acquire` and the `release` of `p->lock`; `writeEnd` and `readEnd` are the calls of `wakeup`
    behind the loops. -/
inductive PipePc (m : Nat) where
  | out
  | enter (f : PipeCall)
  | writeLoop (w : Writing)
  | writeWake (w : Writing) (k : WakePc m)
  | writeSleep (w : Writing) (k : SleepPc)
  | writeEnd (w : Writing) (k : WakePc m)
  | readLoop (n : Int)
  | readSleep (n : Int) (k : SleepPc)
  | readCopy (n : Int) (i : Nat)
  | readEnd (n : Int) (i : Nat) (k : WakePc m)
  | closeSet (writable : Bool)
  | closeWake (writable : Bool) (k : WakePc m)
  | leave (r : PipeRet)

/-- The rest is history: the number of calls of `pipewrite` with their buffers, the bytes that
    were stored, each with the number of its call, and the bytes that were delivered; the
    oldest ones first. -/
structure PipeSys (m : Nat) where
  pipe : Pipe
  sched : Sched m PipeChan
  killed : Fin m → Bool
  pc : Fin m → PipePc m
  calls : Nat
  bufs : Nat → Nat → Byte
  stored : List (Nat × Byte)
  delivered : List Byte

inductive PipeAct (m : Nat) where
  | call (p : Fin m) (f : PipeCall)
  | run (p : Fin m)
  | kill (p : Fin m)

namespace PipeSys

variable {m : Nat}

def setPc (s : PipeSys m) (p : Fin m) (k : PipePc m) : PipeSys m :=
  { s with pc := update s.pc p k }

/-- A step of `sleep`, then of the code after it. -/
def sleepThen (s : PipeSys m) (p : Fin m) (c : PipeChan) (k : SleepPc)
    (stay : SleepPc → PipePc m) (next : PipePc m) : Option (PipeSys m) :=
  (s.sched.sleepStep .lk c p k).map fun r =>
    { s with sched := r.1 }.setPc p (match r.2 with
      | some k => stay k
      | none => next)

/-- A step of `wakeup`, then of the code after it. -/
def wakeThen (s : PipeSys m) (p : Fin m) (c : PipeChan) (k : WakePc m)
    (stay : WakePc m → PipePc m) (next : PipePc m) : Option (PipeSys m) :=
  (s.sched.wakeStep .lk c p k).map fun r =>
    { s with sched := r.1 }.setPc p (match r.2 with
      | some k => stay k
      | none => next)

/-- The first step of a call, with the lock in hand. -/
def begin (s : PipeSys m) (p : Fin m) : PipeCall → PipeSys m
  | .write n addr =>
    { s with calls := s.calls + 1, bufs := update s.bufs s.calls addr }.setPc p
      (.writeLoop ⟨s.calls, n, addr, 0⟩)
  | .read n => s.setPc p (.readLoop n)
  | .close writable => s.setPc p (.closeSet writable)

/-- The tests of the loops of `pipewrite`. -/
def writeTurn (s : PipeSys m) (p : Fin m) (w : Writing) : PipeSys m :=
  if w.i < w.n then
    if s.pipe.full then
      if !s.pipe.readopen || s.killed p then s.setPc p (.leave (.wrote (-1)))
      else s.setPc p (.writeWake w (Sched.wakeStart .lk))
    else
      { s with pipe := s.pipe.store (w.addr w.i)
               stored := s.stored ++ [(w.id, w.addr w.i)] }.setPc p
        (.writeLoop { w with i := w.i + 1 })
  else
    s.setPc p (.writeEnd w (Sched.wakeStart .lk))

/-- The test of the first loop of `piperead`. -/
def readWait (s : PipeSys m) (p : Fin m) (n : Int) : PipeSys m :=
  if s.pipe.empty && s.pipe.writeopen then
    if s.killed p then s.setPc p (.leave .readFailed)
    else s.setPc p (.readSleep n (Sched.sleepStart .lk))
  else
    s.setPc p (.readCopy n 0)

/-- The second loop of `piperead`. -/
def readTurn (s : PipeSys m) (p : Fin m) (n : Int) (i : Nat) : PipeSys m :=
  if i < n then
    if s.pipe.empty then s.setPc p (.readEnd n i (Sched.wakeStart .lk))
    else
      { s with pipe := s.pipe.advance
               delivered := s.delivered ++ [s.pipe.front] }.setPc p (.readCopy n (i + 1))
  else
    s.setPc p (.readEnd n i (Sched.wakeStart .lk))

/-- `&p->nread` for the write end, `&p->nwrite` for the read end. -/
def closeChan (writable : Bool) : PipeChan := if writable then .nread else .nwrite

def runOn (s : PipeSys m) (p : Fin m) : Option (PipeSys m) :=
  match s.pc p with
  | .out => none
  | .enter f => (s.sched.acquire .lk p).map fun t => { s with sched := t }.begin p f
  | .writeLoop w => some (s.writeTurn p w)
  | .writeWake w k => s.wakeThen p .nread k (.writeWake w) (.writeSleep w (Sched.sleepStart .lk))
  | .writeSleep w k => s.sleepThen p .nwrite k (.writeSleep w) (.writeLoop w)
  | .writeEnd w k => s.wakeThen p .nread k (.writeEnd w) (.leave (.wrote w.n))
  | .readLoop n => some (s.readWait p n)
  | .readSleep n k => s.sleepThen p .nread k (.readSleep n) (.readLoop n)
  | .readCopy n i => some (s.readTurn p n i)
  | .readEnd n i k => s.wakeThen p .nwrite k (.readEnd n i) (.leave (.read n i))
  | .closeSet writable =>
    some ({ s with pipe := s.pipe.close writable }.setPc p
      (.closeWake writable (Sched.wakeStart .lk)))
  | .closeWake writable k =>
    s.wakeThen p (closeChan writable) k (.closeWake writable) (.leave .closed)
  | .leave _ => (s.sched.release .lk p).map fun t => { s with sched := t }.setPc p .out

def step (s : PipeSys m) : PipeAct m → Option (PipeSys m)
  | .call p f => match s.pc p with
    | .out => some (s.setPc p (.enter f))
    | _ => none
  | .run p => s.runOn p
  | .kill p => (s.sched.rouse p).map fun t =>
      { s with sched := t, killed := update s.killed p true }

/-- `p` is about to leave `pipewrite` without a wakeup: the pipe is full, and the read end is
    closed or the process has been killed. -/
def givesUp (s : PipeSys m) (p : Fin m) : Bool :=
  match s.pc p with
  | .writeLoop w => decide (w.i < w.n) && s.pipe.full && (!s.pipe.readopen || s.killed p)
  | _ => false

/-- `q` has given up the lock in the `sleep` of `piperead`, and nobody has woken it since. -/
def readerWaits (s : PipeSys m) (q : Fin m) : Bool :=
  match s.pc q with
  | .readSleep _ .mark | .readSleep _ .switch => true
  | .readSleep _ .away => s.sched.state q = .sleeping
  | _ => false

/-- No process gives up in `pipewrite` while a reader waits. -/
def considerate (s : PipeSys m) : PipeAct m → Prop
  | .run p => s.givesUp p = true → ∀ q, s.readerWaits q = false
  | .call _ _ | .kill _ => True

instance (s : PipeSys m) : (a : PipeAct m) → Decidable (s.considerate a)
  | .run p => inferInstanceAs (Decidable (s.givesUp p = true → ∀ q, s.readerWaits q = false))
  | .call _ _ | .kill _ => inferInstanceAs (Decidable True)

def init (data : Fin pipesize → Byte) : PipeSys m where
  pipe := .alloc data
  sched := ⟨fun _ => none, fun _ => .running, fun _ => none⟩
  killed _ := false
  pc _ := .out
  calls := 0
  bufs _ _ := 0
  stored := []
  delivered := []

end PipeSys

end Xv6Memfs
