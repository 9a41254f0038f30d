import Xv6Memfs.Kernel.Param
import Mathlib.Data.Fintype.Basic

/-! # The process table

`kernel/proc.c`: the process table with `fork`, `exit`, `wait`, `kill`, `sleep`, `wakeup` and
the scheduler.  Each function is cut at the points where it takes or gives up `ptable.lock`,
and what happens in between is one step.  `procStep s a` is the table after step `a`, or
`none` when `a` cannot happen in `s`; a panic is a step that cannot happen.

The fields of `struct proc` that these functions only pass on (memory, files, names) are left
out; whether `kalloc` and `copyuvm` find memory is an argument of the step. -/

namespace Xv6Memfs

open Function

instance : NeZero nproc := ⟨by decide⟩

inductive ProcState where
  | unused
  | embryo
  | sleeping
  | runnable
  | running
  | zombie
  deriving DecidableEq, Repr

/-- What a process sleeps on: a process, in `wait`, or anything else. -/
inductive Chan where
  | proc (p : Fin nproc)
  | other (n : Nat)
  deriving DecidableEq

structure Proc where
  state : ProcState
  pid : BitVec 32
  parent : Option (Fin nproc)
  killed : Bool
  chan : Option Chan
  deriving DecidableEq

/-- Where the code of a process stands between two steps: in `fork`, before the `kalloc` of
    `allocproc`, before `copyuvm` or before the child becomes runnable; in `wait`, before a scan
    of the table; or outside of both. -/
inductive ProcPc where
  | outside
  | forkStack (np : Fin nproc)
  | forkCopy (np : Fin nproc)
  | forkRun (np : Fin nproc)
  | wait
  deriving DecidableEq

/-- The process in slot `p` has exited, or `wait` of `w` has freed the slot and returned `pid`. -/
inductive ProcEvent where
  | exited (p : Fin nproc) (pid : BitVec 32)
  | reaped (w p : Fin nproc) (pid : BitVec 32)
  deriving DecidableEq

/-- The last three fields are history: the number of pids given out, the pid of the process that
    has forked a slot, and the events, the last one first. -/
structure ProcTable where
  proc : Fin nproc → Proc
  nextpid : BitVec 32
  pc : Fin nproc → ProcPc
  forks : Nat
  maker : Fin nproc → BitVec 32
  events : List ProcEvent

namespace ProcTable

/-- `initproc`: `userinit` is the first to call `allocproc`. -/
def initproc : Fin nproc := ⟨0, by decide⟩

def boot : ProcTable where
  proc p :=
    if p = initproc then ⟨.runnable, 1, none, false, none⟩ else ⟨.unused, 0, none, false, none⟩
  nextpid := 2
  pc _ := .outside
  forks := 1
  maker _ := 0
  events := []

def setProc (s : ProcTable) (p : Fin nproc) (f : Proc → Proc) : ProcTable :=
  { s with proc := update s.proc p (f (s.proc p)) }

def setPc (s : ProcTable) (p : Fin nproc) (c : ProcPc) : ProcTable :=
  { s with pc := update s.pc p c }

def record (s : ProcTable) (e : ProcEvent) : ProcTable := { s with events := e :: s.events }

def wakeup1 (s : ProcTable) (chan : Chan) : ProcTable :=
  { s with
    proc := fun p =>
      if (s.proc p).state = .sleeping ∧ (s.proc p).chan = some chan then
        { s.proc p with state := .runnable }
      else
        s.proc p }

def allocproc (s : ProcTable) : Option (Fin nproc × ProcTable) :=
  match (List.finRange nproc).find? fun p => decide ((s.proc p).state = .unused) with
  | none => none
  | some np =>
    some (np,
      { s.setProc np fun q => { q with state := .embryo, pid := s.nextpid } with
        nextpid := s.nextpid + 1
        forks := s.forks + 1 })

def exitProc (s : ProcTable) (p : Fin nproc) : ProcTable :=
  -- Parent might be sleeping in wait().
  let s1 := match (s.proc p).parent with
    | some w => s.wakeup1 (.proc w)
    | none => s
  -- Pass abandoned children to init.
  let orphan (q : Fin nproc) : Bool := decide ((s.proc q).parent = some p)
  let s2 := { s1 with
    proc := fun q => if orphan q then { s1.proc q with parent := some initproc } else s1.proc q }
  let zombies := (List.finRange nproc).any fun q =>
    orphan q && decide ((s2.proc q).state = .zombie)
  let s3 := if zombies then s2.wakeup1 (.proc initproc) else s2
  -- Jump into the scheduler, never to return.
  s3.setProc p fun q => { q with state := .zombie }

inductive WaitRes where
  | reaps (p : Fin nproc)
  | fails
  | sleeps
  deriving DecidableEq

/-- One scan of the table by `wait`. -/
def waitScan (s : ProcTable) (w : Fin nproc) : WaitRes :=
  match (List.finRange nproc).find? fun p =>
      decide ((s.proc p).parent = some w ∧ (s.proc p).state = .zombie) with
  | some p => .reaps p
  | none =>
    let havekids := (List.finRange nproc).any fun p => decide ((s.proc p).parent = some w)
    if !havekids || (s.proc w).killed then .fails else .sleeps

/-- The process with the given pid, if there is one, is killed. -/
def kill (s : ProcTable) (pid : BitVec 32) : Bool × ProcTable :=
  match (List.finRange nproc).find? fun p => decide ((s.proc p).pid = pid) with
  | none => (false, s)
  | some p =>
    (true, s.setProc p fun q =>
      { q with
        killed := true
        -- Wake process from sleep if necessary.
        state := if q.state = .sleeping then .runnable else q.state })

end ProcTable

inductive ProcAct where
  | fork (p : Fin nproc)
  | stack (p : Fin nproc) (ok : Bool)
  | copy (p : Fin nproc) (ok : Bool)
  | start (p : Fin nproc)
  | exit (p : Fin nproc)
  | wait (p : Fin nproc)
  | kill (p : Fin nproc) (pid : BitVec 32)
  | sleep (p : Fin nproc) (chan : Nat)
  | wakeup (chan : Nat)
  | yield (p : Fin nproc)
  | schedule (p : Fin nproc)
  deriving DecidableEq

open ProcTable in
def procStep (s : ProcTable) : ProcAct → Option ProcTable
  | .fork p =>
    if (s.proc p).state = .running ∧ s.pc p = .outside then
      match s.allocproc with
      | none => some s
      | some (np, t) => some (t.setPc p (.forkStack np))
    else none
  | .stack p ok =>
    match s.pc p with
    | .forkStack np =>
      if (s.proc p).state = .running then
        if ok then some (s.setPc p (.forkCopy np))
        else some ((s.setProc np fun q => { q with state := .unused }).setPc p .outside)
      else none
    | _ => none
  | .copy p ok =>
    match s.pc p with
    | .forkCopy np =>
      if (s.proc p).state = .running then
        if ok then
          some ({ s.setProc np fun q => { q with parent := some p } with
            maker := update s.maker np (s.proc p).pid }.setPc p (.forkRun np))
        else some ((s.setProc np fun q => { q with state := .unused }).setPc p .outside)
      else none
    | _ => none
  | .start p =>
    match s.pc p with
    | .forkRun np =>
      if (s.proc p).state = .running then
        some (((s.setProc np fun q => { q with state := .runnable }).setPc np .outside).setPc p
          .outside)
      else none
    | _ => none
  | .exit p =>
    if (s.proc p).state = .running ∧ s.pc p = .outside then
      if p = initproc then none
      else some ((s.exitProc p).record (.exited p (s.proc p).pid))
    else none
  | .wait p =>
    if (s.proc p).state = .running ∧ (s.pc p = .outside ∨ s.pc p = .wait) then
      match s.waitScan p with
      | .reaps q =>
        some (((s.setProc q fun r =>
          { r with state := .unused, pid := 0, parent := none, killed := false }).setPc p
            .outside).record (.reaped p q (s.proc q).pid))
      | .fails => some (s.setPc p .outside)
      | .sleeps =>
        some ((s.setProc p fun r => { r with state := .sleeping, chan := some (.proc p) }).setPc p
          .wait)
    else none
  | .kill p pid =>
    if (s.proc p).state = .running ∧ s.pc p = .outside then some (s.kill pid).2 else none
  | .sleep p chan =>
    if (s.proc p).state = .running ∧ s.pc p = .outside then
      some (s.setProc p fun q => { q with state := .sleeping, chan := some (.other chan) })
    else none
  | .wakeup chan => some (s.wakeup1 (.other chan))
  | .yield p =>
    if (s.proc p).state = .running then
      some (s.setProc p fun q => { q with state := .runnable })
    else none
  | .schedule p =>
    if (s.proc p).state = .runnable then
      -- a process that comes back from `sched` in `sleep` clears its channel
      some (s.setProc p fun q => { q with state := .running, chan := none })
    else none

end Xv6Memfs
