import Xv6Memfs.Kernel.Log
import Xv6Memfs.Lib.System

/-! # begin_op, log_write and end_op by any number of processes

One action is one critical section of `log.lock`, or one of the two accesses to the log
that `log.c` makes without the lock: the tests at the start of `log_write` and the body
of `commit`.  The commit is cut where it has read the header for the last time and where
it sets `log.lh.n = 0`. -/

namespace Xv6Memfs

open Lib

/-- A file-system operation in progress.  Both fields are only for the proofs: the
    distinct blocks it has logged and the number of commits before its `begin_op`. -/
structure Op where
  blocks : Finset Nat
  since : Nat
  deriving DecidableEq

inductive Pc where
  | idle
  | beginning             -- in begin_op, about to test with the lock held
  | asleep                -- in begin_op, in sleep(&log, &log.lock)
  | active (op : Op)      -- between begin_op and end_op
  | logging (op : Op) (blockno : Nat) -- in log_write, past the tests
  | ending                -- in end_op with do_commit = 1, before commit()
  | committing            -- in commit()
  | committed             -- in end_op, after commit()
  deriving DecidableEq

/-- The log and the processes that use it.  `commits` lists `log.lh.block[0..n)` of the
    commits so far; `ended` has every finished operation with the number of commits before
    its `end_op`. -/
structure LogSys (P : Type) where
  log : Log
  pc : P → Pc
  commits : List (List Nat)
  ended : List (Op × Nat)
  stopped : Option Panic

inductive LogAct (P : Type) where
  | call (p : P)
  | tryBegin (p : P)
  | kill (p : P)
  | check (p : P) (blockno : Nat)
  | logWrite (p : P)
  | endOp (p : P)
  | commit (p : P)
  | clear (p : P)
  | endCommit (p : P)

namespace LogSys

variable {P : Type} [DecidableEq P]

def goto (s : LogSys P) (p : P) (c : Pc) : LogSys P := { s with pc := Function.update s.pc p c }

def wakeup (s : LogSys P) : LogSys P :=
  { s with pc := fun p => if s.pc p = .asleep then .beginning else s.pc p }

def panic (s : LogSys P) (e : Stop) : LogSys P :=
  match e with
  | .panic e => { s with stopped := some e }
  | .sleep => s

/-- The state after an action, `none` if it cannot happen.  After a panic nothing can. -/
def step (s : LogSys P) (a : LogAct P) : Option (LogSys P) :=
  if s.stopped.isSome then none else
  match a with
  | .call p =>
    match s.pc p with
    | .idle => some (s.goto p .beginning)
    | _ => none
  | .tryBegin p =>
    match s.pc p, s.log.beginOp with
    | .beginning, none => some (s.goto p .asleep)
    | .beginning, some l =>
      some ({ s with log := l }.goto p (.active ⟨∅, s.commits.length⟩))
    | _, _ => none
  | .kill p =>
    -- kill() makes a sleeping process runnable: it tests again
    match s.pc p with
    | .asleep => some (s.goto p .beginning)
    | _ => none
  | .check p blockno =>
    match s.pc p, s.log.logWriteCheck with
    | .active op, .ok () => some (s.goto p (.logging op blockno))
    | .active _, .error e => some (s.panic e)
    | _, _ => none
  | .logWrite p =>
    match s.pc p with
    | .logging op blockno =>
      let op := { op with blocks := insert blockno op.blocks }
      some ({ s with log := s.log.logWrite blockno }.goto p (.active op))
    | _ => none
  | .endOp p =>
    match s.pc p, s.log.endOp with
    | .active op, .ok (true, l) =>
      let ended := (op, s.commits.length) :: s.ended
      some ({ s with log := l, ended := ended }.goto p .ending)
    | .active op, .ok (false, l) =>
      let ended := (op, s.commits.length) :: s.ended
      some ({ s with log := l, ended := ended }.goto p .idle).wakeup
    | .active _, .error e => some (s.panic e)
    | _, _ => none
  | .commit p =>
    match s.pc p with
    | .ending => some ({ s with commits := s.commits ++ [s.log.lh] }.goto p .committing)
    | _ => none
  | .clear p =>
    match s.pc p with
    | .committing => some ({ s with log := { s.log with lh := [] } }.goto p .committed)
    | _ => none
  | .endCommit p =>
    match s.pc p with
    | .committed => some ({ s with log := s.log.endCommit }.goto p .idle).wakeup
    | _ => none

end LogSys

def nlog : Nat := logsize

/-- The log after `initlog`, before any process uses it. -/
def LogSys.init {P : Type} (start size : Nat) : LogSys P where
  log := { start := start, size := size, outstanding := 0, committing := false, dev := rootdev,
           lh := [] }
  pc _ := .idle
  commits := []
  ended := []
  stopped := none

end Xv6Memfs
