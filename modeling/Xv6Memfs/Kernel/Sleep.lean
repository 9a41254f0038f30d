import Xv6Memfs.Kernel.Proc
import Xv6Memfs.Lib.System

/-! # sleep and wakeup, step by step

`sleep(chan, lk)` and `wakeup(chan)` of `kernel/proc.c` as sequences of steps on `lk`,
`ptable.lock` and the states of the processes.  `lk` may be `ptable.lock` itself.  A process
that calls `sched` passes `ptable.lock` to the scheduler, which gives it up, and gets it back
from the scheduler that picks it again.  A step that cannot happen now is `none`; so is one
that panics.

`WaitSys` is the system of processes that use a lock `lk` and channels in the way the
comments in `proc.c` ask for: a process tests the condition of a channel while it holds `lk`
before it calls `sleep`. -/

namespace Xv6Memfs

open Function

/-- `ptable.lock`, and a lock that `sleep` is called with. -/
inductive LockId where
  | ptable
  | lk
  deriving DecidableEq

/-- The locks with their holders, and `p->state` and `p->chan` of `n` processes. -/
structure Sched (n : Nat) (C : Type) where
  owner : LockId → Option (Fin n)
  state : Fin n → ProcState
  chan : Fin n → Option C

/-- Where `sleep` stands, by the statement that comes next.  `switch` is `sched()` up to the
    release of `ptable.lock` by the scheduler, and `away` lasts until one picks the process. -/
inductive SleepPc where
  | lockPtable
  | unlock
  | mark
  | switch
  | away
  | tidy
  | unlockPtable
  | relock
  deriving DecidableEq

/-- Where `wakeup` stands; in the loop of `wakeup1`, with the rest of the table. -/
inductive WakePc (n : Nat) where
  | lockPtable
  | scan (rest : List (Fin n))
  | unlockPtable
  deriving DecidableEq

namespace Sched

variable {n : Nat} {C : Type}

def acquire (s : Sched n C) (l : LockId) (p : Fin n) : Option (Sched n C) :=
  if s.owner l = none then some { s with owner := update s.owner l (some p) } else none

def release (s : Sched n C) (l : LockId) (p : Fin n) : Option (Sched n C) :=
  if s.owner l = some p then some { s with owner := update s.owner l none } else none

def setState (s : Sched n C) (p : Fin n) (v : ProcState) : Sched n C :=
  { s with state := update s.state p v }

def setChan (s : Sched n C) (p : Fin n) (c : Option C) : Sched n C :=
  { s with chan := update s.chan p c }

def sleepStart (l : LockId) : SleepPc := if l = .ptable then .mark else .lockPtable

/-- One step of `sleep(c, l)` by `p`; the new place is `none` when `sleep` returns. -/
def sleepStep (s : Sched n C) (l : LockId) (c : C) (p : Fin n) :
    SleepPc → Option (Sched n C × Option SleepPc)
  | .lockPtable => (s.acquire .ptable p).map fun t => (t, some .unlock)
  | .unlock => (s.release l p).map fun t => (t, some .mark)
  | .mark => some ((s.setChan p (some c)).setState p .sleeping, some .switch)
  | .switch =>
    -- sched panics if another lock is held
    if l ≠ .ptable ∧ s.owner l = some p then none
    else (s.release .ptable p).map fun t => (t, some .away)
  | .away =>
    if s.state p = .runnable then
      (s.acquire .ptable p).map fun t => (t.setState p .running, some .tidy)
    else none
  | .tidy => some (s.setChan p none, if l = .ptable then none else some .unlockPtable)
  | .unlockPtable => (s.release .ptable p).map fun t => (t, some .relock)
  | .relock => (s.acquire l p).map fun t => (t, none)

/-- The first step of waking up the sleepers: `wakeup`, or `wakeup1` for a process that holds
    `ptable.lock`. -/
def wakeStart (l : LockId) : WakePc n :=
  if l = .ptable then .scan (List.finRange n) else .lockPtable

def wakeOne [DecidableEq C] (s : Sched n C) (c : C) (q : Fin n) : Sched n C :=
  if s.state q = .sleeping ∧ s.chan q = some c then s.setState q .runnable else s

/-- One step of `wakeup(c)` by `p`, which holds `l`; the new place is `none` when it returns. -/
def wakeStep [DecidableEq C] (s : Sched n C) (l : LockId) (c : C) (p : Fin n) :
    WakePc n → Option (Sched n C × Option (WakePc n))
  | .lockPtable => (s.acquire .ptable p).map fun t => (t, some (.scan (List.finRange n)))
  | .scan (q :: rest) => some (s.wakeOne c q, some (.scan rest))
  | .scan [] => some (s, if l = .ptable then none else some .unlockPtable)
  | .unlockPtable => (s.release .ptable p).map fun t => (t, none)

/-- The part of `kill` that concerns the sleeper `q`. -/
def rouse (s : Sched n C) (q : Fin n) : Option (Sched n C) :=
  if s.owner .ptable = none then
    some (if s.state q = .sleeping then s.setState q .runnable else s)
  else none

end Sched

/-! ## Processes that wait for conditions -/

/-- Where a process stands: without the lock, with it, or in `sleep` or `wakeup`.  When `sleep`
    has `returned`, the condition is not tested yet. -/
inductive WaitPc (n : Nat) (C : Type) where
  | out
  | inside
  | sleeping (c : C) (k : SleepPc)
  | returned (c : C)
  | waking (c : C) (k : WakePc n)
  deriving DecidableEq

def WaitPc.afterSleep {n : Nat} {C : Type} (c : C) : Option SleepPc → WaitPc n C
  | some k => .sleeping c k
  | none => .returned c

/-- The lock `l` protects `data`; `owes c` says that the condition of `c` has become true and
    `wakeup(c)` has not been called since. -/
structure WaitSys (n : Nat) (C σ : Type) where
  sched : Sched n C
  data : σ
  pc : Fin n → WaitPc n C
  owes : C → Bool

inductive WaitAct (n : Nat) (C σ : Type) where
  | acquire (p : Fin n)
  | release (p : Fin n)
  | change (p : Fin n) (v : σ)
  | sleep (p : Fin n) (c : C)
  | wakeup (p : Fin n) (c : C)
  | go (p : Fin n)
  | kill (p : Fin n)

namespace WaitSys

variable {n : Nat} {C σ : Type} [DecidableEq C]

def setPc (s : WaitSys n C σ) (p : Fin n) (k : WaitPc n C) : WaitSys n C σ :=
  { s with pc := update s.pc p k }

/-- The next step of the function that `p` is in. -/
def goOn (l : LockId) (s : WaitSys n C σ) (p : Fin n) : Option (WaitSys n C σ) :=
  match s.pc p with
  | .sleeping c k => (s.sched.sleepStep l c p k).map fun r =>
      { s with sched := r.1 }.setPc p (.afterSleep c r.2)
  | .returned _ => some (s.setPc p .inside)
  | .waking c k => (s.sched.wakeStep l c p k).map fun r =>
      match r.2 with
      | some k => { s with sched := r.1 }.setPc p (.waking c k)
      | none => { s with sched := r.1, owes := update s.owes c false }.setPc p .inside
  | .out | .inside => none

def step (l : LockId) (pred : C → σ → Bool) (s : WaitSys n C σ) :
    WaitAct n C σ → Option (WaitSys n C σ)
  | .acquire p => match s.pc p with
    | .out => (s.sched.acquire l p).map fun t => { s with sched := t }.setPc p .inside
    | _ => none
  | .release p => match s.pc p with
    | .inside => (s.sched.release l p).map fun t => { s with sched := t }.setPc p .out
    | _ => none
  | .change p v => match s.pc p with
    | .inside => some { s with data := v
                               owes := fun c => s.owes c || (pred c v && !pred c s.data) }
    | _ => none
  | .sleep p c => match s.pc p with
    | .inside => some (s.setPc p (.sleeping c (Sched.sleepStart l)))
    | _ => none
  | .wakeup p c => match s.pc p with
    | .inside => some (s.setPc p (.waking c (Sched.wakeStart l)))
    | _ => none
  | .go p => s.goOn l p
  | .kill p => (s.sched.rouse p).map fun t => { s with sched := t }

/-- What the users of the lock see to: they call `sleep` only while the condition does not
    hold, and do not give the lock up before `wakeup` where they have made a condition true. -/
def obeys (pred : C → σ → Bool) (s : WaitSys n C σ) : WaitAct n C σ → Prop
  | .release _ => ∀ c, s.owes c = false
  | .sleep _ c => pred c s.data = false ∧ ∀ d, s.owes d = false
  | _ => True

instance [Fintype C] (pred : C → σ → Bool) (s : WaitSys n C σ) :
    (a : WaitAct n C σ) → Decidable (s.obeys pred a)
  | .release _ => inferInstanceAs (Decidable (∀ c, s.owes c = false))
  | .sleep _ c => inferInstanceAs (Decidable (pred c s.data = false ∧ ∀ d, s.owes d = false))
  | .acquire _ | .change _ _ | .wakeup _ _ | .go _ | .kill _ => inferInstanceAs (Decidable True)

/-- All processes run and nobody holds a lock. -/
def init (v : σ) : WaitSys n C σ where
  sched := ⟨fun _ => none, fun _ => .running, fun _ => none⟩
  data := v
  pc _ := .out
  owes _ := false

end WaitSys

end Xv6Memfs
