import Xv6Memfs.Lib.System

/-! # Spin locks

`kernel/spinlock.c` for any CPUs `C` and locks `L`.  A step has at most one access to shared memory, so
`holding` takes two, and accesses take effect in the order of the steps.  An `xchg` that finds the lock
taken is no step. -/

namespace Xv6Memfs

/-- The access to come in `acquire` or `release`. -/
inductive SpinPc (L : Type) where
  | out
  /-- `lk->locked` in `holding`, for `acquire` or `release` -/
  | testLocked (release : Bool) (lk : L)
  /-- `lk->cpu == cpu` in `holding` -/
  | testCpu (release : Bool) (lk : L)
  /-- `xchg(&lk->locked, 1)` -/
  | spin (lk : L)
  /-- `lk->cpu = cpu` -/
  | record (lk : L)
  /-- `lk->cpu = 0` -/
  | clear (lk : L)
  /-- `xchg(&lk->locked, 0)`, and `popcli` -/
  | unlock (lk : L)
  | panicked

structure SpinCpu (L : Type) where
  pc : SpinPc L
  ncli : Nat
  intena : Bool
  interrupts : Bool

def SpinCpu.pushcli {L : Type} (k : SpinCpu L) : SpinCpu L :=
  { k with interrupts := false, ncli := k.ncli + 1, intena := if k.ncli = 0 then k.interrupts else k.intena }

def SpinCpu.popcli {L : Type} (k : SpinCpu L) : SpinCpu L :=
  if k.interrupts || k.ncli = 0 then { k with pc := .panicked }
  else { k with ncli := k.ncli - 1, interrupts := k.ncli - 1 = 0 && k.intena }

structure Spinlocks (C L : Type) where
  locked : L → Bool
  /-- `lk->cpu` -/
  holder : L → Option C
  cpu : C → SpinCpu L

inductive SpinOp (L : Type) where
  | acquire (lk : L)
  | release (lk : L)
  | pushcli
  | popcli
  /-- `sti` in the scheduler, and interrupts with their return -/
  | setInterrupts (on : Bool)
  | go

namespace Spinlocks

variable {C L : Type} [DecidableEq C] [DecidableEq L]

def setCpu (s : Spinlocks C L) (c : C) (k : SpinCpu L) : Spinlocks C L :=
  { s with cpu := Function.update s.cpu c k }

def goto (s : Spinlocks C L) (c : C) (pc : SpinPc L) : Spinlocks C L :=
  s.setCpu c { s.cpu c with pc := pc }

/-- After `holding(lk)`. -/
def tested (lk : L) (release answer : Bool) : SpinPc L :=
  if release = answer then (if release then .clear lk else .spin lk) else .panicked

def access (s : Spinlocks C L) (c : C) : SpinPc L → Option (Spinlocks C L)
  | .out | .panicked => none
  | .testLocked r lk => s.goto c (if s.locked lk then .testCpu r lk else tested lk r false)
  | .testCpu r lk => s.goto c (tested lk r (s.holder lk = some c))
  | .spin lk =>
    if s.locked lk then none
    else { s with locked := Function.update s.locked lk true }.goto c (.record lk)
  | .record lk => { s with holder := Function.update s.holder lk (some c) }.goto c .out
  | .clear lk => { s with holder := Function.update s.holder lk none }.goto c (.unlock lk)
  | .unlock lk => { s with locked := Function.update s.locked lk false }.setCpu c
      { s.cpu c with pc := .out }.popcli

def step (s : Spinlocks C L) : C × SpinOp L → Option (Spinlocks C L)
  | (c, op) => match op, (s.cpu c).pc with
    | .acquire lk, .out => s.setCpu c { (s.cpu c).pushcli with pc := .testLocked false lk }
    | .release lk, .out => s.goto c (.testLocked true lk)
    | .pushcli, .out => s.setCpu c (s.cpu c).pushcli
    | .popcli, .out => s.setCpu c (s.cpu c).popcli
    | .setInterrupts on, .out =>
      if (s.cpu c).ncli = 0 then s.setCpu c { s.cpu c with interrupts := on } else none
    | .go, pc => s.access c pc
    | _, _ => none

/-- The number of locks recorded for a CPU. -/
def count [Fintype L] (holder : L → Option C) (c : C) : Nat := ∑ lk, if holder lk = some c then 1 else 0

/-- The rules: acquire a lock not held, release one held, match `pushcli` with `popcli`. -/
def Proper [Fintype L] (s : Spinlocks C L) : C × SpinOp L → Prop
  | (c, .acquire lk) => s.holder lk ≠ some c
  | (c, .release lk) => s.holder lk = some c
  | (c, .popcli) => count s.holder c < (s.cpu c).ncli
  | _ => True

def boot : Spinlocks C L := ⟨fun _ => false, fun _ => none, fun _ => ⟨.out, 0, false, false⟩⟩

end Spinlocks

end Xv6Memfs
