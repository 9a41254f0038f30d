import Xv6Memfs.Kernel.Bio
import Xv6Memfs.Lib.Linked
import Xv6Memfs.Lib.System

/-! # The interrupt-driven disk driver

`kernel/ide.c` with any number of processes and the disk.  One step is one critical section of
`idelock`: `iderw` up to its first `sleep`, the test after a `sleep` has returned, or
`ideintr`, which the disk calls once for every command when it has carried it out.

A process that sleeps may come back at any time, as after `kill`; `wakeup` adds nothing to
that.  Between its calls of `iderw` a process takes, changes and releases buffers. -/

namespace Xv6Memfs

open Lib Function

def sectorSize : Nat := 512

/-! ## The disk -/

/-- What `idestart` sends to the ports `0x1f2` to `0x1f6`, and the data that `outsl` sends
    after `IDE_CMD_WRITE`; there is none after `IDE_CMD_READ`. -/
structure IdeCmd where
  nsect : BitVec 8
  lba0 : BitVec 8
  lba1 : BitVec 8
  lba2 : BitVec 8
  head : BitVec 8
  data : Option Block
  deriving DecidableEq

namespace IdeCmd

def lba (c : IdeCmd) : Nat :=
  c.lba0.toNat + c.lba1.toNat * 2 ^ 8 + c.lba2.toNat * 2 ^ 16 + c.head.toNat % 2 ^ 4 * 2 ^ 24

def drive (c : IdeCmd) : Bool := c.head.toNat / 2 ^ 4 % 2 = 1

/-- The disks after the command, and the data that `insl` finds after a read.  A sector has
    the size of a block. -/
def exec (c : IdeCmd) (d : Bool → Memdisk) : Option Block × (Bool → Memdisk) :=
  match c.data with
  | some v => (none, update d c.drive ((d c.drive).write c.lba v))
  | none => (some ((d c.drive).block c.lba), d)

end IdeCmd

/-! ## The driver -/

def ideCommand (b : Buf) : Except Stop IdeCmd :=
  if b.blockno ≥ fssize then .error (.panic .incorrectBlockno)
  else
    let sectorPerBlock := bsize / sectorSize
    let sector := b.blockno * sectorPerBlock
    if sectorPerBlock > 7 then .error (.panic .idestart)
    else .ok
      { nsect := BitVec.ofNat 8 sectorPerBlock
        lba0 := BitVec.ofNat 8 sector
        lba1 := BitVec.ofNat 8 (sector / 2 ^ 8)
        lba2 := BitVec.ofNat 8 (sector / 2 ^ 16)
        head := BitVec.ofNat 8 (0xe0 ||| b.dev % 2 * 2 ^ 4 ||| sector / 2 ^ 24 % 2 ^ 4)
        data := if b.dirty then some b.data else none }

/-- Where a process stands; the request that it waits for has a number. -/
inductive IdePc (n : Nat) where
  | out
  | waiting (b : Fin n) (k : Nat)

/-- What has happened to a buffer. -/
inductive IdeEvent (n : Nat) where
  /-- its holder has changed it -/
  | change (b : Fin n) (v : Buf)
  | iderw (b : Fin n)

/-- The driver with `n` buffers.  The last two fields are history: the buffers in the order in
    which `iderw` was called with them, and the events. -/
structure IdeSys (n : Nat) (P : Type) where
  buf : Fin n → Buf
  qnext : Fin n → Option (Fin n)
  idequeue : Option (Fin n)
  havedisk1 : Bool
  disk : Bool → Memdisk
  active : Option IdeCmd
  owner : Fin n → Option P
  pc : P → IdePc n
  arrivals : List (Fin n)
  events : List (IdeEvent n)

inductive IdeAct (n : Nat) (P : Type) where
  /-- take a buffer that nobody holds, change one, or release it -/
  | change (p : P) (b : Fin n) (v : Buf)
  | call (p : P) (b : Fin n)
  | resume (p : P)
  | interrupt

namespace IdeSys

variable {n : Nat} {P : Type} [DecidableEq P]

/-- The tests at the start of `iderw`. -/
def iderwCheck (s : IdeSys n P) (b : Buf) : Except Stop Unit :=
  if !b.busy then .error (.panic .iderwNotBusy)
  else if b.valid && !b.dirty then .error (.panic .iderwNothingToDo)
  else if b.dev ≠ 0 && !s.havedisk1 then .error (.panic .iderwNoDisk1)
  else .ok ()

/-- Append `b` to `idequeue`; there is no result when the loop does not end. -/
def append (s : IdeSys n P) (b : Fin n) : Option (IdeSys n P) :=
  let qnext := update s.qnext b none
  match s.idequeue with
  | none => some { s with qnext := qnext, idequeue := some b }
  | some h =>
    (lastOf qnext n h).map fun l => { s with qnext := update qnext l (some b) }

def idestart (s : IdeSys n P) (b : Fin n) : Except Stop (IdeSys n P) :=
  match ideCommand (s.buf b) with
  | .ok c => .ok { s with active := some c }
  | .error e => .error e

/-- `(b->flags & (B_VALID|B_DIRTY)) == B_VALID`. -/
def finished (s : IdeSys n P) (b : Fin n) : Bool := (s.buf b).valid && !(s.buf b).dirty

/-- The loop at the end of `iderw`, from one test to the next `sleep` or to the return. -/
def await (s : IdeSys n P) (p : P) (b : Fin n) (k : Nat) : IdeSys n P :=
  { s with pc := update s.pc p (if s.finished b then .out else .waiting b k) }

def iderw (s : IdeSys n P) (p : P) (b : Fin n) : Option (IdeSys n P) :=
  match s.iderwCheck (s.buf b), s.append b with
  | .ok (), some t =>
    let k := s.arrivals.length
    let t := { t with arrivals := s.arrivals ++ [b] }
    if t.idequeue = some b then
      match t.idestart b with
      | .ok t => some (t.await p b k)
      | .error _ => none
    else some (t.await p b k)
  | _, _ => none

/-- `data` is what `insl` finds. -/
def ideintr (s : IdeSys n P) (data : Option Block) : Except Stop (IdeSys n P) :=
  match s.idequeue with
  | none => .ok s
  | some b =>
    let v := s.buf b
    -- Read data if needed.
    let v := if !v.dirty then { v with data := data.getD v.data } else v
    let v := { v with valid := true, dirty := false }
    let s := { s with idequeue := s.qnext b
                      buf := update s.buf b v
                      events := s.events ++ [IdeEvent.iderw b] }
    -- Start disk on next buf in queue.
    match s.idequeue with
    | some c => s.idestart c
    | none => .ok s

/-- The state after an action, `none` if it cannot happen; a panic cannot. -/
def step (s : IdeSys n P) : IdeAct n P → Option (IdeSys n P)
  | .change p b v =>
    match s.pc p with
    | .out =>
      if s.owner b = some p ∨ s.owner b = none then
        some { s with buf := update s.buf b v
                      owner := update s.owner b (if v.busy then some p else none)
                      events := s.events ++ [.change b v] }
      else none
    | .waiting _ _ => none
  | .call p b =>
    match s.pc p with
    | .out => if s.owner b = some p then s.iderw p b else none
    | .waiting _ _ => none
  | .resume p =>
    match s.pc p with
    | .waiting b k => some (s.await p b k)
    | .out => none
  | .interrupt =>
    match s.active with
    | none => none
    | some c =>
      let (data, disk) := c.exec s.disk
      ({ s with active := none, disk := disk }.ideintr data).toOption

/-- Requests are for blocks of disk 1. -/
def onDisk1 (s : IdeSys n P) : IdeAct n P → Prop
  | .call _ b => (s.buf b).dev = 1 ∧ (s.buf b).blockno < fssize
  | .change _ _ _ | .resume _ | .interrupt => True

instance (s : IdeSys n P) : (a : IdeAct n P) → Decidable (s.onDisk1 a)
  | .call _ _ => inferInstanceAs (Decidable (_ ∧ _))
  | .change _ _ _ | .resume _ | .interrupt => inferInstanceAs (Decidable True)

/-- The state after `ideinit`, with any buffers that nobody holds and any disks. -/
def init (buf : Fin n → Buf) (qnext : Fin n → Option (Fin n)) (disk : Bool → Memdisk) :
    IdeSys n P where
  buf := buf
  qnext := qnext
  idequeue := none
  havedisk1 := true
  disk := disk
  active := none
  owner _ := none
  pc _ := .out
  arrivals := []
  events := []

end IdeSys

/-! ## The memory disk -/

/-- The event with the `iderw` of the memory disk. -/
def memEvent {n : Nat} (m : (Fin n → Buf) × Memdisk) :
    IdeEvent n → Except Stop ((Fin n → Buf) × Memdisk)
  | .change b v => .ok (update m.1 b v, m.2)
  | .iderw b =>
    match iderw (m.1 b) m.2 with
    | .ok (v, d) => .ok (update m.1 b v, d)
    | .error e => .error e

/-- The buffers whose requests have been completed, in that order. -/
def IdeEvent.served {n : Nat} (events : List (IdeEvent n)) : List (Fin n) :=
  events.filterMap fun
    | .change _ _ => none
    | .iderw b => some b

end Xv6Memfs
