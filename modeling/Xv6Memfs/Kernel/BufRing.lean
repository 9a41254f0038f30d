import Xv6Memfs.Kernel.Log
import Xv6Memfs.Lib.Ring

/-! # The buffer cache with its pointers

`kernel/bio.c` with the list of buffers as it is in memory: linked through `prev` and `next`
to `bcache.head`.  The processes here use the cache in any way they like: `bread`, changes of
`b->data`, `bwrite`, `log_write` and `brelse` in any order, on the buffers they hold. -/

namespace Xv6Memfs

open Lib Function

/-- `bcache`: the buffers and their links. -/
structure RingCache where
  buf : Fin nbuf → Buf
  links : Links (Fin nbuf)

namespace RingCache

def binit : RingCache where
  buf := Xv6Memfs.binit.buf
  links := (List.finRange nbuf).foldl Links.pushFront Links.empty

def set (c : RingCache) (i : Fin nbuf) (b : Buf) : RingCache :=
  { c with buf := update c.buf i b }

/-- Look through the cache from `head.next`; if the block is not there, recycle a buffer, from
    `head.prev`.  The loops end at the head. -/
def bget (c : RingCache) (dev blockno : Nat) : Except Stop (Fin nbuf × RingCache) :=
  match Links.scan c.links.next (fun i => (c.buf i).dev = dev ∧ (c.buf i).blockno = blockno)
    nbuf (c.links.next none) with
  | some i =>
    if (c.buf i).busy then .error .sleep
    else .ok (i, c.set i { c.buf i with busy := true })
  | none =>
    match Links.scan c.links.prev (fun i => !(c.buf i).busy ∧ !(c.buf i).dirty)
      nbuf (c.links.prev none) with
    | some i =>
      .ok (i, c.set i { c.buf i with busy := true, valid := false, dirty := false,
                                      dev := dev, blockno := blockno })
    | none => .error (.panic .bgetNoBuffers)

def brelse (c : RingCache) (i : Fin nbuf) : Except Stop RingCache :=
  if (c.buf i).busy then
    .ok { buf := update c.buf i { c.buf i with busy := false }
          links := (c.links.unlink i).pushFront i }
  else .error (.panic .brelse)

end RingCache

/-! ## Processes -/

/-- A call of `bread` between its two halves: the buffer of `bget`, and the arguments. -/
structure Reading where
  buf : Fin nbuf
  dev : Nat
  blockno : Nat

/-- `held p i` says that `bget` has returned buffer `i` to `p`, which has not released it.
    `touched` marks a buffer whose data was changed and not yet passed to `bwrite` or
    `log_write`.  `left` is only for the proofs: what the last holder of a block left in it. -/
structure BufSys (P : Type) where
  cache : RingCache
  disk : Memdisk
  log : Log
  held : P → Fin nbuf → Bool
  reading : P → Option Reading
  touched : Fin nbuf → Bool
  left : Nat → Nat → Block
  stopped : Option Panic

inductive BufAct (P : Type) where
  /-- the first half of `bread` -/
  | bget (p : P) (dev blockno : Nat)
  /-- the second half of `bread`, which returns the buffer -/
  | fill (p : P)
  | store (p : P) (i : Fin nbuf) (v : Block)
  | bwrite (p : P) (i : Fin nbuf)
  | logWrite (p : P) (i : Fin nbuf)
  | brelse (p : P) (i : Fin nbuf)
  /-- the rest of `log.c` changes the log -/
  | setLog (l : Log)

namespace BufSys

variable {P : Type} [DecidableEq P]

def buf (s : BufSys P) (i : Fin nbuf) : Buf := s.cache.buf i

/-- A panic stops everything; a process that sleeps does not move. -/
def settle (s : BufSys P) : Except Stop (BufSys P) → Option (BufSys P)
  | .ok t => some t
  | .error (.panic e) => some { s with stopped := some e }
  | .error .sleep => none

def mayUse (s : BufSys P) (p : P) (i : Fin nbuf) : Bool := s.held p i && (s.reading p).isNone

def setHeld (s : BufSys P) (p : P) (i : Fin nbuf) (b : Bool) : BufSys P :=
  { s with held := update s.held p (update (s.held p) i b) }

def iderwAt (s : BufSys P) (i : Fin nbuf) : Except Stop (BufSys P) :=
  match iderw (s.buf i) s.disk with
  | .ok (b, d) => .ok { s with cache := s.cache.set i b, disk := d }
  | .error e => .error e

def bgetBy (s : BufSys P) (p : P) (dev blockno : Nat) : Except Stop (BufSys P) :=
  match s.cache.bget dev blockno with
  | .ok (i, c) =>
    .ok ({ s with cache := c
                  reading := update s.reading p (some ⟨i, dev, blockno⟩) }.setHeld p i true)
  | .error e => .error e

def fillBy (s : BufSys P) (p : P) (i : Fin nbuf) : Except Stop (BufSys P) :=
  let s := { s with reading := update s.reading p none }
  if (s.buf i).valid then .ok s else s.iderwAt i

def storeAt (s : BufSys P) (i : Fin nbuf) (v : Block) : BufSys P :=
  { s with cache := s.cache.set i { s.buf i with data := v }
           touched := update s.touched i true }

/-- `b->flags |= B_DIRTY`. -/
def setDirty (s : BufSys P) (i : Fin nbuf) : BufSys P :=
  { s with cache := s.cache.set i { s.buf i with dirty := true }
           touched := update s.touched i false }

def bwriteAt (s : BufSys P) (i : Fin nbuf) : Except Stop (BufSys P) :=
  if !(s.buf i).busy then .error (.panic .bwrite) else (s.setDirty i).iderwAt i

def logWriteAt (s : BufSys P) (i : Fin nbuf) : Except Stop (BufSys P) :=
  match s.log.logWriteCheck with
  | .ok () => .ok { s.setDirty i with log := s.log.logWrite (s.buf i).blockno }
  | .error e => .error e

def brelseBy (s : BufSys P) (p : P) (i : Fin nbuf) : Except Stop (BufSys P) :=
  match s.cache.brelse i with
  | .ok c =>
    let b := s.buf i
    .ok ({ s with cache := c
                  touched := update s.touched i false
                  left := update s.left b.dev
                    (update (s.left b.dev) b.blockno b.data) }.setHeld p i false)
  | .error e => .error e

def step (s : BufSys P) (a : BufAct P) : Option (BufSys P) :=
  if s.stopped.isSome then none else
  match a with
  | .bget p dev blockno =>
    if (s.reading p).isNone then s.settle (s.bgetBy p dev blockno) else none
  | .fill p =>
    match s.reading p with
    | some r => s.settle (s.fillBy p r.buf)
    | none => none
  | .store p i v => if s.mayUse p i then some (s.storeAt i v) else none
  | .bwrite p i => if s.mayUse p i then s.settle (s.bwriteAt i) else none
  | .logWrite p i => if s.mayUse p i then s.settle (s.logWriteAt i) else none
  | .brelse p i => if s.mayUse p i then s.settle (s.brelseBy p i) else none
  | .setLog l => some { s with log := l }

/-- A holder that changes `b->data` calls `bwrite` or `log_write` before `brelse`. -/
def writesBack (s : BufSys P) : BufAct P → Prop
  | .brelse _ i => s.touched i = true → (s.buf i).dirty = true
  | _ => True

/-- After `binit`, on any disk and with any log. -/
def init (disk : Memdisk) (log : Log) : BufSys P where
  cache := .binit
  disk := disk
  log := log
  held _ _ := false
  reading _ := none
  touched _ := false
  left _ := disk.block
  stopped := none

end BufSys

end Xv6Memfs
