import Xv6Memfs.Kernel.Inode

/-! # System call arguments and user memory

The argument checks of `kernel/syscall.c` (arguments in registers, as on X64) and what
`sys_read`, `sys_write`, `sys_fstat` and `sys_pipe` do with the pointers they accept:
`kernel/file.c`, `readi`, `writei` and `stati` of `kernel/fs.c`, `kernel/pipe.c` and the two
device drivers, as far as they read or write user memory.  Every user byte that the kernel
reads or writes is recorded in `touched`; which bytes move is left out.

A call also depends on the rest of the kernel: locks, blocks, other processes at a pipe or
at the keyboard.  What these answer during the call is `World`, and nothing is assumed
about it. -/

namespace Xv6Memfs

open Lib Function

/-- First kernel virtual address. -/
def kernbase : Nat := 0xFFFFFFFF80000000

inductive FdType where
  | none
  | pipe
  | inode
  deriving DecidableEq, Repr

/-- A `struct file`, with the fields of its inode that decide how a transfer goes. -/
structure UserFile where
  type : FdType
  readable : Bool
  writable : Bool
  off : BitVec 32
  itype : BitVec 16
  major : BitVec 16
  size : BitVec 32

/-- A process in a system call. -/
structure UserProc where
  sz : BitVec 64
  /-- `rdi`, `rsi`, `rdx`, `rcx`, `r8` and `r9` of the trap frame -/
  regs : Fin 6 → BitVec 64
  mem : BitVec 64 → Byte
  ofile : Fin nofile → Option UserFile
  /-- history: the user bytes that the kernel has read or written -/
  touched : List (BitVec 64)
  /-- user memory ends below the kernel -/
  sz_lt : sz.toNat < kernbase

/-- What the rest of the kernel answers during a call. -/
structure World where
  /-- how `begin_op` and `ilock` stop, if they do, before the `k`-th transfer -/
  enter : Nat → Option Stop
  /-- how `bread(ip->dev, bmap(ip, bn))` stops, if it does -/
  block : Nat → Option Stop
  /-- how `log_write` stops, if it does, after a store into block `bn` -/
  store : Nat → Option Stop
  /-- the number of bytes in the pipe when `piperead` has waited, `none` if killed there -/
  ready : Option Nat
  /-- the number of bytes `pipewrite` finds room for, before it finds the reader gone -/
  room : Nat
  /-- what is typed at the console; `none` if the reader is killed there -/
  keys : List (Option Byte)
  /-- whether `pipealloc` finds two files and a page -/
  pipealloc : Bool

abbrev UserM : Type → Type := Exec UserProc Stop

namespace UserProc

/-! ## Arguments -/

/-- Arguments are passed in registers. -/
def fetcharg (u : UserProc) (n : Nat) : BitVec 64 := if h : n < 6 then u.regs ⟨n, h⟩ else 0

def argint (u : UserProc) (n : Nat) : BitVec 32 := (u.fetcharg n).setWidth 32

/-- A pointer to a block of memory of `size` bytes; `none` is the return value `-1`. -/
def argptr (u : UserProc) (n : Nat) (size : BitVec 32) : Option (BitVec 64) :=
  let i := u.fetcharg n
  -- `i + size` is computed in `uintp`, so a negative size is sign extended
  if u.sz ≤ i ∨ u.sz < i + size.signExtend 64 then none else some i

/-- The scan for the end of a string, over at most `k` bytes from `s` on. -/
def strScan (u : UserProc) : Nat → BitVec 64 → Option Nat
  | 0, _ => none
  | k + 1, s => if u.mem s = 0 then some 0 else (u.strScan k (s + 1)).map (· + 1)

def fetchstr (u : UserProc) (addr : BitVec 64) : Option Nat :=
  if u.sz ≤ addr then none else u.strScan (u.sz.toNat - addr.toNat) addr

def argstr (u : UserProc) (n : Nat) : Option (BitVec 64 × Nat) :=
  (u.fetchstr (u.fetcharg n)).map fun len => (u.fetcharg n, len)

/-- A file descriptor and the file behind it. -/
def argfd (u : UserProc) (n : Nat) : Option (Fin nofile × UserFile) :=
  let fd := (u.argint n).toInt
  if h : 0 ≤ fd ∧ fd.toNat < nofile then
    (u.ofile ⟨fd.toNat, h.2⟩).map fun f => (⟨fd.toNat, h.2⟩, f)
  else
    none

/-! ## User memory -/

/-- Read or write `m` user bytes from `a` on. -/
def touch (a : BitVec 64) (m : Nat) : UserM Unit :=
  Exec.modify fun u =>
    { u with touched := (List.range m).map (fun k => a + BitVec.ofNat 64 k) ++ u.touched }

/-- Stop if the answer says so. -/
def await : Option Stop → UserM Unit
  | some e => Exec.throw e
  | none => pure ()

def setFile (fd : Fin nofile) (f : UserFile) : UserM Unit :=
  Exec.modify fun u => { u with ofile := update u.ofile fd (some f) }

/-! ## pipe.c -/

def piperead (w : World) (addr : BitVec 64) (n : BitVec 32) : UserM Int :=
  match w.ready with
  | none => pure (-1)
  | some avail => do
    let i := min n.toInt.toNat avail
    touch addr i
    pure i

def pipewrite (w : World) (addr : BitVec 64) (n : BitVec 32) : UserM Int := do
  touch addr (min n.toInt.toNat w.room)
  if n.toInt.toNat ≤ w.room then pure n.toInt else pure (-1)

/-! ## console.c and cpuid.c -/

/-- The loop of `consoleread`: what is left of `n`, or `none` if killed. -/
def consoleLoop : List (Option Byte) → Nat → BitVec 64 → UserM (Option Nat)
  | _, 0, _ => pure (some 0)
  | [], _ + 1, _ => Exec.throw .sleep
  | none :: _, _ + 1, _ => pure none
  | some c :: keys, n + 1, dst =>
    -- ^D is the end of the file
    if c = 4 then
      pure (some (n + 1))
    else do
      touch dst 1
      if c = 10 then pure (some n) else consoleLoop keys n (dst + 1)

def consoleread (w : World) (dst : BitVec 64) (n : BitVec 32) : UserM Int := do
  match ← consoleLoop w.keys n.toInt.toNat dst with
  | none => pure (-1)
  | some rest => pure (n.toInt.toNat - rest)

def consolewrite (buf : BitVec 64) (n : BitVec 32) : UserM Int := do
  touch buf n.toInt.toNat
  pure n.toInt

/-- `devsw[major].read`: the console is device 1 and `cpuid_read` is device 2. -/
def devRead (w : World) (major : BitVec 16) (dst : BitVec 64) (n : BitVec 32) : UserM Int :=
  if major = 1 then consoleread w dst n else if major = 2 then pure 0 else pure (-1)

def devWrite (major : BitVec 16) (src : BitVec 64) (n : BitVec 32) : UserM Int :=
  if major = 1 then consolewrite src n else if major = 2 then pure 0 else pure (-1)

/-! ## fs.c -/

/-- The loop of `readi`: `n` bytes from offset `off` on go to `dst`, in at most `fuel` pieces. -/
def readLoop (w : World) : Nat → Nat → Nat → BitVec 64 → UserM Unit
  | 0, _, _, _ => pure ()
  | fuel + 1, off, n, dst =>
    if n = 0 then
      pure ()
    else do
      await (w.block (off / bsize))
      let m := min n (bsize - off % bsize)
      touch dst m
      readLoop w fuel (off + m) (n - m) (dst + BitVec.ofNat 64 m)

def readi (w : World) (f : UserFile) (dst : BitVec 64) (off n : BitVec 32) : UserM Int :=
  if f.itype = tDev then
    devRead w f.major dst n
  else if f.size < off ∨ off + n < off then
    pure (-1)
  else do
    let n := if f.size < off + n then f.size - off else n
    readLoop w n.toNat off.toNat n.toNat dst
    pure n.toInt

def writeLoop (w : World) : Nat → Nat → Nat → BitVec 64 → UserM Unit
  | 0, _, _, _ => pure ()
  | fuel + 1, off, n, src =>
    if n = 0 then
      pure ()
    else do
      await (w.block (off / bsize))
      let m := min n (bsize - off % bsize)
      touch src m
      await (w.store (off / bsize))
      writeLoop w fuel (off + m) (n - m) (src + BitVec.ofNat 64 m)

def writei (w : World) (fd : Fin nofile) (f : UserFile) (src : BitVec 64) (off n : BitVec 32) :
    UserM Int :=
  if f.itype = tDev then
    devWrite f.major src n
  else if f.size < off ∨ off + n < off then
    pure (-1)
  else if BitVec.ofNat 32 (maxfile * bsize) < off + n then
    pure (-1)
  else do
    writeLoop w n.toNat off.toNat n.toNat src
    if 0 < n ∧ f.size < off + n then
      setFile fd { f with size := off + n }
    pure n.toInt

/-- The offsets and sizes of the fields of `struct stat`, in the order `stati` stores them:
    `dev`, `ino`, `type`, `nlink`, `size`, `ownerid`, `groupid`, `mode`. -/
def statFields : List (Nat × Nat) :=
  [(4, 4), (8, 4), (0, 2), (12, 2), (24, 4), (14, 2), (16, 2), (20, 4)]

def statSize : BitVec 32 := 28

/-- Store the given fields of the structure at `st`. -/
def storeFields (st : BitVec 64) : List (Nat × Nat) → UserM Unit
  | [] => pure ()
  | (off, size) :: fields => do
    touch (st + BitVec.ofNat 64 off) size
    storeFields st fields

def stati (st : BitVec 64) : UserM Unit := storeFields st statFields

/-! ## file.c -/

def fileread (w : World) (fd : Fin nofile) (f : UserFile) (addr : BitVec 64) (n : BitVec 32) :
    UserM Int :=
  if !f.readable then
    pure (-1)
  else
    match f.type with
    | .pipe => piperead w addr n
    | .inode => do
      await (w.enter 0)
      let r ← readi w f addr f.off n
      if 0 < r then
        setFile fd { f with off := f.off + BitVec.ofInt 32 r }
      pure r
    | .none => Exec.throw (.panic .fileread)

/-- The size of the pieces in which `filewrite` writes. -/
def maxWrite : Nat := ((logsize - 1 - 1 - 2) / 2) * 512

/-- The loop of `filewrite`, from byte `i` on, in at most `fuel` pieces; `k` counts them. -/
def filewriteLoop (w : World) (fd : Fin nofile) (addr : BitVec 64) (n : Nat) :
    Nat → Nat → Nat → UserM Nat
  | 0, _, i => pure i
  | fuel + 1, k, i =>
    if i < n then do
      let n1 := min (n - i) maxWrite
      await (w.enter k)
      match ← Exec.gets fun u => u.ofile fd with
      | none => pure i
      | some f => do
        let r ← writei w fd f (addr + BitVec.ofNat 64 i) f.off (BitVec.ofNat 32 n1)
        if 0 < r then
          match ← Exec.gets fun u => u.ofile fd with
          | none => pure ()
          | some f => setFile fd { f with off := f.off + BitVec.ofInt 32 r }
        if r < 0 then
          pure i
        else if r ≠ n1 then
          Exec.throw (.panic .shortFilewrite)
        else
          filewriteLoop w fd addr n fuel (k + 1) (i + n1)
    else
      pure i

def filewrite (w : World) (fd : Fin nofile) (f : UserFile) (addr : BitVec 64) (n : BitVec 32) :
    UserM Int :=
  if !f.writable then
    pure (-1)
  else
    match f.type with
    | .pipe => pipewrite w addr n
    | .inode => do
      let i ← filewriteLoop w fd addr n.toInt.toNat n.toInt.toNat 0 0
      if (i : Int) = n.toInt then pure n.toInt else pure (-1)
    | .none => Exec.throw (.panic .filewrite)

def filestat (w : World) (f : UserFile) (st : BitVec 64) : UserM Int :=
  match f.type with
  | .inode => do
    await (w.enter 0)
    stati st
    pure 0
  | _ => pure (-1)

/-! ## sysfile.c -/

def sysRead (w : World) : UserM Int := do
  let u ← Exec.get
  match u.argfd 0, u.argptr 1 (u.argint 2) with
  | some (fd, f), some p => fileread w fd f p (u.argint 2)
  | _, _ => pure (-1)

def sysWrite (w : World) : UserM Int := do
  let u ← Exec.get
  match u.argfd 0, u.argptr 1 (u.argint 2) with
  | some (fd, f), some p => filewrite w fd f p (u.argint 2)
  | _, _ => pure (-1)

def sysFstat (w : World) : UserM Int := do
  let u ← Exec.get
  match u.argfd 0, u.argptr 1 statSize with
  | some (_, f), some st => filestat w f st
  | _, _ => pure (-1)

/-- The first free descriptor takes `f`. -/
def fdalloc (f : UserFile) : UserM (Option (Fin nofile)) := do
  let u ← Exec.get
  match (List.finRange nofile).find? fun fd => (u.ofile fd).isNone with
  | none => pure none
  | some fd => do
    setFile fd f
    pure (some fd)

/-- The two files that `pipealloc` makes. -/
def pipeEnd (readable : Bool) : UserFile := ⟨.pipe, readable, !readable, 0, 0, 0, 0⟩

def sysPipe (w : World) : UserM Int := do
  let u ← Exec.get
  match u.argptr 0 (2 * 4) with
  | none => pure (-1)
  | some fd =>
    if !w.pipealloc then
      pure (-1)
    else
      match ← fdalloc (pipeEnd true) with
      | none => pure (-1)
      | some fd0 =>
        match ← fdalloc (pipeEnd false) with
        | none => do
          Exec.modify fun u => { u with ofile := update u.ofile fd0 none }
          pure (-1)
        | some _ => do
          touch fd 4
          touch (fd + 4) 4
          pure 0

end UserProc

/-- The system calls that pass a pointer on. -/
inductive UserCall where
  | read
  | write
  | fstat
  | pipe
  deriving DecidableEq

open UserProc in
def UserCall.exec (w : World) : UserCall → UserM Int
  | read => sysRead w
  | write => sysWrite w
  | fstat => sysFstat w
  | pipe => sysPipe w

/-- The user bytes that the kernel reads and writes during a call. -/
def UserCall.touches (w : World) (c : UserCall) (u : UserProc) : List (BitVec 64) :=
  ((c.exec w).run { u with touched := [] }).2.touched

end Xv6Memfs
