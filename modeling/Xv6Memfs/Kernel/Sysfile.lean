import Xv6Memfs.Kernel.Dir
import Xv6Memfs.Kernel.Proc

/-! # System calls on files

`kernel/sysfile.c` and `kernel/file.c`, with what `pipe.c`, `proc.c` and `exec.c` do to files,
directories and inode references.  A system call is a script: a program of calls of the inode
layer over the tables of open files, processes and pipes.  System calls run one at a time, so
that a process that is runnable, running or asleep is just alive.

What a system call gets from elsewhere is an argument: strings and pointers that `argstr` and
`argptr` could not fetch (`none`), whether `fork` and `exec` find memory, what `pipewrite`
returns.  Free pages are a list, from which the rest of the kernel takes pages and to which it
gives them back in steps of its own. -/

namespace Xv6Memfs

open Lib

/-! ## Tables -/

/-- The type of an open file, with the pointer that goes with it. -/
inductive FileType where
  | none
  | pipe (p : Nat)
  | inode (ip : Fin ninode)
  deriving DecidableEq

@[ext] structure File where
  type : FileType
  ref : Nat
  readable : Bool
  writable : Bool
  off : Nat
  deriving DecidableEq

inductive TaskState where
  | unused
  | alive
  | zombie
  deriving DecidableEq

/-- The fields of `struct proc` that matter to files. -/
@[ext] structure Task where
  state : TaskState
  parent : Option (Fin nproc)
  ofile : Fin nofile → Option (Fin nfile)
  cwd : Option (Fin ninode)
  deriving DecidableEq

/-- The fields of `struct pipe` that say which ends are open. -/
structure PipeEnds where
  readopen : Bool
  writeopen : Bool
  deriving DecidableEq

/-- The ends that are open once the write end, or else the read end, has been closed. -/
def PipeEnds.close (v : PipeEnds) (writable : Bool) : PipeEnds :=
  if writable then { v with writeopen := false } else { v with readopen := false }

structure Tables where
  file : Fin nfile → File
  task : Fin nproc → Task
  /-- the `struct pipe` in a page -/
  pipe : Nat → PipeEnds
  freelist : List Nat
  /-- the pages that the rest of the kernel has got from `kalloc` -/
  others : List Nat
  /-- history: how often `pipealloc` has made a pipe in a page -/
  made : Nat → Nat
  /-- history: how often `pipeclose` has freed a page -/
  freed : Nat → Nat

namespace Tables

def setFile (t : Tables) (f : Fin nfile) (v : File) : Tables :=
  { t with file := Function.update t.file f v }

def setTask (t : Tables) (p : Fin nproc) (v : Task) : Tables :=
  { t with task := Function.update t.task p v }

def setPipe (t : Tables) (a : Nat) (v : PipeEnds) : Tables :=
  { t with pipe := Function.update t.pipe a v }

def setOfile (t : Tables) (p : Fin nproc) (fd : Fin nofile) (f : Option (Fin nfile)) : Tables :=
  t.setTask p { t.task p with ofile := Function.update (t.task p).ofile fd f }

/-- The open file that the descriptor `fd` of process `p` stands for. -/
def argfd (t : Tables) (p : Fin nproc) (fd : Int) : Option (Fin nofile × Fin nfile) :=
  if h : 0 ≤ fd ∧ fd.toNat < nofile then
    ((t.task p).ofile ⟨fd.toNat, h.2⟩).map fun f => (⟨fd.toNat, h.2⟩, f)
  else
    .none

/-- The assignments of `pipealloc` to a pipe in page `a` and the files for its ends. -/
def openPipe (t : Tables) (a : Nat) (f0 f1 : Fin nfile) : Tables :=
  let t := { t.setPipe a ⟨true, true⟩ with made := Function.update t.made a (t.made a + 1) }
  let t := t.setFile f0 { t.file f0 with type := .pipe a, readable := true, writable := false }
  t.setFile f1 { t.file f1 with type := .pipe a, readable := false, writable := true }

end Tables

/-- A system call at work. -/
abbrev SysM : Type → Type := Script Tables Stop Call Call.Res

namespace SysM

open Script FsProg

def panic {α : Type} (p : Panic) : SysM α := Script.stop (.panic p)

/-! ## file.c and pipe.c -/

def filealloc : SysM (Option (Fin nfile)) := do
  let t ← get
  match (List.finRange nfile).find? fun f => (t.file f).ref = 0 with
  | none => pure none
  | some f => do
    modify (·.setFile f { t.file f with ref := 1 })
    pure (some f)

def filedup (f : Fin nfile) : SysM Unit := do
  let t ← get
  if (t.file f).ref < 1 then
    panic .filedup
  else
    modify (·.setFile f { t.file f with ref := (t.file f).ref + 1 })

def kalloc : SysM (Option Nat) := do
  let t ← get
  match t.freelist with
  | [] => pure none
  | a :: l => do
    modify fun t => { t with freelist := l }
    pure (some a)

def pipeclose (a : Nat) (writable : Bool) : SysM Unit := do
  modify fun t => t.setPipe a ((t.pipe a).close writable)
  let t ← get
  if (t.pipe a).readopen = false ∧ (t.pipe a).writeopen = false then
    modify fun t =>
      { t with
        freelist := a :: t.freelist
        freed := Function.update t.freed a (t.freed a + 1) }
  else
    pure ()

/-- Close file `f`: decrement the ref count, close when it reaches 0. -/
def fileclose (f : Fin nfile) : SysM Unit := do
  let t ← get
  let ff := t.file f
  if ff.ref < 1 then
    panic .fileclose
  else if ff.ref - 1 > 0 then
    modify (·.setFile f { ff with ref := ff.ref - 1 })
  else do
    modify (·.setFile f { ff with ref := 0, type := .none })
    match ff.type with
    | .pipe a => pipeclose a ff.writable
    | .inode ip => lift do
      beginOp
      iput ip
      endOp
    | .none => pure ()

/-- `fileclose(f)` where `f` may be null. -/
def filecloseOpt : Option (Fin nfile) → SysM Unit
  | none => pure ()
  | some f => fileclose f

def pipealloc : SysM (Option (Fin nfile × Fin nfile)) := do
  match ← filealloc with
  | none => pure none
  | some f0 => do
    match ← filealloc with
    | none => do
      fileclose f0
      pure none
    | some f1 => do
      match ← kalloc with
      | none => do
        fileclose f0
        fileclose f1
        pure none
      | some a => do
        modify (·.openPipe a f0 f1)
        pure (some (f0, f1))

/-! ## sysfile.c -/

def fdalloc (p : Fin nproc) (f : Fin nfile) : SysM (Option (Fin nofile)) := do
  let t ← get
  match (List.finRange nofile).find? fun fd => (t.task p).ofile fd = none with
  | none => pure none
  | some fd => do
    modify (·.setOfile p fd (some f))
    pure (some fd)

def sysDup (p : Fin nproc) (fd : Int) : SysM Int := do
  let t ← get
  match t.argfd p fd with
  | none => pure (-1)
  | some (_, f) => do
    match ← fdalloc p f with
    | none => pure (-1)
    | some fd => do
      filedup f
      pure fd

def sysClose (p : Fin nproc) (fd : Int) : SysM Int := do
  let t ← get
  match t.argfd p fd with
  | none => pure (-1)
  | some (fd, f) => do
    modify (·.setOfile p fd none)
    fileclose f
    pure 0

end SysM

namespace FsProg

def linkBad (ip : Fin ninode) : FsProg Int := do
  ilock ip
  let i ← info ip
  update ip { i.attrs with nlink := i.attrs.nlink - 1 }
  iunlockput ip
  endOp
  pure (-1)

/-- `dp->dev == ip->dev && dirlink(dp, name, ip->inum) == 0`. -/
def linkEntry (dp : Fin ninode) (name : Str) (ip : Fin ninode) : FsProg Bool := do
  let d ← info dp
  let i ← info ip
  if d.dev ≠ i.dev then pure false else dirlink dp name i.inum

/-- `sys_link` from `nameiparent` on. -/
def linkNew (cwd : Fin ninode) (new : Str) (ip : Fin ninode) : FsProg Int := do
  match ← nameiparent cwd new with
  | none => linkBad ip
  | some (dp, name) => do
    ilock dp
    let linked ← linkEntry dp name ip
    iunlockput dp
    if linked then
      iput ip
      endOp
      pure 0
    else
      linkBad ip

def sysLink (cwd : Fin ninode) (old new : Str) : FsProg Int := do
  beginOp
  match ← namei cwd old with
  | none => do
    endOp
    pure (-1)
  | some ip => do
    ilock ip
    let i ← info ip
    if i.type = tDir then
      iunlockput ip
      endOp
      pure (-1)
    else
      update ip { i.attrs with nlink := i.attrs.nlink + 1 }
      iunlock ip
      linkNew cwd new ip

def unlinkBad (dp : Fin ninode) : FsProg Int := do
  iunlockput dp
  endOp
  pure (-1)

/-- `!(ip->type == T_DIR && !isdirempty(ip))`. -/
def removable (ip : Fin ninode) (type : BitVec 16) : FsProg Bool :=
  if type = tDir then isdirempty ip else pure true

/-- Overwrite the entry at `off` by zeros. -/
def eraseEntry (dp : Fin ninode) (off : Nat) : FsProg Unit := do
  match ← writei dp zeroDirent off with
  | some n => if n = direntSize then pure () else panic .unlinkWritei
  | none => panic .unlinkWritei

/-- `if(type == T_DIR){ dp->nlink--; iupdate(dp); }`. -/
def dropDotdot (dp : Fin ninode) (type : BitVec 16) : FsProg Unit :=
  if type = tDir then do
    let d ← info dp
    update dp { d.attrs with nlink := d.attrs.nlink - 1 }
  else
    pure ()

/-- `sys_unlink` once the entry has been found. -/
def unlinkFound (dp ip : Fin ninode) (off : Nat) : FsProg Int := do
  ilock ip
  let i ← info ip
  if i.attrs.nlink.toInt < 1 then
    panic .unlinkNlink
  else
    let empty ← removable ip i.type
    if !empty then
      iunlockput ip
      unlinkBad dp
    else
      eraseEntry dp off
      dropDotdot dp i.type
      iunlockput dp
      update ip { i.attrs with nlink := i.attrs.nlink - 1 }
      iunlockput ip
      endOp
      pure 0

def sysUnlink (cwd : Fin ninode) (path : Str) : FsProg Int := do
  beginOp
  match ← nameiparent cwd path with
  | none => do
    endOp
    pure (-1)
  | some (dp, name) => do
    ilock dp
    -- Cannot unlink "." or "..".
    if namecmp name [dot] = 0 ∨ namecmp name [dot, dot] = 0 then
      unlinkBad dp
    else
      match ← dirlookup dp name with
      | none => unlinkBad dp
      | some (ip, off) => unlinkFound dp ip off

/-- `dirlink` with the panic of the caller. -/
def mustLink (dp : Fin ninode) (name : Str) (inum : Nat) (p : Panic) : FsProg Unit := do
  let linked ← dirlink dp name inum
  if linked then pure () else panic p

/-- The entries "." and ".." of a new directory `ip` in `dp`. -/
def makeDots (dp ip : Fin ninode) (inum : Nat) (type : BitVec 16) : FsProg Unit :=
  if type = tDir then do
    let d ← info dp
    -- for ".."
    update dp { d.attrs with nlink := d.attrs.nlink + 1 }
    mustLink ip [dot] inum .createDots
    mustLink ip [dot, dot] d.inum .createDots
  else
    pure ()

/-- `create` when the name is in use. -/
def createFound (dp ip : Fin ninode) (type : BitVec 16) : FsProg (Option (Fin ninode)) := do
  iunlockput dp
  ilock ip
  let i ← info ip
  if type = tFile ∧ i.type = tFile then
    pure (some ip)
  else
    iunlockput ip
    pure none

/-- `create` when the name is free. -/
def createNew (dp : Fin ninode) (name : Str) (type major minor : BitVec 16) :
    FsProg (Fin ninode) := do
  let d ← info dp
  let ip ← ialloc d.dev type
  ilock ip
  let i ← info ip
  update ip { i.attrs with major := major, minor := minor, nlink := 1 }
  makeDots dp ip i.inum type
  mustLink dp name i.inum .createDirlink
  iunlockput dp
  pure ip

/-- The inode of a path, made if there is none, locked. -/
def create (cwd : Fin ninode) (path : Str) (type major minor : BitVec 16) :
    FsProg (Option (Fin ninode)) := do
  match ← nameiparent cwd path with
  | none => pure none
  | some (dp, name) => do
    ilock dp
    match ← dirlookup dp name with
    | some (ip, _) => createFound dp ip type
    | none => do
      let ip ← createNew dp name type major minor
      pure (some ip)

/-- `sys_mkdir` and `sys_mknod` once the arguments are fetched. -/
def makeNode (cwd : Fin ninode) (path : Option Str) (type major minor : BitVec 16) :
    FsProg Int := do
  beginOp
  match path with
  | none => do
    endOp
    pure (-1)
  | some path =>
    match ← create cwd path type major minor with
    | none => do
      endOp
      pure (-1)
    | some ip => do
      iunlockput ip
      endOp
      pure 0

def sysMkdir (cwd : Fin ninode) (path : Option Str) : FsProg Int := makeNode cwd path tDir 0 0

def sysMknod (cwd : Fin ninode) (path : Option Str) (major minor : BitVec 32) : FsProg Int :=
  makeNode cwd path tDev (major.setWidth 16) (minor.setWidth 16)

def sysChmod (cwd : Fin ninode) (path : Str) (mode : BitVec 32) : FsProg Int := do
  beginOp
  match ← namei cwd path with
  | none => do
    endOp
    pure (-1)
  | some ip => do
    ilock ip
    let i ← info ip
    update ip { i.attrs with mode := mode }
    iunlockput ip
    endOp
    pure 0

end FsProg

/-! ## Opening a file -/

def oWronly : BitVec 32 := 0x001
def oRdwr : BitVec 32 := 0x002
def oCreate : BitVec 32 := 0x200

namespace FsProg

/-- The part of `sys_open` before the file structure is allocated: the inode, locked. -/
def openInode (cwd : Fin ninode) (path : Str) (omode : BitVec 32) :
    FsProg (Option (Fin ninode)) := do
  beginOp
  if omode &&& oCreate ≠ 0 then
    match ← create cwd path tFile 0 0 with
    | none => do
      endOp
      pure none
    | some ip => pure (some ip)
  else
    match ← namei cwd path with
    | none => do
      endOp
      pure none
    | some ip => do
      ilock ip
      let i ← info ip
      if i.type = tDir ∧ omode ≠ 0 then
        iunlockput ip
        endOp
        pure none
      else
        pure (some ip)

end FsProg

namespace SysM

open Script FsProg

def sysOpen (p : Fin nproc) (cwd : Fin ninode) (path : Str) (omode : BitVec 32) : SysM Int := do
  match ← lift (openInode cwd path omode) with
  | none => pure (-1)
  | some ip => do
    match ← filealloc with
    | none => fail ip none
    | some f => do
      match ← fdalloc p f with
      | none => fail ip (some f)
      | some fd => do
        lift do
          iunlock ip
          endOp
        modify fun t =>
          t.setFile f
            { t.file f with
              type := .inode ip
              off := 0
              readable := omode &&& oWronly = 0
              writable := omode &&& oWronly ≠ 0 ∨ omode &&& oRdwr ≠ 0 }
        pure fd
where
  fail (ip : Fin ninode) (f : Option (Fin nfile)) : SysM Int := do
    filecloseOpt f
    lift do
      iunlockput ip
      endOp
    pure (-1)

def sysChdir (p : Fin nproc) (cwd : Fin ninode) (path : Option Str) : SysM Int := do
  lift beginOp
  match path with
  | none => do
    lift endOp
    pure (-1)
  | some path =>
    match ← lift (namei cwd path) with
    | none => do
      lift endOp
      pure (-1)
    | some ip => do
      lift (ilock ip)
      let i ← lift (info ip)
      if i.type ≠ tDir then
        lift do
          iunlockput ip
          endOp
        pure (-1)
      else
        lift do
          iunlock ip
          iput cwd
          endOp
        modify fun t => t.setTask p { t.task p with cwd := some ip }
        pure 0

/-- `sys_pipe`; `fetched` says whether `argptr` has found room for the two descriptors. -/
def sysPipe (p : Fin nproc) (fetched : Bool) : SysM Int := do
  if !fetched then
    pure (-1)
  else
    match ← pipealloc with
    | none => pure (-1)
    | some (rf, wf) => do
      match ← fdalloc p rf with
      | none => do
        fileclose rf
        fileclose wf
        pure (-1)
      | some fd0 => do
        match ← fdalloc p wf with
        | none => do
          modify (·.setOfile p fd0 none)
          fileclose rf
          fileclose wf
          pure (-1)
        | some _ => pure 0

/-! ## Writing -/

/-- The bytes that `filewrite` hands to `writei` at once. -/
def writeMax : Nat := (logsize - 1 - 1 - 2) / 2 * 512

/-- The loop of `filewrite`, from the bytes `src` on: whether all of them are written. -/
def filewriteLoop (f : Fin nfile) (ip : Fin ninode) : Nat → List Byte → SysM Bool
  | 0, _ => pure true
  | fuel + 1, src =>
    if src = [] then
      pure true
    else do
      let n1 := min src.length writeMax
      let t ← get
      lift beginOp
      lift (ilock ip)
      let r ← lift (writei ip (src.take n1) (t.file f).off)
      modify fun t =>
        t.setFile f { t.file f with off := ((t.file f).off + r.getD 0) % 2 ^ 32 }
      lift (iunlock ip)
      lift endOp
      match r with
      | none => pure false
      | some n =>
        if n ≠ n1 then panic .shortFilewrite else filewriteLoop f ip fuel (src.drop n1)

/-- `sys_write`; `piped` is what `pipewrite` returns. -/
def sysWrite (p : Fin nproc) (fd : Int) (src : Option (List Byte)) (piped : Int) : SysM Int := do
  let t ← get
  match t.argfd p fd, src with
  | some (_, f), some src =>
    if (t.file f).writable = false then
      pure (-1)
    else
      match (t.file f).type with
      | .pipe _ => pure piped
      | .inode ip => do
        if ← filewriteLoop f ip src.length src then pure src.length else pure (-1)
      | .none => panic .filewrite
  | _, _ => pure (-1)

/-! ## Processes -/

/-- `if(proc->ofile[fd]) np->ofile[fd] = filedup(proc->ofile[fd]);`. -/
def dupFile (p np : Fin nproc) (fd : Fin nofile) : SysM Unit := do
  let t ← get
  match (t.task p).ofile fd with
  | none => pure ()
  | some f => do
    filedup f
    modify (·.setOfile np fd (some f))

/-- Copy the open files of `p` to `np`. -/
def dupFiles (p np : Fin nproc) : List (Fin nofile) → SysM Unit
  | [] => pure ()
  | fd :: fds => do
    dupFile p np fd
    dupFiles p np fds

/-- `fork`; `memory` says whether `allocproc` and `copyuvm` find enough. -/
def fork (p : Fin nproc) (cwd : Fin ninode) (memory : Bool) : SysM Int := do
  let t ← get
  match (List.finRange nproc).find? fun q => (t.task q).state = .unused with
  | none => pure (-1)
  | some np =>
    if !memory then
      pure (-1)
    else do
      modify fun t => t.setTask np { t.task np with parent := some p }
      dupFiles p np (List.finRange nofile)
      let ip ← lift (idup cwd)
      modify fun t => t.setTask np { t.task np with cwd := some ip, state := .alive }
      pure np

/-- `if(proc->ofile[fd]){ fileclose(proc->ofile[fd]); proc->ofile[fd] = 0; }`. -/
def closeFile (p : Fin nproc) (fd : Fin nofile) : SysM Unit := do
  let t ← get
  match (t.task p).ofile fd with
  | none => pure ()
  | some f => do
    fileclose f
    modify (·.setOfile p fd none)

/-- Close the descriptors of `p`. -/
def closeFiles (p : Fin nproc) : List (Fin nofile) → SysM Unit
  | [] => pure ()
  | fd :: fds => do
    closeFile p fd
    closeFiles p fds

/-- The end of `exit`: `p` has no current directory any more and is a zombie, its children are
    passed to `initproc`. -/
def bury (t : Tables) (p : Fin nproc) : Tables :=
  { t with
    task := fun q =>
      let v := if q = p then { t.task p with cwd := none, state := .zombie } else t.task q
      if v.parent = some p then { v with parent := some ProcTable.initproc } else v }

def exit (p : Fin nproc) (cwd : Fin ninode) : SysM Unit := do
  if p = ProcTable.initproc then
    panic .initExiting
  else
    closeFiles p (List.finRange nofile)
    lift do
      beginOp
      iput cwd
      endOp
    modify (bury · p)

/-- `wait` as far as it gets without sleeping. -/
def wait (p : Fin nproc) (killed : Bool) : SysM Int := do
  let t ← get
  match (List.finRange nproc).find? fun q =>
      (t.task q).parent = some p ∧ (t.task q).state = .zombie with
  | some q => do
    modify fun t => t.setTask q { t.task q with state := .unused, parent := none }
    pure q
  | none =>
    if (∀ q, (t.task q).parent ≠ some p) ∨ killed then pure (-1) else Script.stop .sleep

end SysM

/-! ## exec -/

/-- What the memory functions say to `exec`. -/
structure ExecMem where
  setupkvm : Bool
  /-- whether `allocuvm` succeeds for a program header -/
  allocuvm : Nat → Bool
  /-- whether `walkpgdir` finds a page of a segment -/
  walkpgdir : Nat → Nat → Bool
  /-- whether stack and arguments can be set up -/
  stack : Bool
  /-- the bytes of `elf` before the header is read -/
  elf : List Byte

/-- The number in `n` little-endian bytes at `off`. -/
def leNat (bs : List Byte) (off n : Nat) : Nat :=
  ((bs.drop off).take n).foldr (fun b v => b.toNat + 256 * v) 0

def elfMagic : Nat := 0x464C457F
def elfhdrSize : Nat := 64
def proghdrSize : Nat := 56

namespace FsProg

/-- The loop of `loaduvm` for program header `k`, from byte `i` of the segment on. -/
def loaduvmLoop (m : ExecMem) (ip : Fin ninode) (k offset sz : Nat) : Nat → Nat → FsProg Bool
  | 0, _ => pure true
  | fuel + 1, i =>
    if i < sz then
      if m.walkpgdir k i then do
        let n := min (sz - i) 4096
        let r ← readi ip ((offset + i) % 2 ^ 32) n
        if r.map List.length = some n then
          loaduvmLoop m ip k offset sz fuel (i + 4096)
        else
          pure false
      else
        panic .loaduvmExist
    else
      pure true

/-- The loop of `exec` over the program headers from number `k` on. -/
def loadLoop (m : ExecMem) (ip : Fin ninode) (phoff : Nat) : Nat → Nat → FsProg Bool
  | 0, _ => pure true
  | fuel + 1, k => do
    match ← readi ip ((phoff + k * proghdrSize) % 2 ^ 32) proghdrSize with
    | none => pure false
    | some ph =>
      let vaddr := leNat ph 16 8
      let filesz := leNat ph 32 8
      let memsz := leNat ph 40 8
      if ph.length ≠ proghdrSize then
        pure false
      else if leNat ph 0 4 ≠ 1 then
        loadLoop m ip phoff fuel (k + 1)
      else if memsz < filesz then
        pure false
      else if !m.allocuvm k then
        pure false
      else if vaddr % 4096 ≠ 0 then
        panic .loaduvmAlign
      else
        let sz := filesz % 2 ^ 32
        if ← loaduvmLoop m ip k (leNat ph 8 8 % 2 ^ 32) sz (sz / 4096 + 1) 0 then
          loadLoop m ip phoff fuel (k + 1)
        else
          pure false

/-- The part of `exec` that reads the file: whether the program is loaded. -/
def loadProgram (m : ExecMem) (ip : Fin ninode) : FsProg Bool := do
  let r ← readi ip 0 elfhdrSize
  -- -1 is not less than `sizeof(elf)`, which is unsigned
  let elf := r.getD m.elf
  if r ≠ none ∧ elf.length < elfhdrSize then
    pure false
  else if leNat elf 0 4 ≠ elfMagic then
    pure false
  else if !m.setupkvm then
    pure false
  else
    loadLoop m ip (leNat elf 32 8) (leNat elf 56 2) 0

/-- What `exec` does to inodes. -/
def exec (cwd : Fin ninode) (path : Str) (m : ExecMem) : FsProg Int := do
  beginOp
  match ← namei cwd path with
  | none => do
    endOp
    pure (-1)
  | some ip => do
    ilock ip
    let loaded ← loadProgram m ip
    iunlockput ip
    endOp
    pure (if loaded ∧ m.stack then 0 else -1)

end FsProg

/-! ## The system -/

/-- A path: a string without NUL. -/
abbrev Path : Type := { s : Str // 0 ∉ s }

/-- A system call with its arguments. -/
inductive Syscall where
  | open (path : Option Path) (omode : BitVec 32)
  | close (fd : Int)
  | dup (fd : Int)
  | write (fd : Int) (src : Option (List Byte)) (piped : Int)
  | link (old new : Option Path)
  | unlink (path : Option Path)
  | mkdir (path : Option Path)
  | mknod (path : Option Path) (major minor : BitVec 32)
  | chdir (path : Option Path)
  | chmod (path : Option Path) (mode : BitVec 32)
  | exec (path : Option Path) (m : ExecMem)
  | pipe (fetched : Bool)
  | fork (memory : Bool)
  | exit
  | wait (killed : Bool)

namespace Syscall

open Script

def str (path : Option Path) : Option Str := path.map Subtype.val

def withPath (path : Option Path) (k : Str → SysM Int) : SysM Int :=
  match str path with
  | none => pure (-1)
  | some s => k s

/-- The system call as process `p` with current directory `cwd` makes it. -/
def script (p : Fin nproc) (cwd : Fin ninode) : Syscall → SysM Int
  | .open path omode => withPath path fun s => SysM.sysOpen p cwd s omode
  | .close fd => SysM.sysClose p fd
  | .dup fd => SysM.sysDup p fd
  | .write fd src piped => SysM.sysWrite p fd src piped
  | .link old new =>
    withPath old fun o => withPath new fun n => lift (FsProg.sysLink cwd o n)
  | .unlink path => withPath path fun s => lift (FsProg.sysUnlink cwd s)
  | .mkdir path => lift (FsProg.sysMkdir cwd (str path))
  | .mknod path major minor => lift (FsProg.sysMknod cwd (str path) major minor)
  | .chdir path => SysM.sysChdir p cwd (str path)
  | .chmod path mode => withPath path fun s => lift (FsProg.sysChmod cwd s mode)
  | .exec path m => withPath path fun s => lift (FsProg.exec cwd s m)
  | .pipe fetched => SysM.sysPipe p fetched
  | .fork memory => SysM.fork p cwd memory
  | .exit => do
    SysM.exit p cwd
    pure 0
  | .wait killed => SysM.wait p killed

end Syscall

structure Sys where
  fs : Fs
  tab : Tables

/-- What can happen between two system calls, and system calls. -/
inductive SysAct where
  | call (p : Fin nproc) (c : Syscall)
  /-- the rest of the kernel takes a page -/
  | kalloc
  /-- the rest of the kernel gives a page back -/
  | kfree (a : Nat)

namespace Sys

/-- Run a system call: what it returns, or how it stops. -/
def run (s : Sys) (p : Fin nproc) (cwd : Fin ninode) (c : Syscall) : Except Stop Int × Sys :=
  match Exec.run ((c.script p cwd s.tab).exec id Call.exec) s.fs with
  | (.ok (r, t), fs) => (.ok r, ⟨fs, t⟩)
  | (.error e, fs) => (.error e, ⟨fs, s.tab⟩)

/-- The state after an action, or `none` when the action cannot happen or does not return. -/
def step (s : Sys) : SysAct → Option Sys
  | .call p c =>
    match (s.tab.task p).state, (s.tab.task p).cwd with
    | .alive, some cwd =>
      match s.run p cwd c with
      | (.ok _, t) => some t
      | (.error _, _) => none
    | _, _ => none
  | .kalloc =>
    match s.tab.freelist with
    | [] => none
    | a :: l => some { s with tab := { s.tab with freelist := l, others := a :: s.tab.others } }
  | .kfree a =>
    if a ∈ s.tab.others then
      some { s with
        tab := { s.tab with freelist := a :: s.tab.freelist, others := s.tab.others.erase a } }
    else
      none

end Sys

end Xv6Memfs
