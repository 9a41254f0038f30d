import Xv6Memfs.Kernel.Sysfile

/-! # Processes that write through one open file

`filewrite` of `kernel/file.c` on an open file that several processes share, step by step: the
calls of the inode layer and the assignment to `f->off` are single steps, and the steps of
different processes interleave in any order.  A call of the inode layer that would sleep or
panic is a step that the process cannot take. -/

namespace Xv6Memfs

open Lib Lib.Exec Function

/-- What a turn of the loop of `filewrite` does next; `r` is what `writei` has returned. -/
inductive WriteStage where
  | beginOp
  | ilock
  | writei
  | advance (r : Option Nat)
  | iunlock (r : Option Nat)
  | endOp (r : Option Nat)
  deriving DecidableEq

/-- A call of `filewrite` that has written `i` bytes of `buf`. -/
structure WriteCall where
  buf : List Byte
  i : Nat
  stage : WriteStage
  deriving DecidableEq

namespace WriteCall

def chunk (c : WriteCall) : List Byte := (c.buf.drop c.i).take SysM.writeMax

/-- The head of the loop: another turn, or `filewrite` returns `n`. -/
def turn (buf : List Byte) (i : Nat) : Option WriteCall :=
  if i < buf.length then some ⟨buf, i, .beginOp⟩ else none

end WriteCall

/-- The file system, the shared `struct file` and the processes `P`. -/
structure SharedFile (P : Type) where
  fs : Fs
  off : Nat
  call : P → Option WriteCall
  /-- the buffers that a process is yet to write -/
  todo : P → List (List Byte)
  /-- some call has returned -1 -/
  failed : Bool

namespace SharedFile

variable {P : Type} [DecidableEq P]

/-- What a call of the inode layer returns, if it returns. -/
def ask (s : SharedFile P) (c : Call) : Option (c.Res × Fs) :=
  match run c.exec s.fs with
  | (.ok r, t) => some (r, t)
  | (.error _, _) => none

/-- Process `p` goes on with `c`, with the file system in state `t`. -/
def goto (s : SharedFile P) (p : P) (t : Fs) (c : Option WriteCall) : SharedFile P :=
  { s with fs := t, call := update s.call p c }

/-- A step of process `p` in a call; `ip` is `f->ip`. -/
def proceed (ip : Fin ninode) (s : SharedFile P) (p : P) (c : WriteCall) : Option (SharedFile P) :=
  match c.stage with
  | .beginOp => do
    let (_, t) ← s.ask .beginOp
    pure (s.goto p t (some { c with stage := .ilock }))
  | .ilock => do
    let (_, t) ← s.ask (.ilock ip)
    pure (s.goto p t (some { c with stage := .writei }))
  | .writei => do
    let (r, t) ← s.ask (.writei ip c.chunk s.off)
    pure (s.goto p t (some { c with stage := .advance r }))
  | .advance r =>
    some { s.goto p s.fs (some { c with stage := .iunlock r }) with
      off := (s.off + r.getD 0) % 2 ^ 32 }
  | .iunlock r => do
    let (_, t) ← s.ask (.iunlock ip)
    pure (s.goto p t (some { c with stage := .endOp r }))
  | .endOp r => do
    let (_, t) ← s.ask .endOp
    match r with
    | none => pure { s.goto p t none with failed := true }
    | some n =>
      -- panic("short filewrite")
      if n ≠ c.chunk.length then none else pure (s.goto p t (WriteCall.turn c.buf (c.i + n)))

/-- What can happen: a process takes a step, or somebody else calls the inode layer. -/
inductive Act (P : Type) where
  | step (p : P)
  | other (c : Call)

def step (ip : Fin ninode) (s : SharedFile P) : Act P → Option (SharedFile P)
  | .step p =>
    match s.call p, s.todo p with
    | some c, _ => proceed ip s p c
    | none, [] => none
    | none, buf :: rest =>
      some { s with
        call := update s.call p (WriteCall.turn buf 0)
        todo := update s.todo p rest }
  | .other c => do
    let (_, t) ← s.ask c
    pure { s with fs := t }

end SharedFile

end Xv6Memfs
