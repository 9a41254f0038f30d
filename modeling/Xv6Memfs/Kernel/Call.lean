import Xv6Memfs.Kernel.Fs

/-! # Calls of the inode layer

Directories, files and system calls work on inodes only through the calls below.  A call is
a value, so that sequences of calls can be quantified over and system calls can be programs
of calls. -/

namespace Xv6Memfs

open Lib Lib.Exec

/-- The fields of an in-memory inode that system calls assign. -/
@[ext] structure Attrs where
  major : BitVec 16
  minor : BitVec 16
  nlink : BitVec 16
  mode : BitVec 32
  deriving DecidableEq

/-- The fields of an in-memory inode that system calls read. -/
@[ext] structure Info where
  dev : Nat
  inum : Nat
  type : BitVec 16
  attrs : Attrs
  size : Nat
  deriving DecidableEq

namespace Dinode

def attrs (d : Dinode) : Attrs := ⟨d.major, d.minor, d.nlink, d.mode⟩

def setAttrs (d : Dinode) (a : Attrs) : Dinode :=
  { d with major := a.major, minor := a.minor, nlink := a.nlink, mode := a.mode }

end Dinode

def Inode.info (i : Inode) : Info := ⟨i.dev, i.inum, i.node.type, i.node.attrs, i.node.size.toNat⟩

/-- Assignments to fields of `ip`, followed by `iupdate(ip)`. -/
def Fs.update (ip : Fin ninode) (a : Attrs) : FsM Unit := do
  setNode ip fun d => d.setAttrs a
  iupdate ip

/-- A call of the inode layer. -/
inductive Call where
  | beginOp
  | endOp
  | iget (dev inum : Nat)
  | idup (ip : Fin ninode)
  | ilock (ip : Fin ninode)
  | iunlock (ip : Fin ninode)
  | iput (ip : Fin ninode)
  | ialloc (dev : Nat) (type : BitVec 16)
  | info (ip : Fin ninode)
  | update (ip : Fin ninode) (a : Attrs)
  | readi (ip : Fin ninode) (off n : Nat)
  | writei (ip : Fin ninode) (src : List Byte) (off : Nat)

namespace Call

abbrev Res : Call → Type
  | beginOp | endOp | ilock _ | iunlock _ | iput _ | update _ _ => Unit
  | iget _ _ | idup _ | ialloc _ _ => Fin ninode
  | info _ => Info
  | readi _ _ _ => Option (List Byte)
  | writei _ _ _ => Option Nat

def exec : (c : Call) → FsM c.Res
  | beginOp => Fs.beginOp
  | endOp => Fs.endOp
  | iget dev inum => Fs.iget dev inum
  | idup ip => Fs.idup ip
  | ilock ip => Fs.ilock ip
  | iunlock ip => Fs.iunlock ip
  | iput ip => Fs.iput ip
  | ialloc dev type => Fs.ialloc dev type
  | info ip => gets fun s => (s.icache ip).info
  | update ip a => Fs.update ip a
  | readi ip off n => Fs.readi ip off n
  | writei ip src off => Fs.writei ip src off

end Call

/-- The file system after a call that returns. -/
def callStep (s : Fs) (c : Call) : Option Fs :=
  match run c.exec s with
  | (.ok _, t) => some t
  | (.error _, _) => none

end Xv6Memfs
