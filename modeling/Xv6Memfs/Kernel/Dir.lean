import Xv6Memfs.Lib.Prog
import Xv6Memfs.Kernel.Call

/-! # Directories and paths

The directory layer of `kernel/fs.c` (`namecmp` to `nameiparent`), written as programs of the
calls of the inode layer.

A C string is the list of its bytes; what lies behind the end of the list is the terminating
NUL.  A `name[DIRSIZ]` is such a list of at most `dirsiz` bytes, so that a name of exactly
`dirsiz` bytes has no terminator. -/

namespace Xv6Memfs

open Lib Lib.Prog

/-- A program of calls of the inode layer. -/
abbrev FsProg : Type → Type := Prog Stop Call Call.Res

namespace FsProg

def panic {α : Type} (p : Panic) : FsProg α := .stop (.panic p)

def beginOp : FsProg Unit := ask Call.beginOp
def endOp : FsProg Unit := ask Call.endOp
def iget (dev inum : Nat) : FsProg (Fin ninode) := ask (Call.iget dev inum)
def idup (ip : Fin ninode) : FsProg (Fin ninode) := ask (Call.idup ip)
def ilock (ip : Fin ninode) : FsProg Unit := ask (Call.ilock ip)
def iunlock (ip : Fin ninode) : FsProg Unit := ask (Call.iunlock ip)
def iput (ip : Fin ninode) : FsProg Unit := ask (Call.iput ip)
def ialloc (dev : Nat) (type : BitVec 16) : FsProg (Fin ninode) := ask (Call.ialloc dev type)
def info (ip : Fin ninode) : FsProg Info := ask (Call.info ip)
def update (ip : Fin ninode) (a : Attrs) : FsProg Unit := ask (Call.update ip a)
def readi (ip : Fin ninode) (off n : Nat) : FsProg (Option (List Byte)) := ask (Call.readi ip off n)

def writei (ip : Fin ninode) (src : List Byte) (off : Nat) : FsProg (Option Nat) :=
  ask (Call.writei ip src off)

/-- Common idiom: unlock, then put. -/
def iunlockput (ip : Fin ninode) : FsProg Unit := do
  iunlock ip
  iput ip

end FsProg

/-! ## string.c -/

abbrev Str : Type := List Byte

def strncmp : Str → Str → Nat → Int
  | _, _, 0 => 0
  | p, q, n + 1 =>
    if p.headD 0 ≠ 0 ∧ p.headD 0 = q.headD 0 then
      strncmp p.tail q.tail n
    else
      (p.headD 0).toNat - (q.headD 0).toNat

/-- The `n` bytes that `strncpy(_, t, n)` writes. -/
def strncpy : Str → Nat → Str
  | _, 0 => []
  | t, n + 1 => if t.headD 0 = 0 then List.replicate (n + 1) 0 else t.headD 0 :: strncpy t.tail n

/-! ## Directory entries -/

structure Dirent where
  inum : BitVec 16
  name : Str
  deriving DecidableEq

def direntSize : Nat := 2 + dirsiz

namespace Dirent

/-- The entry at the start of some bytes. -/
def ofBytes (bs : List Byte) : Dirent := ⟨bs.getD 1 0 ++ bs.getD 0 0, bs.drop 2⟩

def bytes (de : Dirent) : List Byte := de.inum.setWidth 8 :: (de.inum >>> 8).setWidth 8 :: de.name

/-- The entry that `dirlink` writes. -/
def make (name : Str) (inum : Nat) : Dirent := ⟨BitVec.ofNat 16 inum, strncpy name dirsiz⟩

end Dirent

/-- An erased entry, `memset(&de, 0, sizeof(de))`. -/
def zeroDirent : List Byte := List.replicate direntSize 0

def namecmp (s t : Str) : Int := strncmp s t dirsiz

namespace FsProg

/-- `readi(dp, &de, off, sizeof(de))`, with the panic of the caller. -/
def readDirent (dp : Fin ninode) (off : Nat) (p : Panic) : FsProg Dirent := do
  match ← readi dp off direntSize with
  | some bs => if bs.length = direntSize then pure (Dirent.ofBytes bs) else panic p
  | none => panic p

def dirlookupLoop (dp : Fin ninode) (name : Str) : Nat → Nat → FsProg (Option (Fin ninode × Nat))
  | 0, _ => pure none
  | fuel + 1, off => do
    let i ← info dp
    if off < i.size then
      let de ← readDirent dp off .dirlinkRead
      if de.inum = 0 then
        dirlookupLoop dp name fuel (off + direntSize)
      else if namecmp name de.name = 0 then
        let ip ← iget i.dev de.inum.toNat
        pure (some (ip, off))
      else
        dirlookupLoop dp name fuel (off + direntSize)
    else
      pure none

/-- The turns that a loop over the entries of a directory of this size can take. -/
def turns (size : Nat) : Nat := size / direntSize + 1

/-- Look for a directory entry; its inode and the byte offset of the entry. -/
def dirlookup (dp : Fin ninode) (name : Str) : FsProg (Option (Fin ninode × Nat)) := do
  let i ← info dp
  if i.type ≠ tDir then
    panic .dirlookupNotDir
  else
    dirlookupLoop dp name (turns i.size) 0

def emptyLoop (dp : Fin ninode) : Nat → Nat → FsProg Nat
  | 0, off => pure off
  | fuel + 1, off => do
    let i ← info dp
    if off < i.size then
      let de ← readDirent dp off .dirlinkRead
      if de.inum = 0 then pure off else emptyLoop dp fuel (off + direntSize)
    else
      pure off

/-- Write a new directory entry; `false` is the return value -1. -/
def dirlink (dp : Fin ninode) (name : Str) (inum : Nat) : FsProg Bool := do
  match ← dirlookup dp name with
  | some (ip, _) => do
    iput ip
    pure false
  | none => do
    let i ← info dp
    let off ← emptyLoop dp (turns i.size) 0
    match ← writei dp (Dirent.make name inum).bytes off with
    | some n => if n = direntSize then pure true else panic .dirlink
    | none => panic .dirlink

def isdiremptyLoop (dp : Fin ninode) : Nat → Nat → FsProg Bool
  | 0, _ => pure true
  | fuel + 1, off => do
    let i ← info dp
    if off < i.size then
      let de ← readDirent dp off .isdiremptyReadi
      if de.inum ≠ 0 then pure false else isdiremptyLoop dp fuel (off + direntSize)
    else
      pure true

/-- Is the directory empty except for "." and ".."? -/
def isdirempty (dp : Fin ninode) : FsProg Bool := do
  let i ← info dp
  isdiremptyLoop dp (turns i.size) (2 * direntSize)

end FsProg

/-! ## Paths -/

def slash : Byte := 0x2f
def dot : Byte := 0x2e

/-- The next path element, cut to `DIRSIZ` bytes, and the path behind it without its leading
    slashes. -/
def skipelem (path : Str) : Option (Str × Str) :=
  let s := path.dropWhile (· = slash)
  if s = [] then
    none
  else
    some ((s.takeWhile (· ≠ slash)).take dirsiz,
      (s.dropWhile (· ≠ slash)).dropWhile (· = slash))

namespace FsProg

/-- The loop of `namex`.  With `parent` it stops one level early and returns the last name. -/
def namexLoop (parent : Bool) : Nat → Fin ninode → Str → Str → FsProg (Option (Fin ninode × Str))
  | 0, ip, name, _ => pure (some (ip, name))
  | fuel + 1, ip, last, path =>
    match skipelem path with
    | none =>
      if parent then do
        iput ip
        pure none
      else
        pure (some (ip, last))
    | some (name, rest) => do
      ilock ip
      let i ← info ip
      if i.type ≠ tDir then
        iunlockput ip
        pure none
      else if parent ∧ rest = [] then
        iunlock ip
        pure (some (ip, name))
      else
        match ← dirlookup ip name with
        | none => do
          iunlockput ip
          pure none
        | some (next, _) => do
          iunlockput ip
          namexLoop parent fuel next name rest

/-- Where the walk along a path starts; `cwd` is the current directory. -/
def namexStart (cwd : Fin ninode) (path : Str) : FsProg (Fin ninode) :=
  if path.headD 0 = slash then iget rootdev rootino else idup cwd

/-- Look up the inode for a path name. -/
def namex (cwd : Fin ninode) (path : Str) (parent : Bool) :
    FsProg (Option (Fin ninode × Str)) := do
  let ip ← namexStart cwd path
  namexLoop parent (path.length + 1) ip [] path

def namei (cwd : Fin ninode) (path : Str) : FsProg (Option (Fin ninode)) := do
  let r ← namex cwd path false
  pure (r.map Prod.fst)

def nameiparent (cwd : Fin ninode) (path : Str) : FsProg (Option (Fin ninode × Str)) :=
  namex cwd path true

end FsProg

end Xv6Memfs
