import Xv6Memfs.Kernel.Dir

/-! # mkfs

`tools/mkfs.c`, the host program that writes a file system image from a list of host files.

The image file is the list of its sectors; a sector behind its end cannot be read.  What `open`
and `read` deliver for an argument is part of the input: `none` if the file cannot be opened, the
pieces that `read` returns before it returns 0 or -1 otherwise. -/

namespace Xv6Memfs

open Lib Lib.Exec

/-- What one `read` of at most `BSIZE` bytes returns when it returns something. -/
structure Chunk where
  data : List Byte
  pos : 0 < data.length
  le : data.length ≤ bsize

/-- An argument of `mkfs` behind the name of the image. -/
structure HostFile where
  path : Str
  /-- a C string ends at its first NUL -/
  noNul : (0 : Byte) ∉ path
  read : Option (List Chunk)

/-- How `mkfs` ends early. -/
inductive Exit where
  | failure
  | abort
  deriving DecidableEq, Repr

/-- The image file and the global variables of `mkfs.c`. -/
structure Mkfs where
  /-- the length of the image in sectors -/
  size : Nat
  sector : Nat → Block
  /-- history: the sectors that have been written, the last one first -/
  writes : List Nat
  freeinode : Nat
  freeblock : Nat

abbrev MkfsM : Type → Type := Exec Mkfs Exit

namespace Mkfs

def ninodes : Nat := 200
def nbitmap : Nat := fssize / (bsize * 8) + 1
def ninodeblocks : Nat := ninodes / ipb + 1
def nlog : Nat := logsize
def nmeta : Nat := 2 + ninodeblocks + nbitmap
def nblocks : Nat := fssize - nlog - nmeta

/-- The sector at file offset `sec * BSIZE`, a `uint`. -/
def place (sec : Nat) : Nat := sec * bsize % 2 ^ 32 / bsize

def wsect (sec : Nat) (buf : Block) : MkfsM Unit :=
  modify fun s =>
    { s with
      size := max s.size (place sec + 1)
      sector := Function.update s.sector (place sec) buf
      writes := place sec :: s.writes }

def rsect (sec : Nat) : MkfsM Block := do
  let s ← get
  if place sec < s.size then pure (s.sector (place sec)) else throw .failure

def winode (inum : Nat) (ip : Dinode) : MkfsM Unit := do
  let buf ← rsect (iblock inum)
  wsect (iblock inum) (buf.setDinode (inum % ipb) ip)

def rinode (inum : Nat) : MkfsM Dinode := do
  let buf ← rsect (iblock inum)
  pure (buf.dinode (inum % ipb))

/-- The inode that `ialloc` writes. -/
def newInode (type : BitVec 16) : Dinode :=
  { Dinode.zero with type := type, nlink := 1, ownerid := 99, groupid := 1, mode := 0x700 }

def ialloc (type : BitVec 16) : MkfsM Nat := do
  let inum ← gets fun s => s.freeinode
  modify fun s => { s with freeinode := s.freeinode + 1 }
  winode inum (newInode type)
  pure inum

/-- `freeblock++`. -/
def nextBlock : MkfsM Nat := do
  let b ← gets fun s => s.freeblock
  modify fun s => { s with freeblock := s.freeblock + 1 }
  pure b

/-- The block of `iappend` for index `fbn` below `NDIRECT`. -/
def directBlock (din : Dinode) (fbn : Nat) : MkfsM (Dinode × Nat) := do
  if din.addr fbn = 0 then
    let b ← nextBlock
    let din := din.setAddr fbn (BitVec.ofNat 32 b)
    pure (din, (din.addr fbn).toNat)
  else
    pure (din, (din.addr fbn).toNat)

/-- The inode with its indirect block, allocated if there is none. -/
def withIndirect (din : Dinode) : MkfsM Dinode := do
  if din.addr ndirect = 0 then
    let b ← nextBlock
    pure (din.setAddr ndirect (BitVec.ofNat 32 b))
  else
    pure din

/-- The block of `iappend` for index `NDIRECT + k`. -/
def indirectBlock (din : Dinode) (k : Nat) : MkfsM (Dinode × Nat) := do
  let din ← withIndirect din
  let indirect ← rsect (din.addr ndirect).toNat
  if indirect.word k = 0 then
    let b ← nextBlock
    let indirect := indirect.setWord k (BitVec.ofNat 32 b)
    wsect (din.addr ndirect).toNat indirect
    pure (din, (indirect.word k).toNat)
  else
    pure (din, (indirect.word k).toNat)

/-- The block of `iappend` for index `fbn`. -/
def findBlock (din : Dinode) (fbn : Nat) : MkfsM (Dinode × Nat) :=
  if fbn < ndirect then directBlock din fbn else indirectBlock din (fbn - ndirect)

/-- The loop of `iappend`: the bytes of `p` from offset `off` on, in at most `fuel` pieces. -/
def appendLoop : Nat → Dinode → Nat → List Byte → MkfsM (Dinode × Nat)
  | 0, din, off, _ => pure (din, off)
  | fuel + 1, din, off, p => do
    if p.length = 0 then
      pure (din, off)
    else
      let fbn := off / bsize
      if fbn < maxfile then
        let (din, x) ← findBlock din fbn
        let n1 := min p.length ((fbn + 1) * bsize - off)
        let buf ← rsect x
        wsect x (buf.setBytes (off - fbn * bsize) (p.take n1))
        appendLoop fuel din (off + n1) (p.drop n1)
      else
        throw .abort

def iappend (inum : Nat) (p : List Byte) : MkfsM Unit := do
  let din ← rinode inum
  let (din, off) ← appendLoop p.length din din.size.toNat p
  winode inum { din with size := BitVec.ofNat 32 off }

/-- The bits below `used`, set one after the other. -/
def setBits : Nat → Block → Block
  | 0, buf => buf
  | used + 1, buf => (setBits used buf).setBit used true

def balloc (used : Nat) : MkfsM Unit := do
  if used < bsize * 8 then
    wsect (ninodeblocks + 2) (setBits used 0)
  else
    throw .abort

/-! ## main -/

def zeroSectors : Nat → MkfsM Unit
  | 0 => pure ()
  | n + 1 => do
    zeroSectors n
    wsect n 0

theorem zeroSectors_zero : zeroSectors 0 = pure () := rfl

theorem zeroSectors_succ (n : Nat) : zeroSectors (n + 1) = zeroSectors n >>= fun _ => wsect n 0 := rfl

-- a thousand turns are not to be taken while a proof is checked
attribute [irreducible] zeroSectors

/-- The sector that holds the superblock. -/
def superSector : Block :=
  ((((0 : Block).setWord 0 (BitVec.ofNat 32 fssize)).setWord 1 (BitVec.ofNat 32 nblocks)).setWord 2
    (BitVec.ofNat 32 ninodes)).setWord 3 (BitVec.ofNat 32 nlog)

def format : MkfsM Unit := do
  modify fun s => { s with freeblock := nmeta }
  zeroSectors fssize
  wsect 1 superSector

def fsDir : Str := [0x2e, 0x66, 0x73, 0x2f]

end Mkfs

/-- The name of a host file in the image. -/
def HostFile.name (f : HostFile) : Str :=
  if strncmp f.path Mkfs.fsDir 4 = 0 then f.path.drop 4 else f.path

namespace Mkfs

/-- `while((cc = read(fd, buf, sizeof(buf))) > 0) iappend(inum, buf, cc)`. -/
def appendChunks (inum : Nat) : List Chunk → MkfsM Unit
  | [] => pure ()
  | c :: cs => do
    iappend inum c.data
    appendChunks inum cs

/-- One turn of the loop over the arguments. -/
def addFile (root : Nat) (f : HostFile) : MkfsM Unit := do
  if slash ∈ f.name then
    throw .abort
  else
    match f.read with
    | none => throw .failure
    | some chunks => do
      let inum ← ialloc tFile
      iappend root (Dirent.make f.name inum).bytes
      appendChunks inum chunks

def addFiles (root : Nat) : List HostFile → MkfsM Unit
  | [] => pure ()
  | f :: fs => do
    addFile root f
    addFiles root fs

/-- The root directory with "." and "..". -/
def makeRoot : MkfsM Nat := do
  let root ← ialloc tDir
  if root = rootino then
    iappend root (Dirent.make [dot] root).bytes
    iappend root (Dirent.make [dot, dot] root).bytes
    pure root
  else
    throw .abort

/-- `off = ((off/BSIZE) + 1) * BSIZE`. -/
def roundSize (size : BitVec 32) : BitVec 32 := BitVec.ofNat 32 ((size.toNat / bsize + 1) * bsize)

def fixRoot (root : Nat) : MkfsM Unit := do
  let din ← rinode root
  winode root { din with size := roundSize din.size }

/-- `main` behind the opening of the image. -/
def main (files : List HostFile) : MkfsM Unit := do
  format
  let root ← makeRoot
  addFiles root files
  fixRoot root
  let used ← gets fun s => s.freeblock
  balloc used

/-- The globals as the program starts, and the image as `open` with `O_TRUNC` leaves it. -/
def start : Mkfs := ⟨0, fun _ => 0, [], 1, 0⟩

end Mkfs

end Xv6Memfs
