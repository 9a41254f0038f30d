import Xv6Memfs.Kernel.Dir

/-! # libfs

The functions of `tools/libfs.c` with which the host program `opfs` looks up paths in a file
system image.

The image is mapped into memory: an `inode_t` is a pointer into it, here the number of the inode.
Reading a file allocates the blocks that it does not have, so that a lookup can change the image
and, if it finds no block, end in `fatal`. -/

namespace Xv6Memfs

open Lib Lib.Exec Function

/-- The blocks of an image. -/
abbrev Img : Type := Nat → Block

/-- How a tool ends early. -/
inductive Fatal where
  /-- `fatal("balloc: %u: invalid data block number\n", b)` -/
  | ballocInvalid (b : Nat)
  | ballocNoFree
  | abort
  deriving DecidableEq, Repr

abbrev ImgM : Type → Type := Exec Img Fatal

namespace Libfs

def bufsize : Nat := 1024

/-- `SBLK(img)`. -/
def sblk (img : Img) : Superblock :=
  ⟨((img 1).word 0).toNat, ((img 1).word 1).toNat, ((img 1).word 2).toNat, ((img 1).word 3).toNat⟩

/-- Is `b` a valid data block number? -/
def validDataBlock (img : Img) (b : Nat) : Bool :=
  let d := 2 + ((sblk img).ninodes / ipb + 1) + ((sblk img).size / (bsize * 8) + 1)
  decide (d ≤ b ∧ b ≤ (d + (sblk img).nblocks - 1) % 2 ^ 32)

def setBlock (b : Nat) (v : Block) : ImgM Unit := modify fun img => update img b v

/-- The loop of `balloc` from block `b` on, for at most `n` bitmap blocks. -/
def ballocScan : Nat → Nat → ImgM Nat
  | 0, _ => throw .ballocNoFree
  | n + 1, b => do
    let img ← get
    if b < (sblk img).size then
      let bp := img (bblock b (sblk img).ninodes)
      match Fs.firstClear bp (min bpb ((sblk img).size - b)) with
      | some bi =>
        setBlock (bblock b (sblk img).ninodes) (bp.setBit bi true)
        if validDataBlock img (b + bi) then
          setBlock (b + bi) 0
          pure (b + bi)
        else
          throw (.ballocInvalid (b + bi))
      | none => ballocScan n (b + bpb)
    else
      throw .ballocNoFree

def balloc : ImgM Nat := do
  let img ← get
  ballocScan ((sblk img).size / bpb + 1) 0

def inode (img : Img) (ip : Nat) : Dinode := (img (iblock ip)).dinode (ip % ipb)

/-- The inode with number `inum`, `none` for `NULL`. -/
def iget (inum : Nat) : ImgM (Option Nat) := do
  let img ← get
  pure (if 0 < inum ∧ inum < (sblk img).ninodes then some inum else none)

/-- `ip->addrs[k]`, which is allocated if it is zero. -/
def mapAddr (ip k : Nat) : ImgM Nat := do
  let img ← get
  if (inode img ip).addr k = 0 then
    let addr ← balloc
    modify fun img => update img (iblock ip)
      ((img (iblock ip)).setDinode (ip % ipb) ((inode img ip).setAddr k (BitVec.ofNat 32 addr)))
    pure addr
  else
    pure ((inode img ip).addr k).toNat

/-- The number of data block `n` of the file. -/
def bmap (ip n : Nat) : ImgM Nat :=
  if n < ndirect then
    mapAddr ip n
  else if n - ndirect ≥ nindirect then
    pure 0
  else do
    let iaddr ← mapAddr ip ndirect
    let img ← get
    if (img iaddr).word (n - ndirect) = 0 then
      let addr ← balloc
      modify fun img =>
        update img iaddr ((img iaddr).setWord (n - ndirect) (BitVec.ofNat 32 addr))
      pure addr
    else
      pure ((img iaddr).word (n - ndirect)).toNat

def readLoop (ip : Nat) : Nat → Nat → Nat → ImgM (List Byte)
  | 0, _, _ => pure []
  | fuel + 1, off, n =>
    if n = 0 then
      pure []
    else do
      let b ← bmap ip (off / bsize)
      let img ← get
      if validDataBlock img b then
        let m := min n (bsize - off % bsize)
        let rest ← readLoop ip fuel (off + m) (n - m)
        pure ((img b).bytes (off % bsize) m ++ rest)
      else
        pure []

/-- Read `n` bytes from offset `off` on; `none` is the return value -1. -/
def iread (ip n off : Nat) : ImgM (Option (List Byte)) := do
  let img ← get
  let size := (inode img ip).size.toNat
  if (inode img ip).type = tDev then
    pure none
  else if off > size ∨ (off + n) % 2 ^ 32 < off then
    pure none
  else
    let n := if off + n > size then size - off else n
    let bs ← readLoop ip n off n
    pure (some bs)

/-! ## Paths -/

/-- The next path element, cut to `DIRSIZ` bytes, and the path behind it. -/
def skipelem (path : Str) : Str × Str :=
  let s := path.dropWhile (· = slash)
  ((s.takeWhile (· ≠ slash)).take dirsiz, s.dropWhile (· ≠ slash))

/-- The loop of `splitpath`: where the last element starts. -/
def splitLoop : Nat → Str → Str → Str
  | 0, _, s => s
  | fuel + 1, path, s =>
    if path = [] then
      s
    else
      let s := path.dropWhile (· = slash)
      splitLoop fuel (s.dropWhile (· ≠ slash)) s

/-- The directory name that `splitpath` puts into a buffer of `size` bytes, and the base name. -/
def splitpath (path : Str) (size : Nat) : Str × Str :=
  let s := splitLoop path.length path path
  (path.take (min (path.length - s.length) (size - 1)), s)

/-! ## Directories -/

def dlookupLoop (dp : Nat) (name : Str) : Nat → Nat → ImgM (Option (Option Nat × Nat))
  | 0, _ => pure none
  | fuel + 1, off => do
    let img ← get
    if off < (inode img dp).size.toNat then
      match ← iread dp direntSize off with
      | some bs =>
        if bs.length ≠ direntSize then
          pure none
        else if strncmp name (Dirent.ofBytes bs).name dirsiz = 0 then do
          let ip ← iget (Dirent.ofBytes bs).inum.toNat
          pure (some (ip, off))
        else
          dlookupLoop dp name fuel (off + direntSize)
      | none => pure none
    else
      pure none

/-- Search for `name` in directory `dp`: the inode of the first entry of this name, which may be
    `NULL`, and the offset of the entry. -/
def dlookup (dp : Nat) (name : Str) : ImgM (Option (Option Nat × Nat)) := do
  let img ← get
  if (inode img dp).type ≠ tDir then
    throw .abort
  else
    dlookupLoop dp name (FsProg.turns (inode img dp).size.toNat) 0

/-- `dlookup(img, dp, name, NULL)`. -/
def dlookupInode (dp : Nat) (name : Str) : ImgM (Option Nat) := do
  let r ← dlookup dp name
  pure (r.bind (·.1))

def ilookupLoop : Nat → Nat → Str → ImgM (Option Nat)
  | 0, _, _ => pure none
  | fuel + 1, rp, path => do
    let img ← get
    if (inode img rp).type ≠ tDir then
      throw .abort
    else if (skipelem path).1 = [] then
      -- an empty path, or nothing but separators
      pure (some rp)
    else
      match ← dlookupInode rp (skipelem path).1 with
      | none => pure none
      | some ip =>
        if (skipelem path).2 = [] then
          pure (some ip)
        else do
          let img ← get
          if (inode img ip).type ≠ tDir then
            pure none
          else
            ilookupLoop fuel ip (skipelem path).2

/-- The inode of the file `path` below the directory `rp`. -/
def ilookup (rp : Nat) (path : Str) : ImgM (Option Nat) := ilookupLoop (path.length + 1) rp path

end Libfs

end Xv6Memfs
