import Xv6Memfs.Lib.BitField

/-! # Constants, blocks and panics

The numbers of `param.h`, `fs.h` and `buf.h`, the disk block, and the ways in which
kernel code stops.

A block is `BSIZE` little-endian bytes, kept as one bit vector: byte `k` is the field of
width 8 at bit `8 * k` and `((uint*)data)[k]` the field of width 32 at bit `32 * k`. -/

namespace Xv6Memfs

open Lib

/-! ## param.h -/

def nproc : Nat := 64
def nofile : Nat := 16
def nfile : Nat := 100
def ninode : Nat := 50
def ndev : Nat := 10
def rootdev : Nat := 1
def maxopblocks : Nat := 10
def logsize : Nat := maxopblocks * 3
def nbuf : Nat := maxopblocks * 3
def fssize : Nat := 1000

/-! ## fs.h -/

def rootino : Nat := 1
def bsize : Nat := 512
def ndirect : Nat := 10
def nindirect : Nat := bsize / 4
def maxfile : Nat := ndirect + nindirect

def dinodeSize : Nat := 64

def ipb : Nat := bsize / dinodeSize

/-- The block that holds inode `i`. -/
def iblock (i : Nat) : Nat := i / ipb + 2

def bpb : Nat := bsize * 8

/-- The bitmap block that holds the bit of block `b`. -/
def bblock (b ninodes : Nat) : Nat := b / bpb + ninodes / ipb + 3

def dirsiz : Nat := 14

/-! ## Blocks -/

abbrev Byte : Type := BitVec 8

/-- The contents of a disk block or of a buffer. -/
abbrev Block : Type := BitVec (bsize * 8)

namespace Block

def word (b : Block) (k : Nat) : BitVec 32 := field b (32 * k) 32

def setWord (b : Block) (k : Nat) (v : BitVec 32) : Block := setField b (32 * k) v

theorem word_setWord_same (b : Block) (k : Nat) (v : BitVec 32) (hk : k < nindirect) :
    (b.setWord k v).word k = v := by
  apply field_setField_same
  simp only [nindirect, bsize] at hk ⊢
  omega

theorem word_setWord_ne (b : Block) (k j : Nat) (v : BitVec 32) (hne : j ≠ k)
    (hj : j < nindirect) : (b.setWord k v).word j = b.word j := by
  apply field_setField_disjoint
  · omega
  · simp only [nindirect, bsize] at hj ⊢
    omega

end Block

/-! ## How kernel code stops -/

/-- The panics of the modelled functions, named after their text. -/
inductive Panic where
  | bgetNoBuffers
  | bwrite
  | brelse
  | iderwNotBusy
  | iderwNothingToDo
  | iderwNotDisk1
  | iderwOutOfRange
  | iderwNoDisk1
  | idestart
  | incorrectBlockno
  | tooBigTransaction
  | logWriteOutsideTrans
  | logCommitting
  | ballocOutOfBlocks
  | freeingFreeBlock
  | iallocNoInodes
  | igetNoInodes
  | ilock
  | ilockNoType
  | iunlock
  | iputBusy
  | bmapOutOfRange
  | dirlookupNotDir
  | dirlinkRead
  | dirlink
  | isdiremptyReadi
  | unlinkNlink
  | unlinkWritei
  | createDots
  | createDirlink
  | filedup
  | fileclose
  | fileread
  | filewrite
  | shortFilewrite
  | initExiting
  | remap
  | loaduvmAlign
  | loaduvmExist
  | clearpteu
  | copyuvmPte
  | copyuvmPage
  deriving DecidableEq, Repr

/-- A computation of the kernel stops in a panic, or because the process that runs it
    goes to sleep. -/
inductive Stop where
  | panic (p : Panic)
  | sleep
  deriving DecidableEq, Repr

end Xv6Memfs
