import Xv6Memfs.Kernel.Log
import Mathlib.Data.Fintype.Basic

/-! # Inodes on disk and in memory

The data of `kernel/fs.c`: bytes and bits of a block, `struct dinode` and its place in an
inode block, the in-memory `struct inode`, the superblock, and the state `Fs` that the
functions of `fs.c` work on.

`Fs.disk` is the disk as `bread` shows it: the contents of a cached buffer where there is
one, the home block otherwise.  A block that is changed and passed to `log_write` is
therefore seen changed by the next `bread`. -/

namespace Xv6Memfs

open Lib

namespace Block

def byte (b : Block) (k : Nat) : Byte := field b (8 * k) 8

def setByte (b : Block) (k : Nat) (v : Byte) : Block := setField b (8 * k) v

/-- `memmove(dst, data + k, m)`. -/
def bytes (b : Block) (k m : Nat) : List Byte := (List.range m).map fun i => b.byte (k + i)

/-- `memmove(data + k, src, m)` for a source of `m` bytes. -/
def setBytes (b : Block) (k : Nat) : List Byte → Block
  | [] => b
  | v :: vs => setBytes (b.setByte k v) (k + 1) vs

/-- Bit `k % 8` of `data[k / 8]`. -/
def bit (b : Block) (k : Nat) : Bool := b.getLsbD k

/-- Set or clear bit `k % 8` of `data[k / 8]`. -/
def setBit (b : Block) (k : Nat) (v : Bool) : Block := setField b k (BitVec.ofBool v)

end Block

/-! ## stat.h -/

def tDir : BitVec 16 := 1
def tFile : BitVec 16 := 2
def tDev : BitVec 16 := 3

/-! ## Inodes -/

/-- `struct dinode`, and the copy of it in `struct inode`. -/
@[ext] structure Dinode where
  type : BitVec 16
  major : BitVec 16
  minor : BitVec 16
  nlink : BitVec 16
  ownerid : BitVec 16
  groupid : BitVec 16
  mode : BitVec 32
  size : BitVec 32
  addrs : Fin (ndirect + 1) → BitVec 32
  deriving DecidableEq

namespace Dinode

def zero : Dinode := ⟨0, 0, 0, 0, 0, 0, 0, 0, fun _ => 0⟩

/-- `addrs[k]`; the array ends at `NDIRECT`. -/
def addr (d : Dinode) (k : Nat) : BitVec 32 :=
  if h : k < ndirect + 1 then d.addrs ⟨k, h⟩ else 0

def setAddr (d : Dinode) (k : Nat) (v : BitVec 32) : Dinode :=
  { d with addrs := fun j => if j.val = k then v else d.addrs j }

/-- The first `k` addresses, stored from bit 160 on. -/
def encodeAddrs (d : Dinode) : Nat → BitVec (dinodeSize * 8) → BitVec (dinodeSize * 8)
  | 0, b => b
  | k + 1, b => setField (encodeAddrs d k b) (160 + 32 * k) (d.addr k)

def encode (d : Dinode) : BitVec (dinodeSize * 8) :=
  let b : BitVec (dinodeSize * 8) := 0
  let b := setField b 0 d.type
  let b := setField b 16 d.major
  let b := setField b 32 d.minor
  let b := setField b 48 d.nlink
  let b := setField b 64 d.ownerid
  let b := setField b 80 d.groupid
  let b := setField b 96 d.mode
  let b := setField b 128 d.size
  encodeAddrs d (ndirect + 1) b

def decode (b : BitVec (dinodeSize * 8)) : Dinode where
  type := field b 0 16
  major := field b 16 16
  minor := field b 32 16
  nlink := field b 48 16
  ownerid := field b 64 16
  groupid := field b 80 16
  mode := field b 96 32
  size := field b 128 32
  addrs j := field b (160 + 32 * j) 32

end Dinode

/-- `((struct dinode*)data)[k]`. -/
def Block.dinode (b : Block) (k : Nat) : Dinode :=
  Dinode.decode (field b (dinodeSize * 8 * k) (dinodeSize * 8))

/-- `((struct dinode*)data)[k] = d`. -/
def Block.setDinode (b : Block) (k : Nat) (d : Dinode) : Block :=
  setField b (dinodeSize * 8 * k) d.encode

/-- `struct inode`; `I_BUSY` and `I_VALID` of its flags are `busy` and `valid`. -/
structure Inode where
  dev : Nat
  inum : Nat
  ref : Nat
  busy : Bool
  valid : Bool
  node : Dinode
  deriving DecidableEq

structure Superblock where
  size : Nat
  nblocks : Nat
  ninodes : Nat
  nlog : Nat
  deriving DecidableEq

/-- One entry of `devsw`: what the driver returns, `none` for `-1`. -/
structure Device where
  read : Option (Nat → Option (List Byte))
  write : Option (List Byte → Option Nat)

/-- What the code of `fs.c` works on. -/
structure Fs where
  /-- the blocks as `bread` shows them -/
  disk : Nat → Block
  /-- `disksize` of `memide.c` -/
  disksize : Nat
  log : Log
  icache : Fin ninode → Inode
  devsw : Fin ndev → Device
  /-- history: every block number `balloc` has returned, the last one first -/
  allocs : List Nat

end Xv6Memfs
