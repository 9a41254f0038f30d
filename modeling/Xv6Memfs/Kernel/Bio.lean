import Xv6Memfs.Kernel.Param
import Xv6Memfs.Lib.Exec
import Xv6Memfs.Lib.RedoLog
import Mathlib.Data.List.FinRange
import Mathlib.Data.List.Perm.Basic

/-! # The buffer cache and the memory disk

`kernel/bio.c` over `kernel/memide.c`.  The functions `bget`, `brelse` and `iderw` are
pure functions of the cache and of the disk, so that they serve both as the steps of
concurrent processes and as parts of a sequential program; `bread` and `bwrite` are
sequential programs over any state that contains the two. -/

namespace Xv6Memfs

open Lib Function

/-! ## Buffers -/

/-- `struct buf`.  The three flag bits are three fields; `blockno` is the field that
    `buf.h` declares as `block`. -/
structure Buf where
  busy : Bool
  valid : Bool
  dirty : Bool
  dev : Nat
  blockno : Nat
  data : Block

/-- The buffers and the list through `prev`/`next`, most recently used first.  The list
    always visits every buffer once. -/
structure Bcache where
  buf : Fin nbuf → Buf
  lru : List (Fin nbuf)
  ring : lru.Perm (List.finRange nbuf)

/-- The buffers as `binit` leaves them: device `-1`, no flags, last one first. -/
def binit : Bcache where
  buf _ := { busy := false, valid := false, dirty := false, dev := 2 ^ 32 - 1, blockno := 0,
             data := 0 }
  lru := (List.finRange nbuf).reverse
  ring := List.reverse_perm _

namespace Bcache

theorem mem_lru (c : Bcache) (i : Fin nbuf) : i ∈ c.lru :=
  c.ring.mem_iff.mpr (List.mem_finRange i)

def set (c : Bcache) (i : Fin nbuf) (b : Buf) : Bcache := { c with buf := update c.buf i b }

@[simp] theorem set_buf_self (c : Bcache) (i : Fin nbuf) (b : Buf) : (c.set i b).buf i = b := by
  simp [set]

@[simp] theorem set_set (c : Bcache) (i : Fin nbuf) (b b' : Buf) :
    (c.set i b).set i b' = c.set i b' := by
  simp [set]

theorem set_buf_ne (c : Bcache) {i j : Fin nbuf} (b : Buf) (h : j ≠ i) :
    (c.set i b).buf j = c.buf j := by
  simp [set, h]

end Bcache

/-- Look through the cache for a block; if it is not there, recycle the least recently
    used buffer that is neither busy nor dirty.  The buffer returned is busy. -/
def bget (c : Bcache) (dev blockno : Nat) : Except Stop (Fin nbuf × Bcache) :=
  match c.lru.find? (fun i => (c.buf i).dev = dev ∧ (c.buf i).blockno = blockno) with
  | some i =>
    if (c.buf i).busy then .error .sleep
    else .ok (i, c.set i { c.buf i with busy := true })
  | none =>
    match c.lru.reverse.find? (fun i => !(c.buf i).busy ∧ !(c.buf i).dirty) with
    | some i =>
      .ok (i, c.set i { c.buf i with busy := true, valid := false, dirty := false,
                                      dev := dev, blockno := blockno })
    | none => .error (.panic .bgetNoBuffers)

def brelse (c : Bcache) (i : Fin nbuf) : Except Stop Bcache :=
  if (c.buf i).busy then
    .ok { buf := update c.buf i { c.buf i with busy := false }
          lru := i :: c.lru.erase i
          ring := (List.perm_cons_erase (c.mem_lru i)).symm.trans c.ring }
  else .error (.panic .brelse)

/-! ## The memory disk -/

/-- `memdisk` and `disksize`.  `writes` records every block write so far, oldest first:
    a power cut leaves the disk as it was after some prefix of them. -/
structure Memdisk where
  block : Nat → Block
  size : Nat
  writes : List (Nat × Block)

def Memdisk.write (d : Memdisk) (b : Nat) (v : Block) : Memdisk :=
  { d with block := update d.block b v, writes := d.writes ++ [(b, v)] }

/-- Sync a buffer with the disk: write it if it is dirty, else read it if it is not valid. -/
def iderw (b : Buf) (d : Memdisk) : Except Stop (Buf × Memdisk) :=
  if !b.busy then .error (.panic .iderwNotBusy)
  else if b.valid && !b.dirty then .error (.panic .iderwNothingToDo)
  else if b.dev ≠ 1 then .error (.panic .iderwNotDisk1)
  else if b.blockno ≥ d.size then .error (.panic .iderwOutOfRange)
  else if b.dirty then
    .ok ({ b with dirty := false, valid := true }, d.write b.blockno b.data)
  else .ok ({ b with data := d.block b.blockno, valid := true }, d)

end Xv6Memfs
