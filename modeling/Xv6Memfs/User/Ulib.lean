import Xv6Memfs.Kernel.Dir

/-! # The user library

The functions of `ulib/ulib.c` that work on memory.  The memory of a program is a function
from addresses to bytes; a loop that runs to the end of a C string takes the number of bytes
it may still look at. -/

namespace Xv6Memfs.Ulib

abbrev Bytes : Type := Nat → Byte

/-- `strchr(s, c)`: the address of the first `c` before the NUL. -/
def strchr (m : Bytes) (c : Byte) : Nat → Nat → Option Nat
  | 0, _ => none
  | n + 1, s => if m s = 0 then none else if m s = c then some s else strchr m c n (s + 1)

/-- `memmove(dst, src, n)`: always forward. -/
def memmove (dst src : Nat) : Nat → Bytes → Bytes
  | 0, m => m
  | n + 1, m => memmove (dst + 1) (src + 1) n (Function.update m dst (m src))

/-- The C string at `p`. -/
def str (m : Bytes) : Nat → Nat → Str
  | 0, _ => []
  | n + 1, p => if m p = 0 then [] else m p :: str m n (p + 1)

def bytes (m : Bytes) (p n : Nat) : Str := (List.range n).map (fun i => m (p + i))

/-- The `n` bytes at `p` as a number, little-endian. -/
def le (m : Bytes) (p : Nat) : Nat → Nat
  | 0 => 0
  | n + 1 => (m p).toNat + 256 * le m (p + 1) n

/-- The memory after `bs` has been written at `p`. -/
def put (m : Bytes) (p : Nat) (bs : Str) : Bytes := fun a =>
  if p ≤ a ∧ a < p + bs.length then bs.getD (a - p) 0 else m a

end Xv6Memfs.Ulib
