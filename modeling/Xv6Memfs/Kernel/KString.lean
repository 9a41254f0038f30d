import Xv6Memfs.User.Ulib

/-! # memmove of the kernel

`kernel/string.c`; addresses do not wrap. -/

namespace Xv6Memfs.KString

open Function

open Ulib (Bytes)

/-- `while(n-- > 0) *--d = *--s;`. -/
def copyDown : Nat → Nat → Nat → Bytes → Bytes
  | _, _, 0, m => m
  | d, s, n + 1, m => copyDown (d - 1) (s - 1) n (update m (d - 1) (m (s - 1)))

/-- `while(n-- > 0) *d++ = *s++;`. -/
def copyUp : Nat → Nat → Nat → Bytes → Bytes
  | _, _, 0, m => m
  | d, s, n + 1, m => copyUp (d + 1) (s + 1) n (update m d (m s))

/-- `memmove(dst, src, n)`: from the end where the destination begins inside the source. -/
def memmove (dst src n : Nat) (m : Bytes) : Bytes :=
  if src < dst ∧ src + n > dst then copyDown (dst + n) (src + n) n m else copyUp dst src n m

end Xv6Memfs.KString
