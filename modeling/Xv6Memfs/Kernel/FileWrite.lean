import Xv6Memfs.Kernel.Sysfile

/-! # Writing to files and devices

`filewrite` of `kernel/file.c`, and the functions that `consoleinit` and `cpuidinit` install in
`devsw[].write`. -/

namespace Xv6Memfs

open Lib

/-! ## The devices -/

def console : Fin ndev := ⟨1, by decide⟩

def cpuid : Fin ndev := ⟨2, by decide⟩

/-- `consolewrite(ip, buf, n)` puts out every character and returns `n`. -/
def consolewrite (src : List Byte) : Option Nat := some src.length

/-- `cpuid_write(i, buf, count)` prints a line of its own and returns 0. -/
def cpuidWrite (_src : List Byte) : Option Nat := some 0

/-- The `write` functions are those that the kernel has installed. -/
structure Installed (devsw : Fin ndev → Device) : Prop where
  console : (devsw Xv6Memfs.console).write = some consolewrite
  cpuid : (devsw Xv6Memfs.cpuid).write = some cpuidWrite
  none : ∀ k, k ≠ Xv6Memfs.console → k ≠ Xv6Memfs.cpuid → (devsw k).write = .none

/-! ## file.c -/

namespace SysM

open Script

/-- `filewrite(f, addr, n)`, where `src` is the bytes that the loop finds at `addr`; `piped` is
    what `pipewrite` returns. -/
def filewrite (f : Fin nfile) (src : List Byte) (n : Int) (piped : Int) : SysM Int := do
  let t ← get
  if (t.file f).writable = false then
    pure (-1)
  else
    match (t.file f).type with
    | .pipe _ => pure piped
    | .inode ip => do
      -- i == n ? n : -1
      let all ← filewriteLoop f ip src.length src
      pure (if all = true ∧ 0 ≤ n then n else -1)
    | .none => panic .filewrite

end SysM

end Xv6Memfs
