import Xv6Memfs.Lib.Walk
import Xv6Memfs.User.Ulib
import Mathlib.Data.BitVec

/-! # Finding the processors

`kernel/mp.c` reads the processors from the MP configuration table of the BIOS, `acpi_config_smp`
of `kernel/acpi.c` from the ACPI table MADT.  Memory is a function from physical addresses to
bytes; what the functions print is left out.  A loop runs for a number of rounds that its caller
gives, and the functions return whether that was enough.  A write beyond the end of `cpus` stops
them. -/

namespace Xv6Memfs

open Lib Lib.Exec
open Ulib (Bytes)

def ncpuMax : Nat := 8

/-- `struct cpu`, as far as it is set here. -/
structure Cpu where
  id : Nat
  apicid : Byte
  deriving DecidableEq

/-- The global variables of `mp.c`. -/
structure Smp where
  cpus : Fin ncpuMax → Cpu
  /-- the index of `*bcpu` in `cpus` -/
  bcpu : Nat
  ismp : Bool
  ncpu : Nat
  ioapicid : Byte
  /-- the physical address of the local APIC, `none` for a null pointer -/
  lapic : Option Nat
  /-- external interrupts are masked through the IMCR -/
  masked : Bool
  /-- the local variable of `acpi_config_smp` -/
  nioapic : Nat
  /-- history: where the loop of `mpinit` has looked at an entry -/
  visited : List Nat
  /-- history: the bytes that `acpi_config_smp` has read -/
  reads : List Nat

def Smp.init : Smp := ⟨fun _ => ⟨0, 0⟩, 0, false, 0, 0, none, false, 0, [], []⟩

/-- Code that finds processors; it stops at the index of a write beyond `cpus`. -/
abbrev SmpM : Type → Type := Exec Smp Nat

/-- `cpus[ncpu].id = ncpu; cpus[ncpu].apicid = apicid; ncpu++;`. -/
def addCpu (apicid : Byte) : SmpM Unit := do
  let s ← get
  if h : s.ncpu < ncpuMax then
    modify fun s =>
      { s with
        cpus := Function.update s.cpus ⟨_, h⟩ ⟨s.ncpu, apicid⟩
        ncpu := s.ncpu + 1 }
  else
    throw s.ncpu

namespace Mp

def sum (m : Bytes) (addr len : Nat) : Byte := (Ulib.bytes m addr len).sum

def mpSig : Str := [0x5F, 0x4D, 0x50, 0x5F]

def confSig : Str := [0x50, 0x43, 0x4D, 0x50]

/-- Look for an MP structure in the `len` bytes at `a`. -/
def mpsearch1 (m : Bytes) (a len : Nat) : Option Nat :=
  ((List.range (len / 16)).map fun i => a + 16 * i).find? fun p =>
    Ulib.bytes m p 4 = mpSig ∧ sum m p 16 = 0

/-- Search for the MP Floating Pointer Structure: in the first KB of the EBDA, or else in the
    last KB of system base memory, and in the BIOS ROM. -/
def mpsearch (m : Bytes) : Option Nat :=
  let ebda := Ulib.le m 0x40E 2 * 16
  let p := if ebda ≠ 0 then mpsearch1 m ebda 1024
    else mpsearch1 m ((Ulib.le m 0x413 2 * 1024 + 2 ^ 32 - 1024) % 2 ^ 32) 1024
  p <|> mpsearch1 m 0xF0000 0x10000

/-- `conf->length`. -/
def confLength (m : Bytes) (conf : Nat) : Nat := Ulib.le m (conf + 4) 2

/-- Search for an MP configuration table: the MP structure and the table. -/
def mpconfig (m : Bytes) : Option (Nat × Nat) := do
  let mp ← mpsearch m
  let conf := Ulib.le m (mp + 4) 4
  if conf = 0 then none
  else if Ulib.bytes m conf 4 ≠ confSig then none
  else if m (conf + 6) ≠ 1 ∧ m (conf + 6) ≠ 4 then none
  else if sum m conf (confLength m conf) ≠ 0 then none
  else some (mp, conf)

def confSize : Nat := 44

def mpboot : Byte := 2

/-- The loop of `mpinit` at `p`, in a table that ends at `e`. -/
def entry (m : Bytes) (e p : Nat) : SmpM (Option Nat) :=
  if p < e then do
    modify fun s => { s with visited := s.visited ++ [p] }
    match (m p).toNat with
    | 0 => do -- MPPROC
      modify fun s => { s with bcpu := if m (p + 3) &&& mpboot ≠ 0 then s.ncpu else s.bcpu }
      addCpu (m (p + 1))
      pure (some (p + 20))
    | 2 => do -- MPIOAPIC
      modify fun s => { s with ioapicid := m (p + 1) }
      pure (some (p + 8))
    | 1 => pure (some (p + 8)) -- MPBUS
    | 3 => pure (some (p + 8 + 8)) -- MPIOINTR: no continue, so the advance of MPLINTR follows
    | 4 => pure (some (p + 8)) -- MPLINTR
    | _ => do
      modify fun s => { s with ismp := false }
      pure (some p)
  else
    pure none

/-- `mpinit` behind its loop. -/
def finish (m : Bytes) (mp : Nat) : SmpM Unit := do
  let s ← get
  if !s.ismp then
    -- Didn't like what we found; fall back to no MP.
    modify fun s => { s with ncpu := 1, lapic := none, ioapicid := 0 }
  else if m (mp + 12) ≠ 0 then
    modify fun s => { s with masked := true }
  else
    pure ()

/-- `mpinit`, with `n` rounds for its loop: whether these were enough. -/
def mpinit (m : Bytes) (n : Nat) : SmpM Bool := do
  modify fun s => { s with bcpu := 0 }
  match mpconfig m with
  | none => pure true
  | some (mp, conf) => do
    modify fun s => { s with ismp := true, lapic := some (Ulib.le m (conf + 36) 4) }
    let ended ← walk (entry m (conf + confLength m conf)) n (conf + confSize)
    if ended then
      finish m mp
      pure true
    else
      pure false

end Mp

namespace Acpi

def madtSize : Nat := 44

def rd (m : Bytes) (a : Nat) : SmpM Byte := do
  modify fun s => { s with reads := s.reads ++ [a] }
  pure (m a)

def rd32 (m : Bytes) (a : Nat) : SmpM Nat := do
  modify fun s => { s with reads := s.reads ++ [a, a + 1, a + 2, a + 3] }
  pure (Ulib.le m a 4)

def lapicEntry (m : Bytes) (p len : Nat) : SmpM Unit := do
  if len < 8 then
    pure ()
  else
    let flags ← rd32 m (p + 4)
    if flags % 2 = 0 then -- APIC_LAPIC_ENABLED
      pure ()
    else
      let apicid ← rd m (p + 3)
      addCpu apicid

def ioapicEntry (m : Bytes) (p len : Nat) : SmpM Unit := do
  if len < 12 then
    pure ()
  else
    let _ ← rd32 m (p + 4)
    let id ← rd m (p + 2)
    let _ ← rd32 m (p + 8)
    modify fun s =>
      { s with
        ioapicid := if s.nioapic = 0 then id else s.ioapicid
        nioapic := s.nioapic + 1 }

def dispatch (m : Bytes) (p len : Nat) : SmpM Unit := do
  let type ← rd m p
  if type = 0 then
    lapicEntry m p len
  else if type = 1 then
    ioapicEntry m p len
  else
    pure ()

/-- The loop of `acpi_config_smp` at `p`, in a table that ends at `e`. -/
def entry (m : Bytes) (e p : Nat) : SmpM (Option Nat) :=
  if p < e then
    if e - p < 2 then
      pure none
    else do
      let len ← rd m (p + 1)
      if e - p < len.toNat then
        pure none
      else
        dispatch m p len.toNat
        pure (some (p + len.toNat))
  else
    pure none

/-- `acpi_config_smp` behind its loop. -/
def finish (lapicAddr : Nat) (ended : Bool) : SmpM (Option Int) := do
  let s ← get
  if !ended then
    pure none
  else if s.ncpu ≠ 0 then do
    modify fun s => { s with ismp := true, lapic := some lapicAddr }
    pure (some 0)
  else
    pure (some (-1))

/-- `acpi_config_smp`, with `n` rounds for its loop; `none` if these were not enough. -/
def acpiConfigSmp (m : Bytes) (madt : Option Nat) (n : Nat) : SmpM (Option Int) :=
  match madt with
  | none => pure (some (-1))
  | some madt => do
    modify fun s => { s with nioapic := 0 }
    let length ← rd32 m (madt + 4)
    if length < madtSize then
      pure (some (-1))
    else
      let lapicAddr ← rd32 m (madt + 36)
      let ended ← walk (entry m (madt + length)) n (madt + madtSize)
      finish lapicAddr ended

end Acpi

end Xv6Memfs
