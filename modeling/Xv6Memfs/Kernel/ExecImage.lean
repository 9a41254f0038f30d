import Xv6Memfs.Kernel.Paging
import Xv6Memfs.Kernel.Sysfile

/-! # The memory image that exec builds

`kernel/exec.c` between `namei` and the return, with `loaduvm`, `uva2ka` and `copyout` of
`kernel/vm.c`, for a regular file with given contents.  The ELF header and the program headers
are what the file has at their places; nothing is assumed about the numbers in them. -/

namespace Xv6Memfs

open Lib

/-- `readi` of `n` bytes at `off` on a regular file; `none` for -1. -/
def readFile (file : List Byte) (off n : Nat) : Option (List Byte) :=
  if file.length < off ∨ 2 ^ 32 ≤ off + n then none else some ((file.drop off).take n)

/-- The fields of `struct proghdr` that `exec` looks at. -/
structure Proghdr where
  type : Nat
  off : Nat
  vaddr : Nat
  filesz : Nat
  memsz : Nat
  deriving DecidableEq

def Proghdr.ofBytes (bs : List Byte) : Proghdr where
  type := leNat bs 0 4
  off := leNat bs 8 8
  vaddr := leNat bs 16 8
  filesz := leNat bs 32 8
  memsz := leNat bs 40 8

def elfProgLoad : Nat := 1

/-- Program header `k`, at `elf.phoff + k * sizeof(ph)`; `none` if it cannot be read. -/
def proghdrAt (file : List Byte) (phoff k : Nat) : Option Proghdr :=
  match readFile file ((phoff + k * proghdrSize) % 2 ^ 32) proghdrSize with
  | none => none
  | some bs => if bs.length ≠ proghdrSize then none else some (.ofBytes bs)

def le64 (n : Nat) : List Byte := (List.range 8).map fun i => BitVec.ofNat 8 (n / 256 ^ i)

namespace Mem

def poke (p : Page) (off : Nat) (bs : List Byte) : MemM Unit :=
  Exec.modify fun s => { s with data := Function.update s.data p ((s.data p).poke off bs) }

/-- Map a user virtual address to the page it is in. -/
def uva2ka (d : Page) (uva : Nat) : MemM (Option Page) := do
  match ← walkpgdir d uva false with
  -- the null pointer is followed
  | none => Exec.throw .wild
  | some (k, j) => do
    let e ← getPte d k j
    if !e.present then pure none
    else if !e.has pteU then pure none
    else pure (some e.page)

/-- Copy bytes to user address `va`, in at most `fuel` pieces. -/
def copyout (d : Page) : Nat → Nat → List Byte → MemM Bool
  | 0, _, _ => pure true
  | fuel + 1, va, bs =>
    if 0 < bs.length then do
      match ← uva2ka d (pgrounddown va) with
      | none => pure false
      | some pa0 => do
        let n := min (pgsize - (va - pgrounddown va)) bs.length
        poke pa0 (va - pgrounddown va) (bs.take n)
        copyout d fuel ((pgrounddown va + pgsize) % 2 ^ 32) (bs.drop n)
    else
      pure true

def loadLoop (d : Page) (addr : Nat) (file : List Byte) (offset sz : Nat) : Nat → Nat → MemM Bool
  | 0, _ => pure true
  | fuel + 1, i =>
    if i < sz then do
      match ← walkpgdir d ((addr + i) % 2 ^ 64) false with
      | none => Exec.throw (.panic .loaduvmExist)
      | some (k, j) => do
        -- whether the entry is present is not asked
        let e ← getPte d k j
        match readFile file ((offset + i) % 2 ^ 32) (min (sz - i) pgsize) with
        | none => pure false
        | some bs => do
          poke e.page 0 bs
          if bs.length ≠ min (sz - i) pgsize then pure false
          else loadLoop d addr file offset sz fuel (i + pgsize)
    else
      pure true

def loaduvm (d : Page) (addr : Nat) (file : List Byte) (offset sz : Nat) : MemM Bool :=
  if addr % pgsize ≠ 0 then Exec.throw (.panic .loaduvmAlign)
  else loadLoop d addr file offset sz (sz / pgsize + 1) 0

/-- The loop over the program headers from number `k` on, `rest` of them: the size reached, or
    `none` to go to `bad`. -/
def loadPhs (d : Page) (file : List Byte) (phoff : Nat) : Nat → Nat → Nat → MemM (Option Nat)
  | 0, _, sz => pure (some sz)
  | rest + 1, k, sz =>
    match proghdrAt file phoff k with
    | none => pure none
    | some ph =>
      if ph.type ≠ elfProgLoad then
        loadPhs d file phoff rest (k + 1) sz
      else if ph.memsz < ph.filesz then
        pure none
      else do
        let r ← allocuvm d (sz % 2 ^ 32) ((ph.vaddr + ph.memsz) % 2 ^ 32)
        if r = 0 then
          pure none
        else if !(← loaduvm d ph.vaddr file (ph.off % 2 ^ 32) (ph.filesz % 2 ^ 32)) then
          pure none
        else
          loadPhs d file phoff rest (k + 1) (Vm.signExtend r)

def pushed (sp len : Nat) : Nat := Vm.sub64 sp (len + 1) / 8 * 8

/-- Push an argument string: the stack pointer, or `none` to go to `bad`. -/
def pushArg (d : Page) (arg : List Byte) (sp : Nat) : MemM (Option Nat) := do
  if !(← copyout d (arg.length + 1) (pushed sp arg.length % 2 ^ 32) (arg ++ [0])) then
    pure none
  else
    pure (some (pushed sp arg.length))

/-- Push the argument strings after `argc` others; `ustack` has the pointers pushed so far, the
    last one first. -/
def pushArgs (d : Page) : List (List Byte) → Nat → List Nat → Nat → MemM (Option (List Nat × Nat))
  | [], _, ustack, sp => pure (some (ustack, sp))
  | arg :: args, argc, ustack, sp =>
    if Vm.maxarg ≤ argc then
      pure none
    else do
      match ← pushArg d arg sp with
      | none => pure none
      | some sp => pushArgs d args (argc + 1) (sp :: ustack) sp

/-- The words that `exec` pushes last: a fake return PC, `argc`, the argument pointer and `argv`. -/
def stackWords (ustack : List Nat) (sp : Nat) : List Nat :=
  0xffffffff :: ustack.length :: Vm.sub64 sp ((ustack.length + 1) * 8) :: (ustack.reverse ++ [0])

def pushTable (d : Page) (ustack : List Nat) (sp : Nat) : MemM Bool :=
  let bytes := (stackWords ustack sp).flatMap le64
  copyout d bytes.length (Vm.sub64 sp bytes.length % 2 ^ 32) bytes

/-- Allocate a guard page and a stack page behind `sz`, and push the arguments: the size of the
    image, or `none` to go to `bad`. -/
def execStack (d : Page) (args : List (List Byte)) (sz : Nat) : MemM (Option Nat) := do
  let r ← allocuvm d (sz % 2 ^ 32) ((sz + 2 * pgsize) % 2 ^ 32)
  if r = 0 then
    pure none
  else do
    clearpteu d (Vm.sub64 (Vm.signExtend r) (2 * pgsize))
    match ← pushArgs d args 0 [] (Vm.signExtend r) with
    | none => pure none
    | some (ustack, sp) =>
      if !(← pushTable d ustack sp) then
        pure none
      else
        pure (some (Vm.signExtend r))

/-- The part of `exec` between `setupkvm` and the commitment to the new image. -/
def execImage (d : Page) (file : List Byte) (args : List (List Byte)) : MemM (Option Nat) := do
  match ← loadPhs d file (leNat file 32 8) (leNat file 56 2) 0 0 with
  | none => pure none
  | some sz => execStack d args (pgroundup sz)

def isElf (file : List Byte) : Bool :=
  decide (elfhdrSize ≤ file.length ∧ leNat file 0 4 = elfMagic)

/-- `exec` by process `p` of a file with the given contents. -/
def exec (p : Nat) (file : List Byte) (args : List (List Byte)) : MemM Int := do
  let q ← getProc p
  if !isElf file then
    pure (-1)
  else do
    let d ← setupkvm
    match ← execImage d file args with
    | none => do
      freevm d
      pure (-1)
    | some sz => do
      setProc p (some ⟨d, sz⟩)
      freevm q.pgdir
      pure 0

end Mem

end Xv6Memfs
