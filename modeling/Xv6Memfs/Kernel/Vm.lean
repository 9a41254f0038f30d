import Xv6Memfs.Kernel.Param
import Xv6Memfs.Lib.Exec

/-! # Virtual memory on X64

`kernel/kalloc.c`, `setupkvm` of `kernel/vm64.c`, the user half of `kernel/vm.c`, and their
callers: `growproc`, `fork`, `exec` and `wait`.  A page is its number, and a page directory
is known by the page it is in.

The core code knows two levels of page tables.  `setupkvm` makes four and leaves virtual
backpointers to the upper two, marked present, in entries 510 and 511 of the page directory;
code that follows one of these as a page table, or a null pointer, stops with `wild`.

`unsigned int` and `uintp` are numbers taken modulo `2 ^ 32` and `2 ^ 64` where they can
wrap.  Every virtual address that is passed to `walkpgdir` is recorded. -/

namespace Xv6Memfs

open Lib Function

def pgsize : Nat := 4096
def npdentries : Nat := 512
def nptentries : Nat := 512

/-- The entries of a page directory that are page tables; the last two are backpointers. -/
def ntables : Nat := npdentries - 2

def pdx (va : Nat) : Nat := va / 2 ^ 21 % 512

def ptx (va : Nat) : Nat := va / 2 ^ 12 % 512

theorem ptx_lt (va : Nat) : ptx va < nptentries := Nat.mod_lt _ (by decide)

def pgroundup (a : Nat) : Nat := (a + (pgsize - 1)) / pgsize * pgsize
def pgrounddown (a : Nat) : Nat := a / pgsize * pgsize

/-- The number of a physical page; no page has number 0. -/
abbrev Page : Type := Nat

/-- A page table entry that is present. -/
structure Pte where
  page : Page
  user : Bool
  deriving DecidableEq

structure PageTable where
  page : Page
  pte : Fin nptentries → Option Pte

structure PageDir where
  pml4 : Page
  pdpt : Page
  table : Fin ntables → Option PageTable

/-- The fields of `struct proc` that matter here. -/
structure VmProc where
  pgdir : Page
  sz : Nat
  deriving DecidableEq

structure Vm where
  freelist : List Page
  /-- the page directories in use -/
  dir : Page → Option PageDir
  proc : Nat → Option VmProc
  /-- the pages of kernel stacks and pipes -/
  kernel : List Page
  /-- history: the addresses passed to `walkpgdir`, the last one first -/
  walked : List Nat

/-- How the code stops: in a panic, or following a pointer that points nowhere. -/
inductive VmStop where
  | panic (p : Panic)
  | wild
  deriving DecidableEq

abbrev VmM : Type → Type := Exec Vm VmStop

namespace Vm

/-! ## kalloc.c -/

def kalloc : VmM (Option Page) := fun s =>
  match s.freelist with
  | [] => (.ok none, s)
  | p :: rest => (.ok (some p), { s with freelist := rest })

def kfree (p : Page) : VmM Unit := Exec.modify fun s => { s with freelist := p :: s.freelist }

/-! ## Page directories -/

def getDir (d : Page) : VmM PageDir := do
  match ← Exec.gets fun s => s.dir d with
  | some D => pure D
  | none => Exec.throw .wild

def setDir (d : Page) (D : Option PageDir) : VmM Unit :=
  Exec.modify fun s => { s with dir := update s.dir d D }

/-- Enter a page table in the directory. -/
def setTable (d : Page) (k : Fin ntables) (t : PageTable) : VmM Unit := do
  let D ← getDir d
  setDir d (some { D with table := update D.table k (some t) })

def getPte (d : Page) (k : Fin ntables) (j : Fin nptentries) : VmM (Option Pte) := do
  let D ← getDir d
  match D.table k with
  | some t => pure (t.pte j)
  | none => Exec.throw .wild

def setPte (d : Page) (k : Fin ntables) (j : Fin nptentries) (e : Option Pte) : VmM Unit := do
  let D ← getDir d
  match D.table k with
  | some t => setTable d k { t with pte := update t.pte j e }
  | none => Exec.throw .wild

/-- Set up the upper levels of a page table. -/
def setupkvm : VmM Page := do
  let pml4 ← kalloc
  let pdpt ← kalloc
  let pgdir ← kalloc
  match pml4, pdpt, pgdir with
  | some pml4, some pdpt, some pgdir =>
    setDir pgdir (some ⟨pml4, pdpt, fun _ => none⟩)
    pure pgdir
  -- the results of `kalloc` go to `memset` unchecked
  | _, _, _ => Exec.throw .wild

/-- The place of the PTE for `va`; with `alloc`, create the page table it needs. -/
def walkpgdir (d : Page) (va : Nat) (alloc : Bool) :
    VmM (Option (Fin ntables × Fin nptentries)) := do
  Exec.modify fun s => { s with walked := va :: s.walked }
  if h : pdx va < ntables then
    let k : Fin ntables := ⟨pdx va, h⟩
    let j : Fin nptentries := ⟨ptx va, Nat.mod_lt _ (by decide)⟩
    let D ← getDir d
    match D.table k with
    | some _ => pure (some (k, j))
    | none =>
      if !alloc then
        pure none
      else
        match ← kalloc with
        | none => pure none
        | some pgtab => do
          setTable d k ⟨pgtab, fun _ => none⟩
          pure (some (k, j))
  else
    -- a backpointer is followed as if it were a page table
    Exec.throw .wild

/-- Create the PTE for the page at `va`; all callers map one page at a time. -/
def mappages (d : Page) (va : Nat) (page : Page) (user : Bool) : VmM Bool := do
  match ← walkpgdir d va true with
  | none => pure false
  | some (k, j) =>
    if (← getPte d k j).isSome then
      Exec.throw (.panic .remap)
    else
      setPte d k j (some ⟨page, user⟩)
      pure true

/-! ## Growing and shrinking -/

def deallocLoop (d : Page) (oldsz : Nat) : Nat → Nat → VmM Unit
  | 0, _ => pure ()
  | fuel + 1, a =>
    if a < oldsz then do
      match ← walkpgdir d a false with
      | none => deallocLoop d oldsz fuel (a + (nptentries - 1) * pgsize + pgsize)
      | some (k, j) =>
        match ← getPte d k j with
        | none => pure ()
        | some e => do
          kfree e.page
          setPte d k j none
        deallocLoop d oldsz fuel (a + pgsize)
    else
      pure ()

/-- Deallocate user pages to bring the process size from `oldsz` to `newsz`. -/
def deallocuvm (d : Page) (oldsz newsz : Nat) : VmM Nat :=
  if oldsz ≤ newsz then
    pure oldsz
  else do
    deallocLoop d oldsz (oldsz / pgsize + 1) (pgroundup newsz)
    pure newsz

def allocLoop (d : Page) (oldsz newsz : Nat) : Nat → Nat → VmM Nat
  | 0, _ => pure newsz
  | fuel + 1, a =>
    if a < newsz then do
      match ← kalloc with
      | none => do
        let _ ← deallocuvm d newsz oldsz
        pure 0
      | some mem => do
        -- the result of `mappages` is not checked
        let _ ← mappages d a mem true
        allocLoop d oldsz newsz fuel (a + pgsize)
    else
      pure newsz

/-- Allocate page tables and physical memory to grow a process from `oldsz` to `newsz`.
    Returns the new size or 0 on error. -/
def allocuvm (d : Page) (oldsz newsz : Nat) : VmM Nat :=
  if newsz < oldsz then pure oldsz
  else allocLoop d oldsz newsz (newsz / pgsize + 1) (pgroundup oldsz)

/-- The loop of `freevm` over the page tables below `k`. -/
def freeTables (d : Page) : Nat → VmM Unit
  | 0 => pure ()
  | k + 1 => do
    freeTables d k
    let D ← getDir d
    if h : k < ntables then
      match D.table ⟨k, h⟩ with
      | some t => kfree t.page
      | none => pure ()

/-- Free a page table and all the physical memory pages in the user part. -/
def freevm (d : Page) : VmM Unit := do
  let _ ← deallocuvm d 0x3fa00000 0
  freeTables d ntables
  kfree d
  setDir d none

/-- Clear `PTE_U` on a page. -/
def clearpteu (d : Page) (uva : Nat) : VmM Unit := do
  match ← walkpgdir d uva false with
  | none => Exec.throw (.panic .clearpteu)
  | some (k, j) => do
    let e ← getPte d k j
    setPte d k j (e.map fun e => { e with user := false })

/-- The loop of `copyuvm`: whether all pages from `i` on could be copied to `d'`. -/
def copyLoop (d d' : Page) (sz : Nat) : Nat → Nat → VmM Bool
  | 0, _ => pure true
  | fuel + 1, i =>
    if i < sz then do
      match ← walkpgdir d i false with
      | none => Exec.throw (.panic .copyuvmPte)
      | some (k, j) =>
        match ← getPte d k j with
        | none => Exec.throw (.panic .copyuvmPage)
        | some e =>
          match ← kalloc with
          | none => pure false
          | some mem =>
            if !(← mappages d' i mem e.user) then
              pure false
            else
              copyLoop d d' sz fuel (i + pgsize)
    else
      pure true

/-- Given a parent's page table, create a copy of it for a child. -/
def copyuvm (d : Page) (sz : Nat) : VmM (Option Page) := do
  let d' ← setupkvm
  if ← copyLoop d d' sz (sz / pgsize + 1) 0 then
    pure (some d')
  else
    freevm d'
    pure none

/-! ## exec -/

/-- Whether `uva` can be mapped to a kernel address. -/
def uva2ka (d : Page) (uva : Nat) : VmM Bool := do
  match ← walkpgdir d uva false with
  | none => Exec.throw .wild
  | some (k, j) =>
    match ← getPte d k j with
    | none => pure false
    | some e => pure e.user

/-- Copy `len` bytes to user address `va`, in at most `fuel` pieces. -/
def copyout (d : Page) : Nat → Nat → Nat → VmM Bool
  | 0, _, _ => pure true
  | fuel + 1, va, len =>
    if 0 < len then do
      let va0 := pgrounddown va
      if !(← uva2ka d va0) then
        pure false
      else
        let n := min (pgsize - (va - va0)) len
        copyout d fuel ((va0 + pgsize) % 2 ^ 32) (len - n)
    else
      pure true

/-- Load a program segment of `sz` bytes at `addr`; `reads` says which page reads are complete. -/
def loadLoop (d : Page) (addr sz : Nat) (reads : Nat → Bool) : Nat → Nat → VmM Bool
  | 0, _ => pure true
  | fuel + 1, i =>
    if i < sz then do
      match ← walkpgdir d ((addr + i) % 2 ^ 64) false with
      | none => Exec.throw (.panic .loaduvmExist)
      | some (k, j) => do
        -- whether the entry is present is not asked
        let _ ← getPte d k j
        if !reads i then pure false
        else loadLoop d addr sz reads fuel (i + pgsize)
    else
      pure true

def loaduvm (d : Page) (addr sz : Nat) (reads : Nat → Bool) : VmM Bool :=
  if addr % pgsize ≠ 0 then Exec.throw (.panic .loaduvmAlign)
  else loadLoop d addr sz reads (sz / pgsize + 1) 0

end Vm

/-- A program header, and what becomes of the reads of its segment. -/
structure ProgHdr where
  /-- `type == ELF_PROG_LOAD` -/
  load : Bool
  vaddr : BitVec 64
  filesz : BitVec 64
  memsz : BitVec 64
  reads : Nat → Bool

/-- What `exec` is called with. -/
structure ExecFile where
  /-- the file exists, and its ELF header can be read and is one -/
  header : Bool
  /-- the program headers, up to the first that cannot be read -/
  phs : List ProgHdr
  /-- all of them could be read -/
  complete : Bool
  /-- the lengths of the argument strings -/
  args : List Nat

namespace Vm

def maxarg : Nat := 32

/-- The value of an `int` as a `uintp`. -/
def signExtend (r : Nat) : Nat := if r < 2 ^ 31 then r else r + (2 ^ 64 - 2 ^ 32)

/-- `a - n` in `uintp`. -/
def sub64 (a n : Nat) : Nat := (a + 2 ^ 64 - n) % 2 ^ 64

/-- Load the program into memory: the size reached, or `none` to go to `bad`. -/
def loadPhs (d : Page) : List ProgHdr → Nat → VmM (Option Nat)
  | [], sz => pure (some sz)
  | ph :: phs, sz =>
    if !ph.load then
      loadPhs d phs sz
    else if ph.memsz.toNat < ph.filesz.toNat then
      pure none
    else do
      let r ← allocuvm d (sz % 2 ^ 32) ((ph.vaddr.toNat + ph.memsz.toNat) % 2 ^ 32)
      if r = 0 then
        pure none
      else if !(← loaduvm d ph.vaddr.toNat (ph.filesz.toNat % 2 ^ 32) ph.reads) then
        pure none
      else
        loadPhs d phs (signExtend r)

/-- Push an argument string of `len` bytes: the stack pointer, or `none` to go to `bad`. -/
def pushArg (d : Page) (len sp : Nat) : VmM (Option Nat) := do
  let sp := sub64 sp (len + 1) / 8 * 8
  if !(← copyout d (len + 1) (sp % 2 ^ 32) (len + 1)) then
    pure none
  else
    pure (some sp)

/-- Push the argument strings with `push`, after `argc` others. -/
def pushArgs (push : Nat → Nat → VmM (Option Nat)) : List Nat → Nat → Nat → VmM (Option Nat)
  | [], _, sp => pure (some sp)
  | len :: args, argc, sp =>
    if maxarg ≤ argc then
      pure none
    else do
      match ← push len sp with
      | none => pure none
      | some sp => pushArgs push args (argc + 1) sp

/-- Push the fake return PC, `argc`, the argument pointer and the `argc + 1` entries of `argv`. -/
def pushTable (d : Page) (argc sp : Nat) : VmM Bool :=
  copyout d ((3 + argc + 1) * 8) (sub64 sp ((3 + argc + 1) * 8) % 2 ^ 32) ((3 + argc + 1) * 8)

/-- Allocate a guard page and a stack page behind `sz`, and push the arguments: the size of the
    image, or `none` to go to `bad`. -/
def execStack (d : Page) (args : List Nat) (sz : Nat) : VmM (Option Nat) := do
  let r ← allocuvm d (sz % 2 ^ 32) ((sz + 2 * pgsize) % 2 ^ 32)
  if r = 0 then
    pure none
  else do
    clearpteu d (sub64 (signExtend r) (2 * pgsize))
    match ← pushArgs (pushArg d) args 0 (signExtend r) with
    | none => pure none
    | some sp =>
      if !(← pushTable d args.length sp) then
        pure none
      else
        pure (some (signExtend r))

/-- The part of `exec` between `setupkvm` and the commitment to the new image. -/
def execImage (d : Page) (f : ExecFile) : VmM (Option Nat) := do
  match ← loadPhs d f.phs 0 with
  | none => pure none
  | some sz =>
    if !f.complete then
      pure none
    else
      execStack d f.args (pgroundup sz)

/-! ## Processes -/

def getProc (p : Nat) : VmM VmProc := do
  match ← Exec.gets fun s => s.proc p with
  | some q => pure q
  | none => Exec.throw .wild

def setProc (p : Nat) (q : Option VmProc) : VmM Unit :=
  Exec.modify fun s => { s with proc := update s.proc p q }

def growproc (p : Nat) (n : BitVec 32) : VmM Int := do
  let q ← getProc p
  let sz := q.sz % 2 ^ 32
  if 0 < n.toInt then
    let r ← allocuvm q.pgdir sz ((sz + n.toNat) % 2 ^ 32)
    if r = 0 then
      pure (-1)
    else
      setProc p (some { q with sz := r })
      pure 0
  else if n.toInt < 0 then
    let r ← deallocuvm q.pgdir sz ((sz + n.toNat) % 2 ^ 32)
    if r = 0 then
      pure (-1)
    else
      setProc p (some { q with sz := r })
      pure 0
  else
    setProc p (some { q with sz := sz })
    pure 0

/-- The memory part of `fork`; `np` is the new process. -/
def fork (p np : Nat) : VmM Int := do
  let q ← getProc p
  match ← copyuvm q.pgdir (q.sz % 2 ^ 32) with
  | none => pure (-1)
  | some d => do
    setProc np (some ⟨d, q.sz⟩)
    pure np

/-- The memory part of `exec`. -/
def exec (p : Nat) (f : ExecFile) : VmM Int := do
  let q ← getProc p
  if !f.header then
    pure (-1)
  else do
    let d ← setupkvm
    match ← execImage d f with
    | none => do
      freevm d
      pure (-1)
    | some sz => do
      setProc p (some ⟨d, sz⟩)
      freevm q.pgdir
      pure 0

/-- The memory part of `wait`, for a child that has exited. -/
def reap (p : Nat) : VmM Unit := do
  let q ← getProc p
  freevm q.pgdir
  setProc p none

/-- The memory part of `userinit`: the first process has one page. -/
def userinit : VmM Unit := do
  let d ← setupkvm
  match ← kalloc with
  | none => Exec.throw .wild
  | some mem => do
    let _ ← mappages d 0 mem true
    setProc 0 (some ⟨d, pgsize⟩)

/-- Before `userinit`, with the given pages free. -/
def empty (free : List Page) : Vm := ⟨free, fun _ => none, fun _ => none, [], []⟩

end Vm

/-- A call that works on address spaces, or another use of `kalloc` and `kfree`. -/
inductive VmAct where
  | sbrk (p : Nat) (n : BitVec 32)
  | fork (p np : Nat)
  | exec (p : Nat) (f : ExecFile)
  | reap (p : Nat)
  | take
  | give (page : Page)

open Vm in
def VmAct.body : VmAct → VmM Unit
  | sbrk p n => do let _ ← growproc p n
  | fork p np => do
    match ← Exec.gets fun s => s.proc np with
    -- a new process gets a free slot
    | some _ => Exec.throw .wild
    | none => let _ ← Vm.fork p np
  | exec p f => do let _ ← Vm.exec p f
  | reap p => Vm.reap p
  | take => do
    match ← kalloc with
    | none => pure ()
    | some page => Exec.modify fun s => { s with kernel := page :: s.kernel }
  | give page => do
    if page ∈ (← Exec.get).kernel then
      Exec.modify fun s => { s with kernel := s.kernel.erase page }
      kfree page
    else
      Exec.throw .wild

def vmStep (s : Vm) (a : VmAct) : Option Vm :=
  match a.body.run s with
  | (.ok _, t) => some t
  | (.error _, _) => none

end Xv6Memfs
