import Xv6Memfs.Kernel.Vm

/-! # Virtual memory with the contents of pages

The user half of `kernel/vm.c` and `growproc` once more, and `exec` in `Kernel.ExecImage`, now
with what `Kernel.Vm` leaves out: the flag bits of page table entries, the bytes in the pages,
the bytes of the file that `exec` loads and of the strings it pushes.  `Verified.PagingErase`
shows that without these the two are the same.

A page table is kept apart from the bytes of its page, and the link in the first word of a free
page is the order of `kmem.freelist`. -/

namespace Xv6Memfs

open Lib Function

/-- The flag bits of a page table entry, `PTE_FLAGS`. -/
abbrev Flags : Type := BitVec 12

def pteP : Flags := 0x001
def pteW : Flags := 0x002
def pteU : Flags := 0x004

/-- A page table entry: `PTE_ADDR` and `PTE_FLAGS`. -/
structure Entry where
  page : Page
  flags : Flags
  deriving DecidableEq

namespace Entry

def zero : Entry := ⟨0, 0⟩

/-- `(*pte & f) != 0` -/
def has (e : Entry) (f : Flags) : Bool := e.flags &&& f != 0

def present (e : Entry) : Bool := e.has pteP

end Entry

structure Table where
  page : Page
  entry : Fin nptentries → Entry

structure Dir where
  pml4 : Page
  pdpt : Page
  table : Fin ntables → Option Table

abbrev Contents : Type := Fin pgsize → Byte

def Contents.poke (c : Contents) (off : Nat) (bs : List Byte) : Contents := fun i =>
  if off ≤ i.val ∧ i.val < off + bs.length then bs.getD (i.val - off) 0 else c i

structure Mem where
  freelist : List Page
  /-- the page directories in use -/
  dir : Page → Option Dir
  data : Page → Contents
  proc : Nat → Option VmProc

abbrev MemM : Type → Type := Exec Mem VmStop

namespace Mem

/-! ## kalloc.c -/

def kalloc : MemM (Option Page) := fun s =>
  match s.freelist with
  | [] => (.ok none, s)
  | p :: rest => (.ok (some p), { s with freelist := rest })

def setData (p : Page) (c : Contents) : MemM Unit :=
  Exec.modify fun s => { s with data := update s.data p c }

def kfree (p : Page) : MemM Unit := do
  -- fill with junk to catch dangling refs
  setData p fun _ => 1
  Exec.modify fun s => { s with freelist := p :: s.freelist }

/-! ## Page directories -/

def getDir (d : Page) : MemM Dir := do
  match ← Exec.gets fun s => s.dir d with
  | some D => pure D
  | none => Exec.throw .wild

def setDir (d : Page) (D : Option Dir) : MemM Unit :=
  Exec.modify fun s => { s with dir := update s.dir d D }

/-- Enter a page table in the directory. -/
def setTable (d : Page) (k : Fin ntables) (t : Table) : MemM Unit := do
  let D ← getDir d
  setDir d (some { D with table := update D.table k (some t) })

def getPte (d : Page) (k : Fin ntables) (j : Fin nptentries) : MemM Entry := do
  let D ← getDir d
  match D.table k with
  | some t => pure (t.entry j)
  | none => Exec.throw .wild

def setPte (d : Page) (k : Fin ntables) (j : Fin nptentries) (e : Entry) : MemM Unit := do
  let D ← getDir d
  match D.table k with
  | some t => setTable d k { t with entry := update t.entry j e }
  | none => Exec.throw .wild

def setupkvm : MemM Page := do
  let pml4 ← kalloc
  let pdpt ← kalloc
  let pgdir ← kalloc
  match pml4, pdpt, pgdir with
  | some pml4, some pdpt, some pgdir =>
    setDir pgdir (some ⟨pml4, pdpt, fun _ => none⟩)
    pure pgdir
  -- the results of `kalloc` go to `memset` unchecked
  | _, _, _ => Exec.throw .wild

/-- The place of the PTE for `va`; with `alloc`, create the page table it needs. -/
def walkpgdir (d : Page) (va : Nat) (alloc : Bool) :
    MemM (Option (Fin ntables × Fin nptentries)) :=
  if h : pdx va < ntables then do
    let k : Fin ntables := ⟨pdx va, h⟩
    let j : Fin nptentries := ⟨ptx va, ptx_lt va⟩
    let D ← getDir d
    match D.table k with
    | some _ => pure (some (k, j))
    | none =>
      if !alloc then
        pure none
      else
        match ← kalloc with
        | none => pure none
        | some pgtab => do
          setTable d k ⟨pgtab, fun _ => .zero⟩
          pure (some (k, j))
  else
    -- a backpointer is followed as if it were a page table
    Exec.throw .wild

/-- Create the PTE for the page at `va`; all callers map one page at a time. -/
def mappages (d : Page) (va : Nat) (page : Page) (perm : Flags) : MemM Bool := do
  match ← walkpgdir d va true with
  | none => pure false
  | some (k, j) =>
    if (← getPte d k j).present then
      Exec.throw (.panic .remap)
    else
      setPte d k j ⟨page, perm ||| pteP⟩
      pure true

/-! ## Growing and shrinking -/

/-- Free the page of a PTE and clear it. -/
def unmap (d : Page) (k : Fin ntables) (j : Fin nptentries) : MemM Unit := do
  let e ← getPte d k j
  if e.present then
    kfree e.page
    setPte d k j .zero

def deallocLoop (d : Page) (oldsz : Nat) : Nat → Nat → MemM Unit
  | 0, _ => pure ()
  | fuel + 1, a =>
    if a < oldsz then do
      match ← walkpgdir d a false with
      | none => deallocLoop d oldsz fuel (a + (nptentries - 1) * pgsize + pgsize)
      | some (k, j) => do
        unmap d k j
        deallocLoop d oldsz fuel (a + pgsize)
    else
      pure ()

def deallocuvm (d : Page) (oldsz newsz : Nat) : MemM Nat :=
  if oldsz ≤ newsz then
    pure oldsz
  else do
    deallocLoop d oldsz (oldsz / pgsize + 1) (pgroundup newsz)
    pure newsz

def allocLoop (d : Page) (oldsz newsz : Nat) : Nat → Nat → MemM Nat
  | 0, _ => pure newsz
  | fuel + 1, a =>
    if a < newsz then do
      match ← kalloc with
      | none => do
        let _ ← deallocuvm d newsz oldsz
        pure 0
      | some mem => do
        setData mem fun _ => 0
        -- the result of `mappages` is not checked
        let _ ← mappages d a mem (pteW ||| pteU)
        allocLoop d oldsz newsz fuel (a + pgsize)
    else
      pure newsz

def allocuvm (d : Page) (oldsz newsz : Nat) : MemM Nat :=
  if newsz < oldsz then pure oldsz
  else allocLoop d oldsz newsz (newsz / pgsize + 1) (pgroundup oldsz)

def freeTables (d : Page) : Nat → MemM Unit
  | 0 => pure ()
  | k + 1 => do
    freeTables d k
    let D ← getDir d
    if h : k < ntables then
      match D.table ⟨k, h⟩ with
      | some t => kfree t.page
      | none => pure ()

def freevm (d : Page) : MemM Unit := do
  let _ ← deallocuvm d 0x3fa00000 0
  freeTables d ntables
  kfree d
  setDir d none

def clearpteu (d : Page) (uva : Nat) : MemM Unit := do
  match ← walkpgdir d uva false with
  | none => Exec.throw (.panic .clearpteu)
  | some (k, j) => do
    let e ← getPte d k j
    setPte d k j { e with flags := e.flags &&& ~~~pteU }

/-- Copy a page to `d'`; fails when memory runs out. -/
def copyPage (d' : Page) (i : Nat) (e : Entry) : MemM Bool := do
  match ← kalloc with
  | none => pure false
  | some mem => do
    let s ← Exec.get
    setData mem (s.data e.page)
    mappages d' i mem e.flags

/-- The loop of `copyuvm`: whether all pages from `i` on could be copied to `d'`. -/
def copyLoop (d d' : Page) (sz : Nat) : Nat → Nat → MemM Bool
  | 0, _ => pure true
  | fuel + 1, i =>
    if i < sz then do
      match ← walkpgdir d i false with
      | none => Exec.throw (.panic .copyuvmPte)
      | some (k, j) => do
        let e ← getPte d k j
        if !e.present then
          Exec.throw (.panic .copyuvmPage)
        else if !(← copyPage d' i e) then
          pure false
        else
          copyLoop d d' sz fuel (i + pgsize)
    else
      pure true

def copyuvm (d : Page) (sz : Nat) : MemM (Option Page) := do
  let d' ← setupkvm
  if ← copyLoop d d' sz (sz / pgsize + 1) 0 then
    pure (some d')
  else
    freevm d'
    pure none

/-! ## Processes -/

def getProc (p : Nat) : MemM VmProc := do
  match ← Exec.gets fun s => s.proc p with
  | some q => pure q
  | none => Exec.throw .wild

def setProc (p : Nat) (q : Option VmProc) : MemM Unit :=
  Exec.modify fun s => { s with proc := update s.proc p q }

/-- The end of `growproc`: `r` is the new size, 0 on failure. -/
def resize (p : Nat) (q : VmProc) (r : Nat) : MemM Int :=
  if r = 0 then
    pure (-1)
  else do
    setProc p (some { q with sz := r })
    pure 0

def growproc (p : Nat) (n : BitVec 32) : MemM Int := do
  let q ← getProc p
  let sz := q.sz % 2 ^ 32
  if 0 < n.toInt then do
    let r ← allocuvm q.pgdir sz ((sz + n.toNat) % 2 ^ 32)
    resize p q r
  else if n.toInt < 0 then do
    let r ← deallocuvm q.pgdir sz ((sz + n.toNat) % 2 ^ 32)
    resize p q r
  else do
    setProc p (some { q with sz := sz })
    pure 0

/-! ## What a page directory maps -/

/-- Page table `k` of the directory. -/
def tableAt (s : Mem) (d : Page) (k : Nat) : Option Table :=
  if h : k < ntables then (s.dir d).bind fun D => D.table ⟨k, h⟩ else none

/-- The entry of page number `i`, if it is present. -/
def pte (s : Mem) (d : Page) (i : Nat) : Option Entry :=
  (s.tableAt d (i / nptentries)).bind fun t =>
    let e := t.entry ⟨i % nptentries, Nat.mod_lt _ (by decide)⟩
    if e.present then some e else none

/-- The entry that maps `va` for user code. -/
def userEntry (s : Mem) (d : Page) (va : Nat) : Option Entry :=
  (s.pte d (va / pgsize)).filter (·.has pteU)

/-- The byte that user code reads at `va`; `none` for a page fault. -/
def load (s : Mem) (d : Page) (va : Nat) : Option Byte :=
  (s.userEntry d va).map fun e => s.data e.page ⟨va % pgsize, Nat.mod_lt _ (by decide)⟩

/-- User code writes a byte at `va`; nothing happens in a page fault. -/
def store (s : Mem) (d : Page) (va : Nat) (b : Byte) : Mem :=
  match s.userEntry d va with
  | some e =>
    if e.has pteW then
      { s with data := update s.data e.page ((s.data e.page).poke (va % pgsize) [b]) }
    else
      s
  | none => s

end Mem

end Xv6Memfs
