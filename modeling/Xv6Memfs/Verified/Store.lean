import Xv6Memfs.Lib.Prog
import Xv6Memfs.Verified.InodeCalls

/-! # The inode layer as its callers see it

What directories, files and system calls need of the inode layer is small: inodes with a type,
some attributes and a list of bytes, and a table of references to them.  `Store` is that machine.
It answers the same calls as `fs.c` does, without blocks, bitmap, log and buffers.

Two things are left out.  The resources are: a call of `fs.c` can stop because the log or the disk
is full, and one of `Store` cannot.  So that programs that need no resources can be told apart,
`Store.exec` has a strict mode, in which the calls that need some have no answer.  And callers that
use an inode without a reference or a lock have no answer either: there the fault is `none`. -/

namespace Xv6Memfs.Verified

open Lib Lib.Exec Function

@[ext] structure Node where
  type : BitVec 16
  attrs : Attrs
  data : List Byte
  deriving DecidableEq

namespace Node

def free : Node := ⟨0, ⟨0, 0, 0, 0⟩, []⟩

/-- An inode as `ialloc` makes it. -/
def fresh (type : BitVec 16) : Node := ⟨type, ⟨0, 0, 0, 0⟩, []⟩

/-- The contents after `src` has been stored at offset `off`. -/
def write (n : Node) (off : Nat) (src : List Byte) : Node :=
  { n with data := n.data.take off ++ src ++ n.data.drop (off + src.length) }

end Node

@[ext] structure Store where
  node : Nat → Node
  slot : Fin ninode → Slot
  devsw : Fin ndev → Device

namespace Store

/-- A computation on a store; the fault `none` says that the call has no answer. -/
abbrev M : Type → Type := Exec Store (Option Stop)

def setSlot (a : Store) (ip : Fin ninode) (v : Slot) : Store :=
  { a with slot := update a.slot ip v }

def setNode (a : Store) (i : Nat) (n : Node) : Store :=
  { a with node := update a.node i n }

def inode (a : Store) (ip : Fin ninode) : Node := a.node (a.slot ip).inum

/-- The slot is in use and its inode has been read. -/
def Held (a : Store) (ip : Fin ninode) : Prop := (a.slot ip).ref > 0 ∧ (a.slot ip).valid = true

instance (a : Store) (ip : Fin ninode) : Decidable (a.Held ip) := inferInstanceAs (Decidable (_ ∧ _))

def Last (a : Store) (ip : Fin ninode) : Prop :=
  (a.slot ip).ref = 1 ∧ (a.slot ip).valid = true ∧ (a.inode ip).attrs.nlink = 0

instance (a : Store) (ip : Fin ninode) : Decidable (a.Last ip) := inferInstanceAs (Decidable (_ ∧ _))

def firstFree (a : Store) (ninodes : Nat) : Option Nat :=
  (List.range' 1 (ninodes - 1)).find? fun i => (a.node i).type = 0

def info (a : Store) (ip : Fin ninode) : Info :=
  ⟨(a.slot ip).dev, (a.slot ip).inum, (a.inode ip).type, (a.inode ip).attrs, (a.inode ip).data.length⟩

theorem lt_ndev {major : BitVec 16} (h : 0 ≤ major.toInt ∧ major.toInt.toNat < ndev) :
    major.toInt.toNat < ndev := h.2

def device (a : Store) (major : BitVec 16) : Option Device :=
  if h : 0 ≤ major.toInt ∧ major.toInt.toNat < ndev then
    some (a.devsw ⟨major.toInt.toNat, lt_ndev h⟩)
  else
    none

def iget (ninodes dev inum : Nat) : M (Fin ninode) := do
  let a ← get
  if dev = rootdev ∧ inum < ninodes then
    match igetSlot a.slot dev inum with
    | some (ip, v) => do
      modify (·.setSlot ip v)
      pure ip
    | none => throw (some (.panic .igetNoInodes))
  else
    throw none

def idup (ip : Fin ninode) : M (Fin ninode) := do
  let a ← get
  if (a.slot ip).ref > 0 then
    modify (·.setSlot ip { a.slot ip with ref := (a.slot ip).ref + 1 })
    pure ip
  else
    throw none

def ilock (ip : Fin ninode) : M Unit := do
  let a ← get
  if (a.slot ip).ref < 1 then
    throw (some (.panic .ilock))
  else if (a.slot ip).busy then
    throw (some .sleep)
  else if (a.slot ip).valid = false ∧ (a.inode ip).type = 0 then
    throw (some (.panic .ilockNoType))
  else
    modify (·.setSlot ip { a.slot ip with busy := true, valid := true })

def iunlock (ip : Fin ninode) : M Unit := do
  let a ← get
  if (a.slot ip).busy = false ∨ (a.slot ip).ref < 1 then
    throw (some (.panic .iunlock))
  else
    modify (·.setSlot ip { a.slot ip with busy := false })

def iput (strict : Bool) (ip : Fin ninode) : M Unit := do
  let a ← get
  if (a.slot ip).ref = 0 then
    throw none
  else if a.Last ip then
    if (a.slot ip).busy then
      throw (some (.panic .iputBusy))
    else if strict then
      throw none
    else
      modify fun a => (a.setNode (a.slot ip).inum .free).setSlot ip (a.slot ip).dropped
  else
    modify (·.setSlot ip { a.slot ip with ref := (a.slot ip).ref - 1 })

/-- Inode `i` becomes an inode of the given type, with a reference. -/
def take (type : BitVec 16) (i : Nat) : M (Fin ninode) := do
  let a ← get
  match igetSlot a.slot rootdev i with
  | none => throw (some (.panic .igetNoInodes))
  | some (ip, v) => do
    modify fun a => (a.setNode i (.fresh type)).setSlot ip v
    pure ip

def ialloc (ninodes dev : Nat) (type : BitVec 16) : M (Fin ninode) := do
  let a ← get
  if dev = rootdev ∧ type ≠ 0 then
    match a.firstFree ninodes with
    | none => throw (some (.panic .iallocNoInodes))
    | some i => take type i
  else
    throw none

def update (ip : Fin ninode) (new : Attrs) : M Unit := do
  let a ← get
  if a.Held ip then
    modify (·.setNode (a.slot ip).inum { a.inode ip with attrs := new })
  else
    throw none

def readi (ip : Fin ninode) (off n : Nat) : M (Option (List Byte)) := do
  let a ← get
  if a.Held ip ∧ off < 2 ^ 32 ∧ n < 2 ^ 32 then
    if (a.inode ip).type = tDev then
      pure (((a.device (a.inode ip).attrs.major).bind (·.read)).bind fun read => read n)
    else if (a.inode ip).data.length < off ∨ 2 ^ 32 ≤ off + n then
      pure none
    else
      pure (some (((a.inode ip).data.drop off).take n))
  else
    throw none

def writei (strict : Bool) (ip : Fin ninode) (src : List Byte) (off : Nat) : M (Option Nat) := do
  let a ← get
  if a.Held ip ∧ off < 2 ^ 32 ∧ src.length < 2 ^ 32 then
    if (a.inode ip).type = tDev then
      pure (((a.device (a.inode ip).attrs.major).bind (·.write)).bind fun write => write src)
    else if (a.inode ip).data.length < off ∨ maxfile * bsize < off + src.length then
      pure none
    else if strict then
      throw none
    else do
      modify (·.setNode (a.slot ip).inum ((a.inode ip).write off src))
      pure (some src.length)
  else
    throw none

/-- A call that needs resources has no answer in strict mode. -/
def spend {α : Type} (strict : Bool) (m : M α) : M α := if strict then throw none else m

/-- The answer to a call. -/
def exec (ninodes : Nat) (strict : Bool) : (c : Call) → M c.Res
  | .beginOp => spend strict (pure ())
  | .endOp => spend strict (pure ())
  | .iget dev inum => iget ninodes dev inum
  | .idup ip => idup ip
  | .ilock ip => ilock ip
  | .iunlock ip => iunlock ip
  | .iput ip => iput strict ip
  | .ialloc dev type => spend strict (ialloc ninodes dev type)
  | .info ip => do
    let a ← get
    if a.Held ip then pure (a.info ip) else throw none
  | .update ip new => spend strict (update ip new)
  | .readi ip off n => readi ip off n
  | .writei ip src off => writei strict ip src off

/-! ## What the calls return -/

section

variable {a : Store} {ip : Fin ninode} {ninodes : Nat} {strict : Bool}

theorem run_iget {dev inum : Nat} : run (iget ninodes dev inum) a =
    if dev = rootdev ∧ inum < ninodes then
      match igetSlot a.slot dev inum with
      | some (ip, v) => (.ok ip, a.setSlot ip v)
      | none => (.error (some (.panic .igetNoInodes)), a)
    else (.error none, a) := by
  rw [iget, run_bind_ok (run_get a), run_ite]
  split
  · match igetSlot a.slot dev inum with
    | some (ip, v) => rfl
    | none => rfl
  · rfl

theorem run_idup : run (idup ip) a =
    if (a.slot ip).ref > 0 then (.ok ip, a.setSlot ip { a.slot ip with ref := (a.slot ip).ref + 1 })
    else (.error none, a) := by
  rw [idup, run_bind_ok (run_get a), run_ite]
  rfl

theorem run_ilock : run (ilock ip) a =
    if (a.slot ip).ref < 1 then (.error (some (.panic .ilock)), a)
    else if (a.slot ip).busy then (.error (some .sleep), a)
    else if (a.slot ip).valid = false ∧ (a.inode ip).type = 0 then
      (.error (some (.panic .ilockNoType)), a)
    else (.ok (), a.setSlot ip { a.slot ip with busy := true, valid := true }) := by
  rw [ilock, run_bind_ok (run_get a)]
  simp only [run_ite, run_throw, run_modify]

theorem run_iunlock : run (iunlock ip) a =
    if (a.slot ip).busy = false ∨ (a.slot ip).ref < 1 then (.error (some (.panic .iunlock)), a)
    else (.ok (), a.setSlot ip { a.slot ip with busy := false }) := by
  rw [iunlock, run_bind_ok (run_get a)]
  simp only [run_ite, run_throw, run_modify]

theorem run_iput : run (iput strict ip) a = if (a.slot ip).ref = 0 then (.error none, a)
    else if a.Last ip then if (a.slot ip).busy then (.error (some (.panic .iputBusy)), a)
      else if strict then (.error none, a)
      else (.ok (), (a.setNode (a.slot ip).inum .free).setSlot ip (a.slot ip).dropped)
    else (.ok (), a.setSlot ip { a.slot ip with ref := (a.slot ip).ref - 1 }) := by
  rw [iput, run_bind_ok (run_get a)]
  simp only [run_ite, run_throw, run_modify]

theorem run_take {type : BitVec 16} {i : Nat} : run (take type i) a =
    match igetSlot a.slot rootdev i with
    | none => (.error (some (.panic .igetNoInodes)), a)
    | some (ip, v) => (.ok ip, (a.setNode i (.fresh type)).setSlot ip v) := by
  rw [take, run_bind_ok (run_get a)]
  match igetSlot a.slot rootdev i with
  | some (ip, v) => rfl
  | none => rfl

theorem run_ialloc {dev : Nat} {type : BitVec 16} : run (ialloc ninodes dev type) a =
    if dev = rootdev ∧ type ≠ 0 then
      match a.firstFree ninodes with
      | none => (.error (some (.panic .iallocNoInodes)), a)
      | some i => run (take type i) a
    else (.error none, a) := by
  rw [ialloc, run_bind_ok (run_get a), run_ite]
  split
  · match a.firstFree ninodes with
    | none => rfl
    | some i => rfl
  · rfl

theorem run_update {new : Attrs} : run (update ip new) a =
    if a.Held ip then (.ok (), a.setNode (a.slot ip).inum { a.inode ip with attrs := new })
    else (.error none, a) := by
  rw [update, run_bind_ok (run_get a), run_ite]
  rfl

theorem run_writei {src : List Byte} {off : Nat} (hheld : a.Held ip) (hoff : off < 2 ^ 32)
    (hsrc : src.length < 2 ^ 32) (htype : (a.inode ip).type ≠ tDev) : run (writei strict ip src off) a =
      if (a.inode ip).data.length < off ∨ maxfile * bsize < off + src.length then (.ok none, a)
      else if strict then (.error none, a)
      else (.ok (some src.length), a.setNode (a.slot ip).inum ((a.inode ip).write off src)) := by
  rw [writei, run_bind_ok (run_get a), run_ite, if_pos ⟨hheld, hoff, hsrc⟩, run_ite, if_neg htype]
  simp only [run_ite, run_throw, run_pure]
  rfl

end

end Store

end Xv6Memfs.Verified
