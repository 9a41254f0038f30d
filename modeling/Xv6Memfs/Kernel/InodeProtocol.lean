import Xv6Memfs.Kernel.Call

/-! # The inode layer with several processes

`ilock`, `iput` and `ialloc` let other processes run in their middle: between setting
`I_BUSY` and reading the inode, around the steps that free an inode, and between marking an
inode on disk and `iget`.  The pieces between these points are functions of their own here.
A process does one piece at a time; what it does with an inode whose `I_BUSY` it has set
(`writei`, `readi` and the updates by system calls) is one piece too, because no other
process can look at that inode then. -/

namespace Xv6Memfs

open Lib Lib.Exec Function

namespace Fs

/-- `ilock` up to the release of `icache.lock`. -/
def ilockBegin (ip : Fin ninode) : FsM Unit := do
  let i ← gets fun s => s.icache ip
  if i.ref < 1 then
    throw (.panic .ilock)
  else if i.busy then
    throw .sleep
  else
    setInode ip fun i => { i with busy := true }

/-- The rest of `ilock`. -/
def ilockLoad (ip : Fin ninode) : FsM Unit := do
  let i ← gets fun s => s.icache ip
  if !i.valid then
    let bp ← bread i.dev (iblock i.inum)
    setInode ip fun i => { i with valid := true, node := bp.dinode (i.inum % ipb) }
    if (bp.dinode (i.inum % ipb)).type = 0 then
      throw (.panic .ilockNoType)

/-- `iput` up to the first release of `icache.lock`; `true` if the inode is to be freed. -/
def iputBegin (ip : Fin ninode) : FsM Bool := do
  let i ← gets fun s => s.icache ip
  if i.ref = 1 ∧ i.valid ∧ i.node.nlink = 0 then
    if i.busy then
      throw (.panic .iputBusy)
    setInode ip fun i => { i with busy := true }
    pure true
  else
    setInode ip fun i => { i with ref := i.ref - 1 }
    pure false

/-- `ip->type = 0; iupdate(ip);` in `iput`. -/
def iputFree (ip : Fin ninode) : FsM Unit := do
  setNode ip fun d => { d with type := 0 }
  iupdate ip

/-- `iput` from the second `acquire` of `icache.lock` on. -/
def iputEnd (ip : Fin ninode) : FsM Unit := do
  setInode ip fun i => { i with busy := false, valid := false }
  setInode ip fun i => { i with ref := i.ref - 1 }

/-- One turn of the loop of `ialloc`; `true` if the inode was free and is allocated now. -/
def iallocTry (dev : Nat) (type : BitVec 16) (inum : Nat) : FsM Bool := do
  let bp ← bread dev (iblock inum)
  if (bp.dinode (inum % ipb)).type = 0 then
    -- mark it allocated on the disk
    logWrite (iblock inum) (bp.setDinode (inum % ipb) { Dinode.zero with type := type })
    pure true
  else
    pure false

/-- `ilock` reads the flags once, its second half once more; in between only `I_BUSY` changes. -/
theorem ilock_eq (ip : Fin ninode) : ilock ip = (do ilockBegin ip; ilockLoad ip) := by
  funext s
  change run (ilock ip) s = run (ilockBegin ip >>= fun _ => ilockLoad ip) s
  rw [ilock, ilockBegin, bind_bind, run_bind_ok (run_gets _ s), run_bind_ok (run_gets _ s)]
  by_cases href : (s.icache ip).ref < 1
  · rw [if_pos href, if_pos href]
    rfl
  · by_cases hbusy : (s.icache ip).busy
    · rw [if_neg href, if_neg href, if_pos hbusy, if_pos hbusy]
      rfl
    · rw [if_neg href, if_neg href, if_neg hbusy, if_neg hbusy, setInode,
        run_bind_ok (run_modify _ s), run_bind_ok (run_modify _ s), ilockLoad,
        run_bind_ok (run_gets _ _)]
      simp only [update_self]

theorem iput_eq (ip : Fin ninode) : iput ip = (do
    if ← iputBegin ip then
      itrunc ip
      iputFree ip
      iputEnd ip) := by
  rw [iput, iputBegin, bind_bind]
  congr
  funext i
  by_cases hfree : i.ref = 1 ∧ i.valid ∧ i.node.nlink = 0
  · by_cases hbusy : i.busy
    · simp only [hfree, hbusy, and_self, if_true, bind_bind]
      rfl
    · simp only [hfree, hbusy, and_self, if_true, if_false, Bool.false_eq_true, bind_bind, iputFree,
        iputEnd, pure_then]
  · simp only [hfree, if_false, bind_bind, pure_then, Bool.false_eq_true]
    rfl

theorem iallocScan_eq (dev : Nat) (type : BitVec 16) (n inum : Nat) :
    iallocScan dev type (n + 1) inum = (do
      if ← iallocTry dev type inum then
        iget dev inum
      else
        iallocScan dev type n (inum + 1)) := by
  rw [iallocScan, iallocTry, bind_bind]
  congr
  funext bp
  by_cases hfree : (bp.dinode (inum % ipb)).type = 0
  · simp only [hfree, if_true, bind_bind, pure_then]
  · simp only [hfree, if_false, pure_then, Bool.false_eq_true]

end Fs

/-! ## Processes -/

inductive InodePc where
  | idle
  /-- in `ilock`, with `I_BUSY` set -/
  | locking (ip : Fin ninode)
  /-- in `iput`, before `itrunc` -/
  | truncating (ip : Fin ninode)
  /-- in `iput`, before `ip->type = 0` -/
  | freeing (ip : Fin ninode)
  /-- in `iput`, before the second `acquire` -/
  | dropping (ip : Fin ninode)
  /-- in the loop of `ialloc`, with `n` more inodes to look at -/
  | scanning (type : BitVec 16) (inum n : Nat)
  /-- in `ialloc`, before `iget` -/
  | allocated (inum : Nat)

/-- `refs p ip` counts the references to `ip` that `p` has got from `iget`, `idup` and
    `ialloc` and not given back.  `owner ip` is the process that has set `I_BUSY`. -/
structure InodeSys (P : Type) where
  fs : Fs
  pc : P → InodePc
  refs : P → Fin ninode → Nat
  owner : Fin ninode → Option P

inductive InodeAct where
  | beginOp
  | endOp
  | iget (inum : Nat)
  | idup (ip : Fin ninode)
  | ilock (ip : Fin ninode)
  | iunlock (ip : Fin ninode)
  | iput (ip : Fin ninode)
  | ialloc (type : BitVec 16)
  /-- assignments to fields of a locked inode, and `iupdate` -/
  | update (ip : Fin ninode) (a : Attrs)
  | readi (ip : Fin ninode) (off n : Nat)
  | writei (ip : Fin ninode) (src : List Byte) (off : Nat)
  /-- the next piece of the call that the process is in -/
  | resume

namespace InodeSys

variable {P : Type} [DecidableEq P]

def setPc (s : InodeSys P) (p : P) (c : InodePc) : InodeSys P :=
  { s with pc := update s.pc p c }

def setRefs (s : InodeSys P) (p : P) (ip : Fin ninode) (n : Nat) : InodeSys P :=
  { s with refs := update s.refs p (update (s.refs p) ip n) }

def setOwner (s : InodeSys P) (ip : Fin ninode) (o : Option P) : InodeSys P :=
  { s with owner := update s.owner ip o }

/-- Run a piece of kernel code; a panic stops the machine, and a process that sleeps does not
    move. -/
def exec {α : Type} (s : InodeSys P) (m : FsM α) (k : α → InodeSys P → InodeSys P) :
    Option (InodeSys P) :=
  match run m s.fs with
  | (.ok a, fs) => some (k a { s with fs := fs })
  | (.error _, _) => none

def gain (p : P) (ip : Fin ninode) (s : InodeSys P) : InodeSys P :=
  s.setRefs p ip (s.refs p ip + 1)

def lose (p : P) (ip : Fin ninode) (s : InodeSys P) : InodeSys P :=
  s.setRefs p ip (s.refs p ip - 1)

/-- Process `p` calls a function of the inode layer. -/
def call (s : InodeSys P) (p : P) : InodeAct → Option (InodeSys P)
  | .beginOp => s.exec Fs.beginOp fun _ t => t
  | .endOp => s.exec Fs.endOp fun _ t => t
  | .iget inum => s.exec (Fs.iget rootdev inum) fun ip => gain p ip
  | .idup ip => s.exec (Fs.idup ip) fun ip => gain p ip
  | .ilock ip => s.exec (Fs.ilockBegin ip) fun _ t =>
      (t.setOwner ip (some p)).setPc p (.locking ip)
  | .iunlock ip => s.exec (Fs.iunlock ip) fun _ t => t.setOwner ip none
  | .iput ip => s.exec (Fs.iputBegin ip) fun free t =>
      if free then (t.setOwner ip (some p)).setPc p (.truncating ip) else lose p ip t
  | .ialloc type => s.exec (Fs.readsb rootdev) fun sb t =>
      t.setPc p (.scanning type 1 (sb.ninodes - 1))
  | .update ip a => s.exec (Fs.update ip a) fun _ t => t
  | .readi ip off n => s.exec (Fs.readi ip off n) fun _ t => t
  | .writei ip src off => s.exec (Fs.writei ip src off) fun _ t => t
  | .resume => none

/-- Process `p` goes on with the call it is in. -/
def proceed (s : InodeSys P) (p : P) : Option (InodeSys P) :=
  match s.pc p with
  | .idle => none
  | .locking ip => s.exec (Fs.ilockLoad ip) fun _ t => t.setPc p .idle
  | .truncating ip => s.exec (Fs.itrunc ip) fun _ t => t.setPc p (.freeing ip)
  | .freeing ip => s.exec (Fs.iputFree ip) fun _ t => t.setPc p (.dropping ip)
  | .dropping ip => s.exec (Fs.iputEnd ip) fun _ t =>
      ((lose p ip t).setOwner ip none).setPc p .idle
  | .scanning _ _ 0 => none
  | .scanning type inum (n + 1) => s.exec (Fs.iallocTry rootdev type inum) fun found t =>
      t.setPc p (if found then .allocated inum else .scanning type (inum + 1) n)
  | .allocated inum => s.exec (Fs.iget rootdev inum) fun ip t => (gain p ip t).setPc p .idle

/-- What the callers of the inode layer see to: they use an inode only while they have a
    reference, read and change it only while it is locked, and do not drop a locked one. -/
def mayCall (g : Superblock) (s : InodeSys P) (p : P) : InodeAct → Prop
  | .iget inum => inum < g.ninodes
  | .idup ip => s.refs p ip > 0
  | .ilock ip => s.refs p ip > 0
  | .iput ip => s.refs p ip > 0 ∧ s.owner ip ≠ some p
  | .ialloc type => type ≠ 0
  | .iunlock ip | .update ip _ => s.owner ip = some p
  | .readi ip off n => s.owner ip = some p ∧ off < 2 ^ 32 ∧ n < 2 ^ 32
  | .writei ip src off => s.owner ip = some p ∧ off < 2 ^ 32 ∧ src.length < 2 ^ 32
  | .beginOp | .endOp | .resume => True

def step (s : InodeSys P) (a : P × InodeAct) : Option (InodeSys P) :=
  match s.pc a.1 with
  | .idle => s.call a.1 a.2
  | _ => match a.2 with
    | .resume => s.proceed a.1
    | _ => none

end InodeSys

end Xv6Memfs
