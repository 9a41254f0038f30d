import Xv6Memfs.Kernel.Inode

/-! # The inode layer

The functions of `kernel/fs.c` below directories, as one process runs them.  A buffer is
held only between a `bread` and the `brelse` of the same function, so `bread` is a read of
the block and `log_write` the write of its new contents. -/

namespace Xv6Memfs

open Lib Lib.Exec Function

/-- Kernel code over the file system. -/
abbrev FsM : Type → Type := Exec Fs Stop

namespace Fs

/-- `bread(dev, b)->data`, with the checks of `iderw`. -/
def bread (dev b : Nat) : FsM Block := do
  let s ← get
  if dev ≠ rootdev then
    throw (.panic .iderwNotDisk1)
  else if b ≥ s.disksize then
    throw (.panic .iderwOutOfRange)
  else
    pure (s.disk b)

/-- `log_write` of the buffer of block `b`, whose contents are now `v`. -/
def logWrite (b : Nat) (v : Block) : FsM Unit := fun s =>
  match s.log.logWriteCheck with
  | .error e => (.error e, s)
  | .ok () => (.ok (), { s with disk := update s.disk b v, log := s.log.logWrite b })

def setInode (ip : Fin ninode) (f : Inode → Inode) : FsM Unit :=
  modify fun s => { s with icache := update s.icache ip (f (s.icache ip)) }

def setNode (ip : Fin ninode) (f : Dinode → Dinode) : FsM Unit :=
  setInode ip fun i => { i with node := f i.node }

def readsb (dev : Nat) : FsM Superblock := do
  let bp ← bread dev 1
  pure ⟨(bp.word 0).toNat, (bp.word 1).toNat, (bp.word 2).toNat, (bp.word 3).toNat⟩

def bzero (dev bno : Nat) : FsM Unit := do
  let _ ← bread dev bno
  logWrite bno 0

/-! ## Blocks -/

/-- The first clear bit among the first `n` of a bitmap block. -/
def firstClear (bp : Block) (n : Nat) : Option Nat := (List.range n).find? fun bi => !bp.bit bi

/-- The loop of `balloc` from block `b` on, for at most `n` bitmap blocks. -/
def ballocScan (dev : Nat) (sb : Superblock) : Nat → Nat → FsM Nat
  | 0, _ => throw (.panic .ballocOutOfBlocks)
  | n + 1, b => do
    if b < sb.size then
      let bp ← bread dev (bblock b sb.ninodes)
      match firstClear bp (min bpb (sb.size - b)) with
      | some bi =>
        -- Mark block in use.
        logWrite (bblock b sb.ninodes) (bp.setBit bi true)
        bzero dev (b + bi)
        modify fun s => { s with allocs := (b + bi) :: s.allocs }
        pure (b + bi)
      | none => ballocScan dev sb n (b + bpb)
    else
      throw (.panic .ballocOutOfBlocks)

def balloc (dev : Nat) : FsM Nat := do
  let sb ← readsb dev
  ballocScan dev sb (sb.size / bpb + 1) 0

def bfree (dev b : Nat) : FsM Unit := do
  let sb ← readsb dev
  let bp ← bread dev (bblock b sb.ninodes)
  if bp.bit (b % bpb) then
    logWrite (bblock b sb.ninodes) (bp.setBit (b % bpb) false)
  else
    throw (.panic .freeingFreeBlock)

/-! ## Inodes -/

/-- Find the inode with number `inum` on device `dev` and return the in-memory copy.
    Does not lock the inode and does not read it from disk. -/
def iget (dev inum : Nat) : FsM (Fin ninode) := do
  let s ← get
  match (List.finRange ninode).find? fun k =>
      decide ((s.icache k).ref > 0 ∧ (s.icache k).dev = dev ∧ (s.icache k).inum = inum) with
  | some ip =>
    setInode ip fun i => { i with ref := i.ref + 1 }
    pure ip
  | none =>
    match (List.finRange ninode).find? fun k => decide ((s.icache k).ref = 0) with
    | none => throw (.panic .igetNoInodes)
    | some ip =>
      -- Recycle an inode cache entry.
      setInode ip fun i =>
        { i with dev := dev, inum := inum, ref := 1, busy := false, valid := false }
      pure ip

/-- The loop of `ialloc` from inode `inum` on, over `n` inodes. -/
def iallocScan (dev : Nat) (type : BitVec 16) : Nat → Nat → FsM (Fin ninode)
  | 0, _ => throw (.panic .iallocNoInodes)
  | n + 1, inum => do
    let bp ← bread dev (iblock inum)
    if (bp.dinode (inum % ipb)).type = 0 then
      -- mark it allocated on the disk
      logWrite (iblock inum) (bp.setDinode (inum % ipb) { Dinode.zero with type := type })
      iget dev inum
    else
      iallocScan dev type n (inum + 1)

def ialloc (dev : Nat) (type : BitVec 16) : FsM (Fin ninode) := do
  let sb ← readsb dev
  iallocScan dev type (sb.ninodes - 1) 1

/-- Copy a modified in-memory inode to disk; the ids of owner and group are not copied. -/
def iupdate (ip : Fin ninode) : FsM Unit := do
  let i ← gets fun s => s.icache ip
  let bp ← bread i.dev (iblock i.inum)
  let dip := bp.dinode (i.inum % ipb)
  logWrite (iblock i.inum) (bp.setDinode (i.inum % ipb)
    { i.node with ownerid := dip.ownerid, groupid := dip.groupid })

def idup (ip : Fin ninode) : FsM (Fin ninode) := do
  setInode ip fun i => { i with ref := i.ref + 1 }
  pure ip

/-- Lock the given inode; reads it from disk if necessary. -/
def ilock (ip : Fin ninode) : FsM Unit := do
  let i ← gets fun s => s.icache ip
  if i.ref < 1 then
    throw (.panic .ilock)
  else if i.busy then
    throw .sleep
  else
    setInode ip fun i => { i with busy := true }
    if !i.valid then
      let bp ← bread i.dev (iblock i.inum)
      setInode ip fun i => { i with valid := true, node := bp.dinode (i.inum % ipb) }
      if (bp.dinode (i.inum % ipb)).type = 0 then
        throw (.panic .ilockNoType)

def iunlock (ip : Fin ninode) : FsM Unit := do
  let i ← gets fun s => s.icache ip
  if !i.busy ∨ i.ref < 1 then
    throw (.panic .iunlock)
  else
    setInode ip fun i => { i with busy := false }

/-! ## Inode content -/

def loadIndirect (ip : Fin ninode) : FsM Nat := do
  let i ← gets fun s => s.icache ip
  if i.node.addr ndirect = 0 then
    let addr ← balloc i.dev
    setNode ip fun d => d.setAddr ndirect (BitVec.ofNat 32 addr)
    pure addr
  else
    pure (i.node.addr ndirect).toNat

/-- The disk block address of the `bn`-th block of inode `ip`.
    If there is no such block, `bmap` allocates one. -/
def bmap (ip : Fin ninode) (bn : Nat) : FsM Nat := do
  let i ← gets fun s => s.icache ip
  if bn < ndirect then
    if i.node.addr bn = 0 then
      let addr ← balloc i.dev
      setNode ip fun d => d.setAddr bn (BitVec.ofNat 32 addr)
      pure addr
    else
      pure (i.node.addr bn).toNat
  else if bn - ndirect < nindirect then
    let ind ← loadIndirect ip
    let bp ← bread i.dev ind
    if bp.word (bn - ndirect) = 0 then
      let addr ← balloc i.dev
      logWrite ind (bp.setWord (bn - ndirect) (BitVec.ofNat 32 addr))
      pure addr
    else
      pure (bp.word (bn - ndirect)).toNat
  else
    throw (.panic .bmapOutOfRange)

/-- The body of the first loop of `itrunc`. -/
def truncDirect (ip : Fin ninode) (k : Nat) : FsM Unit := do
  let i ← gets fun s => s.icache ip
  if i.node.addr k ≠ 0 then
    bfree i.dev (i.node.addr k).toNat
    setNode ip fun d => d.setAddr k 0

/-- The body of the second loop of `itrunc`. -/
def truncIndirect (dev : Nat) (bp : Block) (j : Nat) : FsM Unit := do
  if bp.word j ≠ 0 then
    bfree dev (bp.word j).toNat

def forRange (body : Nat → FsM Unit) : Nat → FsM Unit
  | 0 => pure ()
  | n + 1 => do
    forRange body n
    body n

def itrunc (ip : Fin ninode) : FsM Unit := do
  forRange (truncDirect ip) ndirect
  let i ← gets fun s => s.icache ip
  if i.node.addr ndirect ≠ 0 then
    let bp ← bread i.dev (i.node.addr ndirect).toNat
    forRange (truncIndirect i.dev bp) nindirect
    bfree i.dev (i.node.addr ndirect).toNat
    setNode ip fun d => d.setAddr ndirect 0
  setNode ip fun d => { d with size := 0 }
  iupdate ip

/-- Drop a reference to an in-memory inode; the last one to an inode without links frees
    the inode and its content on disk. -/
def iput (ip : Fin ninode) : FsM Unit := do
  let i ← gets fun s => s.icache ip
  if i.ref = 1 ∧ i.valid ∧ i.node.nlink = 0 then
    if i.busy then
      throw (.panic .iputBusy)
    setInode ip fun i => { i with busy := true }
    itrunc ip
    setNode ip fun d => { d with type := 0 }
    iupdate ip
    setInode ip fun i => { i with busy := false, valid := false }
  setInode ip fun i => { i with ref := i.ref - 1 }

/-- `devsw[major]`, for a `short` in range. -/
def device (s : Fs) (major : BitVec 16) : Option Device :=
  if h : 0 ≤ major.toInt ∧ major.toInt.toNat < ndev then
    some (s.devsw ⟨major.toInt.toNat, h.2⟩)
  else
    none

/-- The loop of `readi`: `n` bytes from offset `off` on, in at most `fuel` pieces. -/
def readLoop (ip : Fin ninode) : Nat → Nat → Nat → FsM (List Byte)
  | 0, _, _ => pure []
  | fuel + 1, off, n => do
    if n = 0 then
      pure []
    else
      let i ← gets fun s => s.icache ip
      let addr ← bmap ip (off / bsize)
      let bp ← bread i.dev addr
      let m := min n (bsize - off % bsize)
      let rest ← readLoop ip fuel (off + m) (n - m)
      pure (bp.bytes (off % bsize) m ++ rest)

/-- Read data from inode; `none` is the return value `-1`. -/
def readi (ip : Fin ninode) (off n : Nat) : FsM (Option (List Byte)) := do
  let s ← get
  let node := (s.icache ip).node
  if node.type = tDev then
    pure (((device s node.major).bind (·.read)).bind fun read => read n)
  else if off > node.size.toNat ∨ (off + n) % 2 ^ 32 < off then
    pure none
  else
    let n := if (off + n) % 2 ^ 32 > node.size.toNat then node.size.toNat - off else n
    let bs ← readLoop ip n off n
    pure (some bs)

/-- The loop of `writei`: store the `n` bytes of `src` from offset `off` on, in at most
    `fuel` pieces. -/
def writeLoop (ip : Fin ninode) : Nat → Nat → Nat → List Byte → FsM Unit
  | 0, _, _, _ => pure ()
  | fuel + 1, off, n, src => do
    if n = 0 then
      pure ()
    else
      let i ← gets fun s => s.icache ip
      let addr ← bmap ip (off / bsize)
      let bp ← bread i.dev addr
      let m := min n (bsize - off % bsize)
      logWrite addr (bp.setBytes (off % bsize) (src.take m))
      writeLoop ip fuel (off + m) (n - m) (src.drop m)

/-- Write data to inode; `none` is the return value `-1`. -/
def writei (ip : Fin ninode) (src : List Byte) (off : Nat) : FsM (Option Nat) := do
  let s ← get
  let node := (s.icache ip).node
  let n := src.length
  if node.type = tDev then
    pure (((device s node.major).bind (·.write)).bind fun write => write src)
  else if off > node.size.toNat ∨ (off + n) % 2 ^ 32 < off then
    pure none
  else if (off + n) % 2 ^ 32 > maxfile * bsize then
    pure none
  else
    writeLoop ip n off n src
    if n > 0 ∧ off + n > node.size.toNat then
      setNode ip fun d => { d with size := BitVec.ofNat 32 (off + n) }
      iupdate ip
    pure (some n)

/-! ## Transactions of one process -/

def beginOp : FsM Unit := fun s =>
  match s.log.beginOp with
  | none => (.error .sleep, s)
  | some l => (.ok (), { s with log := l })

/-- `bwrite` of the buffer of block `b`, whose contents are now `v`. -/
def bwrite (b : Nat) (v : Block) : FsM Unit :=
  modify fun s => { s with disk := update s.disk b v }

/-- The body of the loop of `write_log`. -/
def logBlock (tail home : Nat) : FsM Unit := do
  let log ← gets Fs.log
  let _ ← bread log.dev (log.start + tail + 1)
  if home = log.start + tail + 1 then
    -- the second `bread` waits for the buffer of the first
    throw .sleep
  let v ← bread log.dev home
  bwrite (log.start + tail + 1) v

/-- The body of the loop of `install_trans`. -/
def installBlock (tail home : Nat) : FsM Unit := do
  let log ← gets Fs.log
  let v ← bread log.dev (log.start + tail + 1)
  if home = log.start + tail + 1 then
    throw .sleep
  let _ ← bread log.dev home
  bwrite home v

def writeHead : FsM Unit := do
  let log ← gets Fs.log
  let hb ← bread log.dev log.start
  bwrite log.start (encodeHead hb log.lh)

def writeLog : FsM Unit := do
  let log ← gets Fs.log
  forTail logBlock 0 log.lh

def installTrans : FsM Unit := do
  let log ← gets Fs.log
  forTail installBlock 0 log.lh

/-- Every block that `commit` installs has been in the cache since its `log_write`. -/
def commit : FsM Unit := do
  let log ← gets Fs.log
  if log.lh.length > 0 then
    writeLog
    writeHead
    installTrans
    modify fun s => { s with log := { s.log with lh := [] } }
    writeHead

/-- `end_op`: the last operation under way commits. -/
def endOp : FsM Unit := fun s =>
  match s.log.endOp with
  | .error e => (.error e, s)
  | .ok (true, l) =>
    run (do commit; modify fun s => { s with log := s.log.endCommit }) { s with log := l }
  | .ok (false, l) => (.ok (), { s with log := l })

end Fs

end Xv6Memfs
