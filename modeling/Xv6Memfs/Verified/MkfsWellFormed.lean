import Xv6Memfs.Verified.MkfsMain
import Xv6Memfs.Verified.InodeCalls

/-! # Limits of mkfs

`mkfs` counts inodes and blocks without looking at its own limits.  As long as both stay within
them the image is well formed, and otherwise it is not: `NINODES` is not checked at all, and
blocks are only stopped by the end of the image, behind the log.

The size of the root directory is rounded up to the next multiple of `BSIZE` that is larger.  If
its entries fill their last block this is one block too many. -/

namespace Xv6Memfs.Verified

open Lib Lib.Exec Function

variable {s t u : Mkfs} {i b : Nat} {files : List HostFile}

/-! ## The number of inodes -/

/-- From `s` to `t`, `n` inodes have been allocated, and no block has been given back. -/
structure Counts (n : Nat) (s t : Mkfs) : Prop where
  inode : t.freeinode = s.freeinode + n
  block : s.freeblock ≤ t.freeblock

instance : Std.Refl (Counts 0) := ⟨fun _ => ⟨rfl, le_rfl⟩⟩

theorem Counts.trans {n k : Nat} (h : Counts n s t) (h' : Counts k t u) : Counts (n + k) s u :=
  ⟨by rw [h'.inode, h.inode, Nat.add_assoc], h.block.trans h'.block⟩

instance : IsTrans Mkfs (Counts 0) := ⟨fun _ _ _ h h' => h.trans h'⟩

/-- Neither `freeinode` nor a block in use changes. -/
abbrev SameFree {α : Type} (m : MkfsM α) : Prop := Keeps (Counts 0) m

namespace SameFree

theorem wsect (b : Nat) (v : Block) : SameFree (Mkfs.wsect b v) := .modify fun _ => ⟨rfl, le_rfl⟩

theorem rsect (b : Nat) : SameFree (Mkfs.rsect b) :=
  .get_bind fun _ => .ite (fun _ => .pure _) fun _ => .throw _

theorem winode (i : Nat) (d : Dinode) : SameFree (Mkfs.winode i d) :=
  .bind (rsect _) fun _ => wsect _ _

theorem rinode (i : Nat) : SameFree (Mkfs.rinode i) := .bind (rsect _) fun _ => .pure _

theorem nextBlock : SameFree Mkfs.nextBlock :=
  .gets_bind fun _ => .bind (.modify fun _ => ⟨rfl, Nat.le_succ _⟩) fun _ => .pure _

theorem findBlock (d : Dinode) (bn : Nat) : SameFree (Mkfs.findBlock d bn) := by
  refine .ite (fun _ => .ite (fun _ => ?_) fun _ => .pure _) fun _ => ?_
  · exact .bind nextBlock fun _ => .pure _
  · refine .bind (.ite (fun _ => .bind nextBlock fun _ => .pure _) fun _ => .pure _) fun _ => ?_
    refine .bind (rsect _) fun _ => .ite (fun _ => ?_) fun _ => .pure _
    exact .bind nextBlock fun _ => .bind (wsect _ _) fun _ => .pure _

theorem appendLoop (fuel : Nat) (d : Dinode) (off : Nat) (p : List Byte) :
    SameFree (Mkfs.appendLoop fuel d off p) := by
  induction fuel generalizing d off p with
  | zero => exact .pure _
  | succ fuel ih =>
    refine .ite (fun _ => .pure _) fun _ => .ite (fun _ => ?_) fun _ => .throw _
    refine .bind (findBlock _ _) fun r => .bind (rsect _) fun _ => .bind (wsect _ _) fun _ => ?_
    exact ih r.1 _ _

theorem iappend (i : Nat) (p : List Byte) : SameFree (Mkfs.iappend i p) :=
  .bind (rinode _) fun _ => .bind (appendLoop _ _ _ _) fun _ => winode _ _

theorem appendChunks (i : Nat) (cs : List Chunk) : SameFree (Mkfs.appendChunks i cs) := by
  induction cs with
  | nil => exact .pure _
  | cons c cs ih => exact .bind (iappend _ _) fun _ => ih

theorem fixRoot (i : Nat) : SameFree (Mkfs.fixRoot i) := .bind (rinode _) fun _ => winode _ _

end SameFree

namespace Counts

theorem ialloc (type : BitVec 16) : Ends (Mkfs.ialloc type) s (fun _ => Counts 1 s) fun _ _ => True := by
  refine .gets_bind (.modify_bind ?_)
  refine .bind (SameFree.winode _ _ _) (fun _ _ _ => trivial) fun _ t ht => ?_
  exact .pure ⟨ht.inode, ht.block⟩

theorem addFile (f : HostFile) (root : Nat) :
    Ends (Mkfs.addFile root f) s (fun _ => Counts 1 s) fun _ _ => True := by
  refine .ite (fun _ => .throw trivial) fun _ => ?_
  match f.read with
  | none => exact .throw trivial
  | some cs =>
    refine .bind (ialloc _) (fun _ _ _ => trivial) fun i t ht => ?_
    refine .bind (SameFree.iappend _ _ t) (fun _ _ _ => trivial) fun _ u hu => ?_
    exact (SameFree.appendChunks i cs u).mono (fun _ w hw => (ht.trans hu).trans hw) fun _ _ _ => trivial

theorem addFiles (root : Nat) : Ends (Mkfs.addFiles root files) s
    (fun _ => Counts files.length s) fun _ _ => True := by
  induction files generalizing s with
  | nil => exact .pure ⟨rfl, le_rfl⟩
  | cons f files ih =>
    refine .bind (addFile f root) (fun _ _ _ => trivial) fun _ t ht => ?_
    refine ih.mono (fun _ u hu => ?_) fun _ _ _ => trivial
    rw [List.length_cons, Nat.add_comm]
    exact ht.trans hu

theorem makeRoot : Ends Mkfs.makeRoot s (fun _ => Counts 1 s) fun _ _ => True := by
  refine .bind (ialloc _) (fun _ _ _ => trivial) fun i t ht => ?_
  refine .ite (fun _ => ?_) fun _ => .throw trivial
  refine .bind (SameFree.iappend _ _ t) (fun _ _ _ => trivial) fun _ u hu => ?_
  refine .bind (SameFree.iappend _ _ u) (fun _ _ _ => trivial) fun _ w hw => ?_
  exact .pure ((ht.trans hu).trans hw)

/-- Every file has got an inode, whatever has become of it, and the bitmap is written last. -/
theorem main (hformat : run Mkfs.format u = (.ok (), s)) (hino : s.freeinode = rootino) :
    Ends (Mkfs.main files) u (fun _ t => t.freeinode = files.length + 2 ∧
      ∀ b < s.freeblock, b < bpb → (t.sector 28).bit b = true) fun _ _ => True := by
  refine .bind_ok hformat ?_
  refine .bind makeRoot (fun _ _ _ => trivial) fun root t ht => ?_
  refine .bind (addFiles root) (fun _ _ _ => trivial) fun _ w hw => ?_
  refine .bind (SameFree.fixRoot _ w) (fun _ _ _ => trivial) fun _ x hx => .gets_bind ?_
  have hall := (ht.trans hw).trans hx
  refine .ite (fun _ => .modify ⟨?_, fun b hb hbit => ?_⟩) fun _ => .throw trivial
  · change x.freeinode = _
    rw [hall.inode, hino]
    change 1 + (1 + files.length + 0) = _
    omega
  · change (update x.sector 28 (Mkfs.setBits x.freeblock 0) 28).bit b = true
    rw [update_self, bit_setBits hbit, decide_eq_true (hb.trans_le hall.block)]

end Counts

/-- A run of `mkfs` that exits with status 0. -/
def Builds (files : List HostFile) (t : Mkfs) : Prop := run (Mkfs.main files) Mkfs.start = (.ok (), t)

theorem Builds.freeinode (h : Builds files t) : t.freeinode = files.length + 2 :=
  ((Counts.main run_format formatted_freeinode).of_ok h).1

/-- The metadata is marked, also where the bitmap lies over the record of an inode. -/
theorem Builds.bitmap (h : Builds files t) {b : Nat} (hb : b < Mkfs.nmeta) : (t.sector 28).bit b = true :=
  ((Counts.main run_format formatted_freeinode).of_ok h).2 b (formatted_freeblock ▸ hb)
    (hb.trans (by decide))

theorem Builds.finished (h : Builds files t) (hn : files.length ≤ 206) : Finished files t :=
  (ends_main hn).of_ok h

theorem Accepts.builds (h : Accepts files) (hn : files.length ≤ 206) : ∃ t, Builds files t := by
  have hend : Ends (Mkfs.main files) Mkfs.start (fun _ t => Finished files t) fun _ _ => False :=
    (ends_main hn).mono (fun _ _ hfin => hfin) fun _ _ hno => hno h
  obtain ⟨_, t, hrun, -⟩ := hend.returns
  exact ⟨t, hrun⟩

/-! ## The layout of the image -/

/-- The block at a place of the image. -/
noncomputable def imageRefs (t : Mkfs) : Nat × Nat → Nat :=
  refs (inodesBelow t.freeinode) (imageVol t).inode (imageVol t).blk

theorem formatted_writes : formatted.writes = 1 :: (List.range fssize).reverse := by
  rw [formatted]
  exact congrArg (1 :: ·) (List.append_nil _)

/-- A well-formed image: inodes, blocks and the bitmap are in order, and between the superblock and
    the bitmap `mkfs` has written inode blocks and data blocks only. -/
structure WellFormed (t : Mkfs) : Prop where
  inodes : ∀ i ∈ inodesBelow t.freeinode, i < Mkfs.ninodes
  range : ∀ p, imageRefs t p ≠ 0 → Mkfs.nmeta ≤ imageRefs t p ∧ imageRefs t p < fssize - Mkfs.nlog
  once : ∀ p q, imageRefs t p ≠ 0 → imageRefs t q = imageRefs t p → q = p
  bitmap : ∀ b < bpb, (t.sector (Mkfs.ninodeblocks + 2)).bit b = decide (b < t.freeblock)
  writes : ∃ mid, t.writes = (Mkfs.ninodeblocks + 2) :: (mid ++ 1 :: (List.range fssize).reverse) ∧
    ∀ b ∈ mid, b ≠ 1 ∧ b ≠ Mkfs.ninodeblocks + 2 ∧ b < fssize - Mkfs.nlog

theorem Finished.wellFormed (h : Finished files t) (hn : files.length ≤ 198)
    (hfits : totalBlocks files ≤ Mkfs.nblocks) : WellFormed t := by
  have hfree : t.freeblock ≤ fssize - Mkfs.nlog := by
    have hmeta : Mkfs.nmeta + Mkfs.nblocks = fssize - Mkfs.nlog := by decide
    have := h.freeblock
    omega
  have howns := h.stores.owns
  constructor
  case inodes =>
    intro i hi
    have hlt := hi.2
    rw [h.freeinode] at hlt
    change i < 200
    omega
  case range =>
    intro p hp
    have hused : decide (_ < t.freeblock) = true := howns.marked p hp
    exact ⟨Nat.not_lt.mp (howns.apart p hp), (of_decide_eq_true hused).trans_le hfree⟩
  case once => exact howns.unique
  case bitmap => exact h.bitmap
  case writes =>
    obtain ⟨mid, hmid, hin⟩ := h.writes
    rw [formatted_writes] at hmid
    refine ⟨mid, hmid, fun b hb => ?_⟩
    have hend : fssize - Mkfs.nlog = 970 := rfl
    have hmeta : Mkfs.nmeta = 29 := rfl
    change b ≠ 1 ∧ b ≠ 28 ∧ _
    have := hin b hb
    omega

theorem WellFormed.inodes_fit (h : WellFormed t) (hexit : Builds files t) : files.length ≤ 198 := by
  by_contra hmany
  have hlast := h.inodes 200 ⟨by omega, by rw [hexit.freeinode]; omega⟩
  exact absurd hlast (by decide)

theorem WellFormed.blocks_fit (h : WellFormed t) (hfin : Finished files t) :
    totalBlocks files ≤ Mkfs.nblocks := by
  by_contra hfull
  -- the first block of the log is marked, so it belongs to a file
  have hused : (volOf t (imageVol t).inode).used (fssize - Mkfs.nlog) = true := by
    refine decide_eq_true ?_
    have hmeta : Mkfs.nmeta + Mkfs.nblocks = fssize - Mkfs.nlog := by decide
    have := hfin.freeblock
    omega
  rcases hfin.stores.covers _ hused with hlow | ⟨p, hp⟩
  · exact absurd hlow (by decide)
  · have hp' : imageRefs t p = fssize - Mkfs.nlog := hp
    have hrange := (h.range p (by rw [hp']; decide)).2
    rw [hp'] at hrange
    exact Nat.lt_irrefl _ hrange

/-- The image is well formed exactly if the inodes and the data blocks are enough. -/
theorem mkfs_wellFormed_iff (h : Builds files t) :
    WellFormed t ↔ files.length ≤ 198 ∧ totalBlocks files ≤ Mkfs.nblocks := by
  constructor
  · intro hwf
    have hn := hwf.inodes_fit h
    exact ⟨hn, hwf.blocks_fit (h.finished (by omega))⟩
  · rintro ⟨hn, hfits⟩
    exact (h.finished (by omega)).wellFormed hn hfits

theorem noNul_a : (0 : Byte) ∉ ([0x61] : Str) := by decide

theorem noNul_b : (0 : Byte) ∉ ([0x62] : Str) := by decide

def emptyFile : HostFile := ⟨[0x61], noNul_a, some []⟩

theorem accepts_emptyFiles {n : Nat} (hn : n ≤ 206) : Accepts (List.replicate n emptyFile) where
  each f hf := by
    rw [List.eq_of_mem_replicate hf]
    decide
  fits := by
    have hsum : ((List.replicate n emptyFile).map fun f => footprint (HostFile.bytes f).length).sum = 0 := by
      rw [List.map_replicate, List.sum_replicate]
      exact Nat.mul_zero n
    have hroot := footprint_mono (m := (rootBytes (List.replicate n emptyFile)).length)
      (n := direntSize * 208) (by
        rw [length_rootBytes, List.length_replicate]
        exact Nat.mul_le_mul_left _ (by omega))
    have hlast : footprint (direntSize * 208) = 7 := by decide
    have hmeta : Mkfs.nmeta = 29 := rfl
    have hsize : fssize = 1000 := rfl
    rw [totalBlocks, hsum]
    omega

def zeroChunk : Chunk where
  data := List.replicate bsize 0
  pos := by rw [List.length_replicate]; decide
  le := List.length_replicate.le

def zeroFile (n : Nat) : HostFile := ⟨[0x62], noNul_b, some (List.replicate n zeroChunk)⟩

theorem length_zeroFile (n : Nat) : (HostFile.bytes (zeroFile n)).length = n * bsize := by
  have hread : (zeroFile n).read.getD [] = List.replicate n zeroChunk := rfl
  have hlen : zeroChunk.data.length = bsize := List.length_replicate
  rw [HostFile.bytes, hread, List.length_flatMap, List.map_replicate, List.sum_replicate, hlen, smul_eq_mul]

/-- Six files of the largest size and one more fill the data blocks and half of the log. -/
def largeFiles : List HostFile := List.replicate 6 (zeroFile maxfile) ++ [zeroFile 120]

section

variable (n : Nat)

theorem totalBlocks_sixFiles : totalBlocks (List.replicate 6 (zeroFile maxfile) ++ [zeroFile n]) =
    835 + footprint (n * bsize) := by
  have hsix : (List.replicate 6 (footprint (maxfile * bsize))).sum = 834 := by decide
  have hroot : footprint (rootBytes (List.replicate 6 (zeroFile maxfile) ++ [zeroFile n])).length = 1 := by
    rw [length_rootBytes]
    exact (by decide : footprint (direntSize * 9) = 1)
  rw [totalBlocks, hroot]
  simp only [List.map_append, List.map_replicate, List.map_cons, List.map_nil, length_zeroFile,
    List.sum_append, List.sum_cons, List.sum_nil, hsix]
  omega

theorem accepts_sixFiles {n : Nat} (hn : n ≤ maxfile) (hfit : footprint (n * bsize) ≤ 136) :
    Accepts (List.replicate 6 (zeroFile maxfile) ++ [zeroFile n]) where
  each f hf := by
    rcases List.mem_append.mp hf with hf | hf
    · rw [List.eq_of_mem_replicate hf, length_zeroFile]
      exact ⟨by decide, rfl, le_rfl⟩
    · rw [List.mem_singleton.mp hf, length_zeroFile]
      exact ⟨(by decide : slash ∉ (zeroFile 0).name), rfl, Nat.mul_le_mul_right _ hn⟩
  fits := by
    rw [totalBlocks_sixFiles]
    have hmeta : Mkfs.nmeta = 29 := rfl
    have hsize : fssize = 1000 := rfl
    omega

end

/-- Seven files, all with an indirect block, that fill the data blocks to the last one. -/
theorem mkfs_wellFormed_seven :
    ∃ t, Builds (List.replicate 6 (zeroFile maxfile) ++ [zeroFile 105]) t ∧ WellFormed t := by
  obtain ⟨t, ht⟩ := (accepts_sixFiles (n := 105) (by decide) (by decide)).builds (by decide)
  refine ⟨t, ht, (mkfs_wellFormed_iff ht).mpr ⟨by decide, ?_⟩⟩
  rw [totalBlocks_sixFiles]
  decide

/-- 199 empty files take inode 200, which is not there, and seven files can reach into the log. -/
theorem mkfs_exceeds_limits : (∃ t, Builds (List.replicate 199 emptyFile) t ∧ ¬ WellFormed t) ∧
    ∃ t, Builds largeFiles t ∧ ¬ WellFormed t := by
  constructor
  · obtain ⟨t, ht⟩ := (accepts_emptyFiles (n := 199) (by decide)).builds (by
      rw [List.length_replicate]
      decide)
    refine ⟨t, ht, fun hwf => ?_⟩
    have hn := hwf.inodes_fit ht
    rw [List.length_replicate] at hn
    omega
  · obtain ⟨t, ht⟩ := (accepts_sixFiles (n := 120) (by decide) (by decide)).builds (by decide)
    refine ⟨t, ht, fun hwf => ?_⟩
    have hfits := hwf.blocks_fit (ht.finished (by decide))
    rw [totalBlocks_sixFiles] at hfits
    exact absurd hfits (by decide)

end Xv6Memfs.Verified
