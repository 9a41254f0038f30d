import Xv6Memfs.Verified.MkfsWellFormed

/-! # The kernel on a fresh image

The kernel's view of an image that `mkfs` has written: `readsb` finds the superblock, the bitmap
marks the blocks below `freeblock`, and no block has two owners.  A `readi` of a file whose block
map covers its size reads, and changes nothing. -/

namespace Xv6Memfs.Verified

open Lib Lib.Exec

variable {t : Mkfs} {k : Fs} {ip : Fin ninode} {files : List HostFile} {i off n : Nat}

/-- The kernel runs on the image `t`, which nobody has changed yet. -/
structure OnImage (t : Mkfs) (k : Fs) : Prop where
  disk : k.disk = t.sector
  disksize : k.disksize = t.size
  cache : CacheWf mkfsSb k.icache
  held : ∀ ip, Held k.icache ip → (k.icache ip).node = (imageVol t).inode (k.icache ip).inum

theorem onImage_boot (t : Mkfs) : OnImage t (bootOn t.size t.sector) where
  disk := rfl
  disksize := rfl
  cache := ⟨fun _ h => absurd h (by simp [bootOn]), fun _ h => absurd h (by simp [bootOn]),
    fun _ _ h => absurd h (by simp [bootOn])⟩
  held _ h := absurd h.1 (by simp [bootOn])

theorem OnImage.vol_eq (h : OnImage t k) : vol mkfsSb k = imageVol t := by
  simp only [imageVol, vol, h.disk, bootOn]

theorem OnImage.nodes_eq (h : OnImage t k) : nodes mkfsSb k = (imageVol t).inode := by
  funext i
  rw [nodes]
  cases hcore : coreOf k.icache i with
  | some ip =>
    obtain ⟨hheld, hinum⟩ := coreOf_eq_some hcore
    exact hinum ▸ h.held ip hheld
  | none => exact congrFun (congrArg Vol.inode h.vol_eq) i

theorem OnImage.refs_eq (h : OnImage t k) :
    refsOf (inodesBelow t.freeinode) mkfsSb k = imageRefs t := by
  rw [refsOf, h.nodes_eq, h.vol_eq]
  rfl

theorem OnImage.content_eq (h : OnImage t k) : contentOf (inodesBelow t.freeinode) mkfsSb k =
    (volOf t (imageVol t).inode).content (inodesBelow t.freeinode) := by
  rw [contentOf, h.nodes_eq, h.vol_eq]
  rfl

/-- `readsb` reads what `mkfs` has written. -/
theorem sb_superSector : (⟨(Mkfs.superSector.word 0).toNat, (Mkfs.superSector.word 1).toNat,
    (Mkfs.superSector.word 2).toNat, (Mkfs.superSector.word 3).toNat⟩ : Superblock) = mkfsSb := by
  decide +kernel

namespace Finished

variable (h : Finished files t)

include h

theorem used_eq : (imageVol t).used = fun b => decide (b < t.freeblock) := by
  funext b
  have hroom := h.room
  by_cases hb : b < fssize
  · have hblock : bblock b mkfsSb.ninodes = 28 := by
      have hlt : b < 1000 := hb
      change b / 4096 + 25 + 3 = 28
      omega
    have hbit : b < bpb := hb.trans (by decide)
    change (decide (b < fssize) && (t.sector (bblock b mkfsSb.ninodes)).bit (b % bpb)) = _
    rw [decide_eq_true hb, Bool.true_and, hblock, Nat.mod_eq_of_lt hbit, h.bitmap b hbit]
  · change (decide (b < fssize) && _) = _
    rw [decide_eq_false hb, Bool.false_and]
    exact (decide_eq_false (by omega)).symm

theorem layout (hk : OnImage t k) : Layout mkfsSb k where
  sb := by
    rw [sbOf, hk.disk, h.super]
    exact sb_superSector
  fits := by decide
  disk := by
    rw [hk.disksize, h.size]
    exact le_rfl

/-- The block maps of a fresh image are in order. -/
theorem mapInv (hk : OnImage t k) : MapInv (inodesBelow t.freeinode) mkfsSb k where
  layout := h.layout hk
  cache := hk.cache
  owns := by
    rw [hk.refs_eq, hk.vol_eq, h.used_eq]
    exact h.stores.owns

theorem type_cases (hi : i ∈ inodesBelow t.freeinode) :
    ((imageVol t).inode i).type = tFile ∨ ((imageVol t).inode i).type = tDir := by
  by_cases hroot : i = 1
  · obtain ⟨a, ha⟩ := h.root
    rw [hroot, ha]
    exact .inr rfl
  · obtain ⟨-, a, ha⟩ := h.nodes i hi hroot
    rw [ha]
    exact .inl rfl

theorem type_ne_dev (hi : i ∈ inodesBelow t.freeinode) : ((imageVol t).inode i).type ≠ tDev := by
  rcases h.type_cases hi with htype | htype
  all_goals
    rw [htype]
    decide

/-- A read of bytes that have blocks. -/
theorem run_readi (hk : OnImage t k) (hip : Held k.icache ip)
    (hmem : (k.icache ip).inum ∈ inodesBelow t.freeinode) (hoff : off ≤ fileSize k ip)
    (hwrap : off + n < 2 ^ 32) (hfits : off + clipped k ip off n ≤ maxfile * bsize)
    (hblocks : ∀ bn ∈ blocksOf off (clipped k ip off n), imageRefs t ((k.icache ip).inum, bn) ≠ 0) :
    run (Fs.readi ip off n) k = (.ok (some ((List.range (clipped k ip off n)).map fun j =>
      (tableOf files (k.icache ip).inum).getD (off + j) 0)), k) := by
  have htype : (k.icache ip).node.type ≠ tDev := by
    rw [hk.held ip hip]
    exact h.type_ne_dev hmem
  have hpre : LoopPre (inodesBelow t.freeinode) mkfsSb ip False False off (clipped k ip off n) k := by
    refine ⟨h.mapInv hk, hip, hmem, hfits, fun bn hbn hzero => ?_, fun bn hbn hzero _ => ?_⟩
    · exact hblocks bn hbn (hk.refs_eq ▸ hzero)
    · exact hblocks bn hbn (hk.refs_eq ▸ hzero)
  have hread := Verified.ends_readi htype hoff hwrap hpre
  match hrun : run (Fs.readi ip off n) k with
  | (.ok r, k') =>
    obtain ⟨-, -, hr, hsame⟩ := hread.of_ok hrun
    obtain rfl := hsame fun bn hbn => hk.refs_eq ▸ hblocks bn hbn
    rw [hr, hk.content_eq]
    congr 3
    refine List.map_congr_left fun j _ => ?_
    exact h.stores.bytes _ hmem _
  | (.error e, k') => exact (hread.of_error hrun).1.elim

end Finished

/-! ## Holes -/

theorem length_root_le (hn : files.length ≤ 206) :
    roundedSize (rootBytes files).length ≤ maxfile * bsize := by
  have hmax : maxfile * bsize = 70656 := rfl
  rw [length_rootBytes, roundedSize, hmax]
  simp only [direntSize, dirsiz, bsize]
  omega

/-- The rounded size of the root directory covers one block more if the last block is full. -/
theorem ceilBlocks_rounded : ceilBlocks (roundedSize (rootBytes files).length) =
    ceilBlocks (rootBytes files).length ↔ (files.length + 2) % 32 ≠ 0 := by
  rw [length_rootBytes]
  simp only [ceilBlocks, roundedSize, direntSize, dirsiz, bsize]
  omega

/-- Unless the last block of the root directory is full, block maps cover the sizes. -/
theorem Finished.covers (h : Finished files t) (hn : files.length ≤ 206)
    (hpart : (files.length + 2) % 32 ≠ 0) (hi : i ∈ inodesBelow t.freeinode) :
    ((imageVol t).inode i).size.toNat ≤ maxfile * bsize ∧ ∀ bn < maxfile,
      imageRefs t (i, bn) ≠ 0 ↔ bn < ceilBlocks ((imageVol t).inode i).size.toNat := by
  have hsize : ((imageVol t).inode i).size.toNat ≤ maxfile * bsize ∧
      ceilBlocks ((imageVol t).inode i).size.toNat = ceilBlocks (tableOf files i).length := by
    by_cases hroot : i = 1
    · obtain ⟨a, ha⟩ := h.root
      have hle := length_root_le hn
      rw [hroot, ha]
      change (BitVec.ofNat 32 _).toNat ≤ _ ∧ ceilBlocks (BitVec.ofNat 32 _).toNat = _
      rw [toNat_size hle]
      exact ⟨hle, ceilBlocks_rounded.mpr hpart⟩
    · obtain ⟨hle, a, ha⟩ := h.nodes i hi hroot
      rw [ha]
      change (BitVec.ofNat 32 _).toNat ≤ _ ∧ ceilBlocks (BitVec.ofNat 32 _).toNat = _
      rw [toNat_size hle]
      exact ⟨hle, rfl⟩
  refine ⟨hsize.1, fun bn hbn => ?_⟩
  rw [hsize.2]
  exact h.stores.blocks i hi bn hbn

end Xv6Memfs.Verified
