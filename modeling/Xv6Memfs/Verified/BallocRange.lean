import Xv6Memfs.Verified.BlockOwnership
import Xv6Memfs.Verified.MkfsHoles

/-! # The blocks that `balloc` hands out

`mkfs` marks the blocks below `freeblock`, `balloc` scans up to `sb.size`, and `initlog` places the
log in the last `sb.nlog` blocks.  Nobody marks the blocks of the log.  Allocation is first fit, so
they are handed out when, and only when, all blocks of the data region are in use. -/

namespace Xv6Memfs.Verified

open Lib Lib.Exec Function

variable {g : Superblock} {s t u : Fs} {ip : Fin ninode}

theorem callStep_of_ends {c : Call} {Q : c.Res → Fs → Prop}
    (h : Ends c.exec s Q fun _ _ => False) : ∃ r t, callStep s c = some t ∧ Q r t := by
  obtain ⟨r, t, hrun, hpost⟩ := h.returns
  exact ⟨r, t, callStep_of_run hrun, hpost⟩

/-! ## Runs -/

/-- All blocks in use lie below the log. -/
structure RangeInv (g : Superblock) (s : Fs) : Prop where
  vol : VolInv ∅ g s
  apart : LogApart g s
  allocs : ∀ b ∈ s.allocs, InData g b

namespace RangeInv

theorem step {c : Call} (h : RangeInv g s) (hp : Proper g s c) (hroom : HasBlocks g s c)
    (hstep : callStep s c = some t) : RangeInv g t := by
  have hcalled := called_of_callStep h.vol h.apart hp hstep
  exact ⟨hcalled.vol, h.apart.step h.vol hp hroom hstep,
    fun b hb => (hcalled.inData h.vol hroom hb).elim (h.allocs b) id⟩

theorem refs_inData (h : RangeInv g s) {p : Nat × Nat} (hp : refsOf (live g s) g s p ≠ 0) :
    InData g (refsOf (live g s) g s p) :=
  ⟨Nat.le_of_not_lt (h.vol.maps.owns.apart p hp), h.apart.refs_below h.vol hp⟩

end RangeInv

section

variable {m : Mkfs} {files : List HostFile} {i : Nat}

theorem Finished.live_eq (h : Finished files m) :
    live mkfsSb (bootOn m.size m.sector) = inodesBelow m.freeinode := by
  ext i
  change ((imageVol m).inode i).type ≠ 0 ↔ _
  by_cases hi : i ∈ inodesBelow m.freeinode
  · refine ⟨fun _ => hi, fun _ => ?_⟩
    rcases h.type_cases hi with htype | htype
    all_goals
      rw [htype]
      decide
  · refine ⟨fun htype => absurd ?_ htype, fun hmem => absurd hmem hi⟩
    rw [h.rest i hi]
    rfl

theorem fresh_bootOn (size : Nat) (sector : Nat → Block) : Fresh (bootOn size sector) := fun _ => rfl

theorem Finished.volInv (h : Finished files m) : VolInv ∅ mkfsSb (bootOn m.size m.sector) := by
  have howns := (h.mapInv (onImage_boot m)).owns
  rw [← h.live_eq] at howns
  exact (fresh_bootOn _ _).volInv (h.layout (onImage_boot m)) howns

theorem Finished.rangeInv (h : Finished files m)
    (hfit : totalBlocks files ≤ Mkfs.nblocks) : RangeInv mkfsSb (bootOn m.size m.sector) := by
  have hlog : LogAt (mkfsSb.size - mkfsSb.nlog) (bootOn m.size m.sector) :=
    ⟨rfl, rfl, h.size.ge, fun _ hb => absurd hb List.not_mem_nil, Nat.zero_le _⟩
  refine ⟨h.volInv, ⟨hlog, fun b hb => ?_⟩, fun _ hb => absurd hb (List.not_mem_nil)⟩
  have hused : (imageVol m).used b = true := hb
  rw [h.used_eq, decide_eq_true_iff, h.freeblock] at hused
  have hend : Mkfs.nmeta + Mkfs.nblocks = mkfsSb.size - mkfsSb.nlog := by decide
  omega

/-- As long as no call needs more blocks than the data region has left, `balloc` hands out blocks of
    the data region only, and no inode has another block. -/
theorem balloc_in_data (hm : Builds files m) (hn : files.length ≤ 198)
    (hfit : totalBlocks files ≤ Mkfs.nblocks)
    (hrun : Runs callStep (fun s c => Proper mkfsSb s c ∧ HasBlocks mkfsSb s c)
      (bootOn m.size m.sector) t) : (∀ b ∈ t.allocs, InData mkfsSb b) ∧
      ∀ p, refsOf (live mkfsSb t) mkfsSb t p ≠ 0 → InData mkfsSb (refsOf (live mkfsSb t) mkfsSb t p) := by
  have hinit := (hm.finished (by omega)).rangeInv hfit
  have hinv : RangeInv mkfsSb t :=
    hrun.invariant hinit fun s c t h hok hstep => h.step hok.1 hok.2 hstep
  exact ⟨hinv.allocs, fun p hp => hinv.refs_inData hp⟩

/-! ## Appending to a file of a fresh image -/

theorem igetSlot_fresh {c : Fin ninode → Slot} {dev inum : Nat} (h : ∀ k, (c k).ref = 0) :
    ∃ ip, igetSlot c dev inum = some (ip, ⟨dev, inum, 1, false, false⟩) := by
  obtain ⟨ip, v, hget⟩ := @igetSlot_of_free dev inum c ⟨⟨0, by decide⟩, h _⟩
  rcases igetSlot_cases hget with ⟨href, -⟩ | ⟨-, -, rfl⟩
  · exact absurd href (by rw [h ip]; decide)
  · exact ⟨ip, hget⟩

theorem OnImage.live_eq (h : OnImage m s) (hfin : Finished files m) :
    live mkfsSb s = inodesBelow m.freeinode := by
  rw [← hfin.live_eq, live, live, h.vol_eq]
  rfl

theorem OnImage.recached (h : OnImage m s) (hr : Recached mkfsSb s t) : OnImage m t where
  disk := hr.disk.trans h.disk
  disksize := hr.disksize.trans h.disksize
  cache := hr.cache
  held k hk := by
    rcases hr.held k hk with ⟨hold, hinum, hnode⟩ | ⟨hnode, -⟩
    · rw [hnode, hinum]
      exact h.held k hold
    · rw [hnode, h.vol_eq]

theorem OnImage.run_ilock (h : OnImage m s) (hfin : Finished files m) (href : (slots s ip).ref > 0)
    (hbusy : (slots s ip).busy = false) (hi : (slots s ip).inum ∈ inodesBelow m.freeinode) :
    ∃ t, run (Fs.ilock ip) s = (.ok (), t) ∧ OnImage m t ∧
      slots t = update (slots s) ip { slots s ip with busy := true, valid := true } ∧
      t.log = s.log := by
  have hlive : (s.icache ip).inum ∈ live mkfsSb s := h.live_eq hfin ▸ hi
  have hends : Ends (Fs.ilock ip) s (fun _ t => OnImage m t ∧
      slots t = update (slots s) ip { slots s ip with busy := true, valid := true } ∧
      t.log = s.log) fun _ _ => False := by
    refine (ends_ilock (hfin.layout h) h.cache).mono ?_ ?_
    · rintro - t ⟨-, -, ⟨hvalid, rfl⟩ | ⟨-, -, rfl⟩⟩
      · refine ⟨h.recached (recached_sameSlot h.cache href rfl rfl rfl), ?_, rfl⟩
        rw [slots_withSlot, ← hvalid]
      · refine ⟨h.recached (recached_loaded h.cache hlive), ?_, rfl⟩
        rw [loaded, slots_withSlot, slots_withNode]
    · rintro e t (⟨-, hlow⟩ | ⟨-, -, hlocked⟩ | ⟨-, -, -, -, hfree⟩)
      · omega
      · rw [hbusy] at hlocked
        cases hlocked
      · exact hfree hlive
  obtain ⟨_, t, hrun, ht⟩ := hends.returns
  exact ⟨t, hrun, ht⟩

theorem OnImage.run_iget (h : OnImage m s) {v : Slot} (hi : i / ipb ≤ mkfsSb.ninodes / ipb)
    (hget : igetSlot (slots s) rootdev i = some (ip, v)) :
    ∃ t, run (Fs.iget rootdev i) s = (.ok ip, t) ∧ OnImage m t ∧
      slots t = update (slots s) ip v ∧ t.log = s.log :=
  ⟨withSlot s ip v, by rw [Verified.run_iget, hget], h.recached (recached_iget h.cache hi hget),
    slots_withSlot, rfl⟩

/-- A kernel on the image has begun an operation, and locked inode `i`. -/
structure LockedOn (m : Mkfs) (i : Nat) (ip : Fin ninode) (s : Fs) : Prop where
  image : OnImage m s
  range : RangeInv mkfsSb s
  slot : slots s ip = ⟨rootdev, i, 1, true, true⟩
  log : s.log = ⟨fssize - Mkfs.nlog, Mkfs.nlog, 1, false, rootdev, []⟩

namespace LockedOn

variable (hs : LockedOn m i ip s)

include hs

theorem inum : (s.icache ip).inum = i := congrArg Slot.inum hs.slot

theorem held : Held s.icache ip :=
  ⟨(congrArg Slot.ref hs.slot).ge, congrArg Slot.valid hs.slot⟩

theorem node : (s.icache ip).node = (imageVol m).inode i := by rw [hs.image.held ip hs.held, hs.inum]

end LockedOn

theorem runs_lockedOn (h : Finished files m) (hfit : totalBlocks files ≤ Mkfs.nblocks)
    (hi : i ∈ inodesBelow m.freeinode) (hlt : i < mkfsSb.ninodes) {ok : Fs → Call → Prop}
    (hok : ∀ s c, Proper mkfsSb s c → vol mkfsSb s = imageVol m → wants mkfsSb s c ≤ 1 → ok s c) :
    ∃ ip s, Runs callStep ok (bootOn m.size m.sector) s ∧ LockedOn m i ip s := by
  have hboot := onImage_boot m
  have hbegin : callStep (bootOn m.size m.sector) .beginOp = some { bootOn m.size m.sector with
      log := ⟨fssize - Mkfs.nlog, Mkfs.nlog, 1, false, rootdev, []⟩ } := rfl
  obtain ⟨ip, hfree⟩ := @igetSlot_fresh (slots (bootOn m.size m.sector)) rootdev i fun _ => rfl
  have hbegun : OnImage m { bootOn m.size m.sector with
      log := ⟨fssize - Mkfs.nlog, Mkfs.nlog, 1, false, rootdev, []⟩ } :=
    ⟨rfl, rfl, hboot.cache, hboot.held⟩
  obtain ⟨u, hget, hu, hslots, hlog⟩ := hbegun.run_iget (div_ipb_le hlt) hfree
  have hself : slots u ip = ⟨rootdev, i, 1, false, false⟩ := by rw [hslots, update_self]
  obtain ⟨t, hlock, ht, hslots', hlog'⟩ := @OnImage.run_ilock u ip m files hu h
    (by rw [hself]; exact Nat.one_pos) (by rw [hself]) (by rw [hself]; exact hi)
  have hstep1 := @callStep_of_run _ _ (.iget rootdev i) ip hget
  have hstep2 := @callStep_of_run _ _ (.ilock ip) () hlock
  have hrun := (((Runs.refl _).tail (hok _ .beginOp trivial rfl (Nat.zero_le 1)) hbegin).tail
    (hok _ (.iget rootdev i) ⟨rfl, hlt⟩ rfl (Nat.zero_le 1)) hstep1).tail
    (hok _ (.ilock ip) trivial hu.vol_eq (Nat.zero_le 1)) hstep2
  have hrange := (((h.rangeInv hfit).step (c := .beginOp) trivial (Nat.zero_le _) hbegin).step
    (c := .iget rootdev i) ⟨rfl, hlt⟩ (Nat.zero_le _) hstep1).step
    (c := .ilock ip) trivial (Nat.zero_le _) hstep2
  exact ⟨ip, t, hrun, ht, hrange, by rw [hslots', update_self, hself], hlog'.trans hlog⟩

theorem blocksOf_one (k : Nat) : blocksOf (k * bsize) 1 = [k] := by
  have hpos : 0 < bsize := by decide
  rw [blocksOf, if_neg one_ne_zero, Nat.add_sub_cancel, Nat.mul_div_cancel _ hpos, Nat.add_sub_cancel_left]
  rfl

theorem ceilBlocks_mul (k : Nat) : ceilBlocks (k * bsize) = k := by
  simp only [ceilBlocks, bsize]
  omega

section

variable {k : Nat} (h : Finished files m) (hs : LockedOn m i ip s) (hi : i ∈ inodesBelow m.freeinode)
  (hsize : (tableOf files i).length = k * bsize) (hk : k < maxfile) (hind : k ≠ ndirect)

include h hs hi hsize

theorem LockedOn.fileSize_eq (hroot : i ≠ 1) : fileSize s ip = k * bsize := by
  obtain ⟨hle, a, ha⟩ := h.nodes i hi hroot
  rw [fileSize, hs.node, ha, ← hsize]
  exact toNat_size hle

include hk hind

/-- The block behind the last one of a file is missing, and no other is needed. -/
theorem LockedOn.needsAll_eq : needsAll (live mkfsSb s) mkfsSb s i [k] = 1 := by
  have hindirect := h.stores.indirect i hi
  rw [hsize, ceilBlocks_mul] at hindirect
  have hmissing : imageRefs m (i, k) = 0 := by
    have hblock := h.stores.blocks i hi k hk
    rw [hsize, ceilBlocks_mul] at hblock
    by_contra hne
    exact Nat.lt_irrefl k (hblock.mp hne)
  have hother : ¬ ((∃ bn ∈ [k], ndirect ≤ bn) ∧ imageRefs m (i, maxfile) = 0) := by
    rintro ⟨⟨bn, hbn, hle⟩, hzero⟩
    rw [List.mem_singleton.mp hbn] at hle
    exact hindirect.mpr (by omega) hzero
  rw [hs.image.live_eq h, needsAll, hs.image.refs_eq, if_neg hother]
  simp [hmissing]

/-- A byte behind the last block of a file goes to the first free block. -/
theorem LockedOn.ends_append (hroot : i ≠ 1) (hfree : m.freeblock < fssize) (x : Byte) :
    Ends (Call.writei ip [x] (k * bsize)).exec s (fun _ t => m.freeblock ∈ t.allocs)
      fun _ _ => False := by
  have hneeds := hs.needsAll_eq h hi hsize hk hind
  have htype : (s.icache ip).node.type ≠ tDev := by
    rw [hs.node]
    exact h.type_ne_dev hi
  have hmax : k * bsize + 1 ≤ maxfile * bsize := by
    have hmul := Nat.mul_le_mul_right bsize (Nat.succ_le_of_lt hk)
    have hpos : 0 < bsize := by decide
    rw [Nat.succ_mul] at hmul
    omega
  have hpre := loopPre_live hs.range.vol (Set.notMem_empty ip) hs.held hmax
  have hmarked : ∀ b, (vol mkfsSb s).used b = decide (b < m.freeblock) := by
    intro b
    rw [hs.image.vol_eq, h.used_eq]
  -- the first free block lies below `n`
  have hclear : ∀ n, m.freeblock < n → 1 ≤ clearCount n (vol mkfsSb s).used := by
    intro n hn
    refine Finset.card_pos.mpr ⟨m.freeblock, ?_⟩
    rw [Finset.mem_filter, Finset.mem_range, hmarked, decide_eq_false_iff_not]
    exact ⟨hn, Nat.lt_irrefl _⟩
  refine (ends_writei htype (hs.fileSize_eq h hi hsize hroot).ge hpre).mono ?_ fun e t hstop => ?_
  · rintro - t ⟨-, u, hloop, -, rfl⟩
    obtain ⟨new, hgrows, hlen⟩ := hloop.grows
    rw [hs.inum, List.length_singleton, blocksOf_one, hneeds] at hlen
    obtain ⟨b, rfl⟩ := List.length_eq_one_iff.mp hlen
    have hallocd := hgrows.allocd
    have hunused := (hallocd.free b (List.mem_singleton_self b)).1
    rw [hmarked, decide_eq_false_iff_not] at hunused
    have hlow := hallocd.low (m.freeblock + 1) (hclear _ (Nat.lt_succ_self _)) b (List.mem_singleton_self b)
    rw [writtenTo_allocs, hallocd.allocs, (by omega : b = m.freeblock)]
    exact List.mem_append_left _ (List.mem_singleton_self _)
  · rw [hs.inum, List.length_singleton, blocksOf_one, hneeds] at hstop
    refine hstop.elim (by rw [hs.log]; exact List.nodup_nil) ?_ (hclear _ hfree)
    rw [LogRoom, hs.log]
    exact ⟨le_rfl, (by decide : 3 < logsize), (by decide : 3 < Mkfs.nlog - 1)⟩

theorem LockedOn.wants_eq (hroot : i ≠ 1) (x : Byte) :
    wants mkfsSb s (.writei ip [x] (k * bsize)) = 1 := by
  have hfile := hs.fileSize_eq h hi hsize hroot
  have hmax : k * bsize < maxfile * bsize := Nat.mul_lt_mul_of_pos_right hk (by decide)
  have hidx : indices s (.writei ip [x] (k * bsize)) = [k] := by
    rw [indices, if_neg, List.length_singleton, blocksOf_one]
    rw [hfile, List.length_singleton, hs.node]
    rintro (hdev | hoff | hend)
    · exact h.type_ne_dev hi hdev
    · omega
    · omega
  rw [wants, hidx, hs.inum]
  exact hs.needsAll_eq h hi hsize hk hind

omit hs in
theorem runs_append (hfit : totalBlocks files ≤ Mkfs.nblocks) (hlt : i < mkfsSb.ninodes)
    (hroot : i ≠ 1) (hfree : m.freeblock < fssize) {ok : Fs → Call → Prop}
    (hok : ∀ s c, Proper mkfsSb s c → vol mkfsSb s = imageVol m → wants mkfsSb s c ≤ 1 → ok s c) :
    ∃ t, Runs callStep ok (bootOn m.size m.sector) t ∧ m.freeblock ∈ t.allocs := by
  obtain ⟨ip, s, hrun, hs⟩ := runs_lockedOn h hfit hi hlt hok
  obtain ⟨_, t, hstep, hb⟩ := callStep_of_ends (hs.ends_append h hi hsize hk hind hroot hfree 0)
  have hmax : k * bsize < maxfile * bsize := Nat.mul_lt_mul_of_pos_right hk (by decide)
  have hbig : maxfile * bsize < 2 ^ 32 := by decide
  have hproper : Proper mkfsSb s (.writei ip [0] (k * bsize)) := ⟨hs.held, by omega, by decide⟩
  have hwants := hs.wants_eq h hi hsize hk hind hroot 0
  exact ⟨t, hrun.tail (hok _ _ hproper hs.image.vol_eq hwants.le) hstep, hb⟩

end

end

/-- Files that fill the data region. -/
def fullFiles : List HostFile := List.replicate 6 (zeroFile maxfile) ++ [zeroFile 105]

/-- An image without a free block in front of the log.  Its last file has inode 8. -/
theorem fullFiles_image : totalBlocks fullFiles ≤ Mkfs.nblocks ∧ ∃ m, Builds fullFiles m ∧
    Finished fullFiles m ∧ WellFormed m ∧ m.freeblock = mkfsSb.size - mkfsSb.nlog ∧ 8 ∈ inodesBelow m.freeinode := by
  have hfull : footprint (105 * bsize) = 106 := by decide
  have htotal : totalBlocks fullFiles = Mkfs.nblocks := by
    rw [fullFiles, totalBlocks_sixFiles, hfull]
    rfl
  obtain ⟨m, hm⟩ := (accepts_sixFiles (n := 105) (by decide) (by rw [hfull]; decide)).builds (by decide)
  have hfin : Finished fullFiles m := hm.finished (by decide)
  refine ⟨htotal.le, m, hm, hfin, hfin.wellFormed (by decide) htotal.le, ?_, by decide, by rw [hfin.freeinode]; decide⟩
  rw [hfin.freeblock, htotal]
  rfl

/-- With all blocks of the data region in use a write gets a block of the log. -/
theorem balloc_in_log : ∃ m t b, Builds fullFiles m ∧ WellFormed m ∧
    Runs callStep (Proper mkfsSb) (bootOn m.size m.sector) t ∧ b ∈ t.allocs ∧
      mkfsSb.size - mkfsSb.nlog ≤ b := by
  obtain ⟨hfit, m, hm, hfin, hwf, hblock, hmem⟩ := fullFiles_image
  obtain ⟨t, hrun, hb⟩ := runs_append hfin hmem (length_zeroFile 105) (by decide) (by decide) hfit
    (by decide) (by decide) (by rw [hblock]; decide) fun s c hp _ _ => hp
  exact ⟨m, t, _, hm, hwf, hrun, hb, hblock.ge⟩

/-- One byte in an empty file. -/
theorem balloc_in_data_append : ∃ m t, Builds [emptyFile] m ∧
    Runs callStep (fun s c => Proper mkfsSb s c ∧ HasBlocks mkfsSb s c) (bootOn m.size m.sector) t ∧
      t.allocs ≠ [] ∧ ∀ b ∈ t.allocs, InData mkfsSb b := by
  obtain ⟨m, hm⟩ := (accepts_emptyFiles (n := 1) (by decide)).builds (by decide)
  have hfin : Finished [emptyFile] m := hm.finished (by decide)
  have hblock : m.freeblock = 30 := by
    rw [hfin.freeblock]
    decide
  have hmem : 2 ∈ inodesBelow m.freeinode := ⟨by decide, by rw [hfin.freeinode]; decide⟩
  obtain ⟨t, hrun, hb⟩ := @runs_append m [emptyFile] 2 0 hfin hmem rfl (by decide) (by decide)
    (by decide) (by decide) (by decide) (by rw [hblock]; decide)
    (fun s c => Proper mkfsSb s c ∧ HasBlocks mkfsSb s c) fun s c hp hvol hwants => by
      have hclear : 30 ∈ (Finset.range (mkfsSb.size - mkfsSb.nlog)).filter
          fun b => (vol mkfsSb s).used b = false := by
        rw [hvol, hfin.used_eq, hblock, Finset.mem_filter, Finset.mem_range]
        exact ⟨by decide, rfl⟩
      exact ⟨hp, hwants.trans (Finset.card_pos.mpr ⟨30, hclear⟩)⟩
  exact ⟨m, t, hm, hrun, List.ne_nil_of_mem hb, (balloc_in_data hm (by decide) (by decide) hrun).1⟩

end Xv6Memfs.Verified
