import Xv6Memfs.Tools.Mkfs
import Xv6Memfs.Verified.VolMap

/-! # Appending to a file of the image

What `iappend` does, said through the files that the image holds.  The image is read with the
layout of the kernel (`imageVol`); a block is in use if it is below `freeblock`, and all others
are zero, so that a block that `iappend` takes needs no clearing.

`iappend` works on a copy of the inode.  So the invariant `Filled` is about a table of inodes of
its own, which is the table of the image except for the copy in hand. -/

namespace Xv6Memfs.Verified

open Lib Lib.Exec Function

def mkfsSb : Superblock := ⟨fssize, Mkfs.nblocks, Mkfs.ninodes, Mkfs.nlog⟩

/-- The kernel on an image, before it has cached anything. -/
def bootOn (size : Nat) (sector : Nat → Block) : Fs where
  disk := sector
  disksize := size
  log := ⟨fssize - Mkfs.nlog, Mkfs.nlog, 0, false, rootdev, []⟩
  icache _ := ⟨0, 0, 0, false, false, .zero⟩
  devsw _ := ⟨none, none⟩
  allocs := []

def imageVol (s : Mkfs) : Vol := vol mkfsSb (bootOn s.size s.sector)

/-- The inodes handed out before `n`. -/
def inodesBelow (n : Nat) : Set Nat := { i | 1 ≤ i ∧ i < n }

def volOf (s : Mkfs) (ino : Nat → Dinode) : Vol := ⟨ino, fun b => decide (b < s.freeblock), (imageVol s).blk⟩

variable {s t u : Mkfs} {ino : Nat → Dinode} {F : Nat → List Byte} {i b x : Nat} {din : Dinode}

/-! ## Sectors -/

def wrote (s : Mkfs) (b : Nat) (v : Block) : Mkfs :=
  { s with
    size := max s.size (b + 1)
    sector := update s.sector b v
    writes := b :: s.writes }

theorem wrote_same {v : Block} : (wrote s b v).sector b = v := update_self ..

theorem wrote_ne {v : Block} (hx : x ≠ b) : (wrote s b v).sector x = s.sector x :=
  update_of_ne hx ..

theorem place_of_lt (hb : b < 2 ^ 23) : Mkfs.place b = b := by
  simp only [Mkfs.place, bsize]
  omega

theorem run_wsect {v : Block} (hb : b < fssize) : run (Mkfs.wsect b v) s = (.ok (), wrote s b v) := by
  have hlt : b < 2 ^ 23 := hb.trans (by decide)
  rw [Mkfs.wsect, run_modify, place_of_lt hlt, wrote]

theorem run_rsect (hb : b < fssize) (hsize : s.size = fssize) :
    run (Mkfs.rsect b) s = (.ok (s.sector b), s) := by
  have hlt : b < 2 ^ 23 := hb.trans (by decide)
  rw [Mkfs.rsect, run_bind_ok (run_get s), place_of_lt hlt, run_ite, if_pos (by omega), run_pure]

theorem run_rsect_fail (hb : fssize ≤ b) (hlt : b < 2 ^ 23) (hsize : s.size = fssize) :
    run (Mkfs.rsect b) s = (.error .failure, s) := by
  rw [Mkfs.rsect, run_bind_ok (run_get s), place_of_lt hlt, run_ite, if_neg (by omega), run_throw]

theorem imageVol_wrote_blk {v : Block} (hb : Mkfs.nmeta ≤ b) :
    imageVol (wrote s b v) = { imageVol s with blk := update (imageVol s).blk b v } :=
  vol_putBlk (g := mkfsSb) (s := bootOn s.size s.sector) hb

theorem imageVol_wrote_inode {d : Dinode} (hi : i < 208) :
    imageVol (wrote s (iblock i) ((s.sector (iblock i)).setDinode (i % ipb) d)) =
      { imageVol s with inode := update (imageVol s).inode i d } := by
  refine vol_putInode (g := mkfsSb) (s := bootOn s.size s.sector) ?_
  simp only [ipb, mkfsSb, Mkfs.ninodes, bsize, dinodeSize]
  omega

theorem imageVol_blk (hb : Mkfs.nmeta ≤ b) : (imageVol s).blk b = s.sector b :=
  if_neg (Nat.not_lt.mpr hb)

theorem imageVol_inode (hi : i < 208) : (imageVol s).inode i = (s.sector (iblock i)).dinode (i % ipb) := by
  refine if_pos ?_
  simp only [ipb, mkfsSb, Mkfs.ninodes, bsize, dinodeSize]
  omega

/-! ## The invariant -/

/-- Sectors written between `s` and `t` lie in the inode blocks or are data blocks in use. -/
def Writes (s t : Mkfs) : Prop :=
  ∃ new, t.writes = new ++ s.writes ∧
    ∀ b ∈ new, (2 ≤ b ∧ b < 28) ∨ (Mkfs.nmeta ≤ b ∧ b < t.freeblock)

theorem Writes.refl (s : Mkfs) : Writes s s := ⟨[], rfl, by simp⟩

theorem Writes.trans (h : Writes s t) (h' : Writes t u) (hle : t.freeblock ≤ u.freeblock) :
    Writes s u := by
  obtain ⟨new, hnew, hin⟩ := h
  obtain ⟨new', hnew', hin'⟩ := h'
  refine ⟨new' ++ new, by rw [hnew', hnew, List.append_assoc], fun b hb => ?_⟩
  rcases List.mem_append.mp hb with hb | hb
  · exact hin' b hb
  · exact (hin b hb).imp_right fun h => ⟨h.1, h.2.trans_le hle⟩

/-- The image with the inodes `ino` holds the files `F`. -/
structure Filled (s : Mkfs) (ino : Nat → Dinode) (F : Nat → List Byte) : Prop where
  size : s.size = fssize
  super : s.sector 1 = Mkfs.superSector
  inodes : s.freeinode ≤ 208
  room : s.freeblock ≤ fssize
  blank : ∀ b, s.freeblock ≤ b → (imageVol s).blk b = 0
  stores : StoresFiles (inodesBelow s.freeinode) Mkfs.nmeta F (volOf s ino)
  small : ∀ i ∈ inodesBelow s.freeinode, (F i).length ≤ maxfile * bsize

/-- Nothing but data blocks and `freeblock` has changed. -/
structure SameInodes (s t : Mkfs) : Prop where
  size : t.size = s.size
  super : t.sector 1 = s.sector 1
  freeinode : t.freeinode = s.freeinode
  inode : (imageVol t).inode = (imageVol s).inode
  writes : Writes s t
  le : s.freeblock ≤ t.freeblock

theorem SameInodes.refl (s : Mkfs) : SameInodes s s := ⟨rfl, rfl, rfl, rfl, .refl s, le_rfl⟩

theorem SameInodes.trans (h : SameInodes s t) (h' : SameInodes t u) : SameInodes s u where
  size := h'.size.trans h.size
  super := h'.super.trans h.super
  freeinode := h'.freeinode.trans h.freeinode
  inode := h'.inode.trans h.inode
  writes := h.writes.trans h'.writes h'.le
  le := h.le.trans h'.le

theorem SameInodes.wrote {v : Block} (hsize : s.size = fssize) (hmeta : Mkfs.nmeta ≤ b)
    (hb : b < s.freeblock) (hroom : b < fssize) : SameInodes s (wrote s b v) where
  size := by
    change max s.size (b + 1) = s.size
    omega
  super := update_of_ne (by simp only [Mkfs.nmeta] at hmeta; omega) ..
  freeinode := rfl
  inode := by rw [imageVol_wrote_blk hmeta]
  writes := by
    refine ⟨[b], rfl, fun c hc => .inr ?_⟩
    rw [List.mem_singleton.mp hc]
    exact ⟨hmeta, hb⟩
  le := le_rfl

/-! ## Finding a block -/

/-- The image with the copy `din` of inode `i`. -/
def inHand (s : Mkfs) (ino : Nat → Dinode) (i : Nat) (din : Dinode) : Vol :=
  volOf s (update ino i din)

theorem inHand_inode : (inHand s ino i din).inode i = din := update_self ..

theorem inHand_setNode (d : Dinode) : inHand s ino i d =
    { inHand s ino i din with inode := update (inHand s ino i din).inode i d } := by
  simp only [inHand, volOf, update_idem]

def bumped (s : Mkfs) : Mkfs := { s with freeblock := s.freeblock + 1 }

theorem run_nextBlock : run Mkfs.nextBlock s = (.ok s.freeblock, bumped s) := rfl

theorem sameInodes_bumped : SameInodes s (bumped s) :=
  ⟨rfl, rfl, rfl, rfl, ⟨[], rfl, by simp⟩, Nat.le_succ _⟩

theorem inHand_unused : (inHand s ino i din).used s.freeblock = false :=
  decide_eq_false (Nat.lt_irrefl _)

theorem used_bumped : (inHand (bumped s) ino i din).used =
    update (inHand s ino i din).used s.freeblock true := by
  funext b
  rw [update_apply]
  change decide (b < s.freeblock + 1) = if b = s.freeblock then true else decide (b < s.freeblock)
  split
  · rename_i heq
    rw [heq, decide_eq_true (Nat.lt_succ_self _)]
  · exact decide_eq_decide.mpr (by omega)

/-- The blocks that finding index `bn` of inode `i` takes. -/
noncomputable def grabs (v : Vol) (L : Set Nat) (i bn : Nat) : Nat :=
  (if v.refs L (i, bn) = 0 then 1 else 0) +
    if ndirect ≤ bn ∧ v.refs L (i, maxfile) = 0 then 1 else 0

/-- From `s` to `t` a block has been found for index `bn` of inode `i`; the copy of the inode goes
    from `din` to `r.1`. -/
structure Found (ino : Nat → Dinode) (i bn : Nat) (s : Mkfs) (din : Dinode) (r : Dinode × Nat)
    (t : Mkfs) : Prop where
  same : SameInodes s t
  reaches : Reaches (inodesBelow s.freeinode) Mkfs.nmeta i bn r.2 (inHand s ino i din) (inHand t ino i r.1)
  blank : ∀ b, t.freeblock ≤ b → (imageVol t).blk b = 0
  count : t.freeblock = s.freeblock + grabs (inHand s ino i din) (inodesBelow s.freeinode) i bn
  last : t.freeblock = s.freeblock ∨ r.2 + 1 = t.freeblock
  node : ∃ a, r.1 = { din with addrs := a }

/-- What finding a block needs to know about the image. -/
structure Ready (s : Mkfs) (ino : Nat → Dinode) (i : Nat) (din : Dinode) : Prop where
  size : s.size = fssize
  mem : i ∈ inodesBelow s.freeinode
  room : s.freeblock ≤ fssize
  blank : ∀ b, s.freeblock ≤ b → (imageVol s).blk b = 0
  owns : Owns (· < Mkfs.nmeta) ((inHand s ino i din).refs (inodesBelow s.freeinode))
    (inHand s ino i din).used

section

variable {bn k : Nat} (h : Ready s ino i din)

include h

theorem Ready.freeblock_lt : s.freeblock < 2 ^ 32 := h.room.trans_lt (by decide)

theorem Ready.toNat_freeblock : (BitVec.ofNat 32 s.freeblock).toNat = s.freeblock := by
  rw [BitVec.toNat_ofNat, Nat.mod_eq_of_lt h.freeblock_lt]

theorem Ready.range {p : Nat × Nat} (hne : (inHand s ino i din).refs (inodesBelow s.freeinode) p ≠ 0) :
    Mkfs.nmeta ≤ (inHand s ino i din).refs (inodesBelow s.freeinode) p ∧
      (inHand s ino i din).refs (inodesBelow s.freeinode) p < s.freeblock :=
  ⟨Nat.not_lt.mp (h.owns.apart p hne), of_decide_eq_true (h.owns.marked p hne)⟩

theorem ends_directBlock (hk : k < ndirect) :
    Ends (Mkfs.directBlock din k) s (Found ino i k s din) fun _ _ => False := by
  have hrefs := Vol.refs_direct (v := inHand s ino i din) h.mem hk
  rw [inHand_inode] at hrefs
  have hlow : ¬ (ndirect ≤ k ∧ (inHand s ino i din).refs (inodesBelow s.freeinode) (i, maxfile) = 0) :=
    fun hand => absurd hand.1 (Nat.not_le.mpr hk)
  refine .ite (fun hzero => ?_) fun hne => ?_
  · refine .bind_ok run_nextBlock (.pure ?_)
    have hfill := Fills.direct h.owns inHand_unused h.freeblock_lt (h.blank _ le_rfl) h.mem hk
      (by rw [inHand_inode, hzero])
    rw [inHand_inode, ← used_bumped] at hfill
    have hnum : ((din.setAddr k (BitVec.ofNat 32 s.freeblock)).addr k).toNat = s.freeblock := by
      rw [Dinode.addr_setAddr hk.le, if_pos rfl, h.toNat_freeblock]
    have hz : (inHand s ino i din).refs (inodesBelow s.freeinode) (i, k) = 0 := by
      rw [hrefs, hzero]
      rfl
    constructor
    case same => exact sameInodes_bumped
    case reaches =>
      have hvol : inHand (bumped s) ino i (din.setAddr k (BitVec.ofNat 32 s.freeblock)) =
          ⟨update (inHand s ino i din).inode i (din.setAddr k (BitVec.ofNat 32 s.freeblock)),
            (inHand (bumped s) ino i din).used, (inHand s ino i din).blk⟩ := inHand_setNode _
      rw [hnum, hvol]
      exact .fill h.owns (hk.trans ndirect_lt_maxfile) hfill
    case blank => exact fun b hb => h.blank b ((Nat.le_succ _).trans hb)
    case count =>
      rw [grabs, if_pos hz, if_neg hlow]
      rfl
    case last => exact .inr (by rw [hnum]; rfl)
    case node => exact ⟨_, rfl⟩
  · have hpos : (din.addr k).toNat ≠ 0 := fun hz => hne (BitVec.eq_of_toNat_eq hz)
    refine .pure ⟨.refl s, .hit h.owns hrefs hpos, h.blank, ?_, .inl rfl, ⟨din.addrs, rfl⟩⟩
    rw [grabs, hrefs, if_neg hpos, if_neg hlow]
    rfl

/-- The part of `iappend` behind the allocation of the indirect block. -/
theorem ends_indirectWord (hk : k < nindirect) (hind : din.addr ndirect ≠ 0) :
    Ends (do
      let indirect ← Mkfs.rsect (din.addr ndirect).toNat
      if indirect.word k = 0 then
        let b ← Mkfs.nextBlock
        let indirect := indirect.setWord k (BitVec.ofNat 32 b)
        Mkfs.wsect (din.addr ndirect).toNat indirect
        pure (din, (indirect.word k).toNat)
      else
        pure (din, (indirect.word k).toNat)) s (Found ino i (ndirect + k) s din) fun _ _ => False := by
  have hself : ((inHand s ino i din).inode i).addr ndirect ≠ 0 := by rwa [inHand_inode]
  have hmax : (inHand s ino i din).refs (inodesBelow s.freeinode) (i, maxfile) = (din.addr ndirect).toNat := by
    rw [Vol.refs_maxfile h.mem, inHand_inode]
  have hne : (inHand s ino i din).refs (inodesBelow s.freeinode) (i, maxfile) ≠ 0 :=
    (addr_ne_zero h.mem).mpr hself
  have hrange := h.range hne
  rw [hmax] at hrange
  have hlt : (din.addr ndirect).toNat < fssize := hrange.2.trans_le h.room
  have hword := Vol.refs_word h.mem hk hself
  rw [inHand_inode] at hword
  have hblk : (inHand s ino i din).blk (din.addr ndirect).toNat = s.sector (din.addr ndirect).toNat :=
    imageVol_blk hrange.1
  rw [hblk] at hword
  have hinner : ¬ (ndirect ≤ ndirect + k ∧
      (inHand s ino i din).refs (inodesBelow s.freeinode) (i, maxfile) = 0) := fun hand => hne hand.2
  refine .bind_ok (run_rsect hlt h.size) (.ite (fun hzero => ?_) fun hnz => ?_)
  · refine .bind_ok run_nextBlock (.bind_ok (run_wsect hlt) (.pure ?_))
    have hfill := Fills.word h.owns inHand_unused h.freeblock_lt (h.blank _ le_rfl) h.mem hk hself
      (by rw [inHand_inode, hblk, hzero])
    rw [inHand_inode, hblk, ← used_bumped] at hfill
    have hnum : (((s.sector (din.addr ndirect).toNat).setWord k
        (BitVec.ofNat 32 s.freeblock)).word k).toNat = s.freeblock := by
      rw [Block.word_setWord_same _ _ _ hk, h.toNat_freeblock]
    have hvol := imageVol_wrote_blk (s := bumped s) (v := (s.sector (din.addr ndirect).toNat).setWord k
      (BitVec.ofNat 32 s.freeblock)) hrange.1
    have hz : (inHand s ino i din).refs (inodesBelow s.freeinode) (i, ndirect + k) = 0 := by
      rw [hword, hzero]
      rfl
    constructor
    case same =>
      refine sameInodes_bumped.trans (.wrote h.size hrange.1 ?_ hlt)
      exact hrange.2.trans (Nat.lt_succ_self _)
    case reaches =>
      rw [hnum]
      have heq : inHand (wrote (bumped s) (din.addr ndirect).toNat
          ((s.sector (din.addr ndirect).toNat).setWord k (BitVec.ofNat 32 s.freeblock))) ino i din =
          ⟨(inHand s ino i din).inode, (inHand (bumped s) ino i din).used,
            update (inHand s ino i din).blk (din.addr ndirect).toNat
              ((s.sector (din.addr ndirect).toNat).setWord k (BitVec.ofNat 32 s.freeblock))⟩ := by
        have hblks := congrArg Vol.blk hvol
        exact Vol.ext rfl rfl hblks
      rw [heq]
      refine .fill h.owns ?_ hfill
      simp only [maxfile]
      omega
    case blank =>
      intro b hb
      have hb' : s.freeblock + 1 ≤ b := hb
      rw [hvol]
      refine (update_of_ne ?_ ..).trans (h.blank b (by omega))
      omega
    case count =>
      rw [grabs, if_pos hz, if_neg hinner]
      rfl
    case last => exact .inr (by rw [hnum]; rfl)
    case node => exact ⟨_, rfl⟩
  · have hpos : ((s.sector (din.addr ndirect).toNat).word k).toNat ≠ 0 :=
      fun hz => hnz (BitVec.eq_of_toNat_eq hz)
    refine .pure ⟨.refl s, .hit h.owns hword hpos, h.blank, ?_, .inl rfl, ⟨din.addrs, rfl⟩⟩
    rw [grabs, hword, if_neg hpos, if_neg hinner]
    rfl

theorem ends_indirectBlock (hk : k < nindirect) :
    Ends (Mkfs.indirectBlock din k) s (Found ino i (ndirect + k) s din) fun _ _ =>
      fssize < s.freeblock + grabs (inHand s ino i din) (inodesBelow s.freeinode) i (ndirect + k) := by
  have hbn : ndirect + k < maxfile := by
    simp only [maxfile]
    omega
  by_cases hind : din.addr ndirect = 0
  · have hfill := Fills.indirect h.owns inHand_unused h.freeblock_lt (h.blank _ le_rfl) h.mem
      (by rw [inHand_inode, hind])
    rw [inHand_inode, ← used_bumped] at hfill
    have hmax := hfill.free
    have hz : (inHand s ino i din).refs (inodesBelow s.freeinode) (i, ndirect + k) = 0 := by
      by_contra hne
      exact Vol.refs_maxfile_ne_zero h.mem (Nat.le_add_right ..) hbn hne hmax
    have hgrabs : grabs (inHand s ino i din) (inodesBelow s.freeinode) i (ndirect + k) = 2 := by
      rw [grabs, if_pos hz, if_pos ⟨Nat.le_add_right .., hmax⟩]
    have hwith : run (Mkfs.withIndirect din) s =
        (.ok (din.setAddr ndirect (BitVec.ofNat 32 s.freeblock)), bumped s) := by
      rw [Mkfs.withIndirect, run_ite, if_pos hind, run_bind_ok run_nextBlock, run_pure]
    have hnum : ((din.setAddr ndirect (BitVec.ofNat 32 s.freeblock)).addr ndirect).toNat = s.freeblock := by
      rw [Dinode.addr_setAddr le_rfl, if_pos rfl, h.toNat_freeblock]
    have hvol : inHand (bumped s) ino i (din.setAddr ndirect (BitVec.ofNat 32 s.freeblock)) =
        ⟨update (inHand s ino i din).inode i (din.setAddr ndirect (BitVec.ofNat 32 s.freeblock)),
          (inHand (bumped s) ino i din).used, (inHand s ino i din).blk⟩ := inHand_setNode _
    refine .bind_ok hwith ?_
    rcases Nat.lt_or_eq_of_le h.room with hlt | hfull
    · have hready : Ready (bumped s) ino i (din.setAddr ndirect (BitVec.ofNat 32 s.freeblock)) := by
        refine ⟨h.size, h.mem, hlt, fun b hb => h.blank b ((Nat.le_succ _).trans hb), ?_⟩
        rw [hvol]
        exact hfill.owns h.owns
      refine (ends_indirectWord hready hk ?_).mono (fun r t hf => ?_) fun _ _ hf => hf.elim
      · intro hzero
        rw [hzero] at hnum
        exact h.owns.ne_zero inHand_unused hnum.symm
      · have hreach := hf.reaches
        rw [hvol] at hreach
        have hcount := hf.count
        have hsame := congrFun hfill.refs (i, ndirect + k)
        rw [update_of_ne (by simp [hbn.ne]), hz] at hsame
        have hnew := congrFun hfill.refs (i, maxfile)
        rw [update_self] at hnew
        have hone : grabs (inHand (bumped s) ino i (din.setAddr ndirect (BitVec.ofNat 32 s.freeblock)))
            (inodesBelow s.freeinode) i (ndirect + k) = 1 := by
          rw [hvol, grabs, if_pos hsame, if_neg]
          rintro ⟨-, hzero⟩
          exact h.owns.ne_zero inHand_unused (hnew.symm.trans hzero)
        have htwo : t.freeblock = s.freeblock + 1 + 1 := by
          rw [hcount]
          exact congrArg (s.freeblock + 1 + ·) hone
        obtain ⟨a, ha⟩ := hf.node
        refine ⟨sameInodes_bumped.trans hf.same,
          .after_indirect h.mem h.owns (Nat.le_add_right ..) hbn hfill hreach, hf.blank,
          by rw [htwo, hgrabs], .inr (hf.last.resolve_left ?_), a, ha⟩
        rw [htwo]
        exact (Nat.lt_succ_self _).ne'
    · -- no sector is left for the indirect block
      refine .error (Exec.bind_eq_error.mpr (.inl (run_rsect_fail (s := bumped s) ?_ ?_ h.size))) ?_
      · rw [hnum, hfull]
      · rw [hnum, hfull]
        decide
      · rw [hgrabs, hfull]
        exact Nat.lt_add_of_pos_right (by decide)
  · have hwith : run (Mkfs.withIndirect din) s = (.ok din, s) := by
      rw [Mkfs.withIndirect, run_ite, if_neg hind, run_pure]
    exact .bind_ok hwith ((ends_indirectWord h hk hind).mono (fun _ _ hf => hf) fun _ _ hf => hf.elim)

end

/-! ## The loop -/

theorem footprint_mono {m n : Nat} (h : m ≤ n) : footprint m ≤ footprint n := by
  have hceil := ceilBlocks_mono h
  simp only [footprint]
  split
  · rw [if_pos (by omega)]
    omega
  · omega

/-- The blocks that one turn takes are those by which the footprint grows. -/
theorem StoresFiles.grabs {L : Set Nat} {m n : Nat} {v : Vol} (h : StoresFiles L m F v) (hi : i ∈ L)
    (hfit : (F i).length / bsize < maxfile) (hn : 0 < n) (hle : n ≤ bsize - (F i).length % bsize) :
    footprint (F i).length + grabs v L i ((F i).length / bsize) = footprint ((F i).length + n) := by
  have hblock := (h.blocks i hi _ hfit).not
  have hind := (h.indirect i hi).not
  rw [not_ne_iff] at hblock hind
  rw [footprint, footprint, ceilBlocks_piece hn hle, Verified.grabs]
  simp only [hblock, hind]
  have hold : ceilBlocks (F i).length = (F i).length / bsize ∨
      ceilBlocks (F i).length = (F i).length / bsize + 1 := by
    simp only [ceilBlocks, bsize]
    omega
  rcases hold with hold | hold
  · rw [hold]
    split_ifs
    all_goals omega
  · rw [hold]
    split_ifs
    all_goals omega

theorem Filled.ready (h : Filled s (update ino i din) F) (hi : i ∈ inodesBelow s.freeinode) :
    Ready s ino i din := ⟨h.size, hi, h.room, h.blank, h.stores.owns⟩

/-- The block of index `bn`, as the loop finds it. -/
theorem ends_findBlock {bn : Nat} (h : Ready s ino i din) (hbn : bn < maxfile) :
    Ends (Mkfs.findBlock din bn) s (Found ino i bn s din) fun _ _ =>
      fssize < s.freeblock + Verified.grabs (inHand s ino i din) (inodesBelow s.freeinode) i bn := by
  refine .ite (fun hlow => ?_) fun hhigh => ?_
  · exact (ends_directBlock h hlow).mono (fun _ _ hf => hf) fun _ _ hf => hf.elim
  · obtain ⟨k, rfl⟩ := Nat.exists_eq_add_of_le (Nat.not_lt.mp hhigh)
    rw [Nat.add_sub_cancel_left]
    refine ends_indirectBlock h ?_
    simp only [maxfile] at hbn
    omega

/-- From `s` to `t` the bytes `p` have been appended to the file of inode `i`, whose copy goes from
    `din` to `r.1`. -/
structure Appended (ino : Nat → Dinode) (F : Nat → List Byte) (i : Nat) (p : List Byte) (s : Mkfs)
    (din : Dinode) (r : Dinode × Nat) (t : Mkfs) : Prop where
  same : SameInodes s t
  filled : Filled t (update ino i r.1) (update F i (F i ++ p))
  off : r.2 = (F i).length + p.length
  count : t.freeblock + footprint (F i).length = s.freeblock + footprint ((F i).length + p.length)
  node : ∃ a, r.1 = { din with addrs := a }

/-- The file gets too long, or there are too few sectors. -/
def Overflows (F : Nat → List Byte) (i : Nat) (p : List Byte) (s : Mkfs) : Prop :=
  maxfile * bsize < (F i).length + p.length ∨
    fssize + footprint (F i).length < s.freeblock + footprint ((F i).length + p.length)

theorem Overflows.append {p q : List Byte} (h : Overflows F i p s) : Overflows F i (p ++ q) s := by
  have hmono := footprint_mono (Nat.le_add_right ((F i).length + p.length) q.length)
  rw [Overflows, List.length_append, ← Nat.add_assoc]
  exact h.imp (fun hlt => by omega) fun hlt => by omega

theorem Overflows.later {p q : List Byte}
    (hcount : t.freeblock + footprint (F i).length = s.freeblock + footprint ((F i).length + p.length))
    (h : Overflows (update F i (F i ++ p)) i q t) : Overflows F i (p ++ q) s := by
  rw [Overflows, update_self, List.length_append] at h
  rw [Overflows, List.length_append, ← Nat.add_assoc]
  exact h.imp_right fun hlt => by omega

theorem Found.range {bn : Nat} {r : Dinode × Nat} (h : Found ino i bn s din r t) :
    Mkfs.nmeta ≤ r.2 ∧ r.2 < t.freeblock := by
  have hne := h.reaches.found ▸ h.reaches.pos
  have hmeta := Nat.not_lt.mp (h.reaches.owns.apart _ hne)
  have hused : decide (_ < t.freeblock) = true := h.reaches.owns.marked _ hne
  rw [h.reaches.found] at hmeta hused
  exact ⟨hmeta, of_decide_eq_true hused⟩

theorem Found.freeblock_le {bn : Nat} {r : Dinode × Nat} (h : Found ino i bn s din r t) :
    t.freeblock ≤ s.freeblock + 2 := by
  have hcount := h.count
  rw [Verified.grabs] at hcount
  split_ifs at hcount
  all_goals omega

theorem Found.wrote {src : List Byte} {r : Dinode × Nat}
    (h : Filled s (update ino i din) F) (hi : i ∈ inodesBelow s.freeinode)
    (hfound : Found ino i ((F i).length / bsize) s din r t) (hfit : (F i).length / bsize < maxfile)
    (hpos : 0 < src.length) (hle : src.length ≤ bsize - (F i).length % bsize) (hx : r.2 < fssize) :
    Appended ino F i src s din (r.1, (F i).length + src.length)
      (Verified.wrote t r.2 ((t.sector r.2).setBytes ((F i).length % bsize) src)) := by
  have hreach := hfound.reaches
  obtain ⟨hmeta, hin⟩ := hfound.range
  have hsize := hfound.same.size.trans h.size
  have hwrote : SameInodes t (Verified.wrote t r.2 ((t.sector r.2).setBytes ((F i).length % bsize) src)) :=
    .wrote hsize hmeta hin hx
  have hsame := hfound.same.trans hwrote
  have hvol := imageVol_wrote_blk (s := t) (v := (t.sector r.2).setBytes ((F i).length % bsize) src) hmeta
  have hstores := h.stores.append hi hfit hreach hpos hle
  have hblk : (inHand t ino i r.1).blk r.2 = t.sector r.2 := imageVol_blk hmeta
  rw [hblk] at hstores
  have hgrabs : _ + Verified.grabs (inHand s ino i din) _ i _ = _ := h.stores.grabs hi hfit hpos hle
  have hcount := hfound.count
  constructor
  case same => exact hsame
  case filled =>
    constructor
    case size => exact hsame.size.trans h.size
    case super => exact hsame.super.trans h.super
    case inodes => exact hsame.freeinode ▸ h.inodes
    case room =>
      change t.freeblock ≤ fssize
      rcases hfound.last with heq | heq
      · exact heq ▸ h.room
      · omega
    case blank =>
      intro b hb
      rw [hvol]
      refine (update_of_ne ?_ ..).trans (hfound.blank b hb)
      have hle : t.freeblock ≤ b := hb
      omega
    case stores =>
      rw [hsame.freeinode]
      have heq : volOf (Verified.wrote t r.2 ((t.sector r.2).setBytes ((F i).length % bsize) src))
          (update ino i r.1) =
          ⟨(inHand t ino i r.1).inode, (inHand t ino i r.1).used,
            update (inHand t ino i r.1).blk r.2
              ((t.sector r.2).setBytes ((F i).length % bsize) src)⟩ := by
        have hblks := congrArg Vol.blk hvol
        exact Vol.ext rfl rfl hblks
      rw [heq]
      exact hstores
    case small =>
      intro j hj
      rw [hsame.freeinode] at hj
      by_cases hji : j = i
      · rw [hji, update_self, List.length_append]
        simp only [bsize] at *
        omega
      · rw [update_of_ne hji]
        exact h.small j hj
  case off => rfl
  case count =>
    change t.freeblock + _ = _
    omega
  case node => exact hfound.node

theorem Appended.nil (h : Filled s (update ino i din) F) :
    Appended ino F i [] s din (din, (F i).length) s where
  same := .refl s
  filled := by rwa [List.append_nil, update_eq_self]
  off := rfl
  count := rfl
  node := ⟨din.addrs, rfl⟩

theorem Appended.append {p q : List Byte} {r r' : Dinode × Nat} (h : Appended ino F i p s din r t)
    (h' : Appended ino (update F i (F i ++ p)) i q t r.1 r' u) :
    Appended ino F i (p ++ q) s din r' u where
  same := h.same.trans h'.same
  filled := by
    have hf := h'.filled
    rwa [update_self, update_idem, List.append_assoc] at hf
  off := by
    have ho := h'.off
    rw [update_self, List.length_append] at ho
    rw [ho, List.length_append]
    omega
  count := by
    have hc := h'.count
    have hc' := h.count
    rw [update_self, List.length_append] at hc
    rw [List.length_append, ← Nat.add_assoc]
    omega
  node := by
    obtain ⟨a, ha⟩ := h.node
    obtain ⟨a', ha'⟩ := h'.node
    exact ⟨a', by rw [ha', ha]⟩

theorem ends_appendLoop {fuel : Nat} {p : List Byte} (h : Filled s (update ino i din) F)
    (hi : i ∈ inodesBelow s.freeinode) (hfuel : p.length ≤ fuel) :
    Ends (Mkfs.appendLoop fuel din (F i).length p) s (Appended ino F i p s din)
      fun _ _ => Overflows F i p s := by
  induction fuel generalizing s din F p with
  | zero =>
    obtain rfl : p = [] := List.length_eq_zero_iff.mp (by omega)
    exact .pure (.nil h)
  | succ fuel ih =>
    rw [Mkfs.appendLoop]
    refine .ite (fun hzero => ?_) fun hnz => ?_
    · obtain rfl : p = [] := List.length_eq_zero_iff.mp hzero
      exact .pure (.nil h)
    refine .ite (fun hfit => ?_) fun hbig => ?_
    · have hmod := Nat.div_add_mod (F i).length bsize
      have hpiece : min p.length (((F i).length / bsize + 1) * bsize - (F i).length) =
          piece (F i).length p.length := by
        rw [piece, Nat.succ_mul, Nat.mul_comm]
        congr 1
        omega
      have hoff : (F i).length - (F i).length / bsize * bsize = (F i).length % bsize := by
        rw [Nat.mul_comm]
        omega
      have hpos := piece_pos (F i).length (Nat.pos_of_ne_zero hnz)
      have hlen : (p.take (piece (F i).length p.length)).length = piece (F i).length p.length := by
        rw [List.length_take, Nat.min_eq_left (piece_le ..)]
      have hle : piece (F i).length p.length ≤ bsize - (F i).length % bsize := Nat.min_le_right ..
      have hgrabs : _ + Verified.grabs (inHand s ino i din) _ i _ = _ := h.stores.grabs hi hfit hpos hle
      have hmono := footprint_mono (Nat.add_le_add_left (piece_le (F i).length p.length) (F i).length)
      refine .bind (ends_findBlock (h.ready hi) hfit) (fun _ _ hfull => .inr ?_) ?_
      · omega
      rintro ⟨d, x⟩ t hfound
      have hsize := hfound.same.size.trans h.size
      rw [hpiece, hoff]
      by_cases hx : x < fssize
      · refine .bind_ok (run_rsect hx hsize) (.bind_ok (run_wsect hx) ?_)
        have hone : Appended _ F i (p.take (piece (F i).length p.length)) _ _ _ _ :=
          hfound.wrote h hi hfit (by rw [hlen]; exact hpos) (by rw [hlen]; exact hle) hx
        have hrest := ih hone.filled (by rw [hone.same.freeinode]; exact hi)
          (p := p.drop (piece (F i).length p.length)) (by rw [List.length_drop]; omega)
        rw [update_self, List.length_append, hlen] at hrest
        refine hrest.mono (fun r u hu => ?_) fun _ _ hover => ?_
        · have hall := hone.append hu
          rwa [List.take_append_drop] at hall
        · have hall := Overflows.later hone.count hover
          rwa [List.take_append_drop] at hall
      · -- the sector is not there
        have hcount := hfound.count
        have hin : x < t.freeblock := hfound.range.2
        have hlt : x < 2 ^ 23 := by
          have hle := hfound.freeblock_le
          have hroom : s.freeblock ≤ 1000 := h.room
          omega
        refine .error (Exec.bind_eq_error.mpr (.inl (run_rsect_fail (Nat.not_lt.mp hx) hlt hsize))) (.inr ?_)
        omega
    · have hfull := (Nat.le_div_iff_mul_le (by decide)).mp (Nat.not_lt.mp hbig)
      exact .throw (.inl (by omega))

end Xv6Memfs.Verified
