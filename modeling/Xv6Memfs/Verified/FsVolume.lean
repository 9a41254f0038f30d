import Xv6Memfs.Kernel.Fs

/-! # The volume on the disk

A disk holds a superblock, inode blocks, bitmap blocks and the blocks behind them.  `Fs.vol`
separates these: the table of inodes, the table of used blocks and the other blocks.  The
three lemmas `vol_putInode`, `vol_putUsed` and `vol_putBlk` say that a `log_write` to one
part changes one entry of that part and nothing else; all later arguments about the disk go
through them. -/

namespace Xv6Memfs.Verified

open Lib Function

variable {d : Dinode} {j : Nat}

/-! ## Coding of inodes and bits -/

theorem bit_setBit {b : Block} {k : Nat} {v : Bool} (hj : j < bpb) :
    (b.setBit k v).bit j = if j = k then v else b.bit j := by
  have hbits : j < bsize * 8 := hj
  rw [Block.bit, Block.setBit, getLsbD_setField _ _ _ _ hbits]
  by_cases heq : j = k
  · simp [heq]
  · rw [if_neg (by omega), if_neg heq, Block.bit]

theorem field_encodeAddrs_low {n off w : Nat} {b : BitVec (dinodeSize * 8)} (hlow : off + w ≤ 160) :
    field (d.encodeAddrs n b) off w = field b off w := by
  induction n with
  | zero => rfl
  | succ n ih =>
    rw [Dinode.encodeAddrs, field_setField_disjoint, ih]
    · omega
    · simp only [dinodeSize]
      omega

theorem field_encodeAddrs {n : Nat} {b : BitVec (dinodeSize * 8)} (hj : j < n)
    (hn : n ≤ ndirect + 1) : field (d.encodeAddrs n b) (160 + 32 * j) 32 = d.addr j := by
  induction n with
  | zero => cases hj
  | succ n ih =>
    have hfit : 160 + 32 * n + 32 ≤ dinodeSize * 8 := by
      simp only [dinodeSize, ndirect] at hn ⊢
      omega
    rw [Dinode.encodeAddrs]
    rcases Nat.lt_succ_iff_lt_or_eq.mp hj with hlt | rfl
    · rw [field_setField_disjoint, ih hlt (by omega)]
      · omega
      · omega
    · rw [field_setField_same _ _ _ hfit]

theorem Dinode.addr_val (d : Dinode) (j : Fin (ndirect + 1)) : d.addr j = d.addrs j :=
  dif_pos j.isLt

@[simp] theorem Dinode.decode_encode (d : Dinode) : Dinode.decode d.encode = d := by
  have hlow : ∀ off w b, off + w ≤ 160 →
      field (d.encodeAddrs (ndirect + 1) b) off w = field b off w :=
    fun off w b h => field_encodeAddrs_low h
  ext1
  case addrs =>
    funext j
    simp only [Dinode.decode, Dinode.encode]
    rw [field_encodeAddrs j.isLt (Nat.le_refl _), Dinode.addr_val]
  all_goals
    simp only [Dinode.decode, Dinode.encode]
    rw [hlow _ _ _ (by decide)]
    -- peel off the fields stored later, up to the one that is read
    repeat
      first
      | rw [field_setField_same _ _ _ (by decide)]
      | rw [field_setField_disjoint _ _ _ _ (by decide) (by decide)]

@[simp] theorem dinode_setDinode_same {b : Block} {k : Nat} {d : Dinode} (hk : k < ipb) :
    (b.setDinode k d).dinode k = d := by
  rw [Block.dinode, Block.setDinode, field_setField_same, Dinode.decode_encode]
  simp only [ipb, dinodeSize, bsize] at hk ⊢
  omega

theorem dinode_setDinode_ne {b : Block} {k : Nat} (hj : j < ipb) (hne : j ≠ k) :
    (b.setDinode k d).dinode j = b.dinode j := by
  rw [Block.dinode, Block.setDinode, field_setField_disjoint, Block.dinode]
  · simp only [dinodeSize]
    omega
  · simp only [ipb, dinodeSize, bsize] at hj ⊢
    omega

theorem Dinode.addr_setAddr {k : Nat} {v : BitVec 32} (hk : k ≤ ndirect) :
    (d.setAddr k v).addr j = if j = k then v else d.addr j := by
  by_cases hj : j < ndirect + 1
  · simp [Dinode.addr, Dinode.setAddr, hj]
  · have hne : j ≠ k := by omega
    simp [Dinode.addr, hj, hne]

/-! ## The parts of the disk -/

/-- The number of blocks in front of the data blocks. -/
def nmeta (g : Superblock) : Nat := 2 + (g.ninodes / ipb + 1) + (g.size / bpb + 1)

/-- What a disk holds behind its superblock. -/
@[ext] structure Vol where
  inode : Nat → Dinode
  used : Nat → Bool
  blk : Nat → Block

def sbOf (s : Fs) : Superblock :=
  ⟨((s.disk 1).word 0).toNat, ((s.disk 1).word 1).toNat, ((s.disk 1).word 2).toNat,
    ((s.disk 1).word 3).toNat⟩

/-- The volume of a disk with superblock `g`. -/
def vol (g : Superblock) (s : Fs) : Vol where
  inode i := if i / ipb ≤ g.ninodes / ipb then (s.disk (iblock i)).dinode (i % ipb) else .zero
  used b := decide (b < g.size) && (s.disk (bblock b g.ninodes)).bit (b % bpb)
  blk b := if b < nmeta g then 0 else s.disk b

/-- The disk has the superblock `g` and is as large as it says. -/
structure Layout (g : Superblock) (s : Fs) : Prop where
  sb : sbOf s = g
  fits : nmeta g ≤ g.size
  disk : g.size ≤ s.disksize

def put (s : Fs) (b : Nat) (v : Block) : Fs :=
  { s with disk := update s.disk b v, log := s.log.logWrite b }

section

variable {g : Superblock} {s : Fs} {b : Nat} {v : Block}

@[simp] theorem put_disk : (put s b v).disk = update s.disk b v := rfl

theorem Layout.put (h : Layout g s) (hb : b ≠ 1) : Layout g (put s b v) where
  sb := by
    rw [← h.sb]
    simp [sbOf, update_of_ne hb.symm]
  fits := h.fits
  disk := h.disk

theorem iblock_lt {i : Nat} (hi : i / ipb ≤ g.ninodes / ipb) :
    1 < iblock i ∧ iblock i < g.ninodes / ipb + 3 := by
  simp only [iblock]
  exact ⟨by simp, Nat.lt_of_le_of_lt (Nat.add_le_add_right hi 2) (by simp)⟩

theorem bblock_range (hb : b < g.size) :
    g.ninodes / ipb + 3 ≤ bblock b g.ninodes ∧ bblock b g.ninodes < nmeta g := by
  have hdiv : b / bpb ≤ g.size / bpb := Nat.div_le_div_right (Nat.le_of_lt hb)
  simp only [bblock, nmeta]
  generalize b / bpb = q, g.size / bpb = r, g.ninodes / ipb = n at hdiv
  omega

theorem one_lt_bblock : 1 < bblock b g.ninodes := by
  simp only [bblock]
  generalize b / bpb = q, g.ninodes / ipb = n
  omega

theorem low_lt_nmeta {x : Nat} (hx : x < g.ninodes / ipb + 3) : x < nmeta g := by
  simp only [nmeta]
  generalize g.size / bpb = r, g.ninodes / ipb = n at hx
  omega

theorem two_lt_nmeta : 2 < nmeta g := by
  simp only [nmeta]
  generalize g.size / bpb = r, g.ninodes / ipb = n
  omega

theorem iblock_inj {i : Nat} (hblk : iblock i = iblock j) (hmod : i % ipb = j % ipb) : i = j := by
  have hi := Nat.div_add_mod i ipb
  have hj := Nat.div_add_mod j ipb
  simp only [iblock] at hblk
  rw [show i / ipb = j / ipb by omega] at hi
  omega

theorem vol_putInode {i : Nat} (hi : i / ipb ≤ g.ninodes / ipb) :
    vol g (put s (iblock i) ((s.disk (iblock i)).setDinode (i % ipb) d)) =
      { vol g s with inode := update (vol g s).inode i d } := by
  have hmod : ∀ k : Nat, k % ipb < ipb := fun k => Nat.mod_lt k (by decide)
  have hblk := iblock_lt hi
  ext1
  case inode =>
    funext j
    simp only [vol, put_disk, update_apply]
    by_cases hj : j / ipb ≤ g.ninodes / ipb
    · rw [if_pos hj]
      by_cases hsame : iblock j = iblock i
      · rw [if_pos hsame]
        by_cases heq : j = i
        · rw [if_pos heq, heq, dinode_setDinode_same (hmod i)]
        · rw [if_neg heq, if_pos hj, dinode_setDinode_ne (hmod j), hsame]
          exact fun hm => heq (iblock_inj hsame hm)
      · have heq : j ≠ i := fun h => hsame (by rw [h])
        rw [if_neg hsame, if_neg heq, if_pos hj]
    · have heq : j ≠ i := fun h => hj (h ▸ hi)
      rw [if_neg hj, if_neg heq, if_neg hj]
  case used =>
    funext b
    simp only [vol, put_disk]
    by_cases hb : b < g.size
    · have := bblock_range (g := g) hb
      rw [update_of_ne (by omega)]
    · simp [hb]
  case blk =>
    funext b
    simp only [vol, put_disk]
    have := low_lt_nmeta hblk.2
    split
    · rfl
    · rw [update_of_ne (by omega)]

theorem vol_putUsed {u : Bool} (hb : b < g.size) :
    vol g (put s (bblock b g.ninodes) ((s.disk (bblock b g.ninodes)).setBit (b % bpb) u)) =
      { vol g s with used := update (vol g s).used b u } := by
  have hrange := bblock_range hb
  ext1
  case inode =>
    funext i
    simp only [vol, put_disk]
    split
    · have := iblock_lt (g := g) ‹_›
      rw [update_of_ne (by omega)]
    · rfl
  case used =>
    funext c
    have hmod : c % bpb < bpb := Nat.mod_lt c (by decide)
    simp only [vol, put_disk, update_apply]
    by_cases heq : c = b
    · simp [heq, bit_setBit (heq ▸ hmod), hb]
    · rw [if_neg heq]
      by_cases hsame : bblock c g.ninodes = bblock b g.ninodes
      · have hne : c % bpb ≠ b % bpb := by
          intro hm
          have hdiv : c / bpb = b / bpb := by simp only [bblock] at hsame; omega
          have hc := Nat.div_add_mod c bpb
          have hb' := Nat.div_add_mod b bpb
          rw [hdiv] at hc
          omega
        rw [if_pos hsame, bit_setBit hmod, if_neg hne, hsame]
      · rw [if_neg hsame]
  case blk =>
    funext c
    simp only [vol, put_disk]
    split
    · rfl
    · rw [update_of_ne (by omega)]

theorem vol_putBlk (hb : nmeta g ≤ b) :
    vol g (put s b v) = { vol g s with blk := update (vol g s).blk b v } := by
  ext1
  case inode =>
    funext i
    simp only [vol, put_disk]
    split
    · have := low_lt_nmeta (iblock_lt (g := g) ‹_›).2
      rw [update_of_ne (by omega)]
    · rfl
  case used =>
    funext c
    simp only [vol, put_disk]
    by_cases hc : c < g.size
    · have := bblock_range (g := g) hc
      rw [update_of_ne (by omega)]
    · simp [hc]
  case blk =>
    funext c
    simp only [vol, put_disk, update_apply]
    by_cases heq : c = b
    · rw [if_pos heq, if_pos heq, if_neg (by omega)]
    · simp [heq]

end

end Xv6Memfs.Verified
