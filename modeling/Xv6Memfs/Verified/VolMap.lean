import Xv6Memfs.Verified.FileContents

/-! # Block maps of a volume

The host tools work on the image itself, without an inode cache: the inode that counts is the one
in the image, or the copy that is about to be stored.  So block maps and contents are those of a
volume here, and not of a kernel state.

A place gets a block in one of three ways (`Fills.direct`, `Fills.indirect`, `Fills.word`), and
`Reaches` sums up what finding the block of an index does: it fills at most the place of the index
and that of the indirect block, and keeps the contents. -/

namespace Xv6Memfs.Verified

open Lib Function

/-- The block at a place, for the inodes in `L`. -/
noncomputable def Vol.refs (v : Vol) (L : Set Nat) : Nat × Nat → Nat := Verified.refs L v.inode v.blk

/-- The content at a place, for the inodes in `L`. -/
noncomputable def Vol.content (v : Vol) (L : Set Nat) : Nat × Nat → Block :=
  contentAt L v.inode v.blk

variable {L : Set Nat} {m i k bn b x : Nat} {v w u : Vol} {p : Nat × Nat}

/-! ## Filling one place -/

/-- From `v` to `w` the empty place `p` has got the unused block `b`. -/
structure Fills (L : Set Nat) (p : Nat × Nat) (b : Nat) (v w : Vol) : Prop where
  free : v.refs L p = 0
  unused : v.used b = false
  refs : w.refs L = update (v.refs L) p b
  used : w.used = update v.used b true
  content : w.content L = v.content L
  node : ∃ a, w.inode = update v.inode p.1 { v.inode p.1 with addrs := a }

namespace Fills

theorem owns (h : Fills L p b v w) (hv : Owns (· < m) (v.refs L) v.used) :
    Owns (· < m) (w.refs L) w.used := by
  rw [h.refs, h.used]
  exact hv.assign p h.unused

theorem covers (h : Fills L p b v w) (hv : Owns (· < m) (v.refs L) v.used)
    (hc : Covers (· < m) (v.refs L) v.used) : Covers (· < m) (w.refs L) w.used := by
  rw [h.refs, h.used]
  exact hc.assign hv p h.free

end Fills

theorem Vol.content_eq (hp : p.2 < maxfile) (hne : v.refs L p ≠ 0) :
    v.content L p = v.blk (v.refs L p) := if_pos ⟨hp, hne⟩

theorem Vol.content_eq_zero (hzero : v.refs L p = 0) : v.content L p = 0 := if_neg fun h => h.2 hzero

theorem Vol.content_beyond (hp : ¬ p.2 < maxfile) : v.content L p = 0 := if_neg fun h => hp h.1

theorem Vol.refs_maxfile (hi : i ∈ L) : v.refs L (i, maxfile) = ((v.inode i).addr ndirect).toNat :=
  Verified.refs_maxfile hi

theorem Vol.refs_direct (hi : i ∈ L) (hk : k < ndirect) :
    v.refs L (i, k) = ((v.inode i).addr k).toNat := by
  rw [Vol.refs, refs_of_mem hi, mapOf_direct hk]

theorem Vol.refs_word (hi : i ∈ L) (hk : k < nindirect) (hind : (v.inode i).addr ndirect ≠ 0) :
    v.refs L (i, ndirect + k) = ((v.blk ((v.inode i).addr ndirect).toNat).word k).toNat := by
  rw [Vol.refs, refs_of_mem hi, mapOf_indirect hk hind]

/-- A block behind `NDIRECT` needs the indirect block. -/
theorem Vol.refs_maxfile_ne_zero (hi : i ∈ L) (hlow : ndirect ≤ bn) (hbn : bn < maxfile)
    (hne : v.refs L (i, bn) ≠ 0) : v.refs L (i, maxfile) ≠ 0 := by
  intro hzero
  apply hne
  rw [Vol.refs_maxfile hi] at hzero
  rw [Vol.refs, refs_of_mem hi, mapOf, if_neg (by omega), if_pos hbn,
    if_pos (BitVec.eq_of_toNat_eq hzero)]

theorem addr_ne_zero (hi : i ∈ L) : v.refs L (i, maxfile) ≠ 0 ↔ (v.inode i).addr ndirect ≠ 0 := by
  rw [Vol.refs_maxfile hi]
  exact ⟨fun h hz => h (by rw [hz]; rfl), fun h hz => h (BitVec.eq_of_toNat_eq hz)⟩

section

variable (hv : Owns (· < m) (v.refs L) v.used) (hb : v.used b = false) (hsmall : b < 2 ^ 32)
  (hblank : v.blk b = 0)

include hv hb hsmall hblank

omit hsmall hblank in
/-- What is left to show when place `p` has got block `b`. -/
theorem Fills.of_refs (hfree : v.refs L p = 0) (hrefs : w.refs L = update (v.refs L) p b)
    (hused : w.used = update v.used b true)
    (hnode : ∃ a, w.inode = update v.inode p.1 { v.inode p.1 with addrs := a })
    (hzero : p.2 < maxfile → w.blk b = 0)
    (hblk : ∀ q, q.2 < maxfile → v.refs L q ≠ 0 → w.blk (v.refs L q) = v.blk (v.refs L q)) :
    Fills L p b v w where
  free := hfree
  unused := hb
  refs := hrefs
  used := hused
  node := hnode
  content := by
    funext q
    have hq := congrFun hrefs q
    by_cases hlt : q.2 < maxfile
    · by_cases hqp : q = p
      · -- a new block reads as the hole it replaces
        rw [hqp, update_self] at hq
        rw [Vol.content_eq (hqp ▸ hlt) (by rw [hqp, hq]; exact hv.ne_zero hb), hqp, hq,
          hzero (hqp ▸ hlt), Vol.content_eq_zero hfree]
      · rw [update_of_ne hqp] at hq
        by_cases hz : v.refs L q = 0
        · rw [Vol.content_eq_zero hz, Vol.content_eq_zero (hq.trans hz)]
        · rw [Vol.content_eq hlt hz, Vol.content_eq hlt (hq ▸ hz), hq, hblk q hlt hz]
    · rw [Vol.content_beyond hlt, Vol.content_beyond hlt]

theorem Fills.direct (hi : i ∈ L) (hk : k < ndirect) (hfree : (v.inode i).addr k = 0) :
    Fills L (i, k) b v { v with
        inode := update v.inode i ((v.inode i).setAddr k (BitVec.ofNat 32 b))
        used := update v.used b true } := by
  have hnum : (BitVec.ofNat 32 b).toNat = b := by
    rw [BitVec.toNat_ofNat, Nat.mod_eq_of_lt hsmall]
  refine .of_refs hv hb ?_ ?_ rfl ⟨_, rfl⟩ (fun _ => hblank) fun _ _ _ => rfl
  · rw [Vol.refs_direct hi hk, hfree]
    rfl
  · have hrefs := @refs_setAddr L v.inode v.blk i _ (BitVec.ofNat 32 b) hi hk
    rwa [hnum] at hrefs

theorem Fills.indirect (hi : i ∈ L) (hfree : (v.inode i).addr ndirect = 0) :
    Fills L (i, maxfile) b v { v with
        inode := update v.inode i ((v.inode i).setAddr ndirect (BitVec.ofNat 32 b))
        used := update v.used b true } := by
  have hnum : (BitVec.ofNat 32 b).toNat = b := by
    rw [BitVec.toNat_ofNat, Nat.mod_eq_of_lt hsmall]
  refine .of_refs hv hb ?_ ?_ rfl ⟨_, rfl⟩ (fun _ => hblank) fun _ _ _ => rfl
  · rw [Vol.refs_maxfile hi, hfree]
    rfl
  · have hrefs := @refs_setIndirect L v.inode v.blk i (BitVec.ofNat 32 b) hi hfree
      (by rw [hnum, hblank])
    rwa [hnum] at hrefs

theorem Fills.word (hi : i ∈ L) (hk : k < nindirect) (hind : (v.inode i).addr ndirect ≠ 0)
    (hfree : (v.blk ((v.inode i).addr ndirect).toNat).word k = 0) :
    Fills L (i, ndirect + k) b v
      { v with
        used := update v.used b true
        blk := update v.blk ((v.inode i).addr ndirect).toNat
          ((v.blk ((v.inode i).addr ndirect).toNat).setWord k (BitVec.ofNat 32 b)) } := by
  have hnum : (BitVec.ofNat 32 b).toNat = b := by
    rw [BitVec.toNat_ofNat, Nat.mod_eq_of_lt hsmall]
  have hmax : v.refs L (i, maxfile) = ((v.inode i).addr ndirect).toNat := Vol.refs_maxfile hi
  have hne : v.refs L (i, maxfile) ≠ 0 := (addr_ne_zero hi).mpr hind
  -- no other place has the indirect block
  have hother : ∀ q, q ≠ (i, maxfile) → v.refs L q ≠ ((v.inode i).addr ndirect).toNat := by
    intro q hq heq
    exact hq (hv.unique _ q hne (heq.trans hmax.symm))
  have hfresh : b ≠ ((v.inode i).addr ndirect).toNat := by
    rw [← hmax]
    exact (hv.fresh hb _).symm
  have hlt : k + ndirect < maxfile := by
    simp only [maxfile]
    omega
  refine .of_refs hv hb ?_ ?_ rfl ⟨(v.inode i).addrs, ?_⟩ (fun _ => ?_) fun q hq hqne => ?_
  · rw [Vol.refs_word hi hk hind, hfree]
    rfl
  · have hrefs := @refs_setWord L v.inode v.blk i _ (BitVec.ofNat 32 b) hi hk hind
      fun j hj => hother (j, maxfile) fun heq => hj (Prod.mk.inj heq).1
    rwa [hnum] at hrefs
  · exact (update_eq_self i v.inode).symm
  · rw [← hblank]
    exact update_of_ne hfresh ..
  · refine update_of_ne (hother q fun heq => ?_) ..
    rw [heq] at hq
    exact Nat.lt_irrefl _ hq

end

/-! ## Finding the block of an index -/

/-- From `v` to `w` block `x` has been found for index `bn` of inode `i`, taken if there was
    none. -/
structure Reaches (L : Set Nat) (m i bn x : Nat) (v w : Vol) : Prop where
  found : w.refs L (i, bn) = x
  pos : x ≠ 0
  owns : Owns (· < m) (w.refs L) w.used
  covers : Covers (· < m) (v.refs L) v.used → Covers (· < m) (w.refs L) w.used
  kept : v.refs L (i, bn) ≠ 0 → v.refs L (i, bn) = x
  others : ∀ q, q ≠ (i, bn) → q ≠ (i, maxfile) → w.refs L q = v.refs L q
  indirect : bn < ndirect ∨ v.refs L (i, maxfile) ≠ 0 → w.refs L (i, maxfile) = v.refs L (i, maxfile)
  content : w.content L = v.content L
  node : ∃ a, w.inode = update v.inode i { v.inode i with addrs := a }

namespace Reaches

theorem hit (hv : Owns (· < m) (v.refs L) v.used) (hx : v.refs L (i, bn) = x) (hpos : x ≠ 0) :
    Reaches L m i bn x v v where
  found := hx
  pos := hpos
  owns := hv
  covers := id
  kept _ := hx
  others _ _ _ := rfl
  indirect _ := rfl
  content := rfl
  node := ⟨(v.inode i).addrs, (update_eq_self i v.inode).symm⟩

theorem fill (hv : Owns (· < m) (v.refs L) v.used) (hbn : bn < maxfile)
    (h : Fills L (i, bn) x v w) : Reaches L m i bn x v w where
  found := by rw [h.refs, update_self]
  pos := hv.ne_zero h.unused
  owns := h.owns hv
  covers := h.covers hv
  kept hne := absurd h.free hne
  others q hq _ := by rw [h.refs, update_of_ne hq]
  indirect _ := by
    rw [h.refs, update_of_ne]
    exact fun heq => absurd (Prod.mk.inj heq).2 hbn.ne'
  content := h.content
  node := h.node

theorem after_indirect (hi : i ∈ L) (hv : Owns (· < m) (v.refs L) v.used) (hlow : ndirect ≤ bn)
    (hbn : bn < maxfile) (h : Fills L (i, maxfile) b v u) (hr : Reaches L m i bn x u w) :
    Reaches L m i bn x v w where
  found := hr.found
  pos := hr.pos
  owns := hr.owns
  covers hc := hr.covers (h.covers hv hc)
  kept hne := absurd h.free (Vol.refs_maxfile_ne_zero hi hlow hbn hne)
  others q hq hmax := by rw [hr.others q hq hmax, h.refs, update_of_ne hmax]
  indirect hor := hor.elim (fun hlt => absurd hlt (by omega)) fun hne => absurd h.free hne
  content := hr.content.trans h.content
  node := by
    obtain ⟨a, ha⟩ := h.node
    obtain ⟨a', ha'⟩ := hr.node
    refine ⟨a', ?_⟩
    rw [ha', ha, update_self, update_idem]

theorem indirect_ne_zero (h : Reaches L m i bn x v w) (hi : i ∈ L) (hlow : ndirect ≤ bn)
    (hbn : bn < maxfile) : w.refs L (i, maxfile) ≠ 0 :=
  Vol.refs_maxfile_ne_zero hi hlow hbn (h.found ▸ h.pos)

end Reaches

/-- Storing a block of a file changes its content at one index and no block map. -/
theorem Vol.store (hv : Owns (· < m) (v.refs L) v.used) (hbn : bn < maxfile)
    (hx : v.refs L (i, bn) = x) (hpos : x ≠ 0) (c : Block) :
    ({ v with blk := update v.blk x c } : Vol).refs L = v.refs L ∧
      ({ v with blk := update v.blk x c } : Vol).content L =
        update (v.content L) (i, bn) c := by
  have hother : ∀ q, q ≠ (i, bn) → v.refs L q ≠ x := by
    intro q hq heq
    exact hq (hv.unique _ q (hx ▸ hpos) (heq.trans hx.symm))
  have hrefs : ({ v with blk := update v.blk x c } : Vol).refs L = v.refs L := by
    refine refs_congr fun j _ => update_of_ne (hother (j, maxfile) fun heq => ?_) ..
    exact absurd (Prod.mk.inj heq).2 hbn.ne'
  refine ⟨hrefs, funext fun q => ?_⟩
  by_cases hq : q = (i, bn)
  · rw [hq, update_self, Vol.content_eq hbn (by rw [hrefs, hx]; exact hpos), hrefs, hx]
    exact update_self ..
  · rw [update_of_ne hq]
    by_cases hlt : q.2 < maxfile
    · by_cases hz : v.refs L q = 0
      · rw [Vol.content_eq_zero hz, Vol.content_eq_zero (by rw [hrefs, hz])]
      · rw [Vol.content_eq hlt hz, Vol.content_eq hlt (by rwa [hrefs]), hrefs]
        exact update_of_ne (hother q hq) ..
    · rw [Vol.content_beyond hlt, Vol.content_beyond hlt]

/-! ## Files in a volume -/

/-- The blocks that a file of `size` bytes takes, its indirect block included. -/
def footprint (size : Nat) : Nat :=
  ceilBlocks size + if ndirect < ceilBlocks size then 1 else 0

/-- The inodes in `L` hold the files `F`: each has blocks for exactly its bytes, zeros behind them,
    and no block has two places. -/
structure StoresFiles (L : Set Nat) (m : Nat) (F : Nat → List Byte) (v : Vol) : Prop where
  owns : Owns (· < m) (v.refs L) v.used
  covers : Covers (· < m) (v.refs L) v.used
  blocks : ∀ i ∈ L, ∀ bn < maxfile, v.refs L (i, bn) ≠ 0 ↔ bn < ceilBlocks (F i).length
  indirect : ∀ i ∈ L, v.refs L (i, maxfile) ≠ 0 ↔ ndirect < ceilBlocks (F i).length
  bytes : ∀ i ∈ L, ∀ x, byteAt (v.content L) i x = (F i).getD x 0

section

variable {F : Nat → List Byte} {off n : Nat} {src : List Byte}

theorem ceilBlocks_piece (hn : 0 < n) (hle : n ≤ bsize - off % bsize) :
    ceilBlocks (off + n) = off / bsize + 1 := by
  simp only [ceilBlocks, bsize] at *
  omega

theorem StoresFiles.append (h : StoresFiles L m F v) (hi : i ∈ L) (hfit : (F i).length / bsize < maxfile)
    (hr : Reaches L m i ((F i).length / bsize) x v w) (hpos : 0 < src.length)
    (hle : src.length ≤ bsize - (F i).length % bsize) : StoresFiles L m (update F i (F i ++ src))
      { w with blk := update w.blk x ((w.blk x).setBytes ((F i).length % bsize) src) } := by
  obtain ⟨hrefs, hcontent⟩ := Vol.store hr.owns hfit hr.found hr.pos
    ((w.blk x).setBytes ((F i).length % bsize) src)
  have hblk : w.blk x = v.content L (i, (F i).length / bsize) := by
    rw [← hr.content, Vol.content_eq hfit (hr.found ▸ hr.pos), hr.found]
  have hceil : ceilBlocks (F i ++ src).length = (F i).length / bsize + 1 := by
    rw [List.length_append]
    exact ceilBlocks_piece hpos hle
  have hold : ceilBlocks (F i).length = (F i).length / bsize ∨
      ceilBlocks (F i).length = (F i).length / bsize + 1 := by
    simp only [ceilBlocks, bsize]
    omega
  constructor
  case owns =>
    rw [hrefs]
    exact hr.owns
  case covers =>
    rw [hrefs]
    exact hr.covers h.covers
  case blocks =>
    intro j hj bn hbn
    rw [hrefs]
    by_cases hji : j = i
    · rw [hji, update_self, hceil]
      by_cases hlast : bn = (F i).length / bsize
      · rw [hlast, hr.found]
        exact ⟨fun _ => Nat.lt_succ_self _, fun _ => hr.pos⟩
      · rw [hr.others (i, bn) (by simpa using hlast) (by simp [hbn.ne]), h.blocks i hi bn hbn]
        omega
    · rw [update_of_ne hji, hr.others (j, bn) (by simp [hji]) (by simp [hji]),
        h.blocks j hj bn hbn]
  case indirect =>
    intro j hj
    rw [hrefs]
    by_cases hji : j = i
    · rw [hji, update_self, hceil]
      by_cases hlow : ndirect ≤ (F i).length / bsize
      · exact ⟨fun _ => by omega, fun _ => hr.indirect_ne_zero hi hlow hfit⟩
      · rw [hr.indirect (.inl (by omega)), h.indirect i hi]
        omega
    · rw [update_of_ne hji, hr.others (j, maxfile) (by simp [hji]) (by simp [hji]),
        h.indirect j hj]
  case bytes =>
    intro j hj y
    rw [hcontent, hr.content, hblk]
    have hwritten : Written (v.content L) _ i (F i).length src :=
      @Written.piece (F i).length src.length (v.content L) i src (le_min le_rfl hle)
    by_cases hji : j = i
    · rw [hji, hwritten.bytes, update_self, h.bytes i hi]
      by_cases hin : (F i).length ≤ y ∧ y < (F i).length + src.length
      · rw [if_pos hin, List.getD_append_right _ _ _ _ hin.1]
      · rw [if_neg hin]
        rcases Nat.lt_or_ge y (F i).length with hlt | hge
        · rw [List.getD_append _ _ _ _ hlt]
        · rw [List.getD_eq_default _ _ hge, List.getD_eq_default]
          rw [List.length_append]
          omega
    · rw [update_of_ne hji, byteAt, hwritten.others _ (by simpa using hji), ← byteAt,
        h.bytes j hj]

end

end Xv6Memfs.Verified
