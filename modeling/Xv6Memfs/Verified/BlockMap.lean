import Xv6Memfs.Verified.FsBlocks

/-! # Block maps of inodes

Which block holds which part of which file.  The inode that counts is the in-memory copy
where a valid one is cached, the one on disk otherwise (`nodes`).  A place is a pair of an
inode number and an index: the indices below `MAXFILE` are the blocks of the file's content
and index `MAXFILE` stands for the indirect block.  `refs` gives the block at a place.

Allocation fills one empty place with one unused block; `refs_setAddr`, `refs_setIndirect`
and `refs_setWord` are the three ways of `bmap` to do so. -/

namespace Xv6Memfs.Verified

open Lib Lib.Exec Function

/-! ## The map of one inode -/

/-- The block at index `bn` of an inode, `0` if there is none. -/
def mapOf (d : Dinode) (blk : Nat → Block) (bn : Nat) : Nat :=
  if bn < ndirect then (d.addr bn).toNat
  else if bn < maxfile then
    if d.addr ndirect = 0 then 0
    else ((blk (d.addr ndirect).toNat).word (bn - ndirect)).toNat
  else if bn = maxfile then (d.addr ndirect).toNat
  else 0

section

variable {d : Dinode} {blk blk' : Nat → Block} {bn k : Nat} {v : BitVec 32}

theorem ndirect_lt_maxfile : ndirect < maxfile := by decide

theorem mapOf_direct (hbn : bn < ndirect) : mapOf d blk bn = (d.addr bn).toNat := by
  rw [mapOf, if_pos hbn]

theorem mapOf_maxfile : mapOf d blk maxfile = (d.addr ndirect).toNat := by
  simp [mapOf, Nat.not_lt.mpr (Nat.le_of_lt ndirect_lt_maxfile)]

theorem mapOf_indirect (hk : k < nindirect) (hind : d.addr ndirect ≠ 0) :
    mapOf d blk (ndirect + k) = ((blk (d.addr ndirect).toNat).word k).toNat := by
  have hlt : ndirect + k < maxfile := by simp only [maxfile]; omega
  rw [mapOf, if_neg (by omega), if_pos hlt, if_neg hind, Nat.add_sub_cancel_left]

theorem mapOf_congr (h : d.addr ndirect ≠ 0 →
    blk' (d.addr ndirect).toNat = blk (d.addr ndirect).toNat) :
    mapOf d blk' bn = mapOf d blk bn := by
  by_cases hind : d.addr ndirect = 0
  · simp [mapOf, hind]
  · simp [mapOf, h hind]

theorem mapOf_setAddr (hk : k < ndirect) :
    mapOf (d.setAddr k v) blk bn = if bn = k then v.toNat else mapOf d blk bn := by
  have hind : (d.setAddr k v).addr ndirect = d.addr ndirect := by
    rw [Dinode.addr_setAddr (by omega), if_neg (by omega)]
  by_cases hbn : bn < ndirect
  · rw [mapOf_direct hbn, mapOf_direct hbn, Dinode.addr_setAddr (by omega)]
    split <;> rfl
  · rw [if_neg (by omega)]
    simp [mapOf, hbn, hind]

/-- A new, zeroed indirect block adds no block to the content. -/
theorem mapOf_setIndirect (hind : d.addr ndirect = 0) (hzero : blk v.toNat = 0) :
    mapOf (d.setAddr ndirect v) blk bn = if bn = maxfile then v.toNat else mapOf d blk bn := by
  have hnew : (d.setAddr ndirect v).addr ndirect = v := by
    rw [Dinode.addr_setAddr (Nat.le_refl _), if_pos rfl]
  by_cases hbn : bn < ndirect
  · have hne : bn ≠ maxfile := by have := ndirect_lt_maxfile; omega
    rw [mapOf_direct hbn, Dinode.addr_setAddr (Nat.le_refl _), if_neg (by omega), if_neg hne,
      mapOf_direct hbn]
  · have hword : ∀ k, (Block.word 0#(bsize * 8) k).toNat = 0 := by
      intro k
      rw [Block.word, field_zero]
      rfl
    by_cases hmax : bn = maxfile
    · rw [if_pos hmax, hmax, mapOf_maxfile, hnew]
    · simp [mapOf, hbn, hmax, hind, hnew, hzero, hword]

theorem mapOf_setWord (hk : k < nindirect) (hind : d.addr ndirect ≠ 0) :
    mapOf d (update blk (d.addr ndirect).toNat ((blk (d.addr ndirect).toNat).setWord k v)) bn =
      if bn = ndirect + k then v.toNat else mapOf d blk bn := by
  by_cases hbn : bn < ndirect
  · rw [if_neg (by omega), mapOf_direct hbn, mapOf_direct hbn]
  · by_cases hmax : bn < maxfile
    · obtain ⟨j, rfl⟩ := Nat.exists_eq_add_of_le (Nat.not_lt.mp hbn)
      have hj : j < nindirect := by simp only [maxfile] at hmax; omega
      rw [mapOf_indirect hj hind, mapOf_indirect hj hind, update_self]
      by_cases hjk : j = k
      · rw [if_pos (by rw [hjk]), hjk, Block.word_setWord_same _ _ _ hk]
      · rw [if_neg (by omega), Block.word_setWord_ne _ _ _ _ hjk hj]
    · have hne : bn ≠ ndirect + k := by simp only [maxfile] at hmax; omega
      simp [mapOf, hbn, hmax, hne]

end

/-! ## The inodes that count -/

def coreOf (c : Fin ninode → Inode) (i : Nat) : Option (Fin ninode) :=
  (List.finRange ninode).find? fun k => decide ((c k).ref > 0 ∧ (c k).valid ∧ (c k).inum = i)

def nodes (g : Superblock) (s : Fs) (i : Nat) : Dinode :=
  match coreOf s.icache i with
  | some k => (s.icache k).node
  | none => (vol g s).inode i

/-- The cache holds at most one entry for an inode, and only inodes of the disk. -/
structure CacheWf (g : Superblock) (c : Fin ninode → Inode) : Prop where
  dev : ∀ k, (c k).ref > 0 → (c k).dev = rootdev
  inum : ∀ k, (c k).ref > 0 → (c k).inum / ipb ≤ g.ninodes / ipb
  unique : ∀ k l, (c k).ref > 0 → (c l).ref > 0 → (c k).inum = (c l).inum → k = l

def Held (c : Fin ninode → Inode) (ip : Fin ninode) : Prop := (c ip).ref > 0 ∧ (c ip).valid = true

section

variable {g : Superblock} {c : Fin ninode → Inode} {ip : Fin ninode} {i : Nat}

theorem coreOf_eq_some {k : Fin ninode} (h : coreOf c i = some k) : Held c k ∧ (c k).inum = i := by
  have := List.find?_some h
  simp only [decide_eq_true_eq] at this
  exact ⟨⟨this.1, this.2.1⟩, this.2.2⟩

theorem coreOf_eq_none (h : coreOf c i = none) (k : Fin ninode) (hk : Held c k) :
    (c k).inum ≠ i := by
  intro hi
  have := List.find?_eq_none.mp h k (List.mem_finRange k)
  simp only [decide_eq_true_eq] at this
  exact this ⟨hk.1, hk.2, hi⟩

theorem CacheWf.coreOf (h : CacheWf g c) (hip : Held c ip) : coreOf c (c ip).inum = some ip := by
  match hc : Verified.coreOf c (c ip).inum with
  | some k =>
    obtain ⟨hk, hinum⟩ := coreOf_eq_some hc
    rw [h.unique k ip hk.1 hip.1 hinum]
  | none => exact absurd rfl (coreOf_eq_none hc ip hip)

theorem coreOf_congr {c' : Fin ninode → Inode}
    (h : ∀ k, (c' k).ref = (c k).ref ∧ (c' k).valid = (c k).valid ∧ (c' k).inum = (c k).inum) :
    coreOf c' i = coreOf c i := by
  simp only [coreOf, h]

theorem nodes_of_held {s : Fs} (h : CacheWf g s.icache) (hip : Held s.icache ip) :
    nodes g s (s.icache ip).inum = (s.icache ip).node := by
  simp only [nodes, h.coreOf hip]

end

def withNode (s : Fs) (ip : Fin ninode) (d : Dinode) : Fs :=
  { s with icache := update s.icache ip { s.icache ip with node := d } }

section

variable {g : Superblock} {s : Fs} {ip k : Fin ninode} {d : Dinode}

theorem run_setNode {f : Dinode → Dinode} :
    run (Fs.setNode ip f) s = (.ok (), withNode s ip (f (s.icache ip).node)) := rfl

@[simp] theorem vol_withNode : vol g (withNode s ip d) = vol g s := rfl

theorem withNode_self : (withNode s ip d).icache ip = { s.icache ip with node := d } :=
  update_self ..

theorem withNode_ne (hk : k ≠ ip) : (withNode s ip d).icache k = s.icache k :=
  update_of_ne hk ..

theorem withNode_keeps (k : Fin ninode) : ((withNode s ip d).icache k).ref = (s.icache k).ref ∧
      ((withNode s ip d).icache k).valid = (s.icache k).valid ∧
      ((withNode s ip d).icache k).inum = (s.icache k).inum := by
  by_cases hk : k = ip
  · rw [hk, withNode_self]
    exact ⟨rfl, rfl, rfl⟩
  · rw [withNode_ne hk]
    exact ⟨rfl, rfl, rfl⟩

theorem Layout.withNode (hl : Layout g s) : Layout g (withNode s ip d) := ⟨hl.sb, hl.fits, hl.disk⟩

theorem nodes_withNode (hc : CacheWf g s.icache) (hip : Held s.icache ip) :
    nodes g (withNode s ip d) = update (nodes g s) (s.icache ip).inum d := by
  funext j
  rw [nodes, coreOf_congr withNode_keeps, update_apply]
  by_cases hj : j = (s.icache ip).inum
  · rw [if_pos hj, hj, hc.coreOf hip]
    simp only [withNode_self]
  · rw [if_neg hj, nodes]
    match hcore : coreOf s.icache j with
    | some k =>
      have hk : k ≠ ip := by
        rintro rfl
        exact hj (coreOf_eq_some hcore).2.symm
      simp only [withNode_ne hk]
    | none => rfl

end

/-! ## The blocks of all inodes -/

open Classical in
/-- The block at a place, for the inodes in `L`. -/
noncomputable def refs (L : Set Nat) (ino : Nat → Dinode) (blk : Nat → Block) (p : Nat × Nat) : Nat :=
  if p.1 ∈ L then mapOf (ino p.1) blk p.2 else 0

open Classical in
/-- The content at a place; a missing block reads as zeros. -/
noncomputable def contentAt (L : Set Nat) (ino : Nat → Dinode) (blk : Nat → Block)
    (p : Nat × Nat) : Block :=
  if p.2 < maxfile ∧ refs L ino blk p ≠ 0 then blk (refs L ino blk p) else 0

section

variable {L : Set Nat} {ino : Nat → Dinode} {blk blk' : Nat → Block} {i k : Nat} {v : BitVec 32}

theorem refs_of_mem (hi : i ∈ L) (bn : Nat) : refs L ino blk (i, bn) = mapOf (ino i) blk bn :=
  if_pos hi

theorem refs_maxfile (hi : i ∈ L) : refs L ino blk (i, maxfile) = ((ino i).addr ndirect).toNat := by
  rw [refs_of_mem hi, mapOf_maxfile]

theorem refs_congr (h : ∀ j, refs L ino blk (j, maxfile) ≠ 0 →
    blk' (refs L ino blk (j, maxfile)) = blk (refs L ino blk (j, maxfile))) :
    refs L ino blk' = refs L ino blk := by
  funext p
  obtain ⟨j, bn⟩ := p
  by_cases hj : j ∈ L
  · rw [refs_of_mem hj, refs_of_mem hj]
    apply mapOf_congr
    intro hind
    have := h j
    rw [refs_maxfile hj] at this
    apply this
    intro hzero
    exact hind (BitVec.eq_of_toNat_eq hzero)
  · simp [refs, hj]

theorem refs_setAddr (hi : i ∈ L) (hk : k < ndirect) :
    refs L (update ino i ((ino i).setAddr k v)) blk = update (refs L ino blk) (i, k) v.toNat := by
  funext p
  obtain ⟨j, bn⟩ := p
  by_cases hj : j = i
  · rw [hj, refs_of_mem hi, update_self, mapOf_setAddr hk, update_apply,
      refs_of_mem hi]
    simp
  · have hne : (j, bn) ≠ (i, k) := by simp [hj]
    rw [update_of_ne hne]
    simp [refs, update_of_ne hj]

theorem refs_setIndirect (hi : i ∈ L) (hind : (ino i).addr ndirect = 0) (hzero : blk v.toNat = 0) :
    refs L (update ino i ((ino i).setAddr ndirect v)) blk =
      update (refs L ino blk) (i, maxfile) v.toNat := by
  funext p
  obtain ⟨j, bn⟩ := p
  by_cases hj : j = i
  · rw [hj, refs_of_mem hi, update_self, mapOf_setIndirect hind hzero,
      update_apply, refs_of_mem hi]
    simp
  · have hne : (j, bn) ≠ (i, maxfile) := by simp [hj]
    rw [update_of_ne hne]
    simp [refs, update_of_ne hj]

theorem refs_setWord (hi : i ∈ L) (hk : k < nindirect) (hind : (ino i).addr ndirect ≠ 0)
    (hother : ∀ j, j ≠ i → refs L ino blk (j, maxfile) ≠ ((ino i).addr ndirect).toNat) :
    refs L ino (update blk ((ino i).addr ndirect).toNat
      ((blk ((ino i).addr ndirect).toNat).setWord k v)) =
      update (refs L ino blk) (i, ndirect + k) v.toNat := by
  funext p
  obtain ⟨j, bn⟩ := p
  by_cases hj : j = i
  · rw [hj, refs_of_mem hi, mapOf_setWord hk hind, update_apply, refs_of_mem hi]
    simp
  · have hne : (j, bn) ≠ (i, ndirect + k) := by simp [hj]
    rw [update_of_ne hne]
    by_cases hjL : j ∈ L
    · rw [refs_of_mem hjL, refs_of_mem hjL]
      apply mapOf_congr
      intro _
      have := hother j hj
      rw [refs_maxfile hjL] at this
      exact update_of_ne this ..
    · simp [refs, hjL]

end

end Xv6Memfs.Verified
