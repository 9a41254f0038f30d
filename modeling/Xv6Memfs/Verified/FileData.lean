import Xv6Memfs.Verified.Bmap

/-! # Reading and writing file contents

The loops of `readi` and `writei` go through the file block by block: `bmap` gives the
block, and a part of it is read or replaced.  `LoopPost` is what both loops do to the block
maps and the log; what they do to the bytes is said through `byteAt`. -/

namespace Xv6Memfs.Verified

open Lib Lib.Exec Function

variable {L : Set Nat} {g : Superblock} {s t u : Fs} {ip : Fin ninode} {A I : Prop}

/-! ## Bytes of a block -/

theorem byte_setByte {b : Block} {k j : Nat} {v : Byte} (hj : j < bsize) :
    (b.setByte k v).byte j = if j = k then v else b.byte j := by
  rw [Block.byte, Block.setByte]
  by_cases heq : j = k
  · rw [if_pos heq, heq, field_setField_same _ _ _ (by omega)]
  · rw [if_neg heq, field_setField_disjoint _ _ _ _ (by omega) (by omega), Block.byte]

theorem byte_setBytes {b : Block} {k j : Nat} {vs : List Byte} (hfit : k + vs.length ≤ bsize)
    (hj : j < bsize) : (b.setBytes k vs).byte j =
      if k ≤ j ∧ j < k + vs.length then vs.getD (j - k) 0 else b.byte j := by
  induction vs generalizing b k with
  | nil => rw [Block.setBytes, if_neg (by simp)]
  | cons v vs ih =>
    simp only [List.length_cons] at hfit ⊢
    rw [Block.setBytes, ih (by omega), byte_setByte hj]
    by_cases heq : j = k
    · simp [heq]
    · by_cases hin : k + 1 ≤ j ∧ j < k + 1 + vs.length
      · rw [if_pos hin, if_pos (by omega), show j - k = j - (k + 1) + 1 by omega,
          List.getD_cons_succ]
      · rw [if_neg hin, if_neg heq, if_neg (by omega)]

theorem byte_zero (k : Nat) : (0 : Block).byte k = 0 := by
  rw [Block.byte]
  exact field_zero ..

/-- Byte `x` of the content of inode `i`. -/
def byteAt (c : Nat × Nat → Block) (i x : Nat) : Byte := (c (i, x / bsize)).byte (x % bsize)

/-! ## The blocks of a range of bytes -/

/-- The indices of the blocks that hold the `n` bytes from offset `off` on. -/
def blocksOf (off n : Nat) : List Nat :=
  if n = 0 then [] else List.range' (off / bsize) ((off + n - 1) / bsize + 1 - off / bsize)

@[simp] theorem blocksOf_zero (off : Nat) : blocksOf off 0 = [] := rfl

theorem mem_blocksOf {off n bn : Nat} :
    bn ∈ blocksOf off n ↔ 0 < n ∧ off / bsize ≤ bn ∧ bn ≤ (off + n - 1) / bsize := by
  rw [blocksOf]
  split
  · simp [*]
  · rw [List.mem_range'_1]
    have hle : off / bsize ≤ (off + n - 1) / bsize := Nat.div_le_div_right (by omega)
    omega

theorem nodup_blocksOf (off n : Nat) : (blocksOf off n).Nodup := by
  rw [blocksOf]
  split
  · exact List.nodup_nil
  · exact List.nodup_range'

/-- One turn of the loop handles the first block of the range. -/
theorem blocksOf_step {off n : Nat} (hn : 0 < n) : blocksOf off n = off / bsize ::
      blocksOf (off + min n (bsize - off % bsize)) (n - min n (bsize - off % bsize)) := by
  have hmod : off % bsize < bsize := Nat.mod_lt _ (by decide)
  by_cases hlast : n ≤ bsize - off % bsize
  · have hdiv : (off + n - 1) / bsize = off / bsize := by
      simp only [bsize] at hmod hlast ⊢
      omega
    rw [Nat.min_eq_left hlast, Nat.sub_self, blocksOf_zero, blocksOf, if_neg (by omega), hdiv]
    simp
  · have hmin : min n (bsize - off % bsize) = bsize - off % bsize := by omega
    have hdiv : (off + (bsize - off % bsize)) / bsize = off / bsize + 1 := by
      simp only [bsize] at hmod ⊢
      omega
    have hend : off + (bsize - off % bsize) + (n - (bsize - off % bsize)) = off + n := by omega
    have hle : off / bsize + 1 ≤ (off + n - 1) / bsize := by
      simp only [bsize] at hmod hlast ⊢
      omega
    rw [hmin, blocksOf, if_neg (by omega), blocksOf, if_neg (by omega), hdiv, hend]
    rw [show (off + n - 1) / bsize + 1 - off / bsize =
      (off + n - 1) / bsize + 1 - (off / bsize + 1) + 1 by omega]
    rfl

/-! ## One turn of a loop -/

open Classical in
/-- The number of blocks to allocate for the indices `bns`. -/
noncomputable def needsAll (L : Set Nat) (g : Superblock) (s : Fs) (i : Nat) (bns : List Nat) : Nat :=
  bns.countP (fun bn => decide (refsOf L g s (i, bn) = 0)) +
    (if (∃ bn ∈ bns, ndirect ≤ bn) ∧ refsOf L g s (i, maxfile) = 0 then 1 else 0)

/-- What has been logged from `s` to `t` is metadata or has a place in `t`. -/
def Homes (L : Set Nat) (g : Superblock) (s t : Fs) : Prop :=
  ∀ x ∈ t.log.lh, x ∈ s.log.lh ∨ x < nmeta g ∨ x ≠ 0 ∧ ∃ p, refsOf L g t p = x

/-- The blocks at the indices `bns` of inode `ip` are there; at most they have been logged. -/
structure LoopPost (L : Set Nat) (g : Superblock) (ip : Fin ninode) (A I : Prop)
    (bns : List Nat) (s t : Fs) : Prop where
  grows : ∃ new, Grows L g ip new s t ∧ new.length = needsAll L g s (s.icache ip).inum bns
  filled : ∀ bn ∈ bns, refsOf L g t ((s.icache ip).inum, bn) ≠ 0
  only : ∀ bm < maxfile, bm ∉ bns →
    refsOf L g t ((s.icache ip).inum, bm) = refsOf L g s ((s.icache ip).inum, bm)
  onlyInd : (∀ bn ∈ bns, bn < ndirect) →
    refsOf L g t ((s.icache ip).inum, maxfile) = refsOf L g s ((s.icache ip).inum, maxfile)
  trail : Trail g ip A I bns.length s t
  homes : Homes L g s t

/-- The same for one index. -/
structure StepPost (L : Set Nat) (g : Superblock) (ip : Fin ninode) (A I : Prop)
    (bn : Nat) (s t : Fs) : Prop where
  grows : ∃ new, Grows L g ip new s t ∧ new.length = needs L g s (s.icache ip).inum bn
  filled : refsOf L g t ((s.icache ip).inum, bn) ≠ 0
  only : ∀ bm < maxfile, bm ≠ bn →
    refsOf L g t ((s.icache ip).inum, bm) = refsOf L g s ((s.icache ip).inum, bm)
  onlyInd : bn < ndirect →
    refsOf L g t ((s.icache ip).inum, maxfile) = refsOf L g s ((s.icache ip).inum, maxfile)
  trail : Trail g ip A I 1 s t
  homes : Homes L g s t

section

variable {bn : Nat} {bns : List Nat}

theorem LoopPost.nil (hinv : MapInv L g s) : LoopPost L g ip A I [] s s where
  grows := ⟨[], .refl hinv, by simp [needsAll]⟩
  filled := fun _ h => absurd h List.not_mem_nil
  only _ _ _ := rfl
  onlyInd _ := rfl
  trail := .refl
  homes _ hx := .inl hx

theorem Homes.of_logs {a : Nat} {p : Nat × Nat} (h : Logs (Footprint g ip A I (· = a) t) s t)
    (hinv : MapInv L g t) (hip : Held t.icache ip) (hL : (t.icache ip).inum ∈ L)
    (ha : refsOf L g t p = a) (hne : a ≠ 0) : Homes L g s t := by
  intro x hx
  rcases h.new x hx with hold | rfl | ⟨-, c, hc, rfl⟩ | ⟨-, rfl, hind⟩
  · exact .inl hold
  · exact .inr (.inr ⟨hne, p, ha⟩)
  · exact .inr (.inl (bblock_range hc).2)
  · exact .inr (.inr ⟨hind, _, refsOf_maxfile hinv hip hL⟩)

theorem BmapPost.step {a : Nat} (h : BmapPost L g ip bn A I s a t) (hinv : MapInv L g s)
    (hip : Held s.icache ip) (hL : (s.icache ip).inum ∈ L) : StepPost L g ip A I bn s t where
  grows := h.grows
  filled := h.addr ▸ h.ne_zero
  only := h.only
  onlyInd := h.onlyInd
  trail := by
    obtain ⟨new, hgrows, -⟩ := h.grows
    exact .of_logs (hgrows.indOf hinv hip hL) h.logs
  homes := by
    obtain ⟨new, hgrows, -⟩ := h.grows
    exact .of_logs h.logs hgrows.inv (hgrows.cache.held hip) (hgrows.inum ▸ hL) h.addr h.ne_zero

/-- A block behind `NDIRECT` needs the indirect block. -/
theorem refsOf_maxfile_ne_zero {i : Nat} (hL : i ∈ L) (hlow : ndirect ≤ bn) (hbn : bn < maxfile)
    (hne : refsOf L g s (i, bn) ≠ 0) : refsOf L g s (i, maxfile) ≠ 0 := by
  intro hzero
  apply hne
  rw [refsOf, refs_maxfile hL] at hzero
  rw [refsOf, refs_of_mem hL, mapOf, if_neg (by omega), if_pos hbn,
    if_pos (BitVec.eq_of_toNat_eq hzero)]

theorem needs_le_needsAll (L : Set Nat) (g : Superblock) (s : Fs) (i bn : Nat) (bns : List Nat) :
    needs L g s i bn ≤ needsAll L g s i (bn :: bns) := by
  rw [needs, needsAll, List.countP_cons]
  apply Nat.add_le_add
  · simp only [decide_eq_true_eq]
    omega
  · split
    · rename_i h
      rw [if_pos ⟨⟨bn, List.mem_cons_self, h.1⟩, h.2⟩]
    · exact Nat.zero_le _

theorem needsAll_cons (hstep : StepPost L g ip A I bn s t)
    (hL : (s.icache ip).inum ∈ L) (hbn : bn < maxfile) (hbns : ∀ bm ∈ bns, bm < maxfile)
    (hnodup : bn ∉ bns) : needsAll L g s (s.icache ip).inum (bn :: bns) =
      needs L g s (s.icache ip).inum bn + needsAll L g t (s.icache ip).inum bns := by
  have hcount : bns.countP (fun bm => decide (refsOf L g t ((s.icache ip).inum, bm) = 0)) =
      bns.countP (fun bm => decide (refsOf L g s ((s.icache ip).inum, bm) = 0)) := by
    apply List.countP_congr
    intro bm hbm
    have hne : bm ≠ bn := fun h => hnodup (h ▸ hbm)
    rw [hstep.only bm (hbns bm hbm) hne]
  rw [needsAll, needsAll, needs, hcount, List.countP_cons]
  by_cases hlow : ndirect ≤ bn
  · -- the first index already brings the indirect block
    have hmax := refsOf_maxfile_ne_zero hL hlow hbn hstep.filled
    simp only [List.mem_cons, exists_eq_or_imp, hlow, true_or, true_and, hmax, and_false, if_false,
      decide_eq_true_eq, Nat.add_zero]
    omega
  · rw [hstep.onlyInd (by omega)]
    simp only [List.mem_cons, exists_eq_or_imp, hlow, false_or, false_and, if_false,
      decide_eq_true_eq, Nat.add_zero]
    omega

theorem LoopPost.cons (hstep : StepPost L g ip A I bn s t) (hrest : LoopPost L g ip A I bns t u)
    (hL : (s.icache ip).inum ∈ L) (hbn : bn < maxfile) (hbns : ∀ bm ∈ bns, bm < maxfile)
    (hnodup : bn ∉ bns) : LoopPost L g ip A I (bn :: bns) s u := by
  have hneeds := needsAll_cons hstep hL hbn hbns hnodup
  obtain ⟨new, hgrows, hlen⟩ := hstep.grows
  obtain ⟨⟨new', hgrows', hlen'⟩, hfilled, honly, honlyInd, htrail, hhomes⟩ := hrest
  have hinum := hgrows.inum
  rw [hinum] at hlen' hfilled honly honlyInd
  constructor
  case grows =>
    refine ⟨new' ++ new, hgrows.trans hgrows', ?_⟩
    rw [List.length_append, hlen, hlen', hneeds]
    omega
  case filled =>
    intro bm hbm
    rcases List.mem_cons.mp hbm with rfl | hbm
    · rw [hgrows'.keeps _ hstep.filled]
      exact hstep.filled
    · exact hfilled bm hbm
  case only =>
    intro bm hlt hbm
    rw [List.mem_cons, not_or] at hbm
    rw [honly bm hlt hbm.2, hstep.only bm hlt hbm.1]
  case onlyInd =>
    intro hlow
    rw [honlyInd fun bm hbm => hlow bm (List.mem_cons_of_mem _ hbm),
      hstep.onlyInd (hlow bn List.mem_cons_self)]
  case trail =>
    rw [List.length_cons, Nat.add_comm]
    exact hstep.trail.trans htrail
  case homes =>
    intro x hx
    rcases hhomes x hx with hold | hlater
    · refine (hstep.homes x hold).imp_right (.imp_right ?_)
      rintro ⟨hne, p, rfl⟩
      exact ⟨hne, p, hgrows'.keeps p hne⟩
    · exact .inr hlater

end

/-! ## The loops -/

section

variable (hinv : MapInv L g s)

include hinv

/-- Replacing a content block changes that content and no block map. -/
theorem store_spec {bn a : Nat} {v : Block} (hbn : bn < maxfile)
    (ha : refsOf L g s ((s.icache ip).inum, bn) = a) (hne : a ≠ 0) :
    refsOf L g (put s a v) = refsOf L g s ∧ Grows L g ip [] s (put s a v) ∧
      contentOf L g (put s a v) = update (contentOf L g s) ((s.icache ip).inum, bn) v := by
  have hrange : nmeta g ≤ a ∧ a < g.size := by
    have := hinv.range (p := ((s.icache ip).inum, bn)) (ha ▸ hne)
    rwa [ha] at this
  have hvol : vol g (put s a v) = { vol g s with blk := update (vol g s).blk a v } :=
    vol_putBlk hrange.1
  have hnodes : nodes g (put s a v) = nodes g s := by
    funext i
    rw [nodes, nodes, hvol]
    rfl
  -- every other place has another block
  have hother : ∀ p, p ≠ ((s.icache ip).inum, bn) → refsOf L g s p ≠ a := by
    intro p hp heq
    exact hp (hinv.owns.unique _ p (ha ▸ hne) (by rw [heq, ha]))
  have hrefs : refsOf L g (put s a v) = refsOf L g s := by
    rw [refsOf, hnodes, hvol]
    apply refs_congr
    intro j _
    apply update_of_ne
    apply hother
    intro heq
    exact absurd (Prod.mk.inj heq).2 (by omega)
  refine ⟨hrefs, ?_, ?_⟩
  · have htwo := two_lt_nmeta (g := g)
    constructor
    case inv =>
      refine ⟨hinv.layout.put (by omega), hinv.cache, ?_⟩
      rw [hrefs, hvol]
      exact hinv.owns
    case cache => exact .refl rfl
    case devsw => rfl
    case inode => rw [hvol]
    case covers =>
      intro hcov
      rw [MapCovers, hrefs, hvol]
      exact hcov
    case keeps => exact fun p _ => by rw [hrefs]
    case elsewhere => exact fun p _ => by rw [hrefs]
    case fresh => exact fun p h => absurd (by rw [hrefs]) h
    case allocd => exact .refl rfl (by rw [hvol])
  · funext p
    have hrefsp : refs L (nodes g (put s a v)) (vol g (put s a v)).blk p = refsOf L g s p :=
      congrFun hrefs p
    rw [contentOf, contentAt, hrefsp, hvol]
    by_cases hp : p = ((s.icache ip).inum, bn)
    · rw [hp, update_self, ha, if_pos ⟨hbn, hne⟩]
      exact update_self ..
    · have hs : refs L (nodes g s) (vol g s).blk p = refsOf L g s p := rfl
      rw [update_of_ne hp, contentOf, contentAt, hs]
      simp only [update_of_ne (hother p hp)]

theorem contentOf_eq_disk {bn : Nat} (hbn : bn < maxfile)
    (hne : refsOf L g s ((s.icache ip).inum, bn) ≠ 0) : contentOf L g s ((s.icache ip).inum, bn) =
      s.disk (refsOf L g s ((s.icache ip).inum, bn)) := by
  have hs : refs L (nodes g s) (vol g s).blk ((s.icache ip).inum, bn) =
    refsOf L g s ((s.icache ip).inum, bn) := rfl
  have hrange := hinv.range hne
  rw [contentOf, contentAt, hs, if_pos ⟨hbn, hne⟩]
  simp [vol, Nat.not_lt.mpr hrange.1]

end

/-- What a loop over the bytes `off`, .., `off + n - 1` assumes: the conditions `A` and `I`
    hold if it must allocate a block, or a block behind `NDIRECT`. -/
structure LoopPre (L : Set Nat) (g : Superblock) (ip : Fin ninode) (A I : Prop) (off n : Nat)
    (s : Fs) : Prop where
  inv : MapInv L g s
  held : Held s.icache ip
  mem : (s.icache ip).inum ∈ L
  fits : off + n ≤ maxfile * bsize
  alloc : ∀ bn ∈ blocksOf off n, refsOf L g s ((s.icache ip).inum, bn) = 0 → A
  allocInd : ∀ bn ∈ blocksOf off n, refsOf L g s ((s.icache ip).inum, bn) = 0 → ndirect ≤ bn → I

/-- The length of the piece that one turn of a loop handles. -/
def piece (off n : Nat) : Nat := min n (bsize - off % bsize)

section

variable {off n : Nat}

theorem piece_le (off n : Nat) : piece off n ≤ n := Nat.min_le_left _ _

theorem piece_fits (off n : Nat) : off % bsize + piece off n ≤ bsize := by
  have hmod : off % bsize < bsize := Nat.mod_lt _ (by decide)
  have := Nat.min_le_right n (bsize - off % bsize)
  rw [piece]
  omega

theorem piece_pos (off : Nat) (hn : 0 < n) : 0 < piece off n := by
  have hmod : off % bsize < bsize := Nat.mod_lt _ (by decide)
  rw [piece]
  omega

theorem piece_div {x : Nat} (hlo : off ≤ x) (hhi : x < off + piece off n) :
    x / bsize = off / bsize ∧ x % bsize = off % bsize + (x - off) := by
  have hfit := piece_fits off n
  simp only [bsize] at hfit ⊢
  omega

theorem lt_maxfile_of_mem {bn : Nat} (hfits : off + n ≤ maxfile * bsize)
    (hbn : bn ∈ blocksOf off n) : bn < maxfile := by
  obtain ⟨hpos, -, hle⟩ := mem_blocksOf.mp hbn
  have hlt : (off + n - 1) / bsize < maxfile := by
    rw [Nat.div_lt_iff_lt_mul (by decide)]
    omega
  omega

namespace LoopPre

theorem mem_step (hn : 0 < n) : off / bsize ∈ blocksOf off n := by
  rw [blocksOf_step hn]
  exact List.mem_cons_self

variable (h : LoopPre L g ip A I off n s)

include h

theorem bound (hn : 0 < n) : off / bsize < maxfile := lt_maxfile_of_mem h.fits (mem_step hn)

theorem bounds {bm : Nat} (hbm : bm ∈ blocksOf (off + piece off n) (n - piece off n)) :
    bm < maxfile := by
  have := piece_le off n
  have := h.fits
  exact lt_maxfile_of_mem (by omega) hbm

omit h in
theorem fresh (hn : 0 < n) : off / bsize ∉ blocksOf (off + piece off n) (n - piece off n) := by
  have hnodup := nodup_blocksOf off n
  rw [blocksOf_step hn] at hnodup
  exact (List.nodup_cons.mp hnodup).1

theorem next (hn : 0 < n) (hstep : StepPost L g ip A I (off / bsize) s t) :
    LoopPre L g ip A I (off + piece off n) (n - piece off n) t := by
  obtain ⟨new, hgrows, -⟩ := hstep.grows
  have hinum := hgrows.inum
  have hsub : ∀ bm ∈ blocksOf (off + piece off n) (n - piece off n), bm ∈ blocksOf off n := by
    intro bm hbm
    rw [blocksOf_step hn]
    exact List.mem_cons_of_mem _ hbm
  have hsame : ∀ bm ∈ blocksOf (off + piece off n) (n - piece off n),
      refsOf L g t ((s.icache ip).inum, bm) = refsOf L g s ((s.icache ip).inum, bm) :=
    fun bm hbm => hstep.only bm (h.bounds hbm) fun heq => LoopPre.fresh hn (heq ▸ hbm)
  constructor
  case inv => exact hgrows.inv
  case held => exact hgrows.cache.held h.held
  case mem => exact hinum ▸ h.mem
  case fits =>
    have := piece_le off n
    have := h.fits
    omega
  case alloc =>
    intro bm hbm hzero
    rw [hinum, hsame bm hbm] at hzero
    exact h.alloc bm (hsub bm hbm) hzero
  case allocInd =>
    intro bm hbm hzero
    rw [hinum, hsame bm hbm] at hzero
    exact h.allocInd bm (hsub bm hbm) hzero

theorem stop_later (hn : 0 < n) {e : Stop} (hstep : StepPost L g ip A I (off / bsize) s t)
    (hstop : GrowStop g ip A I (blocksOf (off + piece off n) (n - piece off n)).length
      (needsAll L g t (t.icache ip).inum (blocksOf (off + piece off n) (n - piece off n))) t e u) :
    GrowStop g ip A I (blocksOf off n).length
      (needsAll L g s (s.icache ip).inum (blocksOf off n)) s e u := by
  have hneeds := needsAll_cons hstep h.mem (h.bound hn) (fun _ => h.bounds) (LoopPre.fresh hn)
  obtain ⟨new, hgrows, hlen⟩ := hstep.grows
  rw [hgrows.inum] at hstop
  have hafter := GrowStop.after hgrows.allocd hstep.trail hstop
  rw [hlen] at hafter
  rw [blocksOf_step hn]
  refine hafter.mono ?_ ?_
  · rw [List.length_cons, Nat.add_comm, piece]
  · rw [Nat.add_comm, ← hneeds, piece]

theorem post_later (hn : 0 < n) (hstep : StepPost L g ip A I (off / bsize) s t)
    (hrest : LoopPost L g ip A I (blocksOf (off + piece off n) (n - piece off n)) t u) :
    LoopPost L g ip A I (blocksOf off n) s u := by
  rw [blocksOf_step hn]
  exact LoopPost.cons hstep hrest h.mem (h.bound hn) (fun _ => h.bounds) (LoopPre.fresh hn)

theorem ends_bmap (hn : 0 < n) : Ends (Fs.bmap ip (off / bsize)) s
    (BmapPost L g ip (off / bsize) A I s) (fun e t => A ∧ GrowStop g ip A I (blocksOf off n).length
      (needsAll L g s (s.icache ip).inum (blocksOf off n)) s e t) := by
  have hmem : off / bsize ∈ blocksOf off n := mem_step hn
  refine (Verified.ends_bmap h.inv h.held h.mem (h.bound hn) (h.alloc _ hmem)
    (h.allocInd _ hmem)).mono (fun _ _ h => h) fun e t hstop => ⟨hstop.1, hstop.2.mono ?_ ?_⟩
  · exact List.length_pos_of_mem hmem
  · rw [blocksOf_step hn]
    exact needs_le_needsAll ..

end LoopPre

/-- The loop of `readi` returns the bytes of the content. -/
theorem ends_readLoop {fuel : Nat} (h : LoopPre L g ip A I off n s) (hfuel : n ≤ fuel) :
    Ends (Fs.readLoop ip fuel off n) s
      (fun bs t => LoopPost L g ip A I (blocksOf off n) s t ∧ contentOf L g t = contentOf L g s ∧
        (bs = (List.range n).map fun j => byteAt (contentOf L g s) (s.icache ip).inum (off + j)) ∧
        ((∀ bn ∈ blocksOf off n, refsOf L g s ((s.icache ip).inum, bn) ≠ 0) → t = s))
      (fun e t => A ∧ GrowStop g ip A I (blocksOf off n).length
        (needsAll L g s (s.icache ip).inum (blocksOf off n)) s e t) := by
  induction fuel generalizing off n s with
  | zero =>
    obtain rfl : n = 0 := by omega
    exact .pure ⟨.nil h.inv, rfl, rfl, fun _ => rfl⟩
  | succ fuel ih =>
    rw [Fs.readLoop]
    refine .ite (fun hzero => ?_) fun hnz => ?_
    · subst hzero
      exact .pure ⟨.nil h.inv, rfl, rfl, fun _ => rfl⟩
    have hn : 0 < n := by omega
    refine .gets_bind (.bind (h.ends_bmap hn) (fun _ _ h => h) ?_)
    intro addr t hpost
    have hstep := hpost.step h.inv h.held h.mem
    obtain ⟨new, hgrows, -⟩ := hpost.grows
    have hne := hpost.addr ▸ hpost.ne_zero
    have hrange := hgrows.inv.range hne
    rw [hpost.addr] at hrange
    rw [h.inv.cache.dev ip h.held.1]
    refine .bind_ok (run_bread (Nat.lt_of_lt_of_le hrange.2 hgrows.inv.layout.disk)) ?_
    have hle := piece_le off n
    have hrest := ih (h.next hn hstep) (by have := piece_pos off hn; omega)
    refine .bind hrest (fun e u hstop => ⟨hstop.1, h.stop_later hn hstep hstop.2⟩) ?_
    rintro bs u ⟨hloop, hcontent, hbs, hhit⟩
    refine .pure ⟨h.post_later hn hstep hloop, hcontent.trans hpost.content, ?_, ?_⟩
    · have hblock : contentOf L g s ((s.icache ip).inum, off / bsize) = t.disk addr := by
        rw [← hpost.content, ← hgrows.inum]
        rw [← hgrows.inum] at hne
        rw [contentOf_eq_disk hgrows.inv (h.bound hn) hne, hgrows.inum, hpost.addr]
      rw [hgrows.inum, hpost.content] at hbs
      have hsplit : n = piece off n + (n - piece off n) := by omega
      conv_rhs => rw [hsplit, List.range_add, List.map_append]
      congr 1
      · rw [Block.bytes]
        apply List.map_congr_left
        intro j hj
        have hj' : j < piece off n := List.mem_range.mp hj
        obtain ⟨hdiv, hmod⟩ := piece_div (n := n) (Nat.le_add_right off j) (by omega)
        rw [byteAt, hdiv, hmod, hblock, Nat.add_sub_cancel_left]
      · rw [hbs, List.map_map]
        apply List.map_congr_left
        intro j _
        rw [comp_apply, Nat.add_assoc]
    · intro hall
      obtain rfl := hpost.hit (hall _ (LoopPre.mem_step hn))
      apply hhit
      intro bm hbm
      apply hall
      rw [blocksOf_step hn]
      exact List.mem_cons_of_mem _ hbm

/-- The contents `c'` are `c` with `src` stored at offset `off` of inode `i`. -/
structure Written (c c' : Nat × Nat → Block) (i off : Nat) (src : List Byte) : Prop where
  others : ∀ p, p.1 ≠ i → c' p = c p
  bytes : ∀ x, byteAt c' i x =
    if off ≤ x ∧ x < off + src.length then src.getD (x - off) 0 else byteAt c i x

theorem Written.nil (c : Nat × Nat → Block) (i off : Nat) : Written c c i off [] where
  others _ _ := rfl
  bytes x := by rw [if_neg (by simp)]

theorem Written.piece {c : Nat × Nat → Block} {i : Nat} {src : List Byte}
    (hlen : src.length ≤ piece off n) : Written c (update c (i, off / bsize)
      ((c (i, off / bsize)).setBytes (off % bsize) src)) i off src where
  others p hp := by
    apply update_of_ne
    rintro rfl
    exact hp rfl
  bytes x := by
    have hfit := piece_fits off n
    have hmod : x % bsize < bsize := Nat.mod_lt _ (by decide)
    rw [byteAt]
    by_cases hblock : x / bsize = off / bsize
    · rw [hblock, update_self, byte_setBytes (by omega) hmod]
      have hx := Nat.div_add_mod x bsize
      have hoff := Nat.div_add_mod off bsize
      rw [hblock] at hx
      have hin : (off % bsize ≤ x % bsize ∧ x % bsize < off % bsize + src.length) ↔
          (off ≤ x ∧ x < off + src.length) := by omega
      simp only [hin, byteAt, hblock]
      split
      · rw [show x % bsize - off % bsize = x - off by omega]
      · rfl
    · have hout : ¬ (off ≤ x ∧ x < off + src.length) := by
        intro hin
        exact hblock (piece_div (n := n) hin.1 (by omega)).1
      rw [if_neg hout, update_of_ne (by simp [hblock]), byteAt]

theorem Written.append {c c1 c2 : Nat × Nat → Block} {i m : Nat} {src : List Byte}
    (hm : m ≤ src.length) (hfst : Written c c1 i off (src.take m))
    (hsnd : Written c1 c2 i (off + m) (src.drop m)) : Written c c2 i off src where
  others p hp := by rw [hsnd.others p hp, hfst.others p hp]
  bytes x := by
    have htake : (src.take m).length = m := by rw [List.length_take]; omega
    rw [hsnd.bytes, hfst.bytes, htake, List.length_drop]
    by_cases hlate : off + m ≤ x ∧ x < off + m + (src.length - m)
    · rw [if_pos hlate, if_pos (by omega), List.getD_eq_getElem?_getD, List.getElem?_drop,
        List.getD_eq_getElem?_getD]
      congr 2
      omega
    · rw [if_neg hlate]
      by_cases hearly : off ≤ x ∧ x < off + m
      · rw [if_pos hearly, if_pos (by omega), List.getD_eq_getElem?_getD,
          List.getElem?_take_of_lt (by omega), List.getD_eq_getElem?_getD]
      · rw [if_neg hearly, if_neg (by omega)]

def bytesOf (c : Nat × Nat → Block) (i size : Nat) : List Byte := (List.range size).map (byteAt c i)

@[simp] theorem length_bytesOf (c : Nat × Nat → Block) (i size : Nat) :
    (bytesOf c i size).length = size := by simp [bytesOf]

/-- A write that starts inside the file, on the list of its bytes. -/
theorem Written.bytesOf {c c' : Nat × Nat → Block} {i size : Nat} {src : List Byte}
    (h : Written c c' i off src) (hoff : off ≤ size) : bytesOf c' i (max size (off + src.length)) =
      (bytesOf c i size).take off ++ src ++ (bytesOf c i size).drop (off + src.length) := by
  have hlen := length_bytesOf c i size
  apply List.ext_getElem
  · simp only [length_bytesOf, List.length_append, List.length_take, List.length_drop]
    omega
  · intro x hx hx'
    rw [length_bytesOf] at hx
    simp only [Verified.bytesOf, List.getElem_map, List.getElem_range]
    rw [h.bytes]
    by_cases hbefore : x < off
    · rw [if_neg (by omega), List.getElem_append_left, List.getElem_append_left,
        List.getElem_take]
      · simp
      · simp only [List.length_take, List.length_map, List.length_range]
        omega
      · simp only [List.length_append, List.length_take, List.length_map, List.length_range]
        omega
    · by_cases hin : x < off + src.length
      · rw [if_pos (by omega), List.getElem_append_left, List.getElem_append_right]
        · rw [List.getD_eq_getElem?_getD, List.getElem?_eq_getElem (by omega), Option.getD_some]
          congr 1
          simp only [List.length_take, List.length_map, List.length_range]
          omega
        · simp only [List.length_take, List.length_map, List.length_range]
          omega
        · simp only [List.length_append, List.length_take, List.length_map, List.length_range]
          omega
      · rw [if_neg (by omega), List.getElem_append_right]
        · rw [List.getElem_drop]
          simp only [List.getElem_map, List.getElem_range]
          congr 1
          simp only [List.length_append, List.length_take, List.length_map, List.length_range]
          omega
        · simp only [List.length_append, List.length_take, List.length_map, List.length_range]
          omega

/-- `bmap` followed by `log_write` of the block it has returned. -/
theorem BmapPost.stepStore {bn a : Nat} {v : Block} (h : BmapPost L g ip bn A I s a t)
    (hinv : MapInv L g s) (hip : Held s.icache ip) (hL : (s.icache ip).inum ∈ L)
    (hbn : bn < maxfile) : StepPost L g ip A I bn s (put t a v) ∧ contentOf L g (put t a v) =
        update (contentOf L g s) ((s.icache ip).inum, bn) v := by
  obtain ⟨new, hgrows, hlen⟩ := h.grows
  have hinum := hgrows.inum
  have haddr := h.addr
  rw [← hinum] at haddr
  obtain ⟨hrefs, hgrows', hcontent⟩ := store_spec (v := v) hgrows.inv hbn haddr h.ne_zero
  refine ⟨?_, by rw [hcontent, h.content, hinum]⟩
  constructor
  case grows => exact ⟨[] ++ new, hgrows.trans hgrows', hlen⟩
  case filled => rw [hrefs, h.addr]; exact h.ne_zero
  case only => rw [hrefs]; exact h.only
  case onlyInd => rw [hrefs]; exact h.onlyInd
  case trail =>
    refine .of_logs (a := a) (hgrows.indOf hinv hip hL) ?_
    exact Logs.trans h.logs (Logs.put (.inl rfl))
  case homes =>
    have hplace : refsOf L g (put t a v) ((t.icache ip).inum, bn) = a := by rw [hrefs, haddr]
    refine .of_logs (Logs.trans h.logs (Logs.put (.inl rfl))) hgrows'.inv
      (hgrows'.cache.held (hgrows.cache.held hip)) ?_ hplace h.ne_zero
    rw [hgrows'.inum, hinum]
    exact hL

/-- The loop of `writei` stores the bytes of the source. -/
theorem ends_writeLoop {fuel : Nat} {src : List Byte} (h : LoopPre L g ip A I off src.length s)
    (hfuel : src.length ≤ fuel) : Ends (Fs.writeLoop ip fuel off src.length src) s
      (fun _ t => LoopPost L g ip A I (blocksOf off src.length) s t ∧
        Written (contentOf L g s) (contentOf L g t) (s.icache ip).inum off src)
      (GrowStop g ip A I (blocksOf off src.length).length
        (needsAll L g s (s.icache ip).inum (blocksOf off src.length)) s) := by
  induction fuel generalizing off src s with
  | zero =>
    obtain rfl : src = [] := List.length_eq_zero_iff.mp (by omega)
    exact .pure ⟨.nil h.inv, .nil ..⟩
  | succ fuel ih =>
    rw [Fs.writeLoop]
    refine .ite (fun hzero => ?_) fun hnz => ?_
    · obtain rfl : src = [] := List.length_eq_zero_iff.mp hzero
      exact .pure ⟨.nil h.inv, .nil ..⟩
    have hn : 0 < src.length := by omega
    refine .gets_bind (.bind (h.ends_bmap hn) (fun _ _ h => h.2) ?_)
    intro addr t hpost
    obtain ⟨new, hgrows, -⟩ := hpost.grows
    have hne := hpost.addr ▸ hpost.ne_zero
    have hrange := hgrows.inv.range hne
    rw [hpost.addr] at hrange
    have hblock : contentOf L g s ((s.icache ip).inum, off / bsize) = t.disk addr := by
      rw [← hpost.content, ← hgrows.inum]
      rw [← hgrows.inum] at hne
      rw [contentOf_eq_disk hgrows.inv (h.bound hn) hne, hgrows.inum, hpost.addr]
    rw [h.inv.cache.dev ip h.held.1]
    refine .bind_ok (run_bread (Nat.lt_of_lt_of_le hrange.2 hgrows.inv.layout.disk)) ?_
    refine .bind ends_logWrite ?_ ?_
    · rintro e u ⟨rfl, hcheck⟩
      have htrail := (hpost.step h.inv h.held h.mem).trail
      exact ⟨htrail.mono (List.length_pos_of_mem (LoopPre.mem_step hn)), .inr hcheck⟩
    · rintro - u ⟨-, rfl⟩
      obtain ⟨hstep, hcontent⟩ := hpost.stepStore h.inv h.held h.mem (h.bound hn)
        (v := (t.disk addr).setBytes (off % bsize) (src.take (piece off src.length)))
      have hle := piece_le off src.length
      have hnext := h.next hn hstep
      have hdrop : src.length - piece off src.length = (src.drop (piece off src.length)).length :=
        List.length_drop.symm
      rw [hdrop] at hnext
      have hrest := ih hnext (by have := piece_pos off hn; omega)
      rw [← hdrop] at hrest
      refine hrest.mono ?_ ?_
      · rintro - u ⟨hloop, hwritten⟩
        refine ⟨h.post_later hn hstep hloop, ?_⟩
        have hinum : ((put t addr ((t.disk addr).setBytes (off % bsize)
          (src.take (piece off src.length)))).icache ip).inum = (s.icache ip).inum := hgrows.inum
        rw [hinum, hcontent] at hwritten
        refine Written.append hle ?_ hwritten
        rw [← hblock]
        exact .piece (n := src.length) (by rw [List.length_take]; omega)
      · intro e u hstop
        exact h.stop_later hn hstep hstop

end

end Xv6Memfs.Verified
