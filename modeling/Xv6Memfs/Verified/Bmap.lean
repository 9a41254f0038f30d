import Xv6Memfs.Verified.BlockMap

/-! # Allocation of file blocks

The specification of `bmap`: it gives inode `ip` the blocks it needs and changes nothing
else.  `Allocd` says what a sequence of allocations does to the bitmap, `Grows` what it does
to the block maps and the contents, and `Trail` which blocks it logs. -/

namespace Xv6Memfs.Verified

open Lib Lib.Exec Function

variable {L : Set Nat} {g : Superblock} {s t u : Fs} {ip : Fin ninode} {b : Nat}

/-! ## Allocated blocks -/

/-- From `s` to `t` the blocks `new` have been allocated, the last one first. -/
structure Allocd (g : Superblock) (new : List Nat) (s t : Fs) : Prop where
  allocs : t.allocs = new ++ s.allocs
  nodup : new.Nodup
  free : ∀ b ∈ new, (vol g s).used b = false ∧ b < g.size
  used : ∀ b, (vol g t).used b = ((vol g s).used b || decide (b ∈ new))
  /-- allocation is first fit -/
  low : ∀ n, new.length ≤ clearCount n (vol g s).used → ∀ b ∈ new, b < n

theorem clearCount_add {n : Nat} {used used' : Nat → Bool} {new : List Nat} (hnodup : new.Nodup)
    (hfree : ∀ b ∈ new, used b = false) (hlow : ∀ b ∈ new, b < n)
    (hused : ∀ b, used' b = (used b || decide (b ∈ new))) :
    clearCount n used' + new.length = clearCount n used := by
  have hdisj : Disjoint ((Finset.range n).filter fun b => used' b = false) new.toFinset := by
    rw [Finset.disjoint_left]
    intro b hb hnew
    rw [List.mem_toFinset] at hnew
    simp [hused, hnew] at hb
  have hcard : new.toFinset.card = new.length := List.toFinset_card_of_nodup hnodup
  rw [clearCount, clearCount, ← hcard, ← Finset.card_union_of_disjoint hdisj]
  congr 1
  ext b
  simp only [Finset.mem_union, Finset.mem_filter, Finset.mem_range, List.mem_toFinset, hused]
  by_cases hb : b ∈ new
  · simp [hb, hfree b hb, hlow b hb]
  · simp [hb]

namespace Allocd

theorem refl (hallocs : t.allocs = s.allocs) (hused : (vol g t).used = (vol g s).used) :
    Allocd g [] s t := by
  constructor <;> simp [hallocs, hused]

variable {new new' : List Nat}

theorem clearCount {n : Nat} (h : Allocd g new s t) (hlow : ∀ b ∈ new, b < n) :
    clearCount n (vol g t).used + new.length = clearCount n (vol g s).used :=
  clearCount_add h.nodup (fun b hb => (h.free b hb).1) hlow h.used

theorem trans (h : Allocd g new s t) (h' : Allocd g new' t u) : Allocd g (new' ++ new) s u where
  allocs := by rw [h'.allocs, h.allocs, List.append_assoc]
  nodup := by
    rw [List.nodup_append]
    refine ⟨h'.nodup, h.nodup, ?_⟩
    rintro a ha b hb rfl
    have hfree := (h'.free a ha).1
    simp [h.used, hb] at hfree
  free b hb := by
    rcases List.mem_append.mp hb with hb | hb
    · have hfree := h'.free b hb
      rw [h.used, Bool.or_eq_false_iff] at hfree
      exact ⟨hfree.1.1, hfree.2⟩
    · exact h.free b hb
  used b := by
    rw [h'.used, h.used]
    simp only [List.mem_append, Bool.or_assoc, Bool.decide_or, Bool.or_comm (decide (b ∈ new))]
  low n hn := by
    rw [List.length_append] at hn
    have hlow := h.low n (by omega)
    have hcount := h.clearCount hlow
    have hlow' := h'.low n (by omega)
    intro b hb
    exact (List.mem_append.mp hb).elim (hlow' b) (hlow b)

end Allocd

theorem Allocates.nmeta_le (ha : Allocates g s b t)
    (hbase : ∀ c < nmeta g, (vol g s).used c = true) : nmeta g ≤ b := by
  by_contra hlt
  have := hbase b (by omega)
  simp [ha.free] at this

theorem Allocates.allocd (ha : Allocates g s b t)
    (hbase : ∀ c < nmeta g, (vol g s).used c = true) : Allocd g [b] s t := by
  have hvol := vol_taken (s := s) ha.lt (ha.nmeta_le hbase)
  obtain ⟨hfree, hlt, hfirst, rfl⟩ := ha
  constructor
  case allocs => rfl
  case nodup => exact List.nodup_singleton b
  case free => simp [hfree, hlt]
  case used =>
    intro c
    simp only [hvol, update_apply, List.mem_singleton]
    by_cases hc : c = b <;> simp [hc]
  case low =>
    intro n hn c hc
    rw [List.mem_singleton] at hc
    subst hc
    -- some block below `n` is clear, and none below `c` is
    have hpos : 0 < clearCount n (vol g s).used := hn
    obtain ⟨d, hd⟩ := Finset.card_pos.mp hpos
    simp only [Finset.mem_filter, Finset.mem_range] at hd
    by_contra hge
    have := hfirst d (by omega)
    simp [hd.2] at this

/-! ## Growing block maps -/

noncomputable def refsOf (L : Set Nat) (g : Superblock) (s : Fs) : Nat × Nat → Nat :=
  refs L (nodes g s) (vol g s).blk

noncomputable def contentOf (L : Set Nat) (g : Superblock) (s : Fs) : Nat × Nat → Block :=
  contentAt L (nodes g s) (vol g s).blk

/-- The block maps of the inodes in `L` are disjoint, and their blocks are marked. -/
structure MapInv (L : Set Nat) (g : Superblock) (s : Fs) : Prop where
  layout : Layout g s
  cache : CacheWf g s.icache
  owns : Owns (· < nmeta g) (refsOf L g s) (vol g s).used

/-- The converse: every marked block is metadata or has an owner. -/
def MapCovers (L : Set Nat) (g : Superblock) (s : Fs) : Prop :=
  Covers (· < nmeta g) (refsOf L g s) (vol g s).used

theorem used_lt (h : (vol g s).used b = true) : b < g.size := by
  simp only [vol, Bool.and_eq_true, decide_eq_true_eq] at h
  exact h.1

theorem MapInv.range {p : Nat × Nat} (h : MapInv L g s) (hp : refsOf L g s p ≠ 0) :
    nmeta g ≤ refsOf L g s p ∧ refsOf L g s p < g.size :=
  ⟨Nat.not_lt.mp (h.owns.apart p hp), used_lt (h.owns.marked p hp)⟩

/-- Only the addresses of the in-memory inode `ip` have changed. -/
structure SameBut (ip : Fin ninode) (s t : Fs) : Prop where
  others : ∀ k, k ≠ ip → t.icache k = s.icache k
  self : ∃ a, t.icache ip = { s.icache ip with node := { (s.icache ip).node with addrs := a } }

theorem SameBut.keeps (h : SameBut ip s t) (k : Fin ninode) :
    (t.icache k).ref = (s.icache k).ref ∧ (t.icache k).valid = (s.icache k).valid ∧
      (t.icache k).inum = (s.icache k).inum ∧ (t.icache k).dev = (s.icache k).dev := by
  by_cases hk : k = ip
  · obtain ⟨a, ha⟩ := h.self
    rw [hk, ha]
    exact ⟨rfl, rfl, rfl, rfl⟩
  · rw [h.others k hk]
    exact ⟨rfl, rfl, rfl, rfl⟩

theorem SameBut.refl (h : t.icache = s.icache) : SameBut ip s t where
  others k _ := by rw [h]
  self := ⟨(s.icache ip).node.addrs, by rw [h]⟩

theorem SameBut.trans (h : SameBut ip s t) (h' : SameBut ip t u) : SameBut ip s u where
  others k hk := by rw [h'.others k hk, h.others k hk]
  self := by
    obtain ⟨a, ha⟩ := h.self
    obtain ⟨a', ha'⟩ := h'.self
    exact ⟨a', by rw [ha', ha]⟩

theorem SameBut.cacheWf (h : SameBut ip s t) (hc : CacheWf g s.icache) : CacheWf g t.icache where
  dev k hk := by
    obtain ⟨href, -, -, hdev⟩ := h.keeps k
    rw [hdev]
    exact hc.dev k (href ▸ hk)
  inum k hk := by
    obtain ⟨href, -, hinum, -⟩ := h.keeps k
    rw [hinum]
    exact hc.inum k (href ▸ hk)
  unique k l hk hl hkl := by
    obtain ⟨href, -, hinum, -⟩ := h.keeps k
    obtain ⟨href', -, hinum', -⟩ := h.keeps l
    exact hc.unique k l (href ▸ hk) (href' ▸ hl) (by rw [← hinum, ← hinum', hkl])

theorem SameBut.held (h : SameBut ip s t) {k : Fin ninode} (hk : Held s.icache k) :
    Held t.icache k := by
  obtain ⟨href, hvalid, -, -⟩ := h.keeps k
  exact ⟨href ▸ hk.1, hvalid ▸ hk.2⟩

/-- From `s` to `t` inode `ip` has got the blocks `new`. -/
structure Grows (L : Set Nat) (g : Superblock) (ip : Fin ninode) (new : List Nat)
    (s t : Fs) : Prop where
  inv : MapInv L g t
  cache : SameBut ip s t
  devsw : t.devsw = s.devsw
  inode : (vol g t).inode = (vol g s).inode
  covers : MapCovers L g s → MapCovers L g t
  keeps : ∀ p, refsOf L g s p ≠ 0 → refsOf L g t p = refsOf L g s p
  elsewhere : ∀ p, p.1 ≠ (s.icache ip).inum → refsOf L g t p = refsOf L g s p
  fresh : ∀ p, refsOf L g t p ≠ refsOf L g s p → refsOf L g t p ∈ new
  allocd : Allocd g new s t

namespace Grows

variable {new new' : List Nat}

theorem refl (h : MapInv L g s) : Grows L g ip [] s s where
  inv := h
  cache := .refl rfl
  devsw := rfl
  inode := rfl
  covers := id
  keeps _ _ := rfl
  elsewhere _ _ := rfl
  fresh _ h := absurd rfl h
  allocd := .refl rfl rfl

theorem inum (h : Grows L g ip new s t) : (t.icache ip).inum = (s.icache ip).inum :=
  (h.cache.keeps ip).2.2.1

theorem trans (h : Grows L g ip new s t) (h' : Grows L g ip new' t u) :
    Grows L g ip (new' ++ new) s u where
  inv := h'.inv
  cache := h.cache.trans h'.cache
  devsw := h'.devsw.trans h.devsw
  inode := h'.inode.trans h.inode
  covers hs := h'.covers (h.covers hs)
  keeps p hp := by
    have hst := h.keeps p hp
    rw [h'.keeps p (hst ▸ hp), hst]
  elsewhere p hp := by rw [h'.elsewhere p (h.inum ▸ hp), h.elsewhere p hp]
  fresh p hp := by
    by_cases heq : refsOf L g u p = refsOf L g t p
    · rw [heq] at hp ⊢
      exact List.mem_append_right _ (h.fresh p hp)
    · exact List.mem_append_left _ (h'.fresh p heq)
  allocd := h.allocd.trans h'.allocd

end Grows

/-! ## Filling one place -/

theorem Layout.size_lt (hl : Layout g s) : g.size < 2 ^ 32 := by
  rw [← hl.sb]
  exact BitVec.isLt _

theorem toNat_ofNat_block (hl : Layout g s) (hb : b < g.size) : (BitVec.ofNat 32 b).toNat = b := by
  rw [BitVec.toNat_ofNat, Nat.mod_eq_of_lt (Nat.lt_trans hb hl.size_lt)]

section

variable (hinv : MapInv L g s) (ha : Allocates g s b u)

include hinv ha

theorem Allocates.nmeta_le' : nmeta g ≤ b := ha.nmeta_le hinv.owns.baseMarked

theorem Allocates.vol_eq : vol g u =
    { vol g s with
      used := update (vol g s).used b true
      blk := update (vol g s).blk b 0 } := by
  rw [ha.state]
  exact vol_taken ha.lt (ha.nmeta_le' hinv)

theorem Allocates.nodes_eq : nodes g u = nodes g s := by
  funext i
  rw [nodes, nodes, ha.vol_eq hinv, ha.state]
  rfl

/-- An allocated block that no inode has got yet changes no block map. -/
theorem Allocates.refs_eq : refs L (nodes g s) (vol g u).blk = refsOf L g s := by
  rw [ha.vol_eq hinv]
  apply refs_congr
  intro j _
  exact update_of_ne (hinv.owns.fresh ha.free (j, maxfile)) ..

theorem Allocates.blk_eq {p : Nat × Nat} : (vol g u).blk (refsOf L g s p) =
    (vol g s).blk (refsOf L g s p) := by
  rw [ha.vol_eq hinv]
  exact update_of_ne (hinv.owns.fresh ha.free p) ..

theorem Allocates.blk_self : (vol g u).blk b = 0 := by
  rw [ha.vol_eq hinv]
  exact update_self ..

theorem Allocates.layout : Layout g u := by
  rw [ha.state]
  exact hinv.layout.taken (ha.nmeta_le' hinv)

/-- What is left to show when place `p` of inode `ip` has got block `b`. -/
theorem Grows.fill {p : Nat × Nat} (hfree : refsOf L g s p = 0) (hp : p.1 = (s.icache ip).inum)
    (hlayout : Layout g t) (hcache : SameBut ip s t) (hdevsw : t.devsw = s.devsw)
    (hinode : (vol g t).inode = (vol g s).inode) (hused : (vol g t).used = (vol g u).used)
    (hallocs : t.allocs = u.allocs) (hrefs : refsOf L g t = update (refsOf L g s) p b)
    (hzero : p.2 < maxfile → (vol g t).blk b = 0) (hblk : ∀ q, q.2 < maxfile → refsOf L g s q ≠ 0 →
      (vol g t).blk (refsOf L g s q) = (vol g s).blk (refsOf L g s q)) :
    Grows L g ip [b] s t ∧ contentOf L g t = contentOf L g s := by
  have hmark : (vol g t).used = update (vol g s).used b true := by
    rw [hused, ha.vol_eq hinv]
  refine ⟨?_, ?_⟩
  · constructor
    case inv =>
      refine ⟨hlayout, hcache.cacheWf hinv.cache, ?_⟩
      rw [hrefs, hmark]
      exact hinv.owns.assign p ha.free
    case cache => exact hcache
    case devsw => exact hdevsw
    case inode => exact hinode
    case covers =>
      intro hcov
      rw [MapCovers, hrefs, hmark]
      exact Covers.assign hcov hinv.owns p hfree
    case keeps =>
      intro q hq
      rw [hrefs, update_of_ne]
      rintro rfl
      exact hq hfree
    case elsewhere =>
      intro q hq
      rw [hrefs, update_of_ne]
      rintro rfl
      exact hq hp
    case fresh =>
      intro q hq
      rw [hrefs, update_apply] at hq ⊢
      by_cases hqp : q = p
      · rw [if_pos hqp]
        exact List.mem_singleton_self b
      · rw [if_neg hqp] at hq
        exact absurd rfl hq
    case allocd =>
      have hone := ha.allocd hinv.owns.baseMarked
      exact ⟨hallocs.trans hone.allocs, hone.nodup, hone.free, fun c => by rw [hused, hone.used],
        hone.low⟩
  · funext q
    have hrefsq : refs L (nodes g t) (vol g t).blk q = update (refsOf L g s) p b q :=
      congrFun hrefs q
    rw [contentOf, contentOf, contentAt, contentAt, hrefsq]
    by_cases hqp : q = p
    · -- the new block is zero, as a missing block reads
      subst hqp
      have hs : refs L (nodes g s) (vol g s).blk q = 0 := hfree
      rw [update_self, hs]
      simp only [ne_eq, not_true_eq_false, and_false, if_false]
      split
      · exact hzero (And.left ‹_›)
      · rfl
    · have hs : refs L (nodes g s) (vol g s).blk q = refsOf L g s q := rfl
      rw [update_of_ne hqp, hs]
      split
      · rename_i hq
        exact hblk q hq.1 hq.2
      · rfl

theorem Allocates.nodes_withNode (hip : Held s.icache ip) {d : Dinode} : nodes g (withNode u ip d) =
    update (nodes g s) (s.icache ip).inum d := by
  have hc : u.icache = s.icache := by rw [ha.state]; rfl
  rw [Verified.nodes_withNode (hc ▸ hinv.cache) (hc ▸ hip), ha.nodes_eq hinv, hc]

omit hinv in
theorem Allocates.sameBut {k : Nat} {v : BitVec 32} :
    SameBut ip s (withNode u ip ((s.icache ip).node.setAddr k v)) := by
  have hc : u.icache = s.icache := by rw [ha.state]; rfl
  constructor
  case others =>
    intro k hk
    rw [withNode_ne hk, hc]
  case self =>
    refine ⟨((s.icache ip).node.setAddr k v).addrs, ?_⟩
    rw [withNode_self, hc]
    rfl

variable (hip : Held s.icache ip) (hL : (s.icache ip).inum ∈ L)

include hip hL

theorem Grows.direct {k : Nat} (hk : k < ndirect) (hfree : (s.icache ip).node.addr k = 0) :
    Grows L g ip [b] s (withNode u ip ((s.icache ip).node.setAddr k (BitVec.ofNat 32 b))) ∧
      refsOf L g (withNode u ip ((s.icache ip).node.setAddr k (BitVec.ofNat 32 b))) =
        update (refsOf L g s) ((s.icache ip).inum, k) b ∧
      contentOf L g (withNode u ip ((s.icache ip).node.setAddr k (BitVec.ofNat 32 b))) =
        contentOf L g s := by
  have hnode := nodes_of_held hinv.cache hip
  have hrefs : refsOf L g (withNode u ip ((s.icache ip).node.setAddr k (BitVec.ofNat 32 b))) =
      update (refsOf L g s) ((s.icache ip).inum, k) b := by
    rw [refsOf, ha.nodes_withNode hinv hip, vol_withNode, ← hnode, refs_setAddr hL hk,
      ha.refs_eq hinv, toNat_ofNat_block hinv.layout ha.lt]
  have hfill := Grows.fill hinv ha (p := ((s.icache ip).inum, k)) ?_ rfl
    (ha.layout hinv).withNode ha.sameBut ?_ ?_ rfl rfl hrefs
    (fun _ => Allocates.blk_self (u := u) hinv ha) (fun q _ _ => ha.blk_eq hinv)
  · exact ⟨hfill.1, hrefs, hfill.2⟩
  · rw [refsOf, refs_of_mem hL, hnode, mapOf_direct hk, hfree]
    rfl
  · rw [ha.state]
    rfl
  · rw [vol_withNode, ha.vol_eq hinv]

theorem Grows.indirect (hfree : (s.icache ip).node.addr ndirect = 0) :
    Grows L g ip [b] s (withNode u ip ((s.icache ip).node.setAddr ndirect (BitVec.ofNat 32 b))) ∧
      refsOf L g (withNode u ip ((s.icache ip).node.setAddr ndirect (BitVec.ofNat 32 b))) =
        update (refsOf L g s) ((s.icache ip).inum, maxfile) b ∧
      contentOf L g (withNode u ip ((s.icache ip).node.setAddr ndirect (BitVec.ofNat 32 b))) =
        contentOf L g s := by
  have hnode := nodes_of_held hinv.cache hip
  have hb := toNat_ofNat_block hinv.layout ha.lt
  have hrefs : refsOf L g (withNode u ip ((s.icache ip).node.setAddr ndirect (BitVec.ofNat 32 b))) =
      update (refsOf L g s) ((s.icache ip).inum, maxfile) b := by
    rw [refsOf, ha.nodes_withNode hinv hip, vol_withNode, ← hnode,
      refs_setIndirect hL (hnode ▸ hfree) (by rw [hb]; exact ha.blk_self hinv), ha.refs_eq hinv, hb]
  have hfill := Grows.fill hinv ha (p := ((s.icache ip).inum, maxfile)) ?_ rfl
    (ha.layout hinv).withNode ha.sameBut ?_ ?_ rfl rfl hrefs
    (fun _ => Allocates.blk_self (u := u) hinv ha) (fun q _ _ => ha.blk_eq hinv)
  · exact ⟨hfill.1, hrefs, hfill.2⟩
  · rw [refsOf, refs_maxfile hL, hnode, hfree]
    rfl
  · rw [ha.state]
    rfl
  · rw [vol_withNode, ha.vol_eq hinv]

theorem Grows.word {k ind : Nat} (hk : k < nindirect) (hind : (s.icache ip).node.addr ndirect ≠ 0)
    (hindeq : ind = ((s.icache ip).node.addr ndirect).toNat) (hfree : (s.disk ind).word k = 0) :
    Grows L g ip [b] s (put u ind ((s.disk ind).setWord k (BitVec.ofNat 32 b))) ∧
      refsOf L g (put u ind ((s.disk ind).setWord k (BitVec.ofNat 32 b))) =
        update (refsOf L g s) ((s.icache ip).inum, ndirect + k) b ∧
      contentOf L g (put u ind ((s.disk ind).setWord k (BitVec.ofNat 32 b))) = contentOf L g s := by
  have hnode := nodes_of_held hinv.cache hip
  have hb := toNat_ofNat_block hinv.layout ha.lt
  have hmax : refsOf L g s ((s.icache ip).inum, maxfile) = ind := by
    rw [refsOf, refs_maxfile hL, hnode, hindeq]
  have hne : ind ≠ 0 := by
    intro hzero
    rw [hindeq] at hzero
    exact hind (BitVec.eq_of_toNat_eq hzero)
  have hrange : nmeta g ≤ ind ∧ ind < g.size := by
    have := hinv.range (p := ((s.icache ip).inum, maxfile)) (by rw [hmax]; exact hne)
    rwa [hmax] at this
  have hsblk : (vol g s).blk ind = s.disk ind := by
    simp [vol, Nat.not_lt.mpr hrange.1]
  have hublk : (vol g u).blk ind = s.disk ind := by
    rw [← hsblk, ← hmax]
    exact ha.blk_eq hinv
  have hvol : vol g (put u ind ((s.disk ind).setWord k (BitVec.ofNat 32 b))) =
      { vol g u with
        blk := update (vol g u).blk ind
          (((vol g u).blk ind).setWord k (BitVec.ofNat 32 b)) } := by
    rw [vol_putBlk hrange.1, hublk]
  have hnodes : nodes g (put u ind ((s.disk ind).setWord k (BitVec.ofNat 32 b))) = nodes g s := by
    rw [← ha.nodes_eq hinv]
    funext i
    rw [nodes, nodes, hvol]
    rfl
  have hother : ∀ j, j ≠ (s.icache ip).inum → refs L (nodes g s) (vol g u).blk (j, maxfile) ≠
      ((nodes g s (s.icache ip).inum).addr ndirect).toNat := by
    intro j hj heq
    rw [ha.refs_eq hinv, hnode, ← hindeq, ← hmax] at heq
    have := hinv.owns.unique _ _ (by rw [hmax]; exact hne) heq
    exact hj (Prod.mk.inj this).1
  have hrefs : refsOf L g (put u ind ((s.disk ind).setWord k (BitVec.ofNat 32 b))) =
      update (refsOf L g s) ((s.icache ip).inum, ndirect + k) b := by
    have hset := refs_setWord (v := BitVec.ofNat 32 b) hL hk (hnode ▸ hind) hother
    rw [hnode, ← hindeq, ha.refs_eq hinv, hb] at hset
    rw [refsOf, hnodes, hvol]
    exact hset
  have hbind : b ≠ ind := by
    have := hinv.owns.fresh ha.free ((s.icache ip).inum, maxfile)
    rw [hmax] at this
    exact this.symm
  have hfill := Grows.fill (p := ((s.icache ip).inum, ndirect + k))
    (t := put u ind ((s.disk ind).setWord k (BitVec.ofNat 32 b))) hinv ha ?_ rfl ?_ ?_ ?_ ?_ ?_ rfl
    hrefs ?_ ?_
  · exact ⟨hfill.1, hrefs, hfill.2⟩
  · rw [refsOf, refs_of_mem hL, hnode, mapOf_indirect hk hind, ← hindeq, hsblk, hfree]
    rfl
  · have := two_lt_nmeta (g := g)
    exact (ha.layout hinv).put (by omega)
  · exact .refl (by rw [ha.state]; rfl)
  · rw [ha.state]
    rfl
  · rw [hvol, ha.vol_eq hinv]
  · rw [hvol]
  · intro _
    rw [hvol]
    simp only [update_of_ne hbind]
    exact ha.blk_self hinv
  · intro q hq hqne
    have hqind : refsOf L g s q ≠ ind := by
      intro heq
      rw [← hmax] at heq
      have := hinv.owns.unique _ _ (by rw [hmax]; exact hne) heq
      rw [this] at hq
      exact Nat.lt_irrefl _ hq
    rw [hvol]
    simp only [update_of_ne hqind]
    exact ha.blk_eq hinv

end

/-! ## The blocks that are logged -/

def indOf (s : Fs) (ip : Fin ninode) : Nat := ((s.icache ip).node.addr ndirect).toNat

/-- The blocks that growing inode `ip` may log, besides those in `F`: bitmap blocks under
    the condition `A`, and the indirect block under the condition `I`. -/
def Footprint (g : Superblock) (ip : Fin ninode) (A I : Prop) (F : Nat → Prop) (t : Fs)
    (x : Nat) : Prop :=
  F x ∨ (A ∧ IsBitmap g x) ∨ (I ∧ x = indOf t ip ∧ x ≠ 0)

/-- Up to `t` at most `k` blocks have been logged, besides bitmap and indirect block. -/
structure Trail (g : Superblock) (ip : Fin ninode) (A I : Prop) (k : Nat) (s t : Fs) : Prop where
  ind : indOf s ip ≠ 0 → indOf t ip = indOf s ip
  logs : ∃ F : Finset Nat, F.card ≤ k ∧ Logs (Footprint g ip A I (· ∈ F) t) s t

section

variable {A I : Prop} {F F' : Nat → Prop} {k k' : Nat} {x : Nat}

theorem Footprint.mono (h : Footprint g ip A I F t x) (hF : ∀ x, F x → F' x)
    (hind : indOf t ip ≠ 0 → indOf u ip = indOf t ip) : Footprint g ip A I F' u x := by
  rcases h with h | h | ⟨hI, hx, hne⟩
  · exact .inl (hF x h)
  · exact .inr (.inl h)
  · exact .inr (.inr ⟨hI, by rw [hind (hx ▸ hne)]; exact hx, hne⟩)

theorem Trail.of_logs {a : Nat} (hind : indOf s ip ≠ 0 → indOf t ip = indOf s ip)
    (h : Logs (Footprint g ip A I (· = a) t) s t) : Trail g ip A I 1 s t :=
  ⟨hind, {a}, by simp, h.mono fun _ hx => hx.mono (fun _ => Finset.mem_singleton.mpr) fun _ => rfl⟩

theorem Trail.of_logs_none (hind : indOf s ip ≠ 0 → indOf t ip = indOf s ip)
    (h : Logs (Footprint g ip A I (fun _ => False) t) s t) : Trail g ip A I 0 s t :=
  ⟨hind, ∅, by simp, h.mono fun _ hx => hx.mono (fun _ => False.elim) fun _ => rfl⟩

theorem Trail.refl : Trail g ip A I k s s := ⟨fun _ => rfl, ∅, by simp, .of_log_eq rfl⟩

theorem Trail.trans (h : Trail g ip A I k s t) (h' : Trail g ip A I k' t u) :
    Trail g ip A I (k + k') s u := by
  obtain ⟨hind, F, hF, hlogs⟩ := h
  obtain ⟨hind', F', hF', hlogs'⟩ := h'
  refine ⟨fun hne => ?_, F ∪ F', ?_, ?_⟩
  · have := hind hne
    rw [hind' (this ▸ hne), this]
  · have := Finset.card_union_le F F'
    omega
  · have hst : Logs (Footprint g ip A I (· ∈ F ∪ F') u) s t :=
      hlogs.mono fun _ hx => hx.mono (fun _ hy => Finset.mem_union_left _ hy) hind'
    exact hst.trans (hlogs'.mono fun _ hx =>
      hx.mono (fun _ hy => Finset.mem_union_right _ hy) fun _ => rfl)

theorem Trail.congr (h : Trail g ip A I k s t) (hlog : u.log = t.log)
    (hind : indOf u ip = indOf t ip) : Trail g ip A I k s u := by
  have htu : Trail g ip A I 0 t u := ⟨fun _ => hind, ∅, by simp, .of_log_eq hlog⟩
  exact h.trans htu

theorem Trail.mono (h : Trail g ip A I k s t) (hk : k ≤ k') : Trail g ip A I k' s t := by
  obtain ⟨hind, F, hF, hlogs⟩ := h
  exact ⟨hind, F, by omega, hlogs⟩

end

theorem refsOf_maxfile (hinv : MapInv L g s) (hip : Held s.icache ip)
    (hL : (s.icache ip).inum ∈ L) : refsOf L g s ((s.icache ip).inum, maxfile) = indOf s ip := by
  rw [refsOf, refs_maxfile hL, nodes_of_held hinv.cache hip, indOf]

theorem Grows.indOf {new : List Nat} (h : Grows L g ip new s t) (hinv : MapInv L g s)
    (hip : Held s.icache ip) (hL : (s.icache ip).inum ∈ L) (hne : indOf s ip ≠ 0) :
    indOf t ip = indOf s ip := by
  rw [← refsOf_maxfile hinv hip hL] at hne
  have hkeep := h.keeps _ hne
  rw [refsOf_maxfile hinv hip hL, ← h.inum,
    refsOf_maxfile h.inv (h.cache.held hip) (h.inum ▸ hL)] at hkeep
  exact hkeep

/-! ## bmap -/

open Classical in
/-- The number of blocks `bmap` has to allocate for index `bn`. -/
noncomputable def needs (L : Set Nat) (g : Superblock) (s : Fs) (i bn : Nat) : Nat :=
  (if refsOf L g s (i, bn) = 0 then 1 else 0) +
    (if ndirect ≤ bn ∧ refsOf L g s (i, maxfile) = 0 then 1 else 0)

/-- `bmap` returns the block at index `bn` of the inode, after giving it one. -/
structure BmapPost (L : Set Nat) (g : Superblock) (ip : Fin ninode) (bn : Nat) (A I : Prop)
    (s : Fs) (a : Nat) (t : Fs) : Prop where
  grows : ∃ new, Grows L g ip new s t ∧ new.length = needs L g s (s.icache ip).inum bn
  content : contentOf L g t = contentOf L g s
  addr : refsOf L g t ((s.icache ip).inum, bn) = a
  ne_zero : a ≠ 0
  only : ∀ bm < maxfile, bm ≠ bn →
    refsOf L g t ((s.icache ip).inum, bm) = refsOf L g s ((s.icache ip).inum, bm)
  onlyInd : bn < ndirect →
    refsOf L g t ((s.icache ip).inum, maxfile) = refsOf L g s ((s.icache ip).inum, maxfile)
  hit : refsOf L g s ((s.icache ip).inum, bn) ≠ 0 → t = s
  logs : Logs (Footprint g ip A I (· = a) t) s t

/-- Why and where growing an inode by `n` blocks stops, after `k` blocks have been logged. -/
structure GrowStop (g : Superblock) (ip : Fin ninode) (A I : Prop) (k n : Nat) (s : Fs) (e : Stop)
    (t : Fs) : Prop where
  trail : Trail g ip A I k s t
  cause : (e = .panic .ballocOutOfBlocks ∧ clearCount g.size (vol g s).used < n) ∨
    t.log.logWriteCheck = .error e

theorem clearCount_full (h : Full g s) : clearCount g.size (vol g s).used = 0 := by
  rw [clearCount, Finset.card_eq_zero, Finset.filter_eq_empty_iff]
  intro b hb
  simp [h b (Finset.mem_range.mp hb)]

theorem AllocStop.growStop {A I : Prop} {n : Nat} {e : Stop} (h : AllocStop g s e t) (hA : A)
    (hn : 0 < n) : GrowStop g ip A I 0 n s e t := by
  rcases h with ⟨he, rfl, hfull⟩ | ⟨hcheck, hcache, hlogs⟩
  · exact ⟨.refl, .inl ⟨he, by rw [clearCount_full hfull]; exact hn⟩⟩
  · refine ⟨.of_logs_none (fun _ => ?_) (hlogs.mono fun x hx => .inr (.inl ⟨hA, hx⟩)), .inr hcheck⟩
    rw [indOf, indOf, hcache]

theorem GrowStop.mono {A I : Prop} {k k' n n' : Nat} {e : Stop} (h : GrowStop g ip A I k n s e t)
    (hk : k ≤ k') (hn : n ≤ n') : GrowStop g ip A I k' n' s e t :=
  ⟨h.trail.mono hk, h.cause.imp_left fun h => ⟨h.1, by omega⟩⟩

theorem GrowStop.after {A I : Prop} {k k' n : Nat} {new : List Nat} {e : Stop}
    (ha : Allocd g new s t) (htrail : Trail g ip A I k s t) (h : GrowStop g ip A I k' n t e u) :
    GrowStop g ip A I (k + k') (n + new.length) s e u := by
  refine ⟨htrail.trans h.trail, h.cause.imp_left ?_⟩
  rintro ⟨he, hlt⟩
  have := ha.clearCount fun b hb => (ha.free b hb).2
  exact ⟨he, by omega⟩

section

variable {A I : Prop} {bn : Nat}

theorem Allocates.logs_withNode {d : Dinode} {F : Nat → Prop} (ha : Allocates g s b u) (hA : A)
    (hb : Footprint g ip A I F (withNode u ip d) b) :
    Logs (Footprint g ip A I F (withNode u ip d)) s (withNode u ip d) := by
  have hlogs := logs_taken (s := s) ha.lt
  rw [← ha.state] at hlogs
  have hset : Logs (fun x => IsBitmap g x ∨ x = b) u (withNode u ip d) := .of_log_eq rfl
  refine (hlogs.trans hset).mono ?_
  rintro x (hx | rfl)
  · exact .inr (.inl ⟨hA, hx⟩)
  · exact hb

variable (hinv : MapInv L g s) (hip : Held s.icache ip) (hL : (s.icache ip).inum ∈ L)

include hinv hip hL

theorem ends_bmap_direct (hbn : bn < ndirect) (hA : refsOf L g s ((s.icache ip).inum, bn) = 0 → A) :
    Ends (Fs.bmap ip bn) s (BmapPost L g ip bn A I s)
      (fun e t => A ∧ GrowStop g ip A I 1 (needs L g s (s.icache ip).inum bn) s e t) := by
  have href : refsOf L g s ((s.icache ip).inum, bn) = ((s.icache ip).node.addr bn).toNat := by
    rw [refsOf, refs_of_mem hL, nodes_of_held hinv.cache hip, mapOf_direct hbn]
  have hnot : ¬ ndirect ≤ bn := by omega
  rw [Fs.bmap]
  refine .gets_bind (.ite (fun _ => .ite (fun hzero => ?_) fun hne => ?_) (absurd hbn))
  · rw [hzero] at href
    have hneeds : needs L g s (s.icache ip).inum bn = 1 := by
      simp [needs, href, hnot]
    rw [hinv.cache.dev ip hip.1]
    refine .bind (ends_balloc hinv.layout) (fun e t h => ⟨hA href,
      (h.growStop (hA href) (by omega)).mono (Nat.zero_le 1) (Nat.le_refl _)⟩) ?_
    intro b u ha
    have hcache : u.icache = s.icache := by rw [ha.state]; rfl
    refine .bind_ok run_setNode (.pure ?_)
    rw [hcache]
    obtain ⟨hgrows, hrefs, hcontent⟩ := Grows.direct hinv ha hip hL hbn hzero
    constructor
    case grows => exact ⟨[b], hgrows, hneeds.symm⟩
    case content => exact hcontent
    case addr => rw [hrefs, update_self]
    case ne_zero => exact hinv.owns.ne_zero ha.free
    case only =>
      intro bm _ hbm
      rw [hrefs, update_of_ne (by simp [hbm])]
    case onlyInd =>
      intro _
      have := ndirect_lt_maxfile
      rw [hrefs, update_of_ne (by simp; omega)]
    case hit => exact fun h => absurd href h
    case logs => exact ha.logs_withNode (hA href) (.inl rfl)
  · have hneeds : needs L g s (s.icache ip).inum bn = 0 := by
      have : refsOf L g s ((s.icache ip).inum, bn) ≠ 0 := by
        rw [href]
        exact fun h => hne (BitVec.eq_of_toNat_eq h)
      simp [needs, this, hnot]
    refine .pure ?_
    constructor
    case grows => exact ⟨[], .refl hinv, hneeds.symm⟩
    case content => rfl
    case addr => exact href
    case ne_zero => exact fun h => hne (BitVec.eq_of_toNat_eq h)
    case only => exact fun _ _ _ => rfl
    case onlyInd => exact fun _ => rfl
    case hit => exact fun _ => rfl
    case logs => exact .of_log_eq rfl

/-- The inode has an indirect block, and content as before. -/
structure IndirectPost (L : Set Nat) (g : Superblock) (ip : Fin ninode) (A I : Prop)
    (s : Fs) (a : Nat) (t : Fs) : Prop where
  grows : ∃ new, Grows L g ip new s t ∧ new.length = if indOf s ip = 0 then 1 else 0
  content : contentOf L g t = contentOf L g s
  ind : a = indOf t ip
  ne_zero : a ≠ 0
  only : ∀ bm < maxfile,
    refsOf L g t ((s.icache ip).inum, bm) = refsOf L g s ((s.icache ip).inum, bm)
  hit : indOf s ip ≠ 0 → t = s
  logs : Logs (Footprint g ip A I (fun _ => False) t) s t

theorem ends_loadIndirect (hAI : indOf s ip = 0 → A ∧ I) {n : Nat} (hn : indOf s ip = 0 → 0 < n) :
    Ends (Fs.loadIndirect ip) s (IndirectPost L g ip A I s)
      (fun e t => A ∧ GrowStop g ip A I 0 n s e t) := by
  rw [Fs.loadIndirect]
  refine .gets_bind (.ite (fun hzero => ?_) fun hne => ?_)
  · have hind : indOf s ip = 0 := by rw [indOf, hzero]; rfl
    obtain ⟨hA, hI⟩ := hAI hind
    rw [hinv.cache.dev ip hip.1]
    refine .bind (ends_balloc hinv.layout) (fun e t h => ⟨hA, h.growStop hA (hn hind)⟩) ?_
    intro b u ha
    have hcache : u.icache = s.icache := by rw [ha.state]; rfl
    refine .bind_ok run_setNode (.pure ?_)
    rw [hcache]
    obtain ⟨hgrows, hrefs, hcontent⟩ := Grows.indirect hinv ha hip hL hzero
    have hnew : indOf (withNode u ip ((s.icache ip).node.setAddr ndirect (BitVec.ofNat 32 b))) ip
        = b := by
      rw [indOf, withNode_self]
      simp only [Dinode.addr_setAddr (Nat.le_refl _), if_true]
      exact toNat_ofNat_block hinv.layout ha.lt
    have hbne := hinv.owns.ne_zero ha.free
    constructor
    case grows => exact ⟨[b], hgrows, by rw [if_pos hind]; rfl⟩
    case content => exact hcontent
    case ind => exact hnew.symm
    case ne_zero => exact hbne
    case only =>
      intro bm hbm
      rw [hrefs, update_of_ne]
      simp only [ne_eq, Prod.mk.injEq, true_and]
      omega
    case hit => exact fun h => absurd hind h
    case logs => exact ha.logs_withNode hA (.inr (.inr ⟨hI, hnew.symm, hbne⟩))
  · have hind : indOf s ip ≠ 0 := fun h => hne (BitVec.eq_of_toNat_eq h)
    refine .pure ?_
    constructor
    case grows => exact ⟨[], .refl hinv, by rw [if_neg hind]; rfl⟩
    case content => rfl
    case ind => rfl
    case ne_zero => exact hind
    case only => exact fun _ _ => rfl
    case hit => exact fun _ => rfl
    case logs => exact .of_log_eq rfl

/-- The second half of `bmap`, with the indirect block at hand. -/
theorem ends_bmap_word {k ind : Nat} {s1 : Fs} (hk : k < nindirect)
    (hpost : IndirectPost L g ip A I s ind s1)
    (hA : refsOf L g s ((s.icache ip).inum, ndirect + k) = 0 → A)
    (hI : refsOf L g s ((s.icache ip).inum, ndirect + k) = 0 → I)
    (hempty : indOf s ip = 0 → refsOf L g s ((s.icache ip).inum, ndirect + k) = 0)
    (hneeds : needs L g s (s.icache ip).inum (ndirect + k) =
      (if refsOf L g s ((s.icache ip).inum, ndirect + k) = 0 then 1 else 0) +
        (if indOf s ip = 0 then 1 else 0)) :
    Ends (do
      let bp ← Fs.bread rootdev ind
      if bp.word k = 0 then do
        let addr ← Fs.balloc rootdev
        Fs.logWrite ind (bp.setWord k (BitVec.ofNat 32 addr))
        pure addr
      else pure (bp.word k).toNat) s1 (BmapPost L g ip (ndirect + k) A I s)
      (fun e t => A ∧ GrowStop g ip A I 1 (needs L g s (s.icache ip).inum (ndirect + k)) s e t) := by
  obtain ⟨⟨new, hgrows, hlen⟩, hcontent, hind, hne, honly, hhit, hlogs⟩ := hpost
  have hip1 := hgrows.cache.held hip
  have hinum := hgrows.inum
  have hL1 : (s1.icache ip).inum ∈ L := hinum ▸ hL
  have hlt : ndirect + k < maxfile := by simp only [maxfile]; omega
  have hmax := refsOf_maxfile hgrows.inv hip1 hL1
  have hrange : nmeta g ≤ ind ∧ ind < g.size := by
    have := hgrows.inv.range (p := ((s1.icache ip).inum, maxfile)) (by rw [hmax, ← hind]; exact hne)
    rwa [hmax, ← hind] at this
  have haddr : (s1.icache ip).node.addr ndirect ≠ 0 := by
    intro hz
    rw [hind, indOf, hz] at hne
    exact hne rfl
  have hword : refsOf L g s ((s.icache ip).inum, ndirect + k) = ((s1.disk ind).word k).toNat := by
    rw [← honly _ hlt, ← hinum, refsOf, refs_of_mem hL1, nodes_of_held hgrows.inv.cache hip1,
      mapOf_indirect hk haddr, ← indOf, ← hind]
    simp [vol, Nat.not_lt.mpr hrange.1]
  refine .bind_ok (run_bread (Nat.lt_of_lt_of_le hrange.2 hgrows.inv.layout.disk)) ?_
  refine .ite (fun hzero => ?_) fun hnz => ?_
  · have hfree : refsOf L g s ((s.icache ip).inum, ndirect + k) = 0 := by rw [hword, hzero]; rfl
    rw [if_pos hfree, ← hlen] at hneeds
    have htrail : Trail g ip A I 0 s s1 := .of_logs_none (hgrows.indOf hinv hip hL) hlogs
    refine .bind (ends_balloc hgrows.inv.layout) (fun e t h => ?_) ?_
    · rw [hneeds]
      exact ⟨hA hfree, (GrowStop.after hgrows.allocd htrail
        (h.growStop (hA hfree) Nat.one_pos)).mono (Nat.zero_le 1) (Nat.le_refl _)⟩
    intro b u ha
    obtain ⟨hgrows', hrefs, hcontent'⟩ := Grows.word hgrows.inv ha hip1 hL1 hk haddr hind hzero
    have hcache : u.icache = s1.icache := by rw [ha.state]; rfl
    have hlogs' : Logs (Footprint g ip A I (· = b) u) s1 u := by
      have hall := logs_taken (s := s1) ha.lt
      rw [← ha.state] at hall
      exact hall.mono fun x hx => hx.elim (fun hx => .inr (.inl ⟨hA hfree, hx⟩)) .inl
    have hindeq : indOf u ip = indOf s1 ip := by rw [indOf, indOf, hcache]
    refine .bind ends_logWrite ?_ ?_
    · rintro e t ⟨rfl, hcheck⟩
      have htrail' := htrail.trans (Trail.of_logs (fun _ => hindeq) hlogs')
      exact ⟨hA hfree, htrail', .inr hcheck⟩
    · rintro - t ⟨-, rfl⟩
      have hboth := hgrows.trans hgrows'
      refine .pure ?_
      constructor
      case grows => exact ⟨[b] ++ new, hboth, by rw [hneeds, List.length_append, List.length_singleton]⟩
      case content => rw [hcontent', hcontent]
      case addr => rw [← hinum, hrefs, update_self]
      case ne_zero => exact hgrows.inv.owns.ne_zero ha.free
      case only =>
        intro bm hbm hne
        rw [← hinum, hrefs, update_of_ne (by simp [hne]), hinum]
        exact honly bm hbm
      case onlyInd => exact fun h => absurd h (by omega)
      case hit => exact fun h => absurd hfree h
      case logs =>
        have hindt : indOf (put u ind ((s1.disk ind).setWord k (BitVec.ofNat 32 b))) ip =
            indOf s1 ip := hindeq
        have hsame : ∀ x F, Footprint g ip A I F s1 x → Footprint g ip A I F
            (put u ind ((s1.disk ind).setWord k (BitVec.ofNat 32 b))) x :=
          fun x F hx => hx.mono (fun _ h => h) fun _ => hindt
        have hfst : Logs (Footprint g ip A I (· = b)
            (put u ind ((s1.disk ind).setWord k (BitVec.ofNat 32 b)))) s s1 :=
          hlogs.mono fun x hx => (hsame x _ hx).mono (fun _ => False.elim) fun _ => rfl
        have hsnd := hlogs'.mono fun x hx => hx.mono (fun _ h => h) fun _ => hindt.trans hindeq.symm
        have hthd : Logs _ u (put u ind ((s1.disk ind).setWord k (BitVec.ofNat 32 b))) :=
          Logs.put (hsame ind (· = b) (.inr (.inr ⟨hI hfree, hind, hne⟩)))
        exact (hfst.trans hsnd).trans hthd
  · have hfull : refsOf L g s ((s.icache ip).inum, ndirect + k) ≠ 0 := by
      rw [hword]
      exact fun h => hnz (BitVec.eq_of_toNat_eq h)
    obtain rfl := hhit fun h => hfull (hempty h)
    rw [if_neg hfull, if_neg fun h => hfull (hempty h)] at hneeds
    refine .pure ?_
    constructor
    case grows => exact ⟨[], .refl hinv, hneeds.symm⟩
    case content => rfl
    case addr => exact hword
    case ne_zero => exact hword ▸ hfull
    case only => exact fun _ _ _ => rfl
    case onlyInd => exact fun _ => rfl
    case hit => exact fun _ => rfl
    case logs => exact .of_log_eq rfl

theorem ends_bmap (hbn : bn < maxfile) (hA : refsOf L g s ((s.icache ip).inum, bn) = 0 → A)
    (hI : refsOf L g s ((s.icache ip).inum, bn) = 0 → ndirect ≤ bn → I) :
    Ends (Fs.bmap ip bn) s (BmapPost L g ip bn A I s)
      (fun e t => A ∧ GrowStop g ip A I 1 (needs L g s (s.icache ip).inum bn) s e t) := by
  by_cases hdirect : bn < ndirect
  · exact ends_bmap_direct hinv hip hL hdirect hA
  obtain ⟨k, rfl⟩ := Nat.exists_eq_add_of_le (Nat.not_lt.mp hdirect)
  have hk : k < nindirect := by simp only [maxfile] at hbn; omega
  have hmax := refsOf_maxfile hinv hip hL
  -- without an indirect block there is no block at this index
  have hempty : indOf s ip = 0 → refsOf L g s ((s.icache ip).inum, ndirect + k) = 0 := by
    intro hind
    have hz : (s.icache ip).node.addr ndirect = 0 := BitVec.eq_of_toNat_eq hind
    rw [refsOf, refs_of_mem hL, nodes_of_held hinv.cache hip, mapOf, if_neg hdirect, if_pos hbn,
      if_pos hz]
  have hneeds : needs L g s (s.icache ip).inum (ndirect + k) =
      (if refsOf L g s ((s.icache ip).inum, ndirect + k) = 0 then 1 else 0) +
        (if indOf s ip = 0 then 1 else 0) := by
    simp [needs, hmax]
  have hAI : indOf s ip = 0 → A ∧ I := fun h => ⟨hA (hempty h), hI (hempty h) (by omega)⟩
  rw [Fs.bmap]
  refine .gets_bind (.ite (fun h => absurd h hdirect) fun _ => .ite (fun _ => ?_) fun h => ?_)
  · refine .bind (ends_loadIndirect hinv hip hL hAI ?_)
      (fun _ _ h => ⟨h.1, h.2.mono (Nat.zero_le 1) (Nat.le_refl _)⟩) ?_
    · intro hind
      rw [hneeds, if_pos hind]
      omega
    intro ind s1 hpost
    rw [Nat.add_sub_cancel_left, hinv.cache.dev ip hip.1]
    exact ends_bmap_word hinv hip hL hk hpost hA (fun h => hI h (by omega)) hempty hneeds
  · exact absurd (by rwa [Nat.add_sub_cancel_left]) h

end

end Xv6Memfs.Verified
