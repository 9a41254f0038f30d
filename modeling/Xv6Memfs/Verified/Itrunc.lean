import Xv6Memfs.Verified.Icache

/-! # Truncation

`itrunc` frees the blocks of an inode one by one.  While the words of the indirect block are
freed they still stand in it, so the block maps that count during the loops are not those of
the state but those of the start without the places that are done (`dropAt`). -/

namespace Xv6Memfs.Verified

open Lib Lib.Exec Function

variable {d : Dinode} {n : Nat}

variable {L : Set Nat} {g : Superblock} {s t u : Fs} {ip : Fin ninode} {i bn : Nat}
  {K K' : Nat → Prop}

/-! ## Freeing the places of one inode -/

open Classical in
/-- The blocks at all places but those of inode `i` with an index in `K`. -/
noncomputable def dropAt (ref : Nat × Nat → Nat) (i : Nat) (K : Nat → Prop) (p : Nat × Nat) : Nat :=
  if p.1 = i ∧ K p.2 then 0 else ref p

section

variable {ref : Nat × Nat → Nat}

theorem dropAt_of_not (h : ¬ K bn) : dropAt ref i K (i, bn) = ref (i, bn) := by
  simp [dropAt, h]

theorem dropAt_none : dropAt ref i (fun _ => False) = ref := by
  funext p
  simp [dropAt]

theorem dropAt_insert : dropAt ref i (fun x => K x ∨ x = bn) =
    update (dropAt ref i K) (i, bn) 0 := by
  funext p
  obtain ⟨j, x⟩ := p
  by_cases hp : (j, x) = (i, bn)
  · obtain ⟨rfl, rfl⟩ := Prod.mk.inj hp
    simp [dropAt]
  · rw [update_of_ne hp]
    have hx : j = i → x ≠ bn := fun hj hx => hp (by rw [hj, hx])
    by_cases hj : j = i
    · by_cases hk : K x
      · rw [dropAt, dropAt, if_pos ⟨hj, .inl hk⟩, if_pos ⟨hj, hk⟩]
      · rw [dropAt, dropAt, if_neg fun h => h.2.elim hk (hx hj), if_neg fun h => hk h.2]
    · simp [dropAt, hj]

end

/-- From `s` to `t` the blocks of inode `i` at the indices in `K` have been freed. -/
structure Truncs (L : Set Nat) (g : Superblock) (i : Nat) (K : Nat → Prop) (s t : Fs) : Prop where
  layout : Layout g t
  owns : Owns (· < nmeta g) (dropAt (refsOf L g s) i K) (vol g t).used
  covers : MapCovers L g s → Covers (· < nmeta g) (dropAt (refsOf L g s) i K) (vol g t).used
  inode : (vol g t).inode = (vol g s).inode
  blk : (vol g t).blk = (vol g s).blk
  used : ∀ b, (vol g t).used b = true → (vol g s).used b = true
  devsw : t.devsw = s.devsw
  allocs : t.allocs = s.allocs
  logs : Logs (IsBitmap g) s t

namespace Truncs

theorem refl (hinv : MapInv L g s) : Truncs L g i (fun _ => False) s s := by
  constructor
  case owns =>
    rw [dropAt_none]
    exact hinv.owns
  case covers =>
    rw [dropAt_none]
    exact id
  case layout => exact hinv.layout
  case used => exact fun _ => id
  case logs => exact .of_log_eq rfl
  all_goals rfl

theorem congr (h : Truncs L g i K s t) (hK : ∀ x, K x ↔ K' x) : Truncs L g i K' s t := by
  have heq : K = K' := funext fun x => propext (hK x)
  exact heq ▸ h

theorem withNode (h : Truncs L g i K s t) : Truncs L g i K s (withNode t ip d) where
  layout := h.layout.withNode
  owns := h.owns
  covers := h.covers
  inode := h.inode
  blk := h.blk
  used := h.used
  devsw := h.devsw
  allocs := h.allocs
  logs := h.logs.trans (.of_log_eq rfl)

/-- Empty places need no `bfree`. -/
theorem widen (h : Truncs L g i K s t) (hK : ∀ x, K x → K' x)
    (hzero : ∀ x, K' x → ¬ K x → refsOf L g s (i, x) = 0) : Truncs L g i K' s t := by
  have hsame : dropAt (refsOf L g s) i K' = dropAt (refsOf L g s) i K := by
    funext p
    obtain ⟨j, x⟩ := p
    by_cases hj : j = i
    · subst hj
      by_cases hx : K x
      · simp [dropAt, hx, hK x hx]
      · rw [dropAt_of_not hx]
        by_cases hx' : K' x
        · simp [dropAt, hx', hzero x hx' hx]
        · exact dropAt_of_not hx'
    · simp [dropAt, hj]
  constructor
  case owns =>
    rw [hsame]
    exact h.owns
  case covers =>
    rw [hsame]
    exact h.covers
  case layout => exact h.layout
  case inode => exact h.inode
  case blk => exact h.blk
  case used => exact h.used
  case devsw => exact h.devsw
  case allocs => exact h.allocs
  case logs => exact h.logs

theorem skip (h : Truncs L g i K s t) (hzero : refsOf L g s (i, bn) = 0) :
    Truncs L g i (fun x => K x ∨ x = bn) s t :=
  h.widen (fun _ => .inl) fun _ hx hK => hx.resolve_left hK ▸ hzero

theorem ends_bfree (h : Truncs L g i K s t) (hK : ¬ K bn) (hne : refsOf L g s (i, bn) ≠ 0) :
    Ends (Fs.bfree rootdev (refsOf L g s (i, bn))) t
      (fun _ u => u.icache = t.icache ∧ Truncs L g i (fun x => K x ∨ x = bn) s u)
      (LogStop (IsBitmap g) s) := by
  have hplace : dropAt (refsOf L g s) i K (i, bn) = refsOf L g s (i, bn) := dropAt_of_not hK
  have hne' : dropAt (refsOf L g s) i K (i, bn) ≠ 0 := by rw [hplace]; exact hne
  have hused := h.owns.marked _ hne'
  rw [hplace] at hused
  have hlt := used_lt hused
  refine (Verified.ends_bfree h.layout hlt hused).mono ?_ fun e u hstop => .trans h.logs hstop
  rintro - u rfl
  refine ⟨rfl, ?_⟩
  have hvol := vol_freed (s := t) hlt
  constructor
  case layout => exact h.layout.freed
  case owns =>
    have hrel := h.owns.release _ hne'
    rw [hplace] at hrel
    rw [dropAt_insert, hvol]
    exact hrel
  case covers =>
    intro hs
    have hrel := (h.covers hs).release (i, bn)
    rw [hplace] at hrel
    rw [dropAt_insert, hvol]
    exact hrel
  case inode =>
    rw [hvol]
    exact h.inode
  case blk =>
    rw [hvol]
    exact h.blk
  case used =>
    intro b hb
    have hupdate : update (vol g t).used (refsOf L g s (i, bn)) false b = true := by
      rw [hvol] at hb
      exact hb
    by_cases hself : b = refsOf L g s (i, bn)
    · rw [hself, update_self] at hupdate
      cases hupdate
    · rw [update_of_ne hself] at hupdate
      exact h.used b hupdate
  case devsw => exact h.devsw
  case allocs => exact h.allocs
  case logs => exact h.logs.trans (logs_freed hlt)

end Truncs

/-! ## The loops -/

/-- The inode without its first `n` addresses. -/
def clearAddrs (d : Dinode) (n : Nat) : Dinode :=
  { d with addrs := fun j => if j.val < n then 0 else d.addrs j }

theorem clearAddrs_zero (d : Dinode) : clearAddrs d 0 = d := by simp [clearAddrs]

theorem addr_clearAddrs : (clearAddrs d n).addr n = d.addr n := by
  simp [Dinode.addr, clearAddrs]

theorem setAddr_clearAddrs : (clearAddrs d n).setAddr n 0 = clearAddrs d (n + 1) := by
  ext j <;> try rfl
  simp only [Dinode.setAddr, clearAddrs]
  congr 1
  by_cases hj : j.val = n
  · simp [hj]
  · simp only [if_neg hj, show j.val < n + 1 ↔ j.val < n by omega]

theorem clearAddrs_succ (hzero : d.addr n = 0) : clearAddrs d (n + 1) = clearAddrs d n := by
  rw [← setAddr_clearAddrs]
  ext j <;> try rfl
  simp only [Dinode.setAddr, clearAddrs]
  congr 1
  by_cases hj : j.val = n
  · have haddr : d.addrs j = 0 := by rw [← Dinode.addr_val, hj, hzero]
    simp [hj, haddr]
  · rw [if_neg hj]

/-- The cache of `s` with `d` in place of the copy in `ip`. -/
def CacheIs (s : Fs) (ip : Fin ninode) (d : Dinode) (t : Fs) : Prop :=
  t.icache = (withNode s ip d).icache

theorem CacheIs.self (h : CacheIs s ip d t) : t.icache ip = { s.icache ip with node := d } := by
  rw [h, withNode_self]

theorem CacheIs.withNode {d' : Dinode} (h : CacheIs s ip d t) :
    CacheIs s ip d' (withNode t ip d') := by
  rw [CacheIs, Verified.withNode, h]
  simp [Verified.withNode]

section

variable (hinv : MapInv L g s) (hip : Held s.icache ip) (hL : (s.icache ip).inum ∈ L)

include hinv hip hL

theorem ends_truncDirect (hn : n ≤ ndirect) : Ends (Fs.forRange (Fs.truncDirect ip) n) s
      (fun _ t => Truncs L g (s.icache ip).inum (· < n) s t ∧
        CacheIs s ip (clearAddrs (s.icache ip).node n) t) (LogStop (IsBitmap g) s) := by
  induction n with
  | zero =>
    refine .pure ⟨(Truncs.refl hinv).congr (by simp), ?_⟩
    rw [clearAddrs_zero, CacheIs, withNode]
    simp
  | succ n ih =>
    rw [Fs.forRange]
    refine .bind (ih (by omega)) (fun _ _ h => h) ?_
    rintro - t ⟨htrunc, hcache⟩
    rw [Fs.truncDirect]
    refine .gets_bind ?_
    have haddr : (t.icache ip).node.addr n = (s.icache ip).node.addr n := by
      rw [hcache.self]
      exact addr_clearAddrs
    have hplace : refsOf L g s ((s.icache ip).inum, n) = ((s.icache ip).node.addr n).toNat := by
      rw [refsOf, refs_of_mem hL, nodes_of_held hinv.cache hip, mapOf_direct (by omega)]
    have hK : ∀ x, (x < n ∨ x = n) ↔ x < n + 1 := fun x => by omega
    refine .ite (fun hne => ?_) fun hzero => ?_
    · rw [haddr] at hne ⊢
      have hdev : (t.icache ip).dev = rootdev := by
        rw [hcache.self]
        exact hinv.cache.dev ip hip.1
      have hne' : refsOf L g s ((s.icache ip).inum, n) ≠ 0 := by
        rw [hplace]
        exact fun h => hne (BitVec.eq_of_toNat_eq h)
      rw [hdev, ← hplace]
      refine .bind (htrunc.ends_bfree (Nat.lt_irrefl n) hne') (fun _ _ h => h) ?_
      rintro - u ⟨hsame, hfreed⟩
      refine .ok run_setNode ⟨hfreed.withNode.congr hK, ?_⟩
      have hu : CacheIs s ip (clearAddrs (s.icache ip).node n) u := hsame.trans hcache
      rw [hu.self, setAddr_clearAddrs]
      exact hu.withNode
    · rw [haddr, not_not] at hzero
      refine .pure ⟨(htrunc.skip (by rw [hplace, hzero]; rfl)).congr hK, ?_⟩
      rw [clearAddrs_succ hzero]
      exact hcache

theorem ends_truncIndirect {t : Fs} (hn : n ≤ nindirect)
    (hind : (s.icache ip).node.addr ndirect ≠ 0)
    (ht : Truncs L g (s.icache ip).inum (· < ndirect) s t) :
    Ends (Fs.forRange (Fs.truncIndirect rootdev ((vol g s).blk (indOf s ip))) n) t
      (fun _ u => Truncs L g (s.icache ip).inum (· < ndirect + n) s u ∧ u.icache = t.icache)
      (LogStop (IsBitmap g) s) := by
  induction n with
  | zero => exact .pure ⟨ht, rfl⟩
  | succ n ih =>
    rw [Fs.forRange]
    refine .bind (ih (by omega)) (fun _ _ h => h) ?_
    rintro - u ⟨htrunc, hcache⟩
    rw [Fs.truncIndirect]
    have hplace : refsOf L g s ((s.icache ip).inum, ndirect + n) =
        (((vol g s).blk (indOf s ip)).word n).toNat := by
      rw [refsOf, refs_of_mem hL, nodes_of_held hinv.cache hip, mapOf_indirect (by omega) hind, indOf]
    have hK : ∀ x, (x < ndirect + n ∨ x = ndirect + n) ↔ x < ndirect + (n + 1) := fun x => by omega
    refine .ite (fun hne => ?_) fun hzero => ?_
    · have hne' : refsOf L g s ((s.icache ip).inum, ndirect + n) ≠ 0 := by
        rw [hplace]
        exact fun h => hne (BitVec.eq_of_toNat_eq h)
      rw [← hplace]
      refine (htrunc.ends_bfree (Nat.lt_irrefl _) hne').mono ?_ fun _ _ h => h
      rintro - w ⟨hsame, hfreed⟩
      exact ⟨hfreed.congr hK, hsame.trans hcache⟩
    · rw [not_not] at hzero
      exact .pure ⟨(htrunc.skip (by rw [hplace, hzero]; rfl)).congr hK, hcache⟩

end

/-! ## itrunc -/

def emptied (d : Dinode) : Dinode := { d with size := 0, addrs := fun _ => 0 }

theorem emptied_eq : { clearAddrs d (ndirect + 1) with size := 0 } = emptied d := by
  have haddrs : (clearAddrs d (ndirect + 1)).addrs = fun _ => 0 := by
    funext j
    exact if_pos j.isLt
  simp only [haddrs]
  rfl

/-- `itrunc` frees all blocks of the inode and stores the empty inode. -/
theorem ends_itrunc (hinv : MapInv L g s) (hip : Held s.icache ip) (hL : (s.icache ip).inum ∈ L) :
    Ends (Fs.itrunc ip) s (fun _ t => ∃ m, Truncs L g (s.icache ip).inum (· ≤ maxfile) s m ∧
        CacheIs s ip (emptied (s.icache ip).node) m ∧ t = flushed m ip)
      (LogStop (fun x => IsBitmap g x ∨ x = iblock (s.icache ip).inum) s) := by
  have hmono : ∀ e t, LogStop (IsBitmap g) s e t →
      LogStop (fun x => IsBitmap g x ∨ x = iblock (s.icache ip).inum) s e t :=
    fun e t h => h.mono fun _ => .inl
  have hmap : refsOf L g s ((s.icache ip).inum, maxfile) = indOf s ip := refsOf_maxfile hinv hip hL
  -- what is left to do once the blocks are free
  have hrest : ∀ m, Truncs L g (s.icache ip).inum (· ≤ maxfile) s m →
      CacheIs s ip (clearAddrs (s.icache ip).node (ndirect + 1)) m →
      Ends (do
        Fs.setNode ip fun d => { d with size := 0 }
        Fs.iupdate ip) m
        (fun _ t => ∃ m, Truncs L g (s.icache ip).inum (· ≤ maxfile) s m ∧
          CacheIs s ip (emptied (s.icache ip).node) m ∧ t = flushed m ip)
        (LogStop (fun x => IsBitmap g x ∨ x = iblock (s.icache ip).inum) s) := by
    intro m htrunc hcache
    refine .bind_ok run_setNode ?_
    have hnode : CacheIs s ip (emptied (s.icache ip).node)
        (withNode m ip { (m.icache ip).node with size := 0 }) := by
      rw [hcache.self, emptied_eq]
      exact hcache.withNode
    have hwf : CacheWf g (withNode m ip { (m.icache ip).node with size := 0 }).icache := by
      rw [hnode]
      exact withNode_cacheWf hinv.cache
    have href : ((withNode m ip { (m.icache ip).node with size := 0 }).icache ip).ref > 0 := by
      rw [hnode.self]
      exact hip.1
    refine (ends_iupdate htrunc.layout.withNode hwf href).mono ?_ ?_
    · rintro - t rfl
      exact ⟨_, htrunc.withNode, hnode, rfl⟩
    · rintro e t ⟨rfl, hcheck⟩
      exact ⟨hcheck, htrunc.withNode.logs.mono fun _ => .inl⟩
  rw [Fs.itrunc]
  refine .bind (ends_truncDirect hinv hip hL (Nat.le_refl _)) hmono ?_
  rintro - t ⟨htrunc, hcache⟩
  refine .gets_bind ?_
  have haddr : (t.icache ip).node.addr ndirect = (s.icache ip).node.addr ndirect := by
    rw [hcache.self]
    exact addr_clearAddrs
  have hdev : (t.icache ip).dev = rootdev := by
    rw [hcache.self]
    exact hinv.cache.dev ip hip.1
  simp only [haddr, hdev]
  by_cases hind : (s.icache ip).node.addr ndirect = 0
  · rw [if_neg (not_not.mpr hind)]
    -- without an indirect block the places behind `NDIRECT` are empty
    have hall : Truncs L g (s.icache ip).inum (· ≤ maxfile) s t := by
      refine htrunc.widen (fun x hx => by have := ndirect_lt_maxfile; omega) fun x _ hx => ?_
      rw [refsOf, refs_of_mem hL, nodes_of_held hinv.cache hip]
      simp [mapOf, hx, hind]
    refine hrest t hall ?_
    rw [clearAddrs_succ hind]
    exact hcache
  · rw [if_pos hind]
    -- kept symbolic, or the loop over the words would be unrolled
    generalize hn : nindirect = n
    have hne : refsOf L g s ((s.icache ip).inum, maxfile) ≠ 0 := by
      rw [hmap]
      exact fun h => hind (BitVec.eq_of_toNat_eq h)
    obtain ⟨hlow, hhigh⟩ := hinv.range hne
    rw [hmap] at hlow hhigh
    have hblk : t.disk (indOf s ip) = (vol g s).blk (indOf s ip) := by
      rw [← htrunc.blk, vol]
      exact (if_neg (Nat.not_lt.mpr hlow)).symm
    have hread := run_bread (Nat.lt_of_lt_of_le hhigh htrunc.layout.disk)
    rw [hblk] at hread
    refine .bind_ok hread ?_
    refine .bind (ends_truncIndirect hinv hip hL (Nat.le_of_eq hn.symm) hind htrunc) hmono ?_
    rintro - u ⟨hwords, hsame⟩
    have hmax : ndirect + n = maxfile := by rw [← hn]; rfl
    rw [hmax] at hwords
    have hind' : ((s.icache ip).node.addr ndirect).toNat =
        refsOf L g s ((s.icache ip).inum, maxfile) := hmap.symm
    rw [hind']
    refine .bind (hwords.ends_bfree (Nat.lt_irrefl _) hne) hmono ?_
    rintro - w ⟨hsame', hfreed⟩
    have hw : CacheIs s ip (clearAddrs (s.icache ip).node ndirect) w := (hsame'.trans hsame).trans hcache
    refine .bind_ok run_setNode ?_
    refine hrest _ (hfreed.withNode.congr fun x => by omega) ?_
    rw [hw.self, setAddr_clearAddrs]
    exact hw.withNode

end Xv6Memfs.Verified
