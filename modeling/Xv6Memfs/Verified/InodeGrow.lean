import Xv6Memfs.Verified.InodeLayer

/-! # Reading and writing, as seen by the inode layer

`bmap` puts a new block into the copy of the inode in the cache only.  `writei` stores the
inode when the file has grown, so that the copy and the disk agree again; a `readi`, or a
`writei` inside the file, that has to fill an empty address leaves them apart.  `NoFill` says
that this does not happen. -/

namespace Xv6Memfs.Verified

open Lib Lib.Exec Function

variable {D : Set (Fin ninode)} {L : Set Nat} {g : Superblock} {s t m : Fs} {ip : Fin ninode}
  {A I : Prop} {new bns : List Nat}

/-! ## Addresses of a growing inode -/

/-- The index of the place that slot `k` of `addrs` gives a block to. -/
def addrPlace (k : Fin (ndirect + 1)) : Nat := if k.val = ndirect then maxfile else k

theorem refsOf_addrPlace (hc : CacheWf g s.icache) (hip : Held s.icache ip)
    (hL : (s.icache ip).inum ∈ L) (k : Fin (ndirect + 1)) :
    refsOf L g s ((s.icache ip).inum, addrPlace k) = ((s.icache ip).node.addrs k).toNat := by
  rw [refsOf, refs_of_mem hL, nodes_of_held hc hip, addrPlace]
  split
  · rename_i hk
    rw [mapOf_maxfile, ← hk, Dinode.addr_val]
  · rw [mapOf_direct (by omega), Dinode.addr_val]

section

variable (h : Grows L g ip new s t) (hc : CacheWf g s.icache) (hip : Held s.icache ip)
  (hL : (s.icache ip).inum ∈ L)

include h hc hip hL

omit hc in
theorem Grows.refsOf_addrPlace (k : Fin (ndirect + 1)) :
    refsOf L g t ((s.icache ip).inum, addrPlace k) = ((t.icache ip).node.addrs k).toNat := by
  have hplace := Verified.refsOf_addrPlace h.inv.cache (h.cache.held hip) (by rwa [h.inum]) k
  rwa [h.inum] at hplace

theorem Grows.addrsLe : AddrsLe (s.icache ip).node.addrs (t.icache ip).node.addrs := by
  intro k hk
  have hs := Verified.refsOf_addrPlace hc hip hL k
  have ht := h.refsOf_addrPlace hip hL k
  have hne : refsOf L g s ((s.icache ip).inum, addrPlace k) ≠ 0 := by
    rw [hs]
    exact fun hzero => hk (BitVec.eq_of_toNat_eq hzero)
  have hkeep := h.keeps _ hne
  rw [hs, ht] at hkeep
  exact (BitVec.eq_of_toNat_eq hkeep).symm

theorem Grows.icache_eq (hsame : ∀ k, refsOf L g t ((s.icache ip).inum, addrPlace k) =
    refsOf L g s ((s.icache ip).inum, addrPlace k)) : t.icache = s.icache := by
  have haddrs : (t.icache ip).node.addrs = (s.icache ip).node.addrs := by
    funext k
    apply BitVec.eq_of_toNat_eq
    rw [← h.refsOf_addrPlace hip hL k, hsame, Verified.refsOf_addrPlace hc hip hL k]
  funext k
  by_cases hk : k = ip
  · obtain ⟨a, ha⟩ := h.cache.self
    obtain rfl : a = (s.icache ip).node.addrs := by rwa [ha] at haddrs
    rw [hk]
    exact ha
  · exact h.cache.others k hk

end

theorem Grows.nodes_ne {i : Nat} (h : Grows L g ip new s t) (hi : i ≠ (s.icache ip).inum) :
    nodes g t i = nodes g s i := by
  have hcore : coreOf t.icache i = coreOf s.icache i := coreOf_congr fun k =>
    ⟨(h.cache.keeps k).1, (h.cache.keeps k).2.1, (h.cache.keeps k).2.2.1⟩
  rw [nodes, nodes, hcore, h.inode]
  cases hk : coreOf s.icache i with
  | some k =>
    have hne : k ≠ ip := by
      rintro rfl
      exact hi (coreOf_eq_some hk).2.symm
    simp only [h.cache.others k hne]
  | none => rfl

/-- New blocks for an inode keep the invariant, wherever their addresses are. -/
theorem VolInv.grown (hs : VolInv D g s) (hip : Held s.icache ip) (hD : ip ∉ D)
    (h : Grows (live g s) g ip new s t) : VolInv D g t := by
  have hlive : live g t = live g s := by rw [live, h.inode, live]
  have hle := h.addrsLe hs.maps.cache hip (hs.alive ip hip hD)
  have hkeeps := h.cache.keeps
  have hheld : ∀ k, Held t.icache k → Held s.icache k := fun k hk =>
    ⟨(hkeeps k).1 ▸ hk.1, (hkeeps k).2.1 ▸ hk.2⟩
  constructor
  case maps =>
    rw [hlive]
    exact h.inv
  case alive =>
    intro k hk hkD
    rw [hlive, (hkeeps k).2.2.1]
    exact hs.alive k (hheld k hk) hkD
  case behind =>
    intro k hk hkD
    rw [h.inode, (hkeeps k).2.2.1]
    obtain ⟨a, ha, hdisk⟩ := hs.behind k (hheld k hk) hkD
    by_cases hkip : k = ip
    · subst hkip
      obtain ⟨a', ha'⟩ := h.cache.self
      refine ⟨a, fun j hj => ?_, by rw [hdisk, ha']⟩
      rw [ha j hj]
      exact hle j (by rwa [← ha j hj])
    · rw [h.cache.others k hkip]
      exact ⟨a, ha, hdisk⟩
  case dead =>
    intro k hk hkD
    have hkip : k ≠ ip := fun heq => hD (heq ▸ hkD)
    rw [h.inode, h.cache.others k hkip]
    exact hs.dead k (hheld k hk) hkD

/-! ## When no address has to be filled -/

/-- The blocks of inode `i` at the direct indices among `bns` are there, and so is the indirect
    block if `bns` needs it. -/
def NoFill (L : Set Nat) (g : Superblock) (s : Fs) (i : Nat) (bns : List Nat) : Prop :=
  ∀ bn ∈ bns, (bn < ndirect → refsOf L g s (i, bn) ≠ 0) ∧
    (ndirect ≤ bn → refsOf L g s (i, maxfile) ≠ 0)

theorem refsOf_maxfile_ne {i bn : Nat} (hlow : ndirect ≤ bn) (hbn : bn < maxfile)
    (h : refsOf L g s (i, bn) ≠ 0) : refsOf L g s (i, maxfile) ≠ 0 := by
  by_cases hi : i ∈ L
  · rw [refsOf, refs_of_mem hi] at h ⊢
    rw [mapOf_maxfile]
    intro hzero
    have haddr : (nodes g s i).addr ndirect = 0 := BitVec.eq_of_toNat_eq hzero
    rw [mapOf, if_neg (by omega), if_pos hbn, if_pos haddr] at h
    exact h rfl
  · rw [refsOf, refs, if_neg hi] at h
    exact absurd rfl h

/-- Inside a file without holes all blocks are there. -/
theorem HoleFree.noFill {i : Nat} {bns : List Nat} (h : HoleFree g s) (hi : i ∈ live g s)
    (hin : ∀ bn ∈ bns, bn < ceilBlocks (nodes g s i).size.toNat) : NoFill (live g s) g s i bns := by
  intro bn hbn
  obtain ⟨hsize, hcov⟩ := h i hi
  have hmax : bn < maxfile := by
    have hlt := lt_ceilBlocks.mp (hin bn hbn)
    simp only [maxfile, ndirect, nindirect, bsize] at hsize hlt ⊢
    omega
  have hne := (hcov bn hmax).mpr (hin bn hbn)
  exact ⟨fun _ => hne, fun hlow => refsOf_maxfile_ne hlow hmax hne⟩

theorem LoopPost.icache_eq (h : LoopPost L g ip A I bns s t) (hc : CacheWf g s.icache)
    (hip : Held s.icache ip) (hL : (s.icache ip).inum ∈ L)
    (hno : NoFill L g s (s.icache ip).inum bns) : t.icache = s.icache := by
  obtain ⟨new, hgrows, -⟩ := h.grows
  refine hgrows.icache_eq hc hip hL fun k => ?_
  rw [addrPlace]
  split
  · by_cases hfar : ∃ bn ∈ bns, ndirect ≤ bn
    · obtain ⟨bn, hbn, hge⟩ := hfar
      exact hgrows.keeps _ ((hno bn hbn).2 hge)
    · exact h.onlyInd fun bn hbn => Nat.lt_of_not_le fun hge => hfar ⟨bn, hbn, hge⟩
  · have hk : k.val < ndirect := by omega
    by_cases hmem : k.val ∈ bns
    · exact hgrows.keeps _ ((hno k hmem).1 hk)
    · exact h.only k (Nat.lt_trans hk ndirect_lt_maxfile) hmem

section

variable (hs : VolInv D g s) (hip : Held s.icache ip) (hD : ip ∉ D)

include hs hip hD

/-- A loop over blocks inside the file. -/
theorem carries_loop (h : LoopPost (live g s) g ip A I bns s t)
    (hno : NoFill (live g s) g s (s.icache ip).inum bns)
    (hin : ∀ bn ∈ bns, bn < ceilBlocks (s.icache ip).node.size.toNat) : Carries D D g s t := by
  obtain ⟨new, hgrows, -⟩ := h.grows
  have hmem := hs.alive ip hip hD
  have hcache := h.icache_eq hs.maps.cache hip hmem hno
  have hlive : live g t = live g s := by rw [live, hgrows.inode, live]
  have hnodes : nodes g t = nodes g s := by
    funext i
    rw [nodes, nodes, hcache, hgrows.inode]
  constructor
  case vol => exact hs.grown hip hD hgrows
  case synced =>
    intro hsync k hk hkD
    rw [hgrows.inode, hcache]
    exact hsync k (hcache ▸ hk) hkD
  case covers =>
    intro _ hc
    rw [hlive]
    exact hgrows.covers hc
  case holeFree =>
    intro _ hf i hi
    rw [hlive] at hi ⊢
    rw [hnodes]
    refine ⟨(hf i hi).1, fun bn hbn => ?_⟩
    rw [← (hf i hi).2 bn hbn]
    by_cases hne : i = (s.icache ip).inum
    · by_cases hbns : bn ∈ bns
      · -- the block was there before
        have hold : refsOf (live g s) g s (i, bn) ≠ 0 := by
          rw [(hf i hi).2 bn hbn, hne, nodes_of_held hs.maps.cache hip]
          exact hin bn hbns
        rw [hgrows.keeps _ hold]
      · rw [hne, h.only bn hbn hbns]
    · rw [hgrows.elsewhere _ hne]

/-- A write that has extended the file; `iupdate` stores the new addresses with the size. -/
theorem carries_resized {off n : Nat} (h : LoopPost (live g s) g ip A I (blocksOf off n) s m)
    (hoff : off ≤ fileSize s ip) (hgrow : fileSize s ip < off + n)
    (hfits : off + n ≤ maxfile * bsize) : Carries D D g s (resized m ip (off + n)) := by
  obtain ⟨new, hgrows, -⟩ := h.grows
  have hm := hs.grown hip hD hgrows
  have hipm : Held m.icache ip := hgrows.cache.held hip
  have hinum : (m.icache ip).inum = (s.icache ip).inum := hgrows.inum
  have hlivem : live g m = live g s := by rw [live, hgrows.inode, live]
  have hst : StoredAs g m ip { (m.icache ip).node with size := BitVec.ofNat 32 (off + n) }
      (resized m ip (off + n)) :=
    (storedAs_stores (d := { (m.icache ip).node with size := BitVec.ofNat 32 (off + n) })
      hm hipm hD rfl rfl).1
  have hlive := (hst.live_eq hm hipm hD rfl).trans hlivem
  have hrefs : refsOf (live g s) g (resized m ip (off + n)) = refsOf (live g s) g m :=
    refsOf_resized hm.maps.cache hipm
  have hused : (vol g (resized m ip (off + n))).used = (vol g m).used :=
    used_resized hm.maps.cache hipm
  have hsize : (BitVec.ofNat 32 (off + n)).toNat = off + n := by
    have hsmall : maxfile * bsize < 2 ^ 32 := by decide
    rw [BitVec.toNat_ofNat, Nat.mod_eq_of_lt (by omega)]
  constructor
  case vol =>
    refine hst.volInv hm hipm (fun _ _ => .rfl) (fun _ => hm.type_ne hipm hD)
      (fun hin => absurd hin hD) ?_
    rw [hlive, hrefs, hused]
    exact hgrows.inv.owns
  case synced =>
    intro hsync k hk hkD
    rcases hst.disk_cases hm hipm hk with ⟨-, hnode, heq⟩ | ⟨hne, hheld, hsame, heq⟩
    · exact heq.trans hnode.symm
    · have hcache : m.icache k = s.icache k := hgrows.cache.others k hne
      rw [Held, hcache] at hheld
      rw [heq, hsame, hgrows.inode, hcache]
      exact hsync k hheld hkD
  case covers =>
    intro _ hc
    rw [MapCovers, hlive, hrefs, hused]
    exact hgrows.covers hc
  case holeFree =>
    intro _ hf i hi
    rw [hlive] at hi ⊢
    rw [hrefs, nodes_resized hm.maps.cache hipm, hinum]
    by_cases heq : i = (s.icache ip).inum
    · have hold := (hf i hi).2
      rw [heq, nodes_of_held hs.maps.cache hip] at hold
      have hcov := h.covers_max hoff hold
      rw [fileSize] at hgrow
      rw [fileSize, Nat.max_eq_right (by omega)] at hcov
      rw [heq, update_self]
      simp only [hsize]
      exact ⟨hfits, hcov⟩
    · rw [update_of_ne heq, hgrows.nodes_ne heq]
      refine ⟨(hf i hi).1, fun bn hbn => ?_⟩
      rw [hgrows.elsewhere _ heq]
      exact (hf i hi).2 bn hbn

end

end Xv6Memfs.Verified
