import Xv6Memfs.Kernel.InodeProtocol
import Xv6Memfs.Verified.FileContents
import Xv6Memfs.Verified.Itrunc

/-! # What the inode layer carries along

Four facts about the volume survive the calls of the inode layer: the invariant `VolInv`,
that the cache is in step with the disk (`Synced`), that no block is lost (`MapCovers`), and
that the block maps cover exactly the sizes (`HoleFree`).  `Carries` says so for one step
from `s` to `t`; each piece of a call has a lemma that gives the state after it and one that
says that the piece carries the four facts along. -/

namespace Xv6Memfs.Verified

open Lib Lib.Exec Function

variable {D D' D'' : Set (Fin ninode)} {g : Superblock} {s t u m : Fs} {ip : Fin ninode}

/-- The block map of every allocated inode covers exactly its size. -/
def HoleFree (g : Superblock) (s : Fs) : Prop :=
  ∀ i ∈ live g s, (nodes g s i).size.toNat ≤ maxfile * bsize ∧
    ∀ bn < maxfile, refsOf (live g s) g s (i, bn) ≠ 0 ↔ bn < ceilBlocks (nodes g s i).size.toNat

/-- A step that keeps the volume in order; the set of dying entries goes from `D` to `D'`. -/
structure Carries (D D' : Set (Fin ninode)) (g : Superblock) (s t : Fs) : Prop where
  vol : VolInv D' g t
  synced : Synced D g s → Synced D' g t
  covers : Synced D g s → MapCovers (live g s) g s → MapCovers (live g t) g t
  holeFree : Synced D g s → HoleFree g s → HoleFree g t

namespace Carries

theorem refl (h : VolInv D g s) : Carries D D g s s := ⟨h, id, fun _ => id, fun _ => id⟩

theorem trans (h : Carries D D' g s t) (h' : Carries D' D'' g t u) : Carries D D'' g s u where
  vol := h'.vol
  synced hs := h'.synced (h.synced hs)
  covers hs hc := h'.covers (h.synced hs) (h.covers hs hc)
  holeFree hs hf := h'.holeFree (h.synced hs) (h.holeFree hs hf)

end Carries

theorem HoleFree.congr (h : HoleFree g s) (hlive : live g t = live g s)
    (hrefs : refsOf (live g t) g t = refsOf (live g s) g s)
    (hsize : ∀ i ∈ live g s, (nodes g t i).size = (nodes g s i).size) : HoleFree g t := by
  intro i hi
  rw [hrefs, hsize i (hlive ▸ hi)]
  exact h i (hlive ▸ hi)

/-! ## Changes of slots -/

theorem Recached.carries (h : Recached g s t) (hs : VolInv D g s) (hdead : KeepsDead D s t) :
    Carries D D g s t where
  vol := h.volInv hs hdead
  synced := h.synced
  covers hsync hc := by
    rw [MapCovers, h.refsOf_eq hs hsync, h.vol_eq]
    exact hc
  holeFree hsync hf := by
    refine hf.congr h.live_eq (h.refsOf_eq hs hsync) fun i _ => ?_
    rw [← (h.volInv hs hdead).size_eq, ← hs.size_eq, h.vol_eq]

theorem KeepsDead.withSlot {v : Slot} (hvalid : ip ∈ D → v.ref > 0 → v.valid = true →
    Held s.icache ip ∧ v.inum = (s.icache ip).inum) : KeepsDead D s (withSlot s ip v) := by
  intro k hk hheld
  by_cases hkip : k = ip
  · rw [hkip] at hk hheld ⊢
    rw [Held, withSlot_self] at hheld
    rw [withSlot_self]
    obtain ⟨hs, hinum⟩ := hvalid hk hheld.1 hheld.2
    exact ⟨hs, hinum, rfl⟩
  · rw [Held, withSlot_ne hkip] at hheld
    rw [withSlot_ne hkip]
    exact ⟨hheld, rfl, rfl⟩

theorem carries_slot {v : Slot} (hs : VolInv D g s) (href : (s.icache ip).ref > 0)
    (hdev : v.dev = (s.icache ip).dev) (hinum : v.inum = (s.icache ip).inum)
    (hvalid : v.valid = true → (s.icache ip).valid = true) : Carries D D g s (withSlot s ip v) := by
  have hc := hs.maps.cache
  have hheld : v.ref > 0 → v.valid = true → Held s.icache ip ∧ v.inum = (s.icache ip).inum :=
    fun _ hv => ⟨⟨href, hvalid hv⟩, hinum⟩
  refine (recached_withSlot hc ?_ hheld).carries hs (.withSlot fun _ => hheld)
  intro _
  rw [hdev, hinum]
  exact ⟨hc.dev ip href, hc.inum ip href, fun k hk hr heq => hk (hc.unique k ip hr href heq)⟩

theorem carries_iget {inum : Nat} {v : Slot} (hs : VolInv D g s) (hi : inum / ipb ≤ g.ninodes / ipb)
    (h : igetSlot (slots s) rootdev inum = some (ip, v)) : Carries D D g s (withSlot s ip v) := by
  refine (recached_iget hs.maps.cache hi h).carries hs (.withSlot fun _ href hvalid => ?_)
  rcases igetSlot_cases h with ⟨hold, -, -, rfl⟩ | ⟨-, -, rfl⟩
  · exact ⟨⟨hold, hvalid⟩, rfl⟩
  · cases hvalid

theorem carries_loaded (hs : VolInv D g s) (hD : ip ∉ D) (hlive : (s.icache ip).inum ∈ live g s) :
    Carries D D g s (loaded g s ip) := by
  refine (recached_loaded hs.maps.cache hlive).carries hs fun k hk hheld => ?_
  have hkip : k ≠ ip := fun h => hD (h ▸ hk)
  have hsame : (loaded g s ip).icache k = s.icache k := by
    rw [loaded, withSlot_ne hkip, withNode_ne hkip]
  rw [Held, hsame] at hheld
  rw [hsame]
  exact ⟨hheld, rfl, rfl⟩

/-! ## Inodes without contents -/

theorem mapOf_blank {d : Dinode} {blk : Nat → Block} {bn : Nat} (h : Blank d) :
    mapOf d blk bn = 0 := by
  have haddr : ∀ j, d.addr j = 0 := by
    intro j
    rw [Dinode.addr]
    split
    · rw [h.1]
    · rfl
  simp [mapOf, haddr]

theorem blank_zero (type : BitVec 16) : Blank { Dinode.zero with type := type } := ⟨rfl, rfl⟩

theorem blank_emptied (d : Dinode) : Blank (emptied d) := ⟨rfl, rfl⟩

theorem ceilBlocks_zero : ceilBlocks 0 = 0 := rfl

/-! ## ialloc -/

def marked (s : Fs) (inum : Nat) (type : BitVec 16) : Fs :=
  put s (iblock inum) ((s.disk (iblock inum)).setDinode (inum % ipb)
    { Dinode.zero with type := type })

section

variable {inum : Nat} {type : BitVec 16} (hi : inum / ipb ≤ g.ninodes / ipb)

include hi

theorem vol_inode : (vol g s).inode inum = (s.disk (iblock inum)).dinode (inum % ipb) := by
  simp only [vol, if_pos hi]

theorem vol_marked (type : BitVec 16) : (vol g (marked s inum type)).inode =
        update (vol g s).inode inum { Dinode.zero with type := type } ∧
      (vol g (marked s inum type)).used = (vol g s).used ∧
      (vol g (marked s inum type)).blk = (vol g s).blk := by
  have hvol : vol g (marked s inum type) = _ := vol_putInode hi
  rw [hvol]
  exact ⟨rfl, rfl, rfl⟩

theorem ends_iallocTry (hl : Layout g s) : Ends (Fs.iallocTry rootdev type inum) s
    (fun found t => (found = true ∧ inum ∉ live g s ∧ t = marked s inum type) ∨
      (found = false ∧ inum ∈ live g s ∧ t = s))
    (fun e t => t = s ∧ s.log.logWriteCheck = .error e) := by
  have hmem : inum ∈ live g s ↔ ((s.disk (iblock inum)).dinode (inum % ipb)).type ≠ 0 := by
    rw [live, Set.mem_ofPred_eq, vol_inode hi]
  rw [Fs.iallocTry]
  refine .bind_ok (run_bread_iblock hl hi) (.ite (fun hfree => ?_) fun hused => ?_)
  · refine .bind ends_logWrite (fun _ _ h => h) ?_
    rintro - t ⟨-, rfl⟩
    exact .pure (.inl ⟨rfl, fun h => hmem.mp h hfree, rfl⟩)
  · exact .pure (.inr ⟨rfl, hmem.mpr hused, rfl⟩)

theorem carries_marked (hs : VolInv D g s) (hfree : inum ∉ live g s) (htype : type ≠ 0) :
    Carries D D g s (marked s inum type) := by
  obtain ⟨hinode, hused, hblk⟩ := vol_marked (s := s) hi type
  have hlive : live g (marked s inum type) = insert inum (live g s) := by
    ext i
    rw [live, Set.mem_ofPred_eq, hinode, Set.mem_insert_iff, update_apply]
    by_cases h : i = inum
    · rw [if_pos h]
      exact ⟨fun _ => .inl h, fun _ => htype⟩
    · simp [h, live]
  -- a copy of the free inode can only be a dying one
  have hcopy : ∀ k, Held s.icache k → (s.icache k).inum = inum → k ∈ D := by
    intro k hk hinum
    by_contra hD
    exact hfree (hinum ▸ hs.alive k hk hD)
  have hnodes : ∀ i, i ≠ inum → nodes g (marked s inum type) i = nodes g s i := by
    intro i hne
    have hsame : (vol g (marked s inum type)).inode i = (vol g s).inode i := by
      rw [hinode, update_of_ne hne]
    rw [nodes, nodes, hsame]
    rfl
  have hblank : Blank (nodes g (marked s inum type) inum) := by
    rw [nodes]
    cases hcore : coreOf (marked s inum type).icache inum with
    | some k =>
      obtain ⟨hk, hinum⟩ := coreOf_eq_some hcore
      exact (hs.dead k hk (hcopy k hk hinum)).1
    | none =>
      rw [hinode, update_self]
      exact blank_zero type
  have hrefs : refsOf (live g (marked s inum type)) g (marked s inum type) =
      refsOf (live g s) g s := by
    funext p
    obtain ⟨i, bn⟩ := p
    rw [hlive, refsOf, refsOf, hblk]
    by_cases h : i = inum
    · rw [h, refs_of_mem (Set.mem_insert _ _), mapOf_blank hblank, refs, if_neg hfree]
    · by_cases hmem : i ∈ live g s
      · rw [refs_of_mem (Set.mem_insert_of_mem _ hmem), refs_of_mem hmem, hnodes i h]
      · rw [refs, refs, if_neg (by simp [h, hmem]), if_neg hmem]
  have hdisk : ∀ k, Held s.icache k → k ∉ D →
      (vol g (marked s inum type)).inode (s.icache k).inum =
        (vol g s).inode (s.icache k).inum := by
    intro k hk hD
    rw [hinode, update_of_ne fun h => hD (hcopy k hk h)]
  constructor
  case vol =>
    constructor
    case maps =>
      refine ⟨hs.maps.layout.put (Nat.succ_succ_ne_one _), hs.maps.cache, ?_⟩
      rw [hrefs, hused]
      exact hs.maps.owns
    case alive =>
      intro k hk hD
      rw [hlive]
      exact Set.mem_insert_of_mem _ (hs.alive k hk hD)
    case behind =>
      intro k hk hD
      rw [show (marked s inum type).icache = s.icache from rfl] at hk ⊢
      rw [hdisk k hk hD]
      exact hs.behind k hk hD
    case dead =>
      intro k hk hD
      refine ⟨(hs.dead k hk hD).1, ?_⟩
      rw [hinode, update_apply]
      split
      · exact blank_zero type
      · exact (hs.dead k hk hD).2
  case synced =>
    intro hsync k hk hD
    rw [show (marked s inum type).icache = s.icache from rfl] at hk ⊢
    rw [hdisk k hk hD]
    exact hsync k hk hD
  case covers =>
    intro _ hc
    rw [MapCovers, hrefs, hused]
    exact hc
  case holeFree =>
    intro _ hf i hmem
    rw [hrefs]
    by_cases h : i = inum
    · rw [h, hblank.2]
      refine ⟨Nat.zero_le _, fun bn _ => ?_⟩
      simp [refsOf, refs, hfree, ceilBlocks_zero]
    · rw [hnodes i h]
      rw [hlive, Set.mem_insert_iff, or_iff_right h] at hmem
      exact hf i hmem

end

/-! ## Storing an inode -/

/-- The inode on disk has the owner and group of the copy. -/
theorem VolInv.ids (hs : VolInv D g s) (hip : Held s.icache ip) (hD : ip ∉ D) :
    ((vol g s).inode (s.icache ip).inum).ownerid = (s.icache ip).node.ownerid ∧
      ((vol g s).inode (s.icache ip).inum).groupid = (s.icache ip).node.groupid := by
  obtain ⟨a, -, hdisk⟩ := hs.behind ip hip hD
  rw [hdisk]
  exact ⟨rfl, rfl⟩

theorem VolInv.type_ne (hs : VolInv D g s) (hip : Held s.icache ip) (hD : ip ∉ D) :
    (s.icache ip).node.type ≠ 0 := by
  have hlive := hs.alive ip hip hD
  obtain ⟨a, -, hdisk⟩ := hs.behind ip hip hD
  rw [live, Set.mem_ofPred_eq, hdisk] at hlive
  exact hlive

/-- Entries for other inodes do not notice what happens to `ip`. -/
theorem VolInv.inum_ne (hs : VolInv D g s) (hip : Held s.icache ip) {k : Fin ninode}
    (hk : Held s.icache k) (hne : k ≠ ip) : (s.icache k).inum ≠ (s.icache ip).inum :=
  fun h => hne (hs.maps.cache.unique k ip hk.1 hip.1 h)

/-- From `s` to `t` inode `ip` has become `d`, in the cache and on disk. -/
structure StoredAs (g : Superblock) (s : Fs) (ip : Fin ninode) (d : Dinode) (t : Fs) : Prop where
  layout : Layout g t
  cache : CacheIs s ip d t
  inode : (vol g t).inode = update (vol g s).inode (s.icache ip).inum d

namespace StoredAs

variable {d : Dinode} (h : StoredAs g s ip d t)

include h

theorem keeps (k : Fin ninode) : (t.icache k).ref = (s.icache k).ref ∧
    (t.icache k).valid = (s.icache k).valid ∧ (t.icache k).inum = (s.icache k).inum := by
  rw [h.cache]
  exact withNode_keeps k

theorem others {k : Fin ninode} (hk : k ≠ ip) : t.icache k = s.icache k := by
  rw [h.cache, withNode_ne hk]

theorem held {k : Fin ninode} : Held t.icache k ↔ Held s.icache k := by
  rw [Held, Held, (h.keeps k).1, (h.keeps k).2.1]

theorem cacheWf (hc : CacheWf g s.icache) : CacheWf g t.icache := by
  rw [h.cache]
  exact withNode_cacheWf hc

theorem nodes_eq (hc : CacheWf g s.icache) (hip : Held s.icache ip) :
    nodes g t = update (nodes g s) (s.icache ip).inum d := by
  rw [← nodes_withNode hc hip]
  funext i
  rw [nodes, nodes, h.cache]
  cases hcore : coreOf (withNode s ip d).icache i with
  | some k => rfl
  | none =>
    have hne : i ≠ (s.icache ip).inum := by
      have hother := coreOf_eq_none hcore ip (withNode_held hip)
      rw [(withNode_keeps ip).2.2] at hother
      exact hother.symm
    rw [h.inode, update_of_ne hne, vol_withNode]

/-- What the disk has for an entry: the new inode, or what it had. -/
theorem disk_cases (hs : VolInv D g s) (hip : Held s.icache ip) {k : Fin ninode}
    (hk : Held t.icache k) :
    (k = ip ∧ (t.icache k).node = d ∧ (vol g t).inode (t.icache k).inum = d) ∨
      (k ≠ ip ∧ Held s.icache k ∧ t.icache k = s.icache k ∧
        (vol g t).inode (t.icache k).inum = (vol g s).inode (s.icache k).inum) := by
  by_cases hkip : k = ip
  · subst hkip
    rw [h.cache.self, h.inode]
    exact .inl ⟨rfl, rfl, update_self ..⟩
  · have hheld := h.held.mp hk
    rw [h.others hkip, h.inode, update_of_ne (hs.inum_ne hip hheld hkip)]
    exact .inr ⟨hkip, hheld, rfl, rfl⟩

/-- The invariant, with `ip` among the dying entries or not. -/
theorem volInv (hs : VolInv D g s) (hip : Held s.icache ip) (hD : ∀ k, k ≠ ip → (k ∈ D' ↔ k ∈ D))
    (htype : ip ∉ D' → d.type ≠ 0) (hblank : ip ∈ D' → Blank d)
    (howns : Owns (· < nmeta g) (refsOf (live g t) g t) (vol g t).used) : VolInv D' g t where
  maps := ⟨h.layout, h.cacheWf hs.maps.cache, howns⟩
  alive k hk hkD := by
    rw [live, Set.mem_ofPred_eq]
    rcases h.disk_cases hs hip hk with ⟨rfl, -, heq⟩ | ⟨hne, hheld, -, heq⟩
    · rw [heq]
      exact htype hkD
    · rw [heq]
      exact hs.alive k hheld fun hin => hkD ((hD k hne).mpr hin)
  behind k hk hkD := by
    rcases h.disk_cases hs hip hk with ⟨rfl, hnode, heq⟩ | ⟨hne, hheld, hsame, heq⟩
    · exact ⟨_, .refl _, heq.trans hnode.symm⟩
    · rw [heq, hsame]
      exact hs.behind k hheld fun hin => hkD ((hD k hne).mpr hin)
  dead k hk hkD := by
    rcases h.disk_cases hs hip hk with ⟨rfl, hnode, heq⟩ | ⟨hne, hheld, hsame, heq⟩
    · rw [heq, hnode]
      exact ⟨hblank hkD, hblank hkD⟩
    · rw [heq, hsame]
      exact hs.dead k hheld ((hD k hne).mp hkD)

theorem synced (hs : VolInv D g s) (hip : Held s.icache ip)
    (hD : ∀ k, k ≠ ip → (k ∈ D' ↔ k ∈ D)) (hsync : Synced D g s) : Synced D' g t := by
  intro k hk hkD
  rcases h.disk_cases hs hip hk with ⟨-, hnode, heq⟩ | ⟨hne, hheld, hsame, heq⟩
  · exact heq.trans hnode.symm
  · rw [heq, hsame]
    exact hsync k hheld fun hin => hkD ((hD k hne).mpr hin)

theorem live_eq (hs : VolInv D g s) (hip : Held s.icache ip) (hD : ip ∉ D)
    (htype : d.type = (s.icache ip).node.type) : live g t = live g s := by
  ext i
  rw [live, Set.mem_ofPred_eq, h.inode, update_apply]
  split
  · rename_i heq
    rw [heq, htype]
    exact ⟨fun _ => hs.alive ip hip hD, fun _ => hs.type_ne hip hD⟩
  · rfl

end StoredAs

def stores (s : Fs) (ip : Fin ninode) (d : Dinode) : Fs := flushed (withNode s ip d) ip

section

variable {d : Dinode} (hs : VolInv D g s) (hip : Held s.icache ip) (hD : ip ∉ D)

include hs hip hD

/-- `iupdate` makes the inode on disk the copy in the cache, owner and group included. -/
theorem storedAs_flushed (hl : Layout g m) (hcache : CacheIs s ip d m)
    (hinode : (vol g m).inode = (vol g s).inode) (howner : d.ownerid = (s.icache ip).node.ownerid)
    (hgroup : d.groupid = (s.icache ip).node.groupid) :
    StoredAs g s ip d (flushed m ip) ∧ (vol g (flushed m ip)).used = (vol g m).used ∧
      (vol g (flushed m ip)).blk = (vol g m).blk := by
  have hwf : CacheWf g m.icache := by
    rw [hcache]
    exact withNode_cacheWf hs.maps.cache
  have href : (m.icache ip).ref > 0 := by
    rw [hcache.self]
    exact hip.1
  obtain ⟨ho, hg⟩ := hs.ids hip hD
  have hstored : stored (vol g m) (m.icache ip) = d := by
    rw [stored, hinode, hcache.self]
    simp only [ho, hg, ← howner, ← hgroup]
  have hinum : (m.icache ip).inum = (s.icache ip).inum := by rw [hcache.self]
  have hvol := vol_flushed hwf href
  rw [hstored, hinum, hinode] at hvol
  refine ⟨⟨hl.flushed, hcache, by rw [hvol]⟩, by rw [hvol], by rw [hvol]⟩

theorem storedAs_stores (howner : d.ownerid = (s.icache ip).node.ownerid)
    (hgroup : d.groupid = (s.icache ip).node.groupid) :
    StoredAs g s ip d (stores s ip d) ∧ (vol g (stores s ip d)).used = (vol g s).used ∧
      (vol g (stores s ip d)).blk = (vol g s).blk :=
  storedAs_flushed hs hip hD hs.maps.layout.withNode rfl rfl howner hgroup

theorem carries_stores (howner : d.ownerid = (s.icache ip).node.ownerid)
    (hgroup : d.groupid = (s.icache ip).node.groupid)
    (haddrs : d.addrs = (s.icache ip).node.addrs) (hsize : d.size = (s.icache ip).node.size)
    (htype : d.type = (s.icache ip).node.type) : Carries D D g s (stores s ip d) := by
  obtain ⟨hst, hused, hblk⟩ := storedAs_stores hs hip hD howner hgroup
  have hlive := hst.live_eq hs hip hD htype
  have hnodes := hst.nodes_eq hs.maps.cache hip
  have hself := nodes_of_held hs.maps.cache hip
  have hrefs : refsOf (live g (stores s ip d)) g (stores s ip d) = refsOf (live g s) g s := by
    rw [hlive, refsOf, refsOf, hblk, hnodes]
    apply refs_addrs
    intro i _
    rw [update_apply]
    split
    · rename_i h
      rw [h, hself, haddrs]
    · rfl
  constructor
  case vol =>
    refine hst.volInv hs hip (fun _ _ => .rfl) (fun _ => htype ▸ hs.type_ne hip hD)
      (fun hin => absurd hin hD) ?_
    rw [hrefs, hused]
    exact hs.maps.owns
  case synced => exact hst.synced hs hip fun _ _ => .rfl
  case covers =>
    intro _ hc
    rw [MapCovers, hrefs, hused]
    exact hc
  case holeFree =>
    intro _ hf
    refine hf.congr hlive hrefs fun i _ => ?_
    rw [hnodes, update_apply]
    split
    · rename_i h
      rw [h, hself, hsize]
    · rfl

end

theorem ends_update {a : Attrs} (hs : VolInv D g s) (hip : Held s.icache ip) :
    Ends (Fs.update ip a) s (fun _ t => t = stores s ip ((s.icache ip).node.setAttrs a))
      (fun e _ => s.log.logWriteCheck = .error e) := by
  rw [Fs.update]
  refine .bind_ok run_setNode ?_
  refine (ends_iupdate hs.maps.layout.withNode (withNode_cacheWf hs.maps.cache)
    (withNode_held hip).1).mono (fun _ _ h => h) fun _ _ h => h.2

theorem carries_update {a : Attrs} (hs : VolInv D g s) (hip : Held s.icache ip) (hD : ip ∉ D) :
    Carries D D g s (stores s ip ((s.icache ip).node.setAttrs a)) :=
  carries_stores hs hip hD rfl rfl rfl rfl rfl

/-! ## iput -/

def untyped (d : Dinode) : Dinode := { d with type := 0 }

theorem mapOf_beyond {d : Dinode} {blk : Nat → Block} {bn : Nat} (h : maxfile < bn) :
    mapOf d blk bn = 0 := by
  have hdirect := ndirect_lt_maxfile
  rw [mapOf, if_neg (by omega), if_neg (by omega), if_neg (by omega)]

section

variable (hs : VolInv D g s) (hip : Held s.icache ip) (hD : ip ∉ D)

include hs hip hD

/-- `itrunc` has freed the blocks of the inode and stored the empty inode. -/
theorem carries_truncated (htrunc : Truncs (live g s) g (s.icache ip).inum (· ≤ maxfile) s m)
    (hcache : CacheIs s ip (emptied (s.icache ip).node) m) : Carries D D g s (flushed m ip) := by
  obtain ⟨hst, hused, hblk⟩ := storedAs_flushed hs hip hD htrunc.layout hcache htrunc.inode rfl rfl
  have hlive := hst.live_eq hs hip hD rfl
  have hnodes := hst.nodes_eq hs.maps.cache hip
  have hmem := hs.alive ip hip hD
  have hrefs : refsOf (live g (flushed m ip)) g (flushed m ip) =
      dropAt (refsOf (live g s) g s) (s.icache ip).inum (· ≤ maxfile) := by
    funext p
    obtain ⟨i, bn⟩ := p
    rw [hlive, refsOf, refsOf, hblk, htrunc.blk, hnodes, dropAt]
    by_cases hi : i = (s.icache ip).inum
    · rw [hi, refs_of_mem hmem, update_self, mapOf_blank (blank_emptied _)]
      split
      · rfl
      · rename_i hbn
        rw [refs_of_mem hmem, mapOf_beyond (by simpa using hbn)]
    · rw [if_neg (by simp [hi])]
      simp only [refs, update_of_ne hi]
  constructor
  case vol =>
    refine hst.volInv hs hip (fun _ _ => .rfl) (fun _ => hs.type_ne hip hD)
      (fun hin => absurd hin hD) ?_
    rw [hrefs, hused]
    exact htrunc.owns
  case synced => exact hst.synced hs hip fun _ _ => .rfl
  case covers =>
    intro _ hc
    rw [MapCovers, hrefs, hused]
    exact htrunc.covers hc
  case holeFree =>
    intro _ hf i hi
    rw [hlive] at hi
    rw [hrefs, hnodes]
    by_cases heq : i = (s.icache ip).inum
    · rw [heq, update_self]
      refine ⟨Nat.zero_le _, fun bn hbn => ?_⟩
      simp [dropAt, Nat.le_of_lt hbn, emptied, ceilBlocks_zero]
    · rw [update_of_ne heq]
      simp only [dropAt, heq, false_and, if_false]
      exact hf i hi

theorem carries_freed (hblank : Blank (s.icache ip).node) :
    Carries D (insert ip D) g s (stores s ip (untyped (s.icache ip).node)) := by
  obtain ⟨hst, hused, hblk⟩ :=
    storedAs_stores (d := untyped (s.icache ip).node) hs hip hD rfl rfl
  generalize stores s ip (untyped (s.icache ip).node) = t at hst hused hblk ⊢
  have hnodes := hst.nodes_eq hs.maps.cache hip
  have hself := nodes_of_held hs.maps.cache hip
  have hinsert : ∀ k, k ≠ ip → (k ∈ insert ip D ↔ k ∈ D) := by
    intro k hk
    simp [hk]
  have hlive : ∀ i, i ∈ live g t ↔ i ∈ live g s ∧ i ≠ (s.icache ip).inum := by
    intro i
    rw [live, Set.mem_ofPred_eq, hst.inode, update_apply]
    split
    · rename_i h
      simp [h, untyped]
    · rename_i h
      simp [h, live]
  have hrefs : refsOf (live g t) g t = refsOf (live g s) g s := by
    funext p
    obtain ⟨i, bn⟩ := p
    rw [refsOf, refsOf, hblk, hnodes]
    by_cases hi : i = (s.icache ip).inum
    · rw [refs, if_neg (by simp [hlive, hi]), hi, refs_of_mem (hs.alive ip hip hD), hself,
        mapOf_blank hblank]
    · have hsame : i ∈ live g t ↔ i ∈ live g s := by simp [hlive, hi]
      by_cases hmem : i ∈ live g s
      · rw [refs_of_mem (hsame.mpr hmem), refs_of_mem hmem, update_of_ne hi]
      · rw [refs, refs, if_neg hmem, if_neg fun h => hmem (hsame.mp h)]
  constructor
  case vol =>
    refine hst.volInv hs hip hinsert (fun h => absurd (Set.mem_insert ip D) h) (fun _ => hblank) ?_
    rw [hrefs, hused]
    exact hs.maps.owns
  case synced => exact hst.synced hs hip hinsert
  case covers =>
    intro _ hc
    rw [MapCovers, hrefs, hused]
    exact hc
  case holeFree =>
    intro _ hf i hi
    obtain ⟨hmem, hne⟩ := (hlive i).mp hi
    rw [hrefs, hnodes, update_of_ne hne]
    exact hf i hmem

end

theorem carries_forget (hs : VolInv (insert ip D) g s) (hnot : ¬ Held s.icache ip) :
    Carries (insert ip D) D g s s := by
  have hD : ∀ k, Held s.icache k → (k ∈ insert ip D ↔ k ∈ D) := by
    intro k hk
    have hne : k ≠ ip := by
      rintro rfl
      exact hnot hk
    simp [hne]
  have hsync : Synced (insert ip D) g s → Synced D g s :=
    fun h k hk hkD => h k hk fun hin => hkD ((hD k hk).mp hin)
  refine ⟨⟨hs.maps, fun k hk hkD => ?_, fun k hk hkD => ?_, fun k hk hkD => ?_⟩, hsync,
    fun _ => id, fun _ => id⟩
  · exact hs.alive k hk fun hin => hkD ((hD k hk).mp hin)
  · exact hs.behind k hk fun hin => hkD ((hD k hk).mp hin)
  · exact hs.dead k hk ((hD k hk).mpr hkD)

end Xv6Memfs.Verified
