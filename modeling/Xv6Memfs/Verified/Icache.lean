import Xv6Memfs.Kernel.Call
import Xv6Memfs.Verified.FileIO

/-! # The inode cache

An entry of the inode cache is a `Slot`, the part that the cache manages, and a copy of an
inode on disk.  `iget`, `idup`, `ilock`, `iunlock` and an `iput` that frees nothing change one
slot.  `VolInv` is the invariant of the inode layer: the block maps of the allocated inodes
are disjoint, and a copy in the cache differs from the inode on disk at most by addresses
that the disk does not have yet.  `Synced` says that it does not differ at all. -/

namespace Xv6Memfs.Verified

open Lib Lib.Exec Function

/-! ## Slots -/

/-- What a cache entry holds besides the copy of the inode. -/
@[ext] structure Slot where
  dev : Nat
  inum : Nat
  ref : Nat
  busy : Bool
  valid : Bool
  deriving DecidableEq

def slots (s : Fs) (k : Fin ninode) : Slot :=
  ⟨(s.icache k).dev, (s.icache k).inum, (s.icache k).ref, (s.icache k).busy, (s.icache k).valid⟩

def withSlot (s : Fs) (ip : Fin ninode) (v : Slot) : Fs :=
  { s with
    icache := update s.icache ip
      ⟨v.dev, v.inum, v.ref, v.busy, v.valid, (s.icache ip).node⟩ }

/-- The slot that `iget` returns, with its new value. -/
def igetSlot (c : Fin ninode → Slot) (dev inum : Nat) : Option (Fin ninode × Slot) :=
  match (List.finRange ninode).find? fun k =>
      decide ((c k).ref > 0 ∧ (c k).dev = dev ∧ (c k).inum = inum) with
  | some ip => some (ip, { c ip with ref := (c ip).ref + 1 })
  | none =>
    match (List.finRange ninode).find? fun k => decide ((c k).ref = 0) with
    | some ip => some (ip, ⟨dev, inum, 1, false, false⟩)
    | none => none

section

variable {g : Superblock} {s t : Fs} {ip k : Fin ninode} {v : Slot} {dev inum : Nat}

@[simp] theorem vol_withSlot : vol g (withSlot s ip v) = vol g s := rfl
@[simp] theorem withSlot_log : (withSlot s ip v).log = s.log := rfl

theorem withSlot_self : (withSlot s ip v).icache ip =
    ⟨v.dev, v.inum, v.ref, v.busy, v.valid, (s.icache ip).node⟩ := update_self ..

theorem withSlot_ne (hk : k ≠ ip) : (withSlot s ip v).icache k = s.icache k :=
  update_of_ne hk ..

theorem slots_withSlot : slots (withSlot s ip v) = update (slots s) ip v := by
  funext k
  by_cases hk : k = ip
  · rw [hk, slots, withSlot_self, update_self]
  · rw [slots, withSlot_ne hk, update_of_ne hk, slots]

theorem slots_withNode {d : Dinode} : slots (withNode s ip d) = slots s := by
  funext k
  by_cases hk : k = ip
  · rw [hk, slots, withNode_self, slots]
  · rw [slots, withNode_ne hk, slots]

/-- `iget` returns a slot that holds the inode already, or takes a free one. -/
theorem igetSlot_cases {c : Fin ninode → Slot} (h : igetSlot c dev inum = some (ip, v)) :
    ((c ip).ref > 0 ∧ (c ip).dev = dev ∧ (c ip).inum = inum ∧
        v = { c ip with ref := (c ip).ref + 1 }) ∨
      ((∀ k, (c k).ref > 0 → (c k).dev = dev → (c k).inum ≠ inum) ∧ (c ip).ref = 0 ∧
        v = ⟨dev, inum, 1, false, false⟩) := by
  rw [igetSlot] at h
  split at h
  · rename_i k hfind
    cases h
    have hhit := List.find?_some hfind
    simp only [decide_eq_true_eq] at hhit
    exact .inl ⟨hhit.1, hhit.2.1, hhit.2.2, rfl⟩
  · rename_i hnone
    split at h
    · rename_i k hfind
      cases h
      have hfree := List.find?_some hfind
      simp only [decide_eq_true_eq] at hfree
      refine .inr ⟨fun k href hdev hinum => ?_, hfree, rfl⟩
      have hmiss := List.find?_eq_none.mp hnone k (List.mem_finRange k)
      simp only [decide_eq_true_eq] at hmiss
      exact hmiss ⟨href, hdev, hinum⟩
    · cases h

theorem igetSlot_of_free {c : Fin ninode → Slot} (h : ∃ l, (c l).ref = 0) :
    ∃ ip v, igetSlot c dev inum = some (ip, v) := by
  rw [igetSlot]
  match (List.finRange ninode).find? fun k =>
      decide ((c k).ref > 0 ∧ (c k).dev = dev ∧ (c k).inum = inum) with
  | some ip => exact ⟨ip, _, rfl⟩
  | none =>
    have hsome : ((List.finRange ninode).find? fun k => decide ((c k).ref = 0)).isSome := by
      obtain ⟨l, hl⟩ := h
      rw [List.find?_isSome]
      exact ⟨l, List.mem_finRange l, decide_eq_true hl⟩
    obtain ⟨ip, hip⟩ := Option.isSome_iff_exists.mp hsome
    exact ⟨ip, _, by rw [hip]⟩

theorem run_iget : run (Fs.iget dev inum) s =
    match igetSlot (slots s) dev inum with
    | some (ip, v) => (.ok ip, withSlot s ip v)
    | none => (.error (.panic .igetNoInodes), s) := by
  rw [Fs.iget, run_bind_ok (run_get s), igetSlot]
  -- the searches look at slots only
  match (List.finRange ninode).find? fun k =>
      decide ((slots s k).ref > 0 ∧ (slots s k).dev = dev ∧ (slots s k).inum = inum) with
  | some ip => rfl
  | none =>
    match (List.finRange ninode).find? fun k => decide ((slots s k).ref = 0) with
    | some ip => rfl
    | none => rfl

theorem run_idup : run (Fs.idup ip) s =
    (.ok ip, withSlot s ip { slots s ip with ref := (slots s ip).ref + 1 }) := rfl

theorem run_iunlock : run (Fs.iunlock ip) s =
    if !(s.icache ip).busy ∨ (s.icache ip).ref < 1 then (.error (.panic .iunlock), s)
    else (.ok (), withSlot s ip { slots s ip with busy := false }) := by
  rw [Fs.iunlock, run_bind_ok (run_gets _ s)]
  split <;> rfl

end

/-! ## The invariant of the inode layer -/

/-- Every address in `a'` is also in `a`. -/
def AddrsLe (a' a : Fin (ndirect + 1) → BitVec 32) : Prop := ∀ k, a' k ≠ 0 → a' k = a k

def Blank (d : Dinode) : Prop := (d.addrs = fun _ => 0) ∧ d.size = 0

/-- The numbers of the allocated inodes. -/
def live (g : Superblock) (s : Fs) : Set Nat := { i | ((vol g s).inode i).type ≠ 0 }

/-- The invariant.  The entries in `D` are about to be dropped: their inode has been freed on
    disk, and may have been allocated anew since. -/
structure VolInv (D : Set (Fin ninode)) (g : Superblock) (s : Fs) : Prop where
  maps : MapInv (live g s) g s
  alive : ∀ ip, Held s.icache ip → ip ∉ D → (s.icache ip).inum ∈ live g s
  behind : ∀ ip, Held s.icache ip → ip ∉ D → ∃ a, AddrsLe a (s.icache ip).node.addrs ∧
    (vol g s).inode (s.icache ip).inum = { (s.icache ip).node with addrs := a }
  dead : ∀ ip, Held s.icache ip → ip ∈ D → Blank (s.icache ip).node ∧
    Blank ((vol g s).inode (s.icache ip).inum)

/-- The copies in the cache are what the disk has. -/
def Synced (D : Set (Fin ninode)) (g : Superblock) (s : Fs) : Prop :=
  ∀ ip, Held s.icache ip → ip ∉ D → (vol g s).inode (s.icache ip).inum = (s.icache ip).node

section

variable {D : Set (Fin ninode)} {g : Superblock} {s t : Fs} {ip : Fin ninode} {L : Set Nat}

theorem AddrsLe.refl (a : Fin (ndirect + 1) → BitVec 32) : AddrsLe a a := fun _ _ => rfl

/-- Fewer addresses, fewer blocks. -/
theorem mapOf_le {d d' : Dinode} {blk : Nat → Block} {bn : Nat} (ha : AddrsLe d'.addrs d.addrs)
    (hne : mapOf d' blk bn ≠ 0) : mapOf d' blk bn = mapOf d blk bn := by
  have haddr : ∀ j, d'.addr j ≠ 0 → d'.addr j = d.addr j := by
    intro j hj
    simp only [Dinode.addr] at hj ⊢
    split
    · rw [dif_pos ‹_›] at hj
      exact ha _ hj
    · rfl
  have hind : d'.addr ndirect = 0 ∨ d'.addr ndirect = d.addr ndirect :=
    or_iff_not_imp_left.mpr (haddr ndirect)
  by_cases hbn : bn < ndirect
  · rw [mapOf_direct hbn] at hne ⊢
    rw [mapOf_direct hbn, haddr bn fun h => hne (by rw [h]; rfl)]
  · rcases hind with hzero | heq
    · simp [mapOf, hbn, hzero] at hne
    · simp only [mapOf, hbn, heq, if_false]

/-- What the inodes on disk and those that count have in common. -/
theorem nodes_rel {R : Dinode → Dinode → Prop} (hrefl : ∀ d, R d d)
    (hheld : ∀ ip, Held s.icache ip → R ((vol g s).inode (s.icache ip).inum) (s.icache ip).node)
    (i : Nat) : R ((vol g s).inode i) (nodes g s i) := by
  rw [nodes]
  cases hcore : coreOf s.icache i with
  | some k =>
    obtain ⟨hk, rfl⟩ := coreOf_eq_some hcore
    exact hheld k hk
  | none => exact hrefl _

theorem VolInv.nodes_behind (h : VolInv D g s) (i : Nat) :
    AddrsLe ((vol g s).inode i).addrs (nodes g s i).addrs := by
  refine nodes_rel (R := fun d d' => AddrsLe d.addrs d'.addrs) (fun _ => .refl _) (fun k hk => ?_) i
  by_cases hdead : k ∈ D
  · intro j hj
    rw [(h.dead k hk hdead).2.1] at hj
    exact absurd rfl hj
  · obtain ⟨a, ha, hdisk⟩ := h.behind k hk hdead
    rw [hdisk]
    exact ha

theorem VolInv.size_eq (h : VolInv D g s) (i : Nat) :
    ((vol g s).inode i).size = (nodes g s i).size := by
  refine nodes_rel (R := fun d d' => d.size = d'.size) (fun _ => rfl) (fun k hk => ?_) i
  by_cases hdead : k ∈ D
  · rw [(h.dead k hk hdead).1.2, (h.dead k hk hdead).2.2]
  · obtain ⟨a, -, hdisk⟩ := h.behind k hk hdead
    rw [hdisk]

theorem Synced.addrs_eq (hsync : Synced D g s) (h : VolInv D g s) (i : Nat) :
    ((vol g s).inode i).addrs = (nodes g s i).addrs := by
  refine nodes_rel (R := fun d d' => d.addrs = d'.addrs) (fun _ => rfl) (fun k hk => ?_) i
  by_cases hdead : k ∈ D
  · rw [(h.dead k hk hdead).1.1, (h.dead k hk hdead).2.1]
  · rw [hsync k hk hdead]

theorem Synced.nodes_eq (h : Synced ∅ g s) : nodes g s = (vol g s).inode := by
  funext i
  exact (nodes_rel (R := fun d d' => d' = d) (fun _ => rfl)
    (fun k hk => (h k hk (Set.notMem_empty k)).symm) i)

end

/-! ## Changes of the cache alone -/

/-- From `s` to `t` cache entries have changed: a valid entry was valid before, or holds the
    inode on disk. -/
structure Recached (g : Superblock) (s t : Fs) : Prop where
  disk : t.disk = s.disk
  disksize : t.disksize = s.disksize
  devsw : t.devsw = s.devsw
  allocs : t.allocs = s.allocs
  cache : CacheWf g t.icache
  held : ∀ k, Held t.icache k →
    (Held s.icache k ∧ (t.icache k).inum = (s.icache k).inum ∧
      (t.icache k).node = (s.icache k).node) ∨
    ((t.icache k).node = (vol g s).inode (t.icache k).inum ∧ (t.icache k).inum ∈ live g s)

/-- The entries in `D` are as before. -/
def KeepsDead (D : Set (Fin ninode)) (s t : Fs) : Prop :=
  ∀ k ∈ D, Held t.icache k → Held s.icache k ∧ (t.icache k).inum = (s.icache k).inum ∧
    (t.icache k).node = (s.icache k).node

namespace Recached

variable {D : Set (Fin ninode)} {g : Superblock} {s t : Fs} (h : Recached g s t)

include h

theorem vol_eq : vol g t = vol g s := by simp only [vol, h.disk]

theorem live_eq : live g t = live g s := by rw [live, h.vol_eq, live]

theorem layout (hl : Layout g s) : Layout g t where
  sb := by
    rw [sbOf, h.disk]
    exact hl.sb
  fits := hl.fits
  disk := h.disksize ▸ hl.disk

/-- An inode is as before, or seen as it is on disk. -/
theorem nodes_cases (hc : CacheWf g s.icache) (i : Nat) :
    nodes g t i = nodes g s i ∨ nodes g t i = (vol g s).inode i := by
  match hcore : coreOf t.icache i with
  | some k =>
    obtain ⟨hk, rfl⟩ := coreOf_eq_some hcore
    rw [nodes_of_held h.cache hk]
    rcases h.held k hk with ⟨hs, hinum, hnode⟩ | ⟨hnode, -⟩
    · rw [hinum, nodes_of_held hc hs, hnode]
      exact .inl rfl
    · exact .inr hnode
  | none =>
    have hnodes : nodes g t i = (vol g t).inode i := by simp only [nodes, hcore]
    rw [hnodes, h.vol_eq]
    exact .inr rfl

theorem volInv (hs : VolInv D g s) (hdead : KeepsDead D s t) : VolInv D g t := by
  have hvol := h.vol_eq
  constructor
  case maps =>
    refine ⟨h.layout hs.maps.layout, h.cache, ?_⟩
    rw [hvol, h.live_eq]
    apply hs.maps.owns.restrict
    rintro ⟨i, bn⟩ hne
    rw [refsOf, hvol] at hne ⊢
    by_cases hi : i ∈ live g s
    · rw [refs_of_mem hi] at hne ⊢
      rw [refsOf, refs_of_mem hi]
      rcases h.nodes_cases hs.maps.cache i with heq | hdisk
      · rw [heq]
      · rw [hdisk] at hne ⊢
        exact mapOf_le (hs.nodes_behind i) hne
    · simp [refs, hi] at hne
  case alive =>
    intro k hk hlive
    rw [h.live_eq]
    rcases h.held k hk with ⟨hheld, hinum, -⟩ | ⟨-, hlive⟩
    · rw [hinum]
      exact hs.alive k hheld hlive
    · exact hlive
  case behind =>
    intro k hk hlive
    rw [hvol]
    rcases h.held k hk with ⟨hheld, hinum, hnode⟩ | ⟨hnode, -⟩
    · rw [hinum, hnode]
      exact hs.behind k hheld hlive
    · exact ⟨_, .refl _, by rw [← hnode]⟩
  case dead =>
    intro k hk hD
    obtain ⟨hheld, hinum, hnode⟩ := hdead k hD hk
    rw [hvol, hinum, hnode]
    exact hs.dead k hheld hD

theorem synced (hs : Synced D g s) : Synced D g t := by
  intro k hk hlive
  rw [h.vol_eq]
  rcases h.held k hk with ⟨hheld, hinum, hnode⟩ | ⟨hnode, -⟩
  · rw [hinum, hnode]
    exact hs k hheld hlive
  · exact hnode.symm

theorem refsOf_eq (hs : VolInv D g s) (hsync : Synced D g s) :
    refsOf (live g t) g t = refsOf (live g s) g s := by
  rw [refsOf, refsOf, h.live_eq, h.vol_eq]
  apply refs_addrs
  intro i _
  rcases h.nodes_cases hs.maps.cache i with heq | hdisk
  · rw [heq]
  · rw [hdisk, hsync.addrs_eq hs]

end Recached

/-! ## The calls that change one slot -/

section

variable {g : Superblock} {s t : Fs} {ip : Fin ninode} {v : Slot} {dev inum : Nat}

theorem recached_withSlot (hc : CacheWf g s.icache)
    (hwf : v.ref > 0 → v.dev = rootdev ∧ v.inum / ipb ≤ g.ninodes / ipb ∧
      ∀ k, k ≠ ip → (s.icache k).ref > 0 → (s.icache k).inum ≠ v.inum)
    (hheld : v.ref > 0 → v.valid = true → Held s.icache ip ∧ v.inum = (s.icache ip).inum) :
    Recached g s (withSlot s ip v) where
  disk := rfl
  disksize := rfl
  devsw := rfl
  allocs := rfl
  cache := by
    constructor
    case dev =>
      intro k hk
      by_cases hkip : k = ip
      · rw [hkip, withSlot_self] at hk ⊢
        exact (hwf hk).1
      · rw [withSlot_ne hkip] at hk ⊢
        exact hc.dev k hk
    case inum =>
      intro k hk
      by_cases hkip : k = ip
      · rw [hkip, withSlot_self] at hk ⊢
        exact (hwf hk).2.1
      · rw [withSlot_ne hkip] at hk ⊢
        exact hc.inum k hk
    case unique =>
      intro k l hk hl heq
      by_cases hkip : k = ip
      · by_cases hlip : l = ip
        · rw [hkip, hlip]
        · rw [hkip, withSlot_self, withSlot_ne hlip] at heq
          rw [hkip, withSlot_self] at hk
          rw [withSlot_ne hlip] at hl
          exact absurd heq.symm ((hwf hk).2.2 l hlip hl)
      · by_cases hlip : l = ip
        · rw [hlip, withSlot_self, withSlot_ne hkip] at heq
          rw [hlip, withSlot_self] at hl
          rw [withSlot_ne hkip] at hk
          exact absurd heq ((hwf hl).2.2 k hkip hk)
        · rw [withSlot_ne hkip] at hk heq
          rw [withSlot_ne hlip] at hl heq
          exact hc.unique k l hk hl heq
  held k hk := by
    left
    by_cases hkip : k = ip
    · rw [hkip] at hk ⊢
      rw [Held, withSlot_self] at hk
      rw [withSlot_self]
      obtain ⟨hs, hinum⟩ := hheld hk.1 hk.2
      exact ⟨hs, hinum, rfl⟩
    · rw [Held, withSlot_ne hkip] at hk
      rw [withSlot_ne hkip]
      exact ⟨hk, rfl, rfl⟩

theorem recached_sameSlot (hc : CacheWf g s.icache) (href : (s.icache ip).ref > 0)
    (hdev : v.dev = (s.icache ip).dev) (hinum : v.inum = (s.icache ip).inum)
    (hvalid : v.valid = (s.icache ip).valid) : Recached g s (withSlot s ip v) := by
  apply recached_withSlot hc
  · intro _
    rw [hdev, hinum]
    exact ⟨hc.dev ip href, hc.inum ip href,
      fun k hk hr heq => hk (hc.unique k ip hr href heq)⟩
  · intro _ hv
    exact ⟨⟨href, hvalid ▸ hv⟩, hinum⟩

theorem recached_iget (hc : CacheWf g s.icache) (hi : inum / ipb ≤ g.ninodes / ipb)
    (h : igetSlot (slots s) rootdev inum = some (ip, v)) : Recached g s (withSlot s ip v) := by
  rcases igetSlot_cases h with ⟨href, -, -, rfl⟩ | ⟨hmiss, -, rfl⟩
  · exact recached_sameSlot hc href rfl rfl rfl
  · apply recached_withSlot hc
    · exact fun _ => ⟨rfl, hi, fun k _ hr => hmiss k hr (hc.dev k hr)⟩
    · exact fun _ hv => absurd hv Bool.false_ne_true

def loaded (g : Superblock) (s : Fs) (ip : Fin ninode) : Fs :=
  withSlot (withNode s ip ((vol g s).inode (s.icache ip).inum)) ip
    { slots s ip with busy := true, valid := true }

/-- `ilock` returns with the inode valid, and panics if the inode is free. -/
theorem ends_ilock (hl : Layout g s) (hc : CacheWf g s.icache) : Ends (Fs.ilock ip) s
    (fun _ t => (slots s ip).ref > 0 ∧ (slots s ip).busy = false ∧
      (((slots s ip).valid = true ∧ t = withSlot s ip { slots s ip with busy := true }) ∨
        ((slots s ip).valid = false ∧ (s.icache ip).inum ∈ live g s ∧ t = loaded g s ip)))
    (fun e _ => (e = .panic .ilock ∧ (slots s ip).ref < 1) ∨
      ((slots s ip).ref > 0 ∧ e = .sleep ∧ (slots s ip).busy = true) ∨
      ((slots s ip).ref > 0 ∧ (slots s ip).busy = false ∧ (slots s ip).valid = false ∧
        e = .panic .ilockNoType ∧ (s.icache ip).inum ∉ live g s)) := by
  rw [Fs.ilock]
  refine .gets_bind (.ite (fun href => .throw (.inl ⟨rfl, href⟩)) fun href => ?_)
  have hpos : (s.icache ip).ref > 0 := Nat.not_lt.mp href
  refine .ite (fun hbusy => .throw (.inr (.inl ⟨hpos, rfl, hbusy⟩))) fun hbusy => ?_
  have hbusy' : (s.icache ip).busy = false := by simpa using hbusy
  refine .modify_bind ?_
  refine .ite (fun hvalid => ?_) fun hvalid => ?_
  · have hinvalid : (s.icache ip).valid = false := by simpa using hvalid
    have hi := hc.inum ip hpos
    have hinode : (vol g s).inode (s.icache ip).inum =
        (s.disk (iblock (s.icache ip).inum)).dinode ((s.icache ip).inum % ipb) := by
      simp only [vol, if_pos hi]
    rw [hc.dev ip hpos]
    refine .bind_ok (run_bread_iblock (g := g) ⟨hl.sb, hl.fits, hl.disk⟩ hi) ?_
    refine .modify_bind (.ite (fun hfree => ?_) fun hused => ?_)
    · refine .throw (.inr (.inr ⟨hpos, hbusy', hinvalid, rfl, ?_⟩))
      rw [live, Set.mem_ofPred_eq, hinode, not_not]
      exact hfree
    · refine .pure ⟨hpos, hbusy', .inr ⟨hinvalid, ?_, ?_⟩⟩
      · rw [live, Set.mem_ofPred_eq, hinode]
        exact hused
      · simp only [loaded, withSlot, withNode, hinode, slots, update_idem,
          update_self]
  · have hvalid' : (s.icache ip).valid = true := by simpa using hvalid
    exact .pure ⟨hpos, hbusy', .inl ⟨hvalid', rfl⟩⟩

theorem recached_loaded (hc : CacheWf g s.icache)
    (hlive : (s.icache ip).inum ∈ live g s) : Recached g s (loaded g s ip) := by
  have hother : ∀ k, k ≠ ip → (loaded g s ip).icache k = s.icache k := by
    intro k hk
    rw [loaded, withSlot_ne hk, withNode_ne hk]
  have hself : (loaded g s ip).icache ip =
      { s.icache ip with
        busy := true
        valid := true
        node := (vol g s).inode (s.icache ip).inum } := by
    rw [loaded, withSlot_self, withNode_self]
    rfl
  have hsame : ∀ k, ((loaded g s ip).icache k).dev = (s.icache k).dev ∧
      ((loaded g s ip).icache k).inum = (s.icache k).inum ∧
      ((loaded g s ip).icache k).ref = (s.icache k).ref := by
    intro k
    by_cases hk : k = ip
    · rw [hk, hself]
      exact ⟨rfl, rfl, rfl⟩
    · rw [hother k hk]
      exact ⟨rfl, rfl, rfl⟩
  constructor
  case cache =>
    constructor
    · intro k hk
      rw [(hsame k).2.2] at hk
      rw [(hsame k).1]
      exact hc.dev k hk
    · intro k hk
      rw [(hsame k).2.2] at hk
      rw [(hsame k).2.1]
      exact hc.inum k hk
    · intro k l hk hl heq
      rw [(hsame k).2.2] at hk
      rw [(hsame l).2.2] at hl
      rw [(hsame k).2.1, (hsame l).2.1] at heq
      exact hc.unique k l hk hl heq
  case held =>
    intro k hk
    by_cases hkip : k = ip
    · right
      rw [hkip, hself]
      exact ⟨rfl, hlive⟩
    · left
      rw [Held, hother k hkip] at hk
      rw [hother k hkip]
      exact ⟨hk, rfl, rfl⟩
  all_goals rfl

end

end Xv6Memfs.Verified
