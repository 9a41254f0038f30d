import Xv6Memfs.Verified.InodeCalls

/-! # Every block has one owner

The bitmap against the block maps over sequences of calls of the inode layer.  That no block
has two owners, and that only free blocks are handed out, holds as long as no block of the log is
handed out.  That every marked block has an owner does not: `bmap` puts a new address into the inode
in memory only, and unless `writei` extends the file nobody stores the inode; when its slot is reused
the block is lost. -/

namespace Xv6Memfs.Verified

open Lib Lib.Exec

variable {g : Superblock} {s t u : Fs} {ip : Fin ninode}

/-- The inode cache as it is after `iinit`. -/
def Fresh (s : Fs) : Prop := ∀ k, (s.icache k).ref = 0

theorem Fresh.not_held (h : Fresh s) (k : Fin ninode) : ¬ Held s.icache k := by
  intro hk
  have := hk.1
  rw [h k] at this
  omega

theorem Fresh.nodes_eq (h : Fresh s) : nodes g s = (vol g s).inode :=
  Synced.nodes_eq fun k hk => absurd hk (h.not_held k)

/-- A marked block belongs to the metadata or stands at exactly one place, and no place has
    a metadata block. -/
structure Exact (g : Superblock) (s : Fs) : Prop where
  marked : ∀ b, (vol g s).used b = true ↔ b < nmeta g ∨ ∃! p, refsOf (live g s) g s p = b
  apart : ∀ p, refsOf (live g s) g s p ≠ 0 → nmeta g ≤ refsOf (live g s) g s p
  unique : ∀ p q, refsOf (live g s) g s p ≠ 0 →
    refsOf (live g s) g s q = refsOf (live g s) g s p → q = p

theorem nmeta_pos (g : Superblock) : 0 < nmeta g := by
  have : 0 < 2 + (g.ninodes / ipb + 1) := Nat.add_pos_left (by decide) _
  exact Nat.add_pos_left this _

theorem exact_of_volInv (h : VolInv ∅ g s) (hc : MapCovers (live g s) g s) : Exact g s where
  marked b := by
    have howns := h.maps.owns
    constructor
    · intro hused
      by_cases hmeta : b < nmeta g
      · exact .inl hmeta
      · obtain ⟨p, rfl⟩ := (hc b hused).resolve_left hmeta
        have hne : refsOf (live g s) g s p ≠ 0 := fun hzero => hmeta (hzero ▸ nmeta_pos g)
        exact .inr ⟨p, rfl, fun q hq => howns.unique p q hne hq⟩
    · rintro (hmeta | ⟨p, rfl, -⟩)
      · exact howns.baseMarked b hmeta
      · by_cases hzero : refsOf (live g s) g s p = 0
        · rw [hzero]
          exact howns.baseMarked 0 howns.zero
        · exact howns.marked p hzero
  apart p hp := Nat.le_of_not_lt (h.maps.owns.apart p hp)
  unique := h.maps.owns.unique

/-- A fresh cache over an image in which no block has two owners. -/
theorem Fresh.volInv {D : Set (Fin ninode)} (h : Fresh s) (hl : Layout g s)
    (howns : Owns (· < nmeta g) (refsOf (live g s) g s) (vol g s).used) : VolInv D g s := by
  have hcache : CacheWf g s.icache := by
    constructor
    all_goals
      intro k
      simp [h k]
  exact ⟨⟨hl, hcache, howns⟩, fun k hk => absurd hk (h.not_held k),
    fun k hk => absurd hk (h.not_held k), fun k hk => absurd hk (h.not_held k)⟩

theorem Exact.owns (h : Exact g s) : Owns (· < nmeta g) (refsOf (live g s) g s) (vol g s).used where
  zero := nmeta_pos g
  unique := h.unique
  marked p hp := (h.marked _).mpr (.inr ⟨p, rfl, fun q hq => h.unique p q hp hq⟩)
  apart p hp := Nat.not_lt.mpr (h.apart p hp)
  baseMarked b hb := (h.marked b).mpr (.inl hb)

theorem Exact.covers (h : Exact g s) : MapCovers (live g s) g s := by
  intro b hused
  rcases (h.marked b).mp hused with hmeta | ⟨p, hp, -⟩
  · exact .inl hmeta
  · exact .inr ⟨p, hp⟩

/-- What the specification of a call says about its step. -/
theorem post_of_callStep {c : Call} {Q : c.Res → Fs → Prop} {E : Stop → Fs → Prop}
    (hspec : Ends c.exec s Q E) (hstep : callStep s c = some t) : ∃ r, Q r t := by
  rw [callStep] at hstep
  match hrun : run c.exec s with
  | (.ok r, u) =>
    rw [hrun] at hstep
    cases hstep
    exact ⟨r, hspec.of_ok hrun⟩
  | (.error e, u) =>
    rw [hrun] at hstep
    cases hstep

theorem callStep_of_run {c : Call} {r : c.Res} (h : run c.exec s = (.ok r, t)) :
    callStep s c = some t := by
  rw [callStep, h]

theorem called_of_callStep {c : Call} (hs : VolInv ∅ g s) (ha : LogApart g s) (hp : Proper g s c)
    (hstep : callStep s c = some t) : Called ∅ g s c t :=
  (post_of_callStep (ends_call hs hp fun _ => ha) hstep).choose_spec

theorem LogApart.step {c : Call} (h : LogApart g s) (hs : VolInv ∅ g s) (hp : Proper g s c)
    (hroom : HasBlocks g s c) (hstep : callStep s c = some t) : LogApart g t :=
  LogApart.called (called_of_callStep hs h hp hstep) hs hroom h
    (post_of_callStep (kept_call fun _ => h) hstep).choose_spec

/-- The facts that calls keep when they do not lose addresses. -/
structure OwnInv (g : Superblock) (s : Fs) : Prop where
  vol : VolInv ∅ g s
  apart : LogApart g s
  synced : Synced ∅ g s
  covers : MapCovers (live g s) g s

theorem OwnInv.step {c : Call} (h : OwnInv g s) (hp : Proper g s c) (hin : InPlace g s c)
    (hroom : HasBlocks g s c) (hstep : callStep s c = some t) : OwnInv g t := by
  have hcarries := (called_of_callStep h.vol h.apart hp hstep).carries hin
  exact ⟨hcarries.vol, h.apart.step h.vol hp hroom hstep, hcarries.synced h.synced,
    hcarries.covers h.synced h.covers⟩

/-- In every state reached by calls that do not put new addresses into inodes that they do not
    store, and that find their blocks in front of the log, every block has one owner, `bfree` does
    not find a free block, and the blocks that the next call gets belong to nobody. -/
theorem block_ownership (hl : Layout g s) (hfresh : Fresh s) (hexact : Exact g s)
    (hlog : LogApart g s)
    (hrun : Runs callStep (fun s c => Proper g s c ∧ InPlace g s c ∧ HasBlocks g s c) s t) :
    Exact g t ∧ ∀ c, Proper g t c →
      (∀ e u, run c.exec t = (.error e, u) → e ≠ .panic .freeingFreeBlock) ∧
      ∀ u, callStep t c = some u → ∃ new, u.allocs = new ++ t.allocs ∧ new.Nodup ∧
        ∀ b ∈ new, nmeta g ≤ b ∧ b < g.size ∧ ∀ p, refsOf (live g t) g t p ≠ b := by
  have hinit : OwnInv g s := ⟨hfresh.volInv hl hexact.owns, hlog,
    fun k hk => absurd hk (hfresh.not_held k), hexact.covers⟩
  have hinv : OwnInv g t :=
    hrun.invariant hinit fun s c t h hok hstep => h.step hok.1 hok.2.1 hok.2.2 hstep
  refine ⟨exact_of_volInv hinv.vol hinv.covers, fun c hp => ⟨fun e u herr => ?_, fun u hstep => ?_⟩⟩
  · exact (ends_call hinv.vol hp fun _ => hinv.apart).of_error herr
  · obtain ⟨new, hallocs, hnodup, hfree, -⟩ :=
      (called_of_callStep hinv.vol hinv.apart hp hstep).hands
    refine ⟨new, hallocs, hnodup, fun b hb => ?_⟩
    obtain ⟨hunused, hlt⟩ := hfree b hb
    have howns := hinv.vol.maps.owns
    refine ⟨Nat.le_of_not_lt fun hmeta => ?_, hlt, howns.fresh hunused⟩
    rw [howns.baseMarked b hmeta] at hunused
    cases hunused

/-! ## A directory that ends with a hole -/

/-- A root directory with entries in block 29. -/
def rootNode (size : BitVec 32) : Dinode :=
  { Dinode.zero with
    type := tDir
    nlink := 1
    size := size
    addrs := fun k => if k.val = 0 then 29 else 0 }

/-- A disk with one inode and `n` blocks in use. -/
def oneDisk (d : Dinode) (n b : Nat) : Block :=
  if b = 1 then ((((0 : Block).setWord 0 1000).setWord 1 941).setWord 2 200).setWord 3 30
  else if b = 2 then (0 : Block).setDinode 1 d
  else if b = 28 then BitVec.ofNat _ (2 ^ n - 1)
  else 0

def oneFs (d : Dinode) (n : Nat) : Fs where
  disk := oneDisk d n
  disksize := fssize
  log := ⟨970, logsize, 0, false, rootdev, []⟩
  icache _ := ⟨0, 0, 0, false, false, .zero⟩
  devsw _ := ⟨none, none⟩
  allocs := []

def rootDisk (size : BitVec 32) : Nat → Block := oneDisk (rootNode size) 30

def rootFs (size : BitVec 32) : Fs := oneFs (rootNode size) 30

theorem zero_dinode (k : Nat) : ((0 : Block).dinode k).type = 0 := by
  simp [Block.dinode, Dinode.decode, field]

section

variable {d : Dinode} {n : Nat} (h : ∀ b < 28, s.disk b = oneDisk d n b)

include h

theorem one_inode (i : Nat) : if i = 1 then (vol sampleSb s).inode i = d
    else ((vol sampleSb s).inode i).type = 0 := by
  by_cases hle : i / ipb ≤ sampleSb.ninodes / ipb
  · have hsmall : i / 8 ≤ 200 / 8 := hle
    have hlt : iblock i < 28 := by
      change i / 8 + 2 < 28
      omega
    rw [vol_inode hle, h _ hlt]
    rcases Nat.eq_zero_or_pos (i / 8) with hzero | hpos
    · have hblock : oneDisk d n (iblock i) = (0 : Block).setDinode 1 d := by
        have : iblock i = 2 := by
          change i / 8 + 2 = 2
          omega
        rw [this]
        rfl
      rw [hblock]
      split
      · rename_i hi
        rw [hi]
        exact dinode_setDinode_same (by decide)
      · have hmod : i % ipb ≠ 1 := by
          change i % 8 ≠ 1
          omega
        rw [dinode_setDinode_ne (Nat.mod_lt i (by decide)) hmod]
        exact zero_dinode _
    · have hblock : oneDisk d n (iblock i) = 0 := by
        have : iblock i = i / 8 + 2 := rfl
        rw [oneDisk, if_neg (by omega), if_neg (by omega), if_neg (by omega)]
      rw [if_neg (by omega), hblock]
      exact zero_dinode _
  · have hbig : ¬ i / 8 ≤ 200 / 8 := hle
    rw [if_neg (by omega)]
    simp only [vol, if_neg hle]
    rfl

theorem one_live (htype : d.type ≠ 0) : live sampleSb s = {1} := by
  ext i
  rw [live, Set.mem_ofPred_eq, Set.mem_singleton_iff]
  have hi := one_inode h i
  split at hi
  · rename_i heq
    rw [hi]
    exact ⟨fun _ => heq, fun _ => htype⟩
  · rename_i hne
    exact ⟨fun hlive => absurd hi hlive, fun heq => absurd heq hne⟩

end

section

variable {d : Dinode} {n : Nat} (hdisk : s.disk = oneDisk d n)

include hdisk

theorem one_layout (hsize : s.disksize = fssize) : Layout sampleSb s where
  sb := by
    have hsb : sbOf (oneFs .zero 0) = sampleSb := by decide +kernel
    have hone : s.disk 1 = (oneFs .zero 0).disk 1 := by
      simp only [hdisk, oneFs, oneDisk, if_true]
    rw [sbOf, hone, ← hsb, sbOf]
  fits := by decide
  disk := hsize.ge

theorem one_used (hn : n ≤ fssize) (b : Nat) : (vol sampleSb s).used b = true ↔ b < n := by
  change (decide (b < 1000) && (s.disk (b / 4096 + 25 + 3)).bit (b % 4096)) = true ↔ _
  have hsize : fssize = 1000 := rfl
  by_cases hb : b < 1000
  · have hmap : s.disk 28 = BitVec.ofNat _ (2 ^ n - 1) := by
      rw [hdisk, oneDisk, if_neg (by decide), if_neg (by decide), if_pos rfl]
    rw [decide_eq_true hb, Bool.true_and, Nat.div_eq_of_lt (by omega), Nat.mod_eq_of_lt (by omega)]
    change (s.disk 28).getLsbD b = true ↔ _
    rw [hmap, BitVec.getLsbD_ofNat, Nat.testBit_two_pow_sub_one, Bool.and_eq_true, decide_eq_true_iff,
      decide_eq_true_iff]
    exact and_iff_right (by change b < 4096; omega)
  · rw [decide_eq_false hb, Bool.false_and]
    simp only [Bool.false_eq_true, false_iff]
    omega

theorem one_apart (hsize : s.disksize = fssize) (hn : n ≤ 970)
    (hlog : s.log = ⟨970, logsize, 0, false, rootdev, []⟩) : LogApart sampleSb s where
  log := by
    constructor
    all_goals simp only [hlog, hsize]
    exacts [rfl, by decide, fun b hb => absurd hb List.not_mem_nil, Nat.zero_le _]
  below b hb := ((one_used hdisk (hn.trans (by decide)) b).mp hb).trans_le hn

end

section

variable {size : BitVec 32} (h : ∀ b < 28, s.disk b = rootDisk size b)

include h

theorem root_live : live sampleSb s = {1} := one_live h (by change tDir ≠ 0; decide)

/-- With nothing in the cache, the root has its first block and there are no others. -/
theorem root_refs (hfresh : Fresh s) (p : Nat × Nat) :
    refsOf (live sampleSb s) sampleSb s p = if p = (1, 0) then 29 else 0 := by
  obtain ⟨i, bn⟩ := p
  rw [refsOf, root_live h]
  by_cases hi : i = 1
  · have hroot : nodes sampleSb s 1 = rootNode size := by
      rw [hfresh.nodes_eq]
      exact one_inode h 1
    have haddr : ∀ k, (rootNode size).addr k = if k = 0 then 29 else 0 := by
      intro k
      simp only [Dinode.addr, rootNode]
      split
      · rfl
      · rw [if_neg (by omega)]
    rw [hi, refs_of_mem (Set.mem_singleton 1), hroot]
    by_cases hbn : bn = 0
    · rw [hbn]
      rfl
    · simp [mapOf, haddr, ndirect, hbn]
  · rw [refs, if_neg (by simpa using hi), if_neg fun heq => hi (Prod.mk.inj heq).1]

end

section

variable (size : BitVec 32)

theorem root_layout : Layout sampleSb (rootFs size) := one_layout rfl rfl

theorem root_used (b : Nat) : (vol sampleSb (rootFs size)).used b = true ↔ b < 30 :=
  one_used rfl (by decide) b

theorem root_exact : Exact sampleSb (rootFs size) := by
  have hrefs : ∀ p, refsOf (live sampleSb (rootFs size)) sampleSb (rootFs size) p = _ :=
    root_refs (fun _ _ => rfl) fun _ => rfl
  have hplace : ∀ p, refsOf (live sampleSb (rootFs size)) sampleSb (rootFs size) p ≠ 0 →
      p = (1, 0) := by
    intro p hp
    by_contra hne
    rw [hrefs, if_neg hne] at hp
    exact hp rfl
  have hroot : refsOf (live sampleSb (rootFs size)) sampleSb (rootFs size) (1, 0) = 29 :=
    hrefs (1, 0)
  have hmeta : nmeta sampleSb = 29 := by decide
  constructor
  case marked =>
    intro b
    rw [root_used, hmeta]
    constructor
    · intro hlt
      rcases Nat.lt_or_ge b 29 with hlow | hhigh
      · exact .inl hlow
      · obtain rfl : b = 29 := by omega
        exact .inr ⟨(1, 0), hroot, fun q hq => hplace q (by rw [hq]; decide)⟩
    · rintro (hlow | ⟨p, rfl, -⟩)
      · omega
      · rw [hrefs]
        split <;> decide
  case apart =>
    intro p hp
    rw [hplace p hp, hroot, hmeta]
  case unique =>
    intro p q hp hq
    rw [hplace p hp, hplace q (hq ▸ hp)]

theorem root_apart : LogApart sampleSb (rootFs size) := one_apart rfl rfl (by decide) rfl

end

/-- The calls of a lookup in the root directory that reads its last entry. -/
def holeCalls : List Call :=
  [.beginOp, .iget rootdev 1, .ilock sampleIp, .readi sampleIp 1008 16, .iunlock sampleIp,
    .iput sampleIp, .endOp]

/-- Block 30 is marked, but the inodes are as they were. -/
def Lost (t : Fs) : Prop :=
  (∀ b < 28, t.disk b = rootDisk 1024 b) ∧ (∀ k, (t.icache k).ref = 0) ∧ (vol sampleSb t).used 30 = true

instance (t : Fs) : Decidable (Lost t) := inferInstanceAs (Decidable (_ ∧ _ ∧ _))

/-- `mkfs` rounds the size of the root directory up to a full block more.  With 32 entries in
    block 29 it makes the size 1024 without a second block, and looking up a name that is not
    there loses a block. -/
theorem lookup_loses_block : Layout sampleSb (rootFs 1024) ∧ Fresh (rootFs 1024) ∧ Exact sampleSb (rootFs 1024) ∧
    LogApart sampleSb (rootFs 1024) ∧ ∃ t, Runs callStep (Proper sampleSb) (rootFs 1024) t ∧ ¬ Exact sampleSb t := by
  have hplay : (playAll (guarded callStep (Proper sampleSb)) (rootFs 1024) holeCalls).map
      (fun t => decide (Lost t)) = some true := by
    decide +kernel
  obtain ⟨t, hplay, hlost⟩ := Option.map_eq_some_iff.mp hplay
  obtain ⟨hdisk, hfresh, hused⟩ := of_decide_eq_true hlost
  refine ⟨root_layout 1024, fun _ => rfl, root_exact 1024, root_apart 1024, t, runs_of_guarded (runs_of_playAll hplay), ?_⟩
  intro hexact
  rcases (hexact.marked 30).mp hused with hmeta | ⟨p, hp, -⟩
  · exact absurd hmeta (by decide)
  · rw [root_refs hdisk hfresh] at hp
    split at hp <;> omega

/-- A decidable part of the condition: reads of nothing, and writes of one block that extend the
    file while the blocks 30 and 31 are clear. -/
def Extends (s : Fs) : Call → Prop
  | .readi _ _ _ => False
  | .writei ip src off => fileSize s ip < off + src.length ∧
      (indices s (.writei ip src off)).length ≤ 1 ∧ ∀ b ∈ [30, 31], (vol sampleSb s).used b = false
  | _ => True

instance (s : Fs) (c : Call) : Decidable (Extends s c) :=
  match c with
  | .readi _ _ _ => inferInstanceAs (Decidable False)
  | .writei _ _ _ => inferInstanceAs (Decidable (_ ∧ _ ∧ _))
  | .beginOp | .endOp | .iget _ _ | .idup _ | .ilock _ | .iunlock _ | .iput _ | .ialloc _ _
  | .info _ | .update _ _ => inferInstanceAs (Decidable True)

theorem needsAll_le (L : Set Nat) (g : Superblock) (s : Fs) (i : Nat) (bns : List Nat) :
    needsAll L g s i bns ≤ bns.length + 1 := by
  rw [needsAll]
  refine Nat.add_le_add List.countP_le_length ?_
  split
  · exact Nat.le_refl 1
  · exact Nat.zero_le 1

theorem Extends.ok {c : Call} (h : Extends s c) : InPlace sampleSb s c ∧ HasBlocks sampleSb s c := by
  cases c with
  | readi => exact h.elim
  | writei ip src off =>
    obtain ⟨hgrow, hone, hclear⟩ := h
    refine ⟨.inl hgrow, (needsAll_le ..).trans ((Nat.add_le_add_right hone 1).trans ?_)⟩
    have hsub : {30, 31} ⊆ (Finset.range (sampleSb.size - sampleSb.nlog)).filter
        fun b => (vol sampleSb s).used b = false := by
      intro b hb
      have hmem : b ∈ [30, 31] := by simpa using hb
      rw [Finset.mem_filter, Finset.mem_range]
      refine ⟨?_, hclear b hmem⟩
      rcases List.mem_pair.mp hmem with rfl | rfl <;> decide
    exact Finset.card_le_card hsub
  | _ => exact ⟨trivial, Nat.zero_le _⟩

/-- A new file gets a block and is put away again. -/
def growCalls : List Call :=
  [.beginOp, .ialloc rootdev tFile, .ilock sampleIp, .update sampleIp ⟨0, 0, 1, 0⟩,
    .writei sampleIp [1, 2, 3] 0, .iunlock sampleIp, .iput sampleIp, .endOp]

theorem block_ownership_grow :
    Layout sampleSb (rootFs 1024) ∧ Fresh (rootFs 1024) ∧ Exact sampleSb (rootFs 1024) ∧
      LogApart sampleSb (rootFs 1024) ∧
      ∃ t, Runs callStep (fun s c => Proper sampleSb s c ∧ InPlace sampleSb s c ∧ HasBlocks sampleSb s c)
        (rootFs 1024) t ∧ t.allocs = [30] ∧ Exact sampleSb t := by
  have hplay : (playAll (guarded callStep fun s c => Proper sampleSb s c ∧ Extends s c) (rootFs 1024)
      growCalls).map (fun t : Fs => t.allocs) = some [30] := by
    decide +kernel
  obtain ⟨t, hplay, hallocs⟩ := Option.map_eq_some_iff.mp hplay
  have hrun : Runs callStep
      (fun s c => Proper sampleSb s c ∧ InPlace sampleSb s c ∧ HasBlocks sampleSb s c) (rootFs 1024) t :=
    (runs_of_guarded (runs_of_playAll hplay)).mono fun s c h => ⟨h.1, h.2.ok⟩
  exact ⟨root_layout 1024, fun _ => rfl, root_exact 1024, root_apart 1024, t, hrun, hallocs,
    (block_ownership (root_layout 1024) (fun _ => rfl) (root_exact 1024) (root_apart 1024) hrun).1⟩

end Xv6Memfs.Verified
