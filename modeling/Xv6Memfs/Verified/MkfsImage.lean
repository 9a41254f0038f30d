import Xv6Memfs.Verified.MkfsAppend

/-! # The image that mkfs writes

Between its calls of `ialloc` and `iappend` the image of `mkfs` stands for a table of files
(`HasFiles`): the inodes below `freeinode` hold them, and nothing else is in use.  `main` is then a
sequence of appends to that table, and what it leaves behind is read off at its end. -/

namespace Xv6Memfs.Verified

open Lib Lib.Exec Function

variable {s t u : Mkfs} {ino : Nat → Dinode} {F : Nat → List Byte} {i b x : Nat} {din : Dinode}

variable {d : Dinode} {type : BitVec 16}

/-! ## Inodes -/

/-- The type of an inode of the image. -/
def kindOf (i : Nat) : BitVec 16 := if i = rootino then tDir else tFile

def made (kind : BitVec 16) (len : Nat) (a : Fin (ndirect + 1) → BitVec 32) : Dinode :=
  { Mkfs.newInode kind with size := BitVec.ofNat 32 len, addrs := a }

/-- The image holds the files `F`. -/
structure HasFiles (s : Mkfs) (F : Nat → List Byte) : Prop where
  filled : Filled s (imageVol s).inode F
  nodes : ∀ i ∈ inodesBelow s.freeinode, ∃ a, (imageVol s).inode i = made (kindOf i) (F i).length a
  rest : ∀ i, i ∉ inodesBelow s.freeinode → (imageVol s).inode i = .zero

/-- Block maps do not depend on the other fields of the inodes. -/
theorem StoresFiles.congr_addrs {L : Set Nat} {m : Nat} {v w : Vol} (h : StoresFiles L m F v)
    (haddrs : ∀ j, (w.inode j).addrs = (v.inode j).addrs) (hblk : w.blk = v.blk)
    (hused : w.used = v.used) : StoresFiles L m F w := by
  have hrefs : w.refs L = v.refs L := by
    rw [Vol.refs, Vol.refs, hblk]
    exact refs_addrs fun j _ => haddrs j
  have hcontent : w.content L = v.content L := by
    rw [Vol.content, Vol.content, hblk]
    exact contentAt_addrs fun j _ => haddrs j
  constructor
  case owns => rw [hrefs, hused]; exact h.owns
  case covers => rw [hrefs, hused]; exact h.covers
  case blocks => rw [hrefs]; exact h.blocks
  case indirect => rw [hrefs]; exact h.indirect
  case bytes => rw [hcontent]; exact h.bytes

theorem iblock_range (hi : i < 208) : 2 ≤ iblock i ∧ iblock i < 28 := by
  simp only [iblock, ipb, bsize, dinodeSize]
  omega

theorem run_rinode (hi : i < 208) (hsize : s.size = fssize) :
    run (Mkfs.rinode i) s = (.ok ((imageVol s).inode i), s) := by
  have hblock : iblock i < fssize := (iblock_range hi).2.trans (by decide)
  rw [Mkfs.rinode, run_bind_ok (run_rsect hblock hsize), run_pure, imageVol_inode hi]

def wroteInode (s : Mkfs) (i : Nat) (d : Dinode) : Mkfs :=
  wrote s (iblock i) ((s.sector (iblock i)).setDinode (i % ipb) d)

theorem run_winode (hi : i < 208) (hsize : s.size = fssize) :
    run (Mkfs.winode i d) s = (.ok (), wroteInode s i d) := by
  have hblock : iblock i < fssize := (iblock_range hi).2.trans (by decide)
  rw [Mkfs.winode, run_bind_ok (run_rsect hblock hsize), run_wsect hblock, wroteInode]

theorem writes_wroteInode (hi : i < 208) : Writes s (wroteInode s i d) := by
  refine ⟨[iblock i], rfl, fun c hc => .inl ?_⟩
  rw [List.mem_singleton.mp hc]
  exact iblock_range hi

theorem wroteInode_inode (hi : i < 208) :
    (imageVol (wroteInode s i d)).inode = update (imageVol s).inode i d :=
  congrArg Vol.inode (imageVol_wrote_inode hi)

theorem wroteInode_blk (hi : i < 208) : (imageVol (wroteInode s i d)).blk = (imageVol s).blk := by
  rw [wroteInode, imageVol_wrote_inode hi]

theorem wroteInode_size (hi : i < 208) (hsize : s.size = fssize) :
    (wroteInode s i d).size = fssize := by
  change max s.size (iblock i + 1) = fssize
  rw [hsize, Nat.max_eq_left]
  exact (iblock_range hi).2.trans (by decide)

theorem wroteInode_super (hi : i < 208) : (wroteInode s i d).sector 1 = s.sector 1 := by
  have hne : 1 ≠ iblock i := by
    have := (iblock_range hi).1
    omega
  exact wrote_ne hne

theorem Filled.wroteInode (h : Filled s ino F) (hi : i < 208)
    (haddrs : ∀ j, (update (imageVol s).inode i d j).addrs = (ino j).addrs) :
    Filled (wroteInode s i d) (imageVol (Verified.wroteInode s i d)).inode F := by
  constructor
  case size => exact wroteInode_size hi h.size
  case super => exact (wroteInode_super hi).trans h.super
  case inodes => exact h.inodes
  case room => exact h.room
  case blank =>
    rw [wroteInode_blk hi]
    exact h.blank
  case stores =>
    refine h.stores.congr_addrs (fun j => ?_) (wroteInode_blk hi) rfl
    have hj := haddrs j
    rw [← wroteInode_inode hi] at hj
    exact hj
  case small => exact h.small

/-- From `s` to `t` only inode blocks and data blocks have been written. -/
structure Grew (s t : Mkfs) : Prop where
  writes : Writes s t
  le : s.freeblock ≤ t.freeblock

theorem Grew.refl (s : Mkfs) : Grew s s := ⟨.refl s, le_rfl⟩

theorem Grew.trans (h : Grew s t) (h' : Grew t u) : Grew s u :=
  ⟨h.writes.trans h'.writes h'.le, h.le.trans h'.le⟩

theorem HasFiles.inode_lt (h : HasFiles s F) (hi : i ∈ inodesBelow s.freeinode) : i < 208 :=
  hi.2.trans_le h.filled.inodes

theorem toNat_size {n : Nat} (h : n ≤ maxfile * bsize) : (BitVec.ofNat 32 n).toNat = n := by
  rw [BitVec.toNat_ofNat, Nat.mod_eq_of_lt]
  exact h.trans_lt (by decide)

/-- `iappend` appends to the file of its inode. -/
theorem ends_iappend {p : List Byte} (h : HasFiles s F) (hi : i ∈ inodesBelow s.freeinode) :
    Ends (Mkfs.iappend i p) s
      (fun _ t => HasFiles t (update F i (F i ++ p)) ∧ Grew s t ∧ t.freeinode = s.freeinode ∧
        t.freeblock + footprint (F i).length = s.freeblock + footprint ((F i).length + p.length))
      fun _ _ => Overflows F i p s := by
  have hlt := h.inode_lt hi
  obtain ⟨a, ha⟩ := h.nodes i hi
  have hlen : ((imageVol s).inode i).size.toNat = (F i).length := by
    rw [ha]
    exact toNat_size (h.filled.small i hi)
  have hfilled : Filled s (update (imageVol s).inode i ((imageVol s).inode i)) F := by
    rw [update_eq_self]
    exact h.filled
  have hloop := ends_appendLoop hfilled hi (p := p) le_rfl
  rw [← hlen] at hloop
  refine .bind_ok (run_rinode hlt h.filled.size) (.bind hloop (fun _ _ he => he) ?_)
  rintro ⟨d, off⟩ t happ
  obtain ⟨a', ha'⟩ := happ.node
  have hoff : off = (F i).length + p.length := happ.off
  have hsize := happ.filled.size
  -- the copy goes back with the new size
  refine .ok (run_winode hlt hsize) ⟨?_, ⟨?_, ?_⟩, ?_, ?_⟩
  · have hinode := wroteInode_inode (s := t) (d := { d with size := BitVec.ofNat 32 off }) hlt
    rw [happ.same.inode] at hinode
    constructor
    case filled =>
      refine happ.filled.wroteInode hlt fun j => ?_
      rw [happ.same.inode, update_apply, update_apply]
      split <;> rfl
    case nodes =>
      intro j hj
      rw [hinode]
      have hj' : j ∈ inodesBelow s.freeinode := happ.same.freeinode ▸ hj
      by_cases hji : j = i
      · rw [hji, update_self, update_self, List.length_append]
        refine ⟨a', ?_⟩
        rw [show d = _ from ha', ha, hoff]
        rfl
      · rw [update_of_ne hji, update_of_ne hji]
        exact h.nodes j hj'
    case rest =>
      intro j hj
      have hj' : j ∉ inodesBelow s.freeinode := happ.same.freeinode ▸ hj
      rw [hinode, update_of_ne]
      · exact h.rest j hj'
      · rintro rfl
        exact hj' hi
  · exact happ.same.writes.trans (writes_wroteInode hlt) le_rfl
  · exact happ.same.le
  · exact happ.same.freeinode
  · exact happ.count

/-! ## A new inode -/

theorem mem_inodesBelow_succ {n j : Nat} (hn : 1 ≤ n) :
    j ∈ inodesBelow (n + 1) ↔ j = n ∨ j ∈ inodesBelow n := by
  simp only [inodesBelow, Set.mem_ofPred_eq]
  omega

theorem refs_insert {L L' : Set Nat} {n : Nat} {blk : Nat → Block} (hn : n ∉ L)
    (hL : ∀ j, j ∈ L' ↔ j = n ∨ j ∈ L) (hd : d.addrs = fun _ => 0) :
    refs L' (update ino n d) blk = refs L ino blk := by
  have haddr : ∀ k, d.addr k = 0 := by
    intro k
    rw [Dinode.addr, hd]
    split <;> rfl
  funext p
  by_cases hp : p.1 = n
  · have hzero : mapOf d blk p.2 = 0 := by simp [mapOf, haddr]
    rw [refs, refs, if_pos ((hL _).mpr (.inl hp)), hp, update_self, hzero, if_neg hn]
  · rw [refs, refs, update_of_ne hp]
    by_cases hmem : p.1 ∈ L
    · rw [if_pos hmem, if_pos ((hL _).mpr (.inr hmem))]
    · rw [if_neg hmem, if_neg fun h => ((hL _).mp h).elim hp hmem]

theorem StoresFiles.insert {L L' : Set Nat} {m n : Nat} {v : Vol} (h : StoresFiles L m F v)
    (hn : n ∉ L) (hL : ∀ j, j ∈ L' ↔ j = n ∨ j ∈ L) (hd : d.addrs = fun _ => 0) :
    StoresFiles L' m (update F n []) { v with inode := update v.inode n d } := by
  have hmaps : ({ v with inode := update v.inode n d } : Vol).refs L' = v.refs L :=
    refs_insert hn hL hd
  have hcontent : ({ v with inode := update v.inode n d } : Vol).content L' = v.content L := by
    funext p
    have hp : refs L' (update v.inode n d) v.blk p = refs L v.inode v.blk p :=
      congrFun hmaps p
    simp only [Vol.content, contentAt, hp]
  have hempty : ∀ bn, v.refs L (n, bn) = 0 := fun bn => if_neg hn
  have hne : ∀ j ∈ L, j ≠ n := by
    rintro j hj rfl
    exact hn hj
  constructor
  case owns => rw [hmaps]; exact h.owns
  case covers => rw [hmaps]; exact h.covers
  case blocks =>
    intro j hj bn hbn
    rw [hmaps]
    rcases (hL j).mp hj with rfl | hj
    · rw [update_self, hempty]
      exact ⟨fun hne => absurd rfl hne, fun hlt => absurd hlt (Nat.not_lt_zero bn)⟩
    · rw [update_of_ne (hne j hj)]
      exact h.blocks j hj bn hbn
  case indirect =>
    intro j hj
    rw [hmaps]
    rcases (hL j).mp hj with rfl | hj
    · rw [update_self, hempty]
      exact ⟨fun hne => absurd rfl hne, fun hlt => absurd hlt (Nat.not_lt_zero ndirect)⟩
    · rw [update_of_ne (hne j hj)]
      exact h.indirect j hj
  case bytes =>
    intro j hj y
    rw [hcontent]
    rcases (hL j).mp hj with rfl | hj
    · rw [update_self, byteAt, Vol.content_eq_zero (hempty _), byte_zero]
      rfl
    · rw [update_of_ne (hne j hj)]
      exact h.bytes j hj y

def inodeTaken (s : Mkfs) (type : BitVec 16) : Mkfs :=
  wroteInode { s with freeinode := s.freeinode + 1 } s.freeinode (Mkfs.newInode type)

theorem run_ialloc (hlt : s.freeinode < 208) (hsize : s.size = fssize) :
    run (Mkfs.ialloc type) s = (.ok s.freeinode, inodeTaken s type) := by
  have hwrite : run (Mkfs.winode s.freeinode (Mkfs.newInode type)) { s with freeinode := s.freeinode + 1 } =
      (.ok (), inodeTaken s type) := run_winode hlt hsize
  rw [Mkfs.ialloc, run_bind_ok (run_gets ..), run_bind_ok (run_modify ..), run_bind_ok hwrite,
    run_pure]

theorem HasFiles.inodeTaken (h : HasFiles s F) (hone : 1 ≤ s.freeinode) (hlt : s.freeinode < 208)
    (htype : type = kindOf s.freeinode) :
    HasFiles (inodeTaken s type) (update F s.freeinode []) := by
  have hnot : s.freeinode ∉ inodesBelow s.freeinode := fun hmem => absurd hmem.2 (Nat.lt_irrefl _)
  have hmem : ∀ j, j ∈ inodesBelow (s.freeinode + 1) ↔ j = s.freeinode ∨ j ∈ inodesBelow s.freeinode :=
    fun j => mem_inodesBelow_succ hone
  have hinode : (imageVol (Verified.inodeTaken s type)).inode =
      update (imageVol s).inode s.freeinode (Mkfs.newInode type) :=
    wroteInode_inode (s := { s with freeinode := s.freeinode + 1 }) hlt
  have hblk : (imageVol (Verified.inodeTaken s type)).blk = (imageVol s).blk :=
    wroteInode_blk (s := { s with freeinode := s.freeinode + 1 }) hlt
  have hf := h.filled
  constructor
  case filled =>
    constructor
    case size => exact wroteInode_size hlt hf.size
    case super =>
      exact (wroteInode_super (s := { s with freeinode := s.freeinode + 1 }) hlt).trans hf.super
    case inodes => exact hlt
    case room => exact hf.room
    case blank =>
      rw [hblk]
      exact hf.blank
    case stores =>
      have hstores := hf.stores.insert (d := Mkfs.newInode type) hnot hmem rfl
      refine hstores.congr_addrs (fun j => ?_) hblk rfl
      change ((imageVol (Verified.inodeTaken s type)).inode j).addrs = _
      rw [hinode]
      rfl
    case small =>
      intro j hj
      rcases (hmem j).mp hj with rfl | hj
      · rw [update_self]
        exact Nat.zero_le _
      · have hne : j ≠ s.freeinode := hj.2.ne
        rw [update_of_ne hne]
        exact hf.small j hj
  case nodes =>
    intro j hj
    rw [hinode]
    rcases (hmem j).mp hj with rfl | hj
    · rw [update_self, update_self, ← htype]
      exact ⟨fun _ => 0, rfl⟩
    · have hne : j ≠ s.freeinode := hj.2.ne
      rw [update_of_ne hne, update_of_ne hne]
      exact h.nodes j hj
  case rest =>
    intro j hj
    have hout := (hmem j).not.mp hj
    rw [not_or] at hout
    rw [hinode, update_of_ne hout.1]
    exact h.rest j hout.2

theorem grew_inodeTaken (hlt : s.freeinode < 208) : Grew s (inodeTaken s type) :=
  ⟨writes_wroteInode (s := { s with freeinode := s.freeinode + 1 }) hlt, le_rfl⟩

end Xv6Memfs.Verified
