import Xv6Memfs.Kernel.Dir
import Xv6Memfs.Verified.BlockOwnership
import Xv6Memfs.Verified.Store

/-! # `fs.c` refines the store

`Abstracts g s a` says that the file system `s` is in order and that `a` is what the callers see of
it.  Every call keeps the two in step, up to stops for want of log space or disk blocks; in strict
mode there are none.  By `Refines.exec` the same holds for programs of calls. -/

namespace Xv6Memfs.Verified

open Lib Lib.Exec Function

variable {g : Superblock} {s t m : Fs} {a : Store} {ip : Fin ninode} {L : Set Nat} {i : Nat}

/-! ## Inodes on a volume -/

def blockAt (d : Dinode) (blk : Nat → Block) (bn : Nat) : Block :=
  if bn < maxfile ∧ mapOf d blk bn ≠ 0 then blk (mapOf d blk bn) else 0

def dataOf (d : Dinode) (blk : Nat → Block) : List Byte :=
  (List.range d.size.toNat).map fun x => (blockAt d blk (x / bsize)).byte (x % bsize)

/-- Inode `i` with its contents. -/
def nodeOf (v : Vol) (i : Nat) : Node :=
  if (v.inode i).type = 0 then .free
  else ⟨(v.inode i).type, (v.inode i).attrs, dataOf (v.inode i) v.blk⟩

theorem length_dataOf (d : Dinode) (blk : Nat → Block) : (dataOf d blk).length = d.size.toNat := by
  simp [dataOf]

theorem contentAt_eq_blockAt {ino : Nat → Dinode} {blk : Nat → Block} (hi : i ∈ L) (bn : Nat) :
    contentAt L ino blk (i, bn) = blockAt (ino i) blk bn := by
  rw [contentAt, blockAt, refs_of_mem hi]

theorem dataOf_eq_bytesOf {ino : Nat → Dinode} {blk : Nat → Block} (hi : i ∈ L) :
    dataOf (ino i) blk = bytesOf (contentAt L ino blk) i (ino i).size.toNat := by
  rw [dataOf, bytesOf]
  refine List.map_congr_left fun x _ => ?_
  rw [byteAt, contentAt_eq_blockAt hi]

theorem nodeOf_of_type {v : Vol} (h : (v.inode i).type ≠ 0) :
    nodeOf v i = ⟨(v.inode i).type, (v.inode i).attrs, dataOf (v.inode i) v.blk⟩ := if_neg h

/-- An inode changes, and no block. -/
theorem nodeOf_update {v w : Vol} {d : Dinode} (hinode : w.inode = update v.inode i d)
    (hblk : w.blk = v.blk) : nodeOf w = update (nodeOf v) i
      (if d.type = 0 then .free else ⟨d.type, d.attrs, dataOf d v.blk⟩) := by
  funext j
  rw [nodeOf, hinode, hblk]
  by_cases hj : j = i
  · subst hj
    rw [update_self, update_self]
  · rw [update_of_ne hj, update_of_ne hj, nodeOf]

/-! ## The abstraction -/

/-- `a` is what the callers see of the file system `s`. -/
structure Abstracts (g : Superblock) (s : Fs) (a : Store) : Prop where
  vol : VolInv ∅ g s
  synced : Synced ∅ g s
  holeFree : HoleFree g s
  node : a.node = nodeOf (Verified.vol g s)
  slot : a.slot = slots s
  devsw : a.devsw = s.devsw

namespace Abstracts

variable (h : Abstracts g s a)

include h

theorem held_iff : a.Held ip ↔ Held s.icache ip := by
  rw [Store.Held, h.slot]
  rfl

theorem inum_eq : (a.slot ip).inum = (s.icache ip).inum := by
  rw [h.slot]
  rfl

theorem inode_eq (hip : Held s.icache ip) : a.inode ip =
    ⟨(s.icache ip).node.type, (s.icache ip).node.attrs, dataOf (s.icache ip).node (Verified.vol g s).blk⟩ := by
  have hdisk := h.synced ip hip (Set.notMem_empty ip)
  have htype := h.vol.type_ne hip (Set.notMem_empty ip)
  rw [Store.inode, h.inum_eq, h.node, nodeOf_of_type (by rw [hdisk]; exact htype), hdisk]

theorem length_data (hip : Held s.icache ip) : (a.inode ip).data.length = fileSize s ip := by
  rw [h.inode_eq hip, length_dataOf, fileSize]

theorem type_eq_zero : (a.node i).type = 0 ↔ i ∉ live g s := by
  rw [h.node, nodeOf, live, Set.mem_ofPred_eq, not_not]
  split
  · rename_i htype
    exact ⟨fun _ => htype, fun _ => rfl⟩
  · rfl

theorem data_eq (hi : i ∈ live g s) : (a.node i).data =
    bytesOf (contentOf (live g s) g s) i ((Verified.vol g s).inode i).size.toNat := by
  rw [h.node, nodeOf_of_type hi, contentOf, h.synced.nodes_eq]
  exact dataOf_eq_bytesOf hi

theorem length_le (htype : (a.node i).type ≠ 0) : (a.node i).data.length ≤ maxfile * bsize := by
  have hlive : i ∈ live g s := by
    by_contra hnot
    exact htype (h.type_eq_zero.mpr hnot)
  have hsize := (h.holeFree i hlive).1
  rw [h.synced.nodes_eq] at hsize
  rwa [h.data_eq hlive, length_bytesOf]

theorem inum_ne {k : Fin ninode} (hip : (a.slot ip).ref > 0) (hk : (a.slot k).ref > 0)
    (hne : k ≠ ip) : (a.slot k).inum ≠ (a.slot ip).inum := by
  rw [h.slot] at hip hk ⊢
  exact fun heq => hne (h.vol.maps.cache.unique k ip hk hip heq)

theorem of_vol (hc : Carries ∅ ∅ g s t) (hvol : Verified.vol g t = Verified.vol g s)
    (hdevsw : t.devsw = s.devsw) : Abstracts g t { a with slot := slots t } where
  vol := hc.vol
  synced := hc.synced h.synced
  holeFree := hc.holeFree h.synced h.holeFree
  node := by rw [hvol, ← h.node]
  slot := rfl
  devsw := h.devsw.trans hdevsw.symm

theorem withSlot {v : Slot} (hc : Carries ∅ ∅ g s (withSlot s ip v)) :
    Abstracts g (withSlot s ip v) (a.setSlot ip v) := by
  have hstep := h.of_vol hc rfl rfl
  rw [slots_withSlot, ← h.slot] at hstep
  exact hstep

theorem withLog (l : Log) : Abstracts g { s with log := l } a := by
  have hstep := h.of_vol (carries_log h.vol l) rfl rfl
  have hslots : slots { s with log := l } = a.slot := h.slot.symm
  rw [hslots] at hstep
  exact hstep

theorem commit (ha : LogApart g s) (ht : AgreeBelow (g.size - g.nlog) s t) : Abstracts g t a := by
  have hc := ha.carries h.vol ht
  have hn := ha.front h.vol
  have hcontent : contentOf (live g s) g t = contentOf (live g s) g s :=
    ht.content hn fun _ => ha.refs_below h.vol
  refine ⟨hc.vol, hc.synced h.synced, hc.holeFree h.synced h.holeFree, ?_, ?_, ?_⟩
  · rw [h.node]
    funext i
    by_cases htype : ((Verified.vol g s).inode i).type = 0
    · rw [nodeOf, nodeOf, ht.inode hn, if_pos htype, if_pos htype]
    · have hold : dataOf (nodes g s i) (Verified.vol g s).blk = _ :=
        dataOf_eq_bytesOf (L := live g s) htype
      have hnew : dataOf (nodes g t i) (Verified.vol g t).blk = _ :=
        dataOf_eq_bytesOf (L := live g s) htype
      have hdata : dataOf (nodes g t i) (Verified.vol g t).blk =
          dataOf (nodes g s i) (Verified.vol g s).blk := by
        rw [hnew, hold, ht.nodes hn]
        rw [contentOf, contentOf, ht.nodes hn] at hcontent
        rw [hcontent]
      rw [h.synced.nodes_eq, (hc.synced h.synced).nodes_eq, ht.inode hn] at hdata
      rw [nodeOf, nodeOf, ht.inode hn, if_neg htype, if_neg htype, hdata]
  · rw [h.slot]
    funext k
    rw [slots, slots, ht.icache]
  · rw [h.devsw, ht.rest.eq]

theorem setNode {d : Dinode} (hc : Carries ∅ ∅ g s t)
    (hinode : (Verified.vol g t).inode = update (Verified.vol g s).inode i d)
    (hblk : (Verified.vol g t).blk = (Verified.vol g s).blk) (hslots : slots t = slots s)
    (hdevsw : t.devsw = s.devsw) : Abstracts g t (a.setNode i
      (if d.type = 0 then .free else ⟨d.type, d.attrs, dataOf d (Verified.vol g s).blk⟩)) where
  vol := hc.vol
  synced := hc.synced h.synced
  holeFree := hc.holeFree h.synced h.holeFree
  node := by rw [nodeOf_update hinode hblk, ← h.node, Store.setNode]
  slot := h.slot.trans hslots.symm
  devsw := h.devsw.trans hdevsw.symm

end Abstracts

/-! ## Calls -/

/-- A stop for want of resources. -/
def Starves (e : Stop) : Prop :=
  e = .sleep ∨ e = .panic .ballocOutOfBlocks ∨ ∃ l : Log, l.logWriteCheck = .error e

/-- The stops that a call of `fs.c` may have and the store does not. -/
def Spent (strict : Bool) (e : Stop) : Prop := strict = false ∧ Starves e

variable {strict : Bool}

theorem refines_spend {α : Type} {p : FsM α} {q : Store.M α}
    (h : Lib.Refines (Abstracts g) Starves p q) :
    Lib.Refines (Abstracts g) (Spent strict) p (Store.spend strict q) := by
  intro s a hA
  cases strict with
  | true =>
    refine .throw ?_
    rintro e ⟨⟩
  | false =>
    refine (h s a hA).mono (fun r b hr => ?_) fun e b he e' hee => ?_
    · exact hr.mono (fun _ _ h => h) fun _ _ h => ⟨rfl, h⟩
    · exact (he e' hee).mono (fun _ _ h => h) fun _ _ h => h.imp_right fun h => ⟨rfl, h⟩

theorem refines_beginOp : Lib.Refines (Abstracts g) Starves Fs.beginOp (pure ()) := by
  intro s a hA
  refine .pure ?_
  rw [Ends, run, Fs.beginOp]
  cases s.log.beginOp with
  | none => exact .inl rfl
  | some l => exact ⟨rfl, hA.withLog l⟩

theorem refines_iget (X : Stop → Prop) (dev inum : Nat) :
    Lib.Refines (Abstracts g) X (Fs.iget dev inum) (Store.iget g.ninodes dev inum) := by
  intro s a hA
  rw [Store.iget]
  refine .get_bind (.ite ?_ fun _ => .throw fun e' he => by cases he)
  rintro ⟨rfl, hlt⟩
  have hrun : Exec.run (Fs.iget rootdev inum) s = _ := run_iget
  rw [hA.slot]
  cases hget : igetSlot (slots s) rootdev inum with
  | some v =>
    rw [hget] at hrun
    refine .modify_bind (.pure (.ok hrun ⟨rfl, ?_⟩))
    exact hA.withSlot (carries_iget hA.vol (div_ipb_le hlt) hget)
  | none =>
    rw [hget] at hrun
    refine .throw ?_
    rintro e' ⟨⟩
    exact .error hrun (.inl rfl)

theorem refines_idup (X : Stop → Prop) (ip : Fin ninode) :
    Lib.Refines (Abstracts g) X (Fs.idup ip) (Store.idup ip) := by
  intro s a hA
  rw [Store.idup]
  refine .get_bind (.ite (fun href => ?_) fun _ => .throw fun e' he => by cases he)
  refine .modify_bind (.pure (.ok run_idup ⟨rfl, ?_⟩))
  rw [hA.slot] at href ⊢
  exact hA.withSlot (carries_slot hA.vol href rfl rfl id)

theorem refines_ilock (X : Stop → Prop) (ip : Fin ninode) :
    Lib.Refines (Abstracts g) X (Fs.ilock ip) (Store.ilock ip) := by
  intro s a hA
  have hspec := @ends_ilock g s ip hA.vol.maps.layout hA.vol.maps.cache
  have htype : (a.inode ip).type = 0 ↔ (s.icache ip).inum ∉ live g s := by
    rw [Store.inode, hA.inum_eq]
    exact hA.type_eq_zero
  rw [Store.ilock]
  refine .get_bind ?_
  rw [hA.slot]
  refine .ite (fun href => .throw ?_) fun href => .ite (fun hbusy => .throw ?_) fun hbusy =>
    .ite (fun hfree => .throw ?_) fun hfree => .modify ?_
  · rintro e' ⟨⟩
    refine hspec.mono (fun _ _ hok => absurd hok.1 (by omega)) ?_
    rintro e t (⟨he, -⟩ | ⟨hpos, -⟩ | ⟨hpos, -⟩)
    · exact .inl he
    · omega
    · omega
  · rintro e' ⟨⟩
    refine hspec.mono (fun _ _ hok => ?_) ?_
    · rw [hok.2.1] at hbusy
      cases hbusy
    · rintro e t (⟨-, hzero⟩ | ⟨-, he, -⟩ | ⟨-, hidle, -⟩)
      · exact absurd hzero href
      · exact .inl he
      · rw [hidle] at hbusy
        cases hbusy
  · rintro e' ⟨⟩
    refine hspec.mono ?_ ?_
    · rintro _ t ⟨-, -, ⟨hvalid, -⟩ | ⟨-, hlive, -⟩⟩
      · rw [hfree.1] at hvalid
        cases hvalid
      · exact htype.mp hfree.2 hlive
    · rintro e t (⟨-, hzero⟩ | ⟨-, -, hlocked⟩ | ⟨-, -, -, he, -⟩)
      · exact absurd hzero href
      · exact absurd hlocked hbusy
      · exact .inl he
  · refine hspec.mono ?_ ?_
    · rintro _ t ⟨hpos, -, ⟨hvalid, rfl⟩ | ⟨-, hlive, rfl⟩⟩
      · refine ⟨rfl, ?_⟩
        have hsame : ({ slots s ip with busy := true } : Slot) =
            { slots s ip with busy := true, valid := true } := Slot.ext rfl rfl rfl rfl hvalid
        rw [hsame]
        exact hA.withSlot (carries_slot hA.vol hpos rfl rfl fun _ => hvalid)
      · refine ⟨rfl, ?_⟩
        have hslots : slots (loaded g s ip) =
            update a.slot ip { slots s ip with busy := true, valid := true } := by
          rw [loaded, slots_withSlot, hA.slot, slots_withNode]
        have hstep := hA.of_vol (carries_loaded hA.vol (Set.notMem_empty ip) hlive) rfl rfl
        rw [hslots] at hstep
        exact hstep
    · rintro e t (⟨-, hzero⟩ | ⟨-, -, hlocked⟩ | ⟨-, -, hvalid, -, hdead⟩)
      · exact absurd hzero href
      · exact absurd hlocked hbusy
      · exact absurd ⟨hvalid, htype.mpr hdead⟩ hfree

theorem refines_iunlock (X : Stop → Prop) (ip : Fin ninode) :
    Lib.Refines (Abstracts g) X (Fs.iunlock ip) (Store.iunlock ip) := by
  intro s a hA
  have hrun : Exec.run (Fs.iunlock ip) s = _ := run_iunlock
  have hcond : (!(s.icache ip).busy ∨ (s.icache ip).ref < 1) ↔
      ((slots s ip).busy = false ∨ (slots s ip).ref < 1) := by
    rw [slots, Bool.not_eq_true']
  rw [Store.iunlock]
  refine .get_bind ?_
  rw [hA.slot]
  refine .ite (fun hbad => .throw ?_) fun hgood => .modify ?_
  · rintro e' ⟨⟩
    rw [if_pos (hcond.mpr hbad)] at hrun
    exact .error hrun (.inl rfl)
  · rw [if_neg fun h => hgood (hcond.mp h)] at hrun
    have href : (s.icache ip).ref > 0 := by
      by_contra hzero
      exact hgood (.inr (show (s.icache ip).ref < 1 by omega))
    exact .ok hrun ⟨rfl, hA.withSlot (carries_slot hA.vol href rfl rfl id)⟩

theorem Abstracts.last_iff (h : Abstracts g s a) : a.Last ip ↔ Last s ip := by
  have hslot : a.slot ip = slots s ip := by rw [h.slot]
  rw [Store.Last, Last, hslot]
  refine and_congr_right fun href => and_congr_right fun hvalid => ?_
  have hip : Held s.icache ip := ⟨by rw [show (s.icache ip).ref = 1 from href]; exact Nat.one_pos, hvalid⟩
  rw [h.inode_eq hip]
  rfl

/-- `iput` does not free a locked inode. -/
theorem ends_iput_busy (hlast : Last s ip) (hbusy : (slots s ip).busy = true) :
    Ends (Fs.iput ip) s (fun _ _ => False) fun e _ => e = .panic .iputBusy := by
  rw [Fs.iput_eq]
  refine .bind ends_iputBegin (fun e t h => h.2.1) ?_
  rintro free t (⟨-, -, hidle, -⟩ | ⟨-, hnot, -⟩)
  · rw [hbusy] at hidle
    cases hidle
  · exact absurd hlast hnot

/-- Every other reference is just dropped. -/
theorem ends_iput_drop (hnot : ¬ Last s ip) : Ends (Fs.iput ip) s
    (fun _ t => t = withSlot s ip { slots s ip with ref := (slots s ip).ref - 1 }) fun _ _ => False := by
  rw [Fs.iput_eq]
  refine .bind ends_iputBegin (fun e t h => hnot h.2.2.1) ?_
  rintro free t (⟨-, hlast, -⟩ | ⟨rfl, -, rfl⟩)
  · exact absurd hlast hnot
  · exact .pure rfl

theorem refines_iput (ip : Fin ninode) :
    Lib.Refines (Abstracts g) (Spent strict) (Fs.iput ip) (Store.iput strict ip) := by
  intro s a hA
  have hslot : a.slot ip = slots s ip := by rw [hA.slot]
  rw [Store.iput]
  refine .get_bind (.ite (fun _ => .throw fun e' he => by cases he) fun href => ?_)
  rw [hslot] at href ⊢
  refine .ite (fun hlast => ?_) fun hlast => .modify ?_
  · have hlast' := hA.last_iff.mp hlast
    refine .ite (fun hbusy => .throw ?_) fun hbusy => ?_
    · rintro e' ⟨⟩
      exact (ends_iput_busy hlast' hbusy).mono (fun _ _ h => h) fun _ _ h => .inl h
    · cases strict with
      | true =>
        rw [if_pos rfl]
        exact .throw fun e' he => by cases he
      | false =>
        rw [if_neg Bool.false_ne_true]
        refine .modify ?_
        rw [hslot]
        refine (ends_iput hA.vol (Nat.pos_of_ne_zero href)).mono ?_ ?_
        · rintro _ t ⟨hcarries, ⟨hnot, -⟩ | ⟨-, hfrees⟩⟩
          · exact absurd hlast' hnot
          · obtain ⟨d, htype, hinode⟩ := hfrees.inode
            refine ⟨rfl, ⟨hcarries.vol, hcarries.synced hA.synced,
              hcarries.holeFree hA.synced hA.holeFree, ?_, ?_, hA.devsw.trans hfrees.devsw.symm⟩⟩
            · change update a.node (slots s ip).inum .free = _
              rw [nodeOf_update hinode hfrees.blk, if_pos htype, hA.node]
              rfl
            · change update a.slot ip (slots s ip).dropped = _
              rw [hfrees.slot, hA.slot]
        · rintro e t (⟨-, -, -, hlocked⟩ | hstop)
          · exact absurd hlocked hbusy
          · exact ⟨rfl, .inr (.inr ⟨t.log, hstop.1⟩)⟩
  · refine (ends_iput_drop fun hlast' => hlast (hA.last_iff.mpr hlast')).mono ?_ fun _ _ h => h.elim
    rintro _ t rfl
    exact ⟨rfl, hA.withSlot (carries_slot hA.vol (Nat.pos_of_ne_zero href) rfl rfl id)⟩

theorem Abstracts.firstFree_eq_some (h : Abstracts g s a) (hi : a.firstFree g.ninodes = some i) :
    FirstFree g s 1 i := by
  obtain ⟨hfree, hmem, hbefore⟩ := List.find?_range'_eq_some.mp hi
  rw [List.mem_range'_1] at hmem
  refine ⟨hmem.1, by omega, h.type_eq_zero.mp (of_decide_eq_true hfree), fun j hj hji => ?_⟩
  by_contra hdead
  have hused := hbefore j hj hji
  rw [decide_eq_true (h.type_eq_zero.mpr hdead)] at hused
  cases hused

theorem Abstracts.firstFree_eq_none (h : Abstracts g s a) (hi : a.firstFree g.ninodes = none) :
    ∀ j, 1 ≤ j → j < g.ninodes → j ∈ live g s := by
  intro j hj hlt
  have hused := List.find?_range'_eq_none.mp hi j hj (by omega)
  by_contra hdead
  rw [decide_eq_true (h.type_eq_zero.mpr hdead)] at hused
  cases hused

theorem FirstFree.unique {first j : Nat} (h : FirstFree g s first i) (h' : FirstFree g s first j) :
    i = j := by
  obtain ⟨hle, -, hfree, hbefore⟩ := h
  obtain ⟨hle', -, hfree', hbefore'⟩ := h'
  rcases Nat.lt_trichotomy i j with hlt | heq | hlt
  · exact absurd (hbefore' i hle hlt) hfree
  · exact heq
  · exact absurd (hbefore j hle' hlt) hfree'

theorem refines_ialloc (dev : Nat) (type : BitVec 16) :
    Lib.Refines (Abstracts g) Starves (Fs.ialloc dev type) (Store.ialloc g.ninodes dev type) := by
  intro s a hA
  rw [Store.ialloc]
  refine .get_bind (.ite ?_ fun _ => .throw fun e' he => by cases he)
  rintro ⟨rfl, htype⟩
  have hspec := @ends_ialloc g s type hA.vol.maps.layout
  cases hfree : a.firstFree g.ninodes with
  | none =>
    have hall := hA.firstFree_eq_none hfree
    refine .throw ?_
    rintro e' ⟨⟩
    refine hspec.mono ?_ ?_
    · rintro _ t ⟨i, hle, hlt, hdead, -⟩
      exact hdead (hall i hle hlt)
    · rintro e t (⟨-, he, -⟩ | ⟨-, i, ⟨hle, hlt, hdead, -⟩, -⟩ | hcheck)
      · exact .inl he
      · exact absurd (hall i hle hlt) hdead
      · exact .inr (.inr (.inr ⟨s.log, hcheck⟩))
  | some i =>
    have hfirst := hA.firstFree_eq_some hfree
    -- the concrete scan stops at the same inode
    have hstop : ∀ e t, ((t = s ∧ e = .panic .iallocNoInodes ∧ ∀ j, 1 ≤ j → j < g.ninodes → j ∈ live g s) ∨
        (e = .panic .igetNoInodes ∧ ∃ j, FirstFree g s 1 j ∧ igetSlot (slots s) rootdev j = none) ∨
        s.log.logWriteCheck = .error e) →
        (e = .panic .igetNoInodes ∧ igetSlot (slots s) rootdev i = none) ∨ Starves e := by
      rintro e t (⟨-, -, hall⟩ | ⟨he, j, hj, hget⟩ | hcheck)
      · exact absurd (hall i hfirst.1 hfirst.2.1) hfirst.2.2.1
      · exact .inl ⟨he, hfirst.unique hj ▸ hget⟩
      · exact .inr (.inr (.inr ⟨s.log, hcheck⟩))
    change Ends (Store.take type i) a _ _
    rw [Store.take]
    refine .get_bind ?_
    rw [hA.slot]
    rcases hget : igetSlot (slots s) rootdev i with _ | ⟨ip, v⟩
    · refine .throw ?_
      rintro e' ⟨⟩
      refine hspec.mono ?_ fun e t he => (hstop e t he).imp_left And.left
      rintro ip t ⟨j, hle, hlt, hdead, hbefore, v, hget', -⟩
      rw [← hfirst.unique ⟨hle, hlt, hdead, hbefore⟩, hget] at hget'
      cases hget'
    · refine .modify_bind (.pure (hspec.mono ?_ ?_))
      · rintro ip' t ⟨j, halloc⟩
        have hcarries := halloc.carries hA.vol htype
        obtain ⟨hle, hlt, hdead, hbefore, v', hget', rfl⟩ := halloc
        obtain rfl := hfirst.unique ⟨hle, hlt, hdead, hbefore⟩
        rw [hget] at hget'
        cases hget'
        refine ⟨rfl, ⟨hcarries.vol, hcarries.synced hA.synced,
          hcarries.holeFree hA.synced hA.holeFree, ?_, ?_, hA.devsw⟩⟩
        · obtain ⟨hinode, -, hblk⟩ := vol_marked (s := s) (div_ipb_le hlt) type
          change update a.node i (.fresh type) = nodeOf (vol g (marked s i type))
          rw [nodeOf_update hinode hblk, if_neg htype, hA.node]
          rfl
        · change update a.slot ip v = _
          rw [slots_withSlot, hA.slot]
          rfl
      · intro e t he
        rcases hstop e t he with ⟨-, hnone⟩ | hstarved
        · rw [hget] at hnone
          cases hnone
        · exact hstarved

theorem refines_info (X : Stop → Prop) (ip : Fin ninode) :
    Lib.Refines (Abstracts g) X (Call.exec (.info ip)) (Store.exec g.ninodes strict (.info ip)) := by
  intro s a hA
  refine .get_bind (.ite (fun hheld => ?_) fun _ => .throw fun e' he => by cases he)
  refine .pure (.ok (run_gets _ s) ⟨?_, hA⟩)
  have hip := hA.held_iff.mp hheld
  rw [Inode.info, Store.info, hA.length_data hip, hA.inode_eq hip, hA.slot]
  rfl

theorem refines_update (ip : Fin ninode) (new : Attrs) :
    Lib.Refines (Abstracts g) Starves (Fs.update ip new) (Store.update ip new) := by
  intro s a hA
  rw [Store.update]
  refine .get_bind (.ite (fun hheld => ?_) fun _ => .throw fun e' he => by cases he)
  have hip := hA.held_iff.mp hheld
  refine .modify ((ends_update hA.vol hip).mono ?_ fun e t h => .inr (.inr ⟨s.log, h⟩))
  rintro _ t rfl
  refine ⟨rfl, ?_⟩
  obtain ⟨hst, -, hblk⟩ := @storedAs_stores ∅ g s ip ((s.icache ip).node.setAttrs new) hA.vol hip
    (Set.notMem_empty ip) rfl rfl
  have hstep := hA.setNode (carries_update hA.vol hip (Set.notMem_empty ip)) hst.inode hblk slots_withNode rfl
  have htype : ((s.icache ip).node.setAttrs new).type ≠ 0 := hA.vol.type_ne hip (Set.notMem_empty ip)
  rw [if_neg htype, ← hA.inum_eq] at hstep
  have hnode : ({ a.inode ip with attrs := new } : Node) = ⟨((s.icache ip).node.setAttrs new).type,
      ((s.icache ip).node.setAttrs new).attrs, dataOf ((s.icache ip).node.setAttrs new) (vol g s).blk⟩ := by
    rw [hA.inode_eq hip]
    rfl
  rw [hnode]
  exact hstep

theorem Abstracts.device_eq (h : Abstracts g s a) (major : BitVec 16) :
    a.device major = Fs.device s major := by
  rw [Store.device, Fs.device, h.devsw]

theorem take_drop_bytesOf {c : Nat × Nat → Block} {size off n : Nat} :
    ((bytesOf c i size).drop off).take n =
      (List.range (min n (size - off))).map fun j => byteAt c i (off + j) := by
  apply List.ext_getElem
  · simp only [List.length_take, List.length_drop, length_bytesOf, List.length_map, List.length_range]
  · intro x hx hx'
    simp only [bytesOf, List.getElem_take, List.getElem_drop, List.getElem_map, List.getElem_range]

theorem refines_readi (X : Stop → Prop) (ip : Fin ninode) (off n : Nat) :
    Lib.Refines (Abstracts g) X (Fs.readi ip off n) (Store.readi ip off n) := by
  intro s a hA
  rw [Store.readi]
  refine .get_bind (.ite ?_ fun _ => .throw fun e' he => by cases he)
  rintro ⟨hheld, hoff, hn⟩
  have hip := hA.held_iff.mp hheld
  have hinode := hA.inode_eq hip
  have htype : (a.inode ip).type = (s.icache ip).node.type := by rw [hinode]
  rw [hA.length_data hip]
  refine .ite (fun hdev => .pure ?_) fun hdev => .ite (fun hbad => .pure ?_) fun hgood => .pure ?_
  · rw [htype] at hdev
    rw [Fs.readi]
    refine .get_bind ?_
    simp only [hdev, if_true]
    refine .pure ⟨?_, hA⟩
    rw [hA.device_eq, hinode]
    rfl
  · rw [htype] at hdev
    exact .ok (run_readi_none hdev hoff hn hbad) ⟨rfl, hA⟩
  · rw [htype] at hdev
    rw [not_or] at hgood
    have hlive := hA.vol.alive ip hip (Set.notMem_empty ip)
    have hsize : ((vol g s).inode (s.icache ip).inum).size.toNat = fileSize s ip := by
      rw [hA.synced ip hip (Set.notMem_empty ip), fileSize]
    obtain ⟨hmax, hcov⟩ := hA.holeFree _ hlive
    rw [nodes_of_held hA.vol.maps.cache hip] at hmax hcov
    have hclip : off + clipped s ip off n ≤ fileSize s ip := by
      rw [clipped]
      omega
    have hfits : off + clipped s ip off n ≤ maxfile * bsize := hclip.trans hmax
    have hthere : ∀ bn ∈ blocksOf off (clipped s ip off n),
        refsOf (live g s) g s ((s.icache ip).inum, bn) ≠ 0 := by
      intro bn hbn
      have hend := (mem_blocksOf'.mp hbn).2.2
      have hmono := ceilBlocks_mono hclip
      exact (hcov bn (lt_maxfile_of_mem hfits hbn)).mpr (Nat.lt_of_lt_of_le hend hmono)
    have hpre : LoopPre (live g s) g ip False False off (clipped s ip off n) s :=
      ⟨hA.vol.maps, hip, hlive, hfits, fun bn hbn hzero => hthere bn hbn hzero,
        fun bn hbn hzero _ => hthere bn hbn hzero⟩
    refine (ends_readi hdev (by omega) (by omega) hpre).mono ?_ fun e t h => h.1.elim
    rintro r t ⟨-, -, rfl, hsame⟩
    obtain rfl := hsame hthere
    refine ⟨?_, hA⟩
    rw [Store.inode, hA.inum_eq, hA.data_eq hlive, hsize, take_drop_bytesOf, clipped]

section

variable {off n : Nat}

theorem slots_writtenTo (h : SameBut ip s m) : slots (writtenTo s ip off n m) = slots s := by
  have hm : slots m = slots s := by
    funext k
    by_cases hk : k = ip
    · obtain ⟨a, ha⟩ := h.self
      rw [hk, slots, ha, slots]
    · rw [slots, h.others k hk, slots]
  exact writtenTo_cases (P := fun t => slots t = slots s) (slots_withNode.trans hm) hm

theorem writtenTo_inode_ne (hcache : CacheWf g m.icache) (hip : Held m.icache ip)
    (hi : i ≠ (m.icache ip).inum) :
    (vol g (writtenTo s ip off n m)).inode i = (vol g m).inode i := by
  refine writtenTo_cases (P := fun t => (vol g t).inode i = (vol g m).inode i) ?_ rfl
  rw [vol_resized hcache hip]
  exact update_of_ne hi ..

/-- What a write does not change of an inode. -/
theorem writtenTo_node (h : SameBut ip s m) :
    ((writtenTo s ip off n m).icache ip).node.type = (s.icache ip).node.type ∧
      ((writtenTo s ip off n m).icache ip).node.attrs = (s.icache ip).node.attrs := by
  obtain ⟨a, ha⟩ := h.self
  refine writtenTo_cases (P := fun t => (t.icache ip).node.type = (s.icache ip).node.type ∧
    (t.icache ip).node.attrs = (s.icache ip).node.attrs) ?_ ?_
  · rw [resized_self, ha]
    exact ⟨rfl, rfl⟩
  · rw [ha]
    exact ⟨rfl, rfl⟩

end

theorem Abstracts.written {A I : Prop} {off : Nat} {src : List Byte} (h : Abstracts g s a)
    (hip : Held s.icache ip) (hoff : off ≤ fileSize s ip) (hfits : off + src.length ≤ maxfile * bsize)
    (hloop : LoopPost (live g s) g ip A I (blocksOf off src.length) s m)
    (hwritten : Written (contentOf (live g s) g s) (contentOf (live g s) g m) (s.icache ip).inum off src)
    (hc : Carries ∅ ∅ g s (writtenTo s ip off src.length m)) :
    Abstracts g (writtenTo s ip off src.length m)
      (a.setNode (a.slot ip).inum ((a.inode ip).write off src)) := by
  obtain ⟨new, hgrows, -⟩ := hloop.grows
  have hipm : Held m.icache ip := hgrows.cache.held hip
  have hcontent : contentOf (live g s) g (writtenTo s ip off src.length m) = contentOf (live g s) g m :=
    writtenTo_contentOf hgrows.inv hipm
  have hlt : off + src.length < 2 ^ 32 := Nat.lt_of_le_of_lt hfits (by decide)
  have hsize := writtenTo_fileSize hgrows.cache hoff hlt
  have hinum : ((writtenTo s ip off src.length m).icache ip).inum = (s.icache ip).inum :=
    (writtenTo_keeps ip).2.2.trans hgrows.inum
  have hipt : Held (writtenTo s ip off src.length m).icache ip := by
    rw [Held, (writtenTo_keeps ip).1, (writtenTo_keeps ip).2.1]
    exact hipm
  have hslots : slots (writtenTo s ip off src.length m) = slots s := slots_writtenTo hgrows.cache
  have hother : ∀ j, j ≠ (s.icache ip).inum →
      (Verified.vol g (writtenTo s ip off src.length m)).inode j = (Verified.vol g s).inode j := by
    intro j hj
    rw [← hgrows.inode]
    exact writtenTo_inode_ne hgrows.inv.cache hipm (by rw [hgrows.inum]; exact hj)
  have hdevsw : (writtenTo s ip off src.length m).devsw = s.devsw :=
    (writtenTo_cases (P := fun t => t.devsw = m.devsw) rfl rfl).trans hgrows.devsw
  have hsame := @writtenTo_node s m ip off src.length hgrows.cache
  have hsync := hc.synced h.synced
  generalize writtenTo s ip off src.length m = t at *
  have hlive : live g t = live g s := by
    ext j
    by_cases hj : j = (s.icache ip).inum
    · rw [hj]
      refine ⟨fun _ => h.vol.alive ip hip (Set.notMem_empty ip), fun _ => ?_⟩
      rw [← hinum]
      exact hc.vol.alive ip hipt (Set.notMem_empty ip)
    · rw [live, Set.mem_ofPred_eq, hother j hj]
      rfl
  have hdata : ∀ j ∈ live g s, dataOf ((Verified.vol g t).inode j) (Verified.vol g t).blk =
      bytesOf (contentOf (live g s) g t) j ((Verified.vol g t).inode j).size.toNat := by
    intro j hj
    rw [contentOf, hsync.nodes_eq]
    exact dataOf_eq_bytesOf hj
  refine ⟨hc.vol, hsync, hc.holeFree h.synced h.holeFree, ?_, h.slot.trans hslots.symm,
    h.devsw.trans hdevsw.symm⟩
  funext j
  change update a.node (a.slot ip).inum _ j = _
  rw [h.inum_eq]
  by_cases hj : j = (s.icache ip).inum
  · rw [hj, update_self]
    have hdisk : (Verified.vol g t).inode (s.icache ip).inum = (t.icache ip).node := by
      rw [← hinum]
      exact hsync ip hipt (Set.notMem_empty ip)
    have hmem := h.vol.alive ip hip (Set.notMem_empty ip)
    have hold : (a.inode ip).data = bytesOf (contentOf (live g s) g s) (s.icache ip).inum (fileSize s ip) := by
      rw [Store.inode, h.inum_eq, h.data_eq hmem, h.synced ip hip (Set.notMem_empty ip), fileSize]
    have hnew := hdata _ hmem
    rw [hdisk, hcontent, show (t.icache ip).node.size.toNat = _ from hsize, hwritten.bytesOf hoff, ← hold] at hnew
    rw [nodeOf_of_type (by rw [hdisk, hsame.1]; exact h.vol.type_ne hip (Set.notMem_empty ip)), hdisk, hnew,
      hsame.1, hsame.2, Node.write, h.inode_eq hip]
  · rw [update_of_ne hj, h.node, nodeOf, nodeOf, hother j hj]
    by_cases hmem : ((Verified.vol g s).inode j).type = 0
    · rw [if_pos hmem, if_pos hmem]
    · have hnew := hdata j hmem
      have hold : dataOf ((Verified.vol g s).inode j) (Verified.vol g s).blk =
          bytesOf (contentOf (live g s) g s) j ((Verified.vol g s).inode j).size.toNat := by
        rw [contentOf, h.synced.nodes_eq]
        exact dataOf_eq_bytesOf hmem
      have hbytes : bytesOf (contentOf (live g s) g t) j = bytesOf (contentOf (live g s) g s) j := by
        funext size
        rw [hcontent, bytesOf, bytesOf]
        refine List.map_congr_left fun x _ => ?_
        rw [byteAt, byteAt, hwritten.others _ hj]
      rw [hother j hj, hbytes, ← hold] at hnew
      rw [if_neg hmem, if_neg hmem, hnew]

theorem refines_writei (ip : Fin ninode) (src : List Byte) (off : Nat) :
    Lib.Refines (Abstracts g) (Spent strict) (Fs.writei ip src off) (Store.writei strict ip src off) := by
  intro s a hA
  rw [Store.writei]
  refine .get_bind (.ite ?_ fun _ => .throw fun e' he => by cases he)
  rintro ⟨hheld, hoff, hn⟩
  have hip := hA.held_iff.mp hheld
  have hinode := hA.inode_eq hip
  have htype : (a.inode ip).type = (s.icache ip).node.type := by rw [hinode]
  rw [hA.length_data hip]
  refine .ite (fun hdev => .pure ?_) fun hdev => .ite (fun hbad => .pure ?_) fun hgood => ?_
  · rw [htype] at hdev
    rw [Fs.writei]
    refine .get_bind ?_
    simp only [hdev, if_true]
    refine .pure ⟨?_, hA⟩
    rw [hA.device_eq, hinode]
    rfl
  · rw [htype] at hdev
    exact .ok (run_writei_none hdev hoff hn hbad) ⟨rfl, hA⟩
  · rw [htype] at hdev
    rw [not_or] at hgood
    cases strict with
    | true =>
      rw [if_pos rfl]
      exact .throw fun e' he => by cases he
    | false =>
      rw [if_neg Bool.false_ne_true]
      refine .modify_bind (.pure ?_)
      have hnot := Set.notMem_empty ip
      have hcall := ends_call_writei hA.vol hnot ⟨hip, hoff, hn⟩
      have hle : off ≤ fileSize s ip := by omega
      have hfits : off + src.length ≤ maxfile * bsize := by omega
      have hwrite := ends_writei hdev hle (loopPre_live hA.vol hnot hip hfits)
      refine (hcall.and hwrite).mono ?_ ?_
      · rintro r t ⟨hcalled, rfl, m, hloop, hwritten, rfl⟩
        have hc := hcalled.carries (hA.holeFree.inPlace hA.vol ⟨hip, hnot⟩)
        exact ⟨rfl, hA.written hip hle hfits hloop hwritten hc⟩
      · rintro e t ⟨-, hstop⟩
        refine ⟨rfl, hstop.cause.elim (fun h => .inr (.inl h.1)) fun h => .inr (.inr ⟨t.log, h⟩)⟩

/-- Every call of `fs.c` refines the call of the store, `end_op` only with the log in its place. -/
theorem refines_call {c : Call} (hc : c = .endOp → strict = true) :
    Lib.Refines (Abstracts g) (Spent strict) c.exec (Store.exec g.ninodes strict c) := by
  cases c with
  | beginOp => exact refines_spend refines_beginOp
  | endOp =>
    obtain rfl := hc rfl
    exact fun s a _ => .throw fun e' he => by cases he
  | iget dev inum => exact refines_iget _ dev inum
  | idup ip => exact refines_idup _ ip
  | ilock ip => exact refines_ilock _ ip
  | iunlock ip => exact refines_iunlock _ ip
  | iput ip => exact refines_iput ip
  | ialloc dev type => exact refines_spend (refines_ialloc dev type)
  | info ip => exact refines_info _ ip
  | update ip new => exact refines_spend (refines_update ip new)
  | readi ip off n => exact refines_readi _ ip off n
  | writei ip src off => exact refines_writei ip src off

/-- So does every program of calls that stays clear of the disk. -/
theorem refines_prog {α : Type} (p : FsProg α) :
    Lib.Refines (Abstracts g) (Spent true) (Prog.exec id Call.exec p)
      (Prog.exec some (Store.exec g.ninodes true) p) :=
  Lib.Refines.exec (fun _ => refines_call fun _ => rfl) p

/-! ## A disk with one inode -/

/-- The kernel on a disk with one inode, which has no blocks, and `n` blocks in use. -/
def soleFs (d : Dinode) (n : Nat) (devs : Fin ndev → Device) : Fs := { oneFs d n with devsw := devs }

/-- The inode in slot 0, once `iget` has returned it. -/
def soleOpen (d : Dinode) (n : Nat) (devs : Fin ndev → Device) : Fs :=
  withSlot (soleFs d n devs) sampleIp ⟨rootdev, 1, 1, false, false⟩

def soleStore (d : Dinode) (n : Nat) (devs : Fin ndev → Device) : Store :=
  ⟨nodeOf (vol sampleSb (soleOpen d n devs)), slots (soleOpen d n devs), devs⟩

def fileNode : Dinode := { Dinode.zero with type := tFile, nlink := 1 }

theorem fileNode_addr (k : Nat) : fileNode.addr k = 0 := by simp [fileNode, Dinode.addr, Dinode.zero]

section

variable {d : Dinode} {n : Nat} {devs : Fin ndev → Device} (htype : d.type ≠ 0) (haddrs : ∀ k, d.addr k = 0)
  (hsize : d.size = 0) (hmeta : 29 ≤ n) (hn : n ≤ fssize)

theorem soleFs_inode : (vol sampleSb (soleFs d n devs)).inode 1 = d :=
  one_inode (s := soleFs d n devs) (fun _ _ => rfl) 1

include hn in
theorem soleFs_used (b : Nat) : (vol sampleSb (soleFs d n devs)).used b = true ↔ b < n :=
  one_used (s := soleFs d n devs) rfl hn b

theorem soleStore_slot : (soleStore d n devs).slot sampleIp = ⟨rootdev, 1, 1, false, false⟩ := by
  change slots (withSlot _ _ _) _ = _
  rw [slots_withSlot, update_self]

theorem sole_apart (hlog : n ≤ 970) : LogApart sampleSb (soleOpen d n devs) :=
  (one_apart (s := soleFs d n devs) rfl rfl hlog rfl).withSlot

include htype

theorem soleFs_live : live sampleSb (soleFs d n devs) = {1} :=
  one_live (s := soleFs d n devs) (fun _ _ => rfl) htype

include hsize in
theorem soleStore_inode : (soleStore d n devs).inode sampleIp = ⟨d.type, d.attrs, []⟩ := by
  have hnode : (vol sampleSb (soleOpen d n devs)).inode 1 = d := @soleFs_inode d n devs
  have hdata : dataOf d (vol sampleSb (soleOpen d n devs)).blk = [] := by
    rw [dataOf, hsize]
    rfl
  change nodeOf (vol sampleSb (soleOpen d n devs)) 1 = _
  rw [nodeOf_of_type (by rw [hnode]; exact htype), hnode, hdata]

include haddrs

theorem soleFs_refs (p : Nat × Nat) :
    refsOf (live sampleSb (soleFs d n devs)) sampleSb (soleFs d n devs) p = 0 := by
  obtain ⟨i, bn⟩ := p
  rw [refsOf, soleFs_live htype]
  by_cases hi : i = 1
  · have hnode : nodes sampleSb (soleFs d n devs) 1 = d := by
      rw [Fresh.nodes_eq fun _ => rfl]
      exact soleFs_inode
    rw [hi, refs_of_mem (Set.mem_singleton 1), hnode]
    simp [mapOf, haddrs]
  · rw [refs, if_neg (by simpa using hi)]

include hmeta hn

theorem soleFs_volInv : VolInv ∅ sampleSb (soleFs d n devs) := by
  have hrefs := @soleFs_refs d n devs htype haddrs
  refine Fresh.volInv (fun _ => rfl) (one_layout rfl rfl) ⟨nmeta_pos _, ?_, ?_, ?_, fun b hb => ?_⟩
  · exact fun p q hp => absurd (hrefs p) hp
  · exact fun p hp => absurd (hrefs p) hp
  · exact fun p hp => absurd (hrefs p) hp
  · have hsb : nmeta sampleSb = 29 := by decide
    exact (soleFs_used hn b).mpr ((hsb ▸ hb).trans_le hmeta)

include hsize

theorem sole_abstracts : Abstracts sampleSb (soleOpen d n devs) (soleStore d n devs) := by
  have hget : igetSlot (slots (soleFs d n devs)) rootdev 1 = some (sampleIp, ⟨rootdev, 1, 1, false, false⟩) := by
    have hslots : slots (soleFs d n devs) = fun _ => ⟨0, 0, 0, false, false⟩ := rfl
    rw [hslots]
    decide
  have hc := carries_iget (soleFs_volInv htype haddrs hmeta hn) (by decide) hget
  have hsync : Synced ∅ sampleSb (soleFs d n devs) := fun k hk => absurd hk.1 (by simp [soleFs, oneFs])
  have hholes : HoleFree sampleSb (soleFs d n devs) := by
    intro i hi
    have hnode : nodes sampleSb (soleFs d n devs) i = d := by
      rw [soleFs_live htype, Set.mem_singleton_iff] at hi
      rw [Fresh.nodes_eq fun _ => rfl, hi]
      exact soleFs_inode
    have hzero : ceilBlocks (nodes sampleSb (soleFs d n devs) i).size.toNat = 0 := by
      rw [hnode, hsize]
      rfl
    refine ⟨by rw [hnode, hsize]; decide, fun bn _ => ?_⟩
    rw [soleFs_refs htype haddrs, hzero]
    simp
  exact ⟨hc.vol, hc.synced hsync, hc.holeFree hsync hholes, rfl, rfl, rfl⟩

end

end Xv6Memfs.Verified
