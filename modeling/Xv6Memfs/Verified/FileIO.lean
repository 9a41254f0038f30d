import Xv6Memfs.Verified.FileData

/-! # readi and writei

The specifications of `iupdate`, `readi` and `writei`, for any inode whose block map is part
of a disjoint family. -/

namespace Xv6Memfs.Verified

open Lib Lib.Exec Function

variable {L : Set Nat} {g : Superblock} {s t u : Fs} {ip : Fin ninode} {A I : Prop}

/-! ## Changes that leave the addresses alone -/

theorem mapOf_addrs {d d' : Dinode} {blk : Nat → Block} (h : d'.addrs = d.addrs) (bn : Nat) :
    mapOf d' blk bn = mapOf d blk bn := by
  have haddr : ∀ k, d'.addr k = d.addr k := by
    intro k
    rw [Dinode.addr, Dinode.addr, h]
  simp only [mapOf, haddr]

theorem refs_addrs {ino ino' : Nat → Dinode} {blk : Nat → Block}
    (h : ∀ i ∈ L, (ino' i).addrs = (ino i).addrs) : refs L ino' blk = refs L ino blk := by
  funext p
  by_cases hp : p.1 ∈ L
  · rw [refs, refs, if_pos hp, if_pos hp, mapOf_addrs (h _ hp)]
  · rw [refs, refs, if_neg hp, if_neg hp]

theorem contentAt_addrs {ino ino' : Nat → Dinode} {blk : Nat → Block}
    (h : ∀ i ∈ L, (ino' i).addrs = (ino i).addrs) : contentAt L ino' blk = contentAt L ino blk := by
  funext p
  rw [contentAt, contentAt, refs_addrs h]

/-! ## iupdate -/

/-- The inode that `iupdate` stores. -/
def stored (v : Vol) (i : Inode) : Dinode :=
  { i.node with ownerid := (v.inode i.inum).ownerid, groupid := (v.inode i.inum).groupid }

def flushed (s : Fs) (ip : Fin ninode) : Fs :=
  let i := s.icache ip
  let dip := (s.disk (iblock i.inum)).dinode (i.inum % ipb)
  put s (iblock i.inum) ((s.disk (iblock i.inum)).setDinode (i.inum % ipb)
    { i.node with ownerid := dip.ownerid, groupid := dip.groupid })

theorem ends_iupdate (hl : Layout g s) (hc : CacheWf g s.icache) (hip : (s.icache ip).ref > 0) :
    Ends (Fs.iupdate ip) s (fun _ t => t = flushed s ip)
      (fun e t => t = s ∧ s.log.logWriteCheck = .error e) := by
  rw [Fs.iupdate]
  refine .gets_bind ?_
  rw [hc.dev ip hip]
  refine .bind_ok (run_bread_iblock hl (hc.inum ip hip)) ?_
  exact ends_logWrite.mono (fun _ _ h => h.2) fun _ _ h => h

theorem vol_flushed (hc : CacheWf g s.icache) (hip : (s.icache ip).ref > 0) :
    vol g (flushed s ip) =
      { vol g s with
        inode := update (vol g s).inode (s.icache ip).inum
          (stored (vol g s) (s.icache ip)) } := by
  have hi := hc.inum ip hip
  have hinode : (vol g s).inode (s.icache ip).inum =
      (s.disk (iblock (s.icache ip).inum)).dinode ((s.icache ip).inum % ipb) := by
    simp only [vol, if_pos hi]
  rw [flushed, vol_putInode hi, stored, hinode]

theorem flushed_icache : (flushed s ip).icache = s.icache := rfl
theorem logs_flushed : Logs (· = iblock (s.icache ip).inum) s (flushed s ip) := .put rfl

theorem nodes_flushed (hc : CacheWf g s.icache) (hip : Held s.icache ip) :
    nodes g (flushed s ip) = nodes g s := by
  funext j
  rw [nodes, nodes, flushed_icache]
  cases hcore : coreOf s.icache j with
  | some k => rfl
  | none =>
    have hj : j ≠ (s.icache ip).inum := (coreOf_eq_none hcore ip hip).symm
    rw [vol_flushed hc hip.1]
    exact update_of_ne hj ..

theorem Layout.flushed (hl : Layout g s) : Layout g (flushed s ip) := by
  apply hl.put
  simp only [iblock]
  exact Nat.succ_succ_ne_one _

/-! ## Resizing -/

def resized (s : Fs) (ip : Fin ninode) (n : Nat) : Fs :=
  flushed (withNode s ip { (s.icache ip).node with size := BitVec.ofNat 32 n }) ip

section

variable {n : Nat} {d : Dinode} (hc : CacheWf g s.icache) (hip : Held s.icache ip)

theorem withNode_cacheWf (hc : CacheWf g s.icache) : CacheWf g (withNode s ip d).icache where
  dev k hk := by
    by_cases h : k = ip
    · rw [h, withNode_self] at hk ⊢
      exact hc.dev ip hk
    · rw [withNode_ne h] at hk ⊢
      exact hc.dev k hk
  inum k hk := by
    rw [(withNode_keeps k).2.2]
    rw [(withNode_keeps k).1] at hk
    exact hc.inum k hk
  unique k l hk hl hkl := by
    rw [(withNode_keeps k).1] at hk
    rw [(withNode_keeps l).1] at hl
    rw [(withNode_keeps k).2.2, (withNode_keeps l).2.2] at hkl
    exact hc.unique k l hk hl hkl

theorem withNode_held {k : Fin ninode} (hk : Held s.icache k) :
    Held (withNode s ip d).icache k := by
  rw [Held, (withNode_keeps k).1, (withNode_keeps k).2.1]
  exact hk

theorem resized_self : (resized s ip n).icache ip =
    { s.icache ip with node := { (s.icache ip).node with size := BitVec.ofNat 32 n } } :=
  withNode_self

theorem resized_ne {k : Fin ninode} (hk : k ≠ ip) : (resized s ip n).icache k = s.icache k :=
  withNode_ne hk

include hc hip

theorem nodes_resized : nodes g (resized s ip n) = update (nodes g s) (s.icache ip).inum
      { (s.icache ip).node with size := BitVec.ofNat 32 n } := by
  rw [resized, nodes_flushed (withNode_cacheWf hc) (withNode_held hip), nodes_withNode hc hip]

theorem addrs_resized (i : Nat) : (nodes g (resized s ip n) i).addrs = (nodes g s i).addrs := by
  rw [nodes_resized hc hip, update_apply]
  split
  · rename_i h
    rw [h, nodes_of_held hc hip]
  · rfl

theorem vol_resized : vol g (resized s ip n) = { vol g s with
      inode := update (vol g s).inode (s.icache ip).inum
        { (stored (vol g s) (s.icache ip)) with size := BitVec.ofNat 32 n } } := by
  rw [resized, vol_flushed (withNode_cacheWf hc) (withNode_held hip).1, withNode_self]
  rfl

theorem refsOf_resized : refsOf L g (resized s ip n) = refsOf L g s := by
  rw [refsOf, refs_addrs fun i _ => addrs_resized hc hip i, vol_resized hc hip, refsOf]

theorem contentOf_resized : contentOf L g (resized s ip n) = contentOf L g s := by
  rw [contentOf, contentAt_addrs fun i _ => addrs_resized hc hip i, vol_resized hc hip, contentOf]

theorem used_resized : (vol g (resized s ip n)).used = (vol g s).used := by
  rw [vol_resized hc hip]

omit hc in
theorem MapInv.resized (hinv : MapInv L g s) : MapInv L g (resized s ip n) where
  layout := hinv.layout.withNode.flushed
  cache := withNode_cacheWf hinv.cache
  owns := by
    rw [refsOf_resized hinv.cache hip, used_resized hinv.cache hip]
    exact hinv.owns

end

/-! ## readi -/

def fileSize (s : Fs) (ip : Fin ninode) : Nat := (s.icache ip).node.size.toNat

section

variable {off n : Nat} (htype : (s.icache ip).node.type ≠ tDev)

theorem wraps_iff (hoff : off < 2 ^ 32) (hn : n < 2 ^ 32) :
    (off + n) % 2 ^ 32 < off ↔ 2 ^ 32 ≤ off + n := by
  omega

include htype

theorem run_readi_none (hoff : off < 2 ^ 32) (hn : n < 2 ^ 32)
    (hbad : fileSize s ip < off ∨ 2 ^ 32 ≤ off + n) :
    run (Fs.readi ip off n) s = (.ok none, s) := by
  rw [← wraps_iff hoff hn] at hbad
  rw [Fs.readi, run_bind_ok (run_get s)]
  simp only [htype, if_false]
  rw [run_ite]
  exact if_pos hbad

/-- The number of bytes `readi` reads. -/
def clipped (s : Fs) (ip : Fin ninode) (off n : Nat) : Nat := min n (fileSize s ip - off)

theorem ends_readi_loop {Q : List Byte → Fs → Prop} {E : Stop → Fs → Prop}
    (hoff : off ≤ fileSize s ip) (hwrap : off + n < 2 ^ 32)
    (h : Ends (Fs.readLoop ip (clipped s ip off n) off (clipped s ip off n)) s Q E) :
    Ends (Fs.readi ip off n) s (fun r t => ∃ bs, r = some bs ∧ Q bs t) E := by
  have hmod : (off + n) % 2 ^ 32 = off + n := Nat.mod_eq_of_lt hwrap
  have hclip : (if off + n > (s.icache ip).node.size.toNat then
      (s.icache ip).node.size.toNat - off else n) = clipped s ip off n := by
    rw [clipped, fileSize]
    split <;> omega
  have hgood : ¬ (off > (s.icache ip).node.size.toNat ∨ off + n < off) := by
    rw [fileSize] at hoff
    omega
  rw [Fs.readi]
  refine .get_bind ?_
  simp only [htype, if_false, hmod, if_neg hgood, hclip]
  exact .bind h (fun _ _ h => h) fun bs t hbs => .pure ⟨bs, rfl, hbs⟩

theorem ends_readi (hoff : off ≤ fileSize s ip) (hwrap : off + n < 2 ^ 32)
    (h : LoopPre L g ip A I off (clipped s ip off n) s) : Ends (Fs.readi ip off n) s
      (fun r t => LoopPost L g ip A I (blocksOf off (clipped s ip off n)) s t ∧
        contentOf L g t = contentOf L g s ∧
        (r = some ((List.range (clipped s ip off n)).map fun j =>
          byteAt (contentOf L g s) (s.icache ip).inum (off + j))) ∧
        ((∀ bn ∈ blocksOf off (clipped s ip off n),
          refsOf L g s ((s.icache ip).inum, bn) ≠ 0) → t = s))
      (fun e t => A ∧ GrowStop g ip A I (blocksOf off (clipped s ip off n)).length
        (needsAll L g s (s.icache ip).inum (blocksOf off (clipped s ip off n))) s e t) := by
  refine (ends_readi_loop htype hoff hwrap (ends_readLoop h (Nat.le_refl _))).mono ?_ fun _ _ h => h
  rintro r t ⟨bs, rfl, hloop, hcontent, hbs, hhit⟩
  exact ⟨hloop, hcontent, by rw [hbs], hhit⟩

/-! ## writei -/

variable {src : List Byte}

theorem run_writei_none (hoff : off < 2 ^ 32) (hn : src.length < 2 ^ 32)
    (hbad : fileSize s ip < off ∨ maxfile * bsize < off + src.length) :
    run (Fs.writei ip src off) s = (.ok none, s) := by
  rw [Fs.writei, run_bind_ok (run_get s)]
  simp only [htype, if_false]
  rw [run_ite]
  split
  · rfl
  · rename_i hgood
    rw [wraps_iff hoff hn] at hgood
    have hmod : (off + src.length) % 2 ^ 32 = off + src.length := Nat.mod_eq_of_lt (by omega)
    have hbig : maxfile * bsize < off + src.length := by
      rw [fileSize] at hbad
      omega
    rw [run_ite, hmod, if_pos hbig, run_pure]

open Classical in
/-- The state after `writei` when its loop has ended in `m`. -/
noncomputable def writtenTo (s : Fs) (ip : Fin ninode) (off n : Nat) (m : Fs) : Fs :=
  if 0 < n ∧ fileSize s ip < off + n then resized m ip (off + n) else m

theorem ends_writei (hoff : off ≤ fileSize s ip) (h : LoopPre L g ip A I off src.length s) :
    Ends (Fs.writei ip src off) s (fun r t => r = some src.length ∧
        ∃ m, LoopPost L g ip A I (blocksOf off src.length) s m ∧
          Written (contentOf L g s) (contentOf L g m) (s.icache ip).inum off src ∧
          t = writtenTo s ip off src.length m) (GrowStop g ip A I (blocksOf off src.length).length
        (needsAll L g s (s.icache ip).inum (blocksOf off src.length)) s) := by
  have hfits := h.fits
  have hmod : (off + src.length) % 2 ^ 32 = off + src.length := by
    apply Nat.mod_eq_of_lt
    have : maxfile * bsize < 2 ^ 32 := by decide
    omega
  have hgood : ¬ (off > (s.icache ip).node.size.toNat ∨ off + src.length < off) := by
    rw [fileSize] at hoff
    omega
  rw [Fs.writei]
  refine .get_bind ?_
  simp only [htype, if_false, hmod, if_neg hgood, if_neg (Nat.not_lt.mpr hfits)]
  refine .bind (ends_writeLoop h (Nat.le_refl _)) (fun _ _ h => h) ?_
  rintro - m ⟨hloop, hwritten⟩
  obtain ⟨new, hgrows, -⟩ := hloop.grows
  refine .ite (fun hgrow => ?_) fun hsame => .pure ⟨rfl, m, hloop, hwritten, (if_neg hsame).symm⟩
  have hheld : Held (withNode m ip { (m.icache ip).node with
      size := BitVec.ofNat 32 (off + src.length) }).icache ip :=
    withNode_held (hgrows.cache.held h.held)
  refine .bind_ok run_setNode (.bind (ends_iupdate hgrows.inv.layout.withNode
    (withNode_cacheWf hgrows.inv.cache) hheld.1) ?_ ?_)
  · rintro e t ⟨rfl, hcheck⟩
    refine ⟨hloop.trail.congr rfl ?_, .inr hcheck⟩
    rw [indOf, withNode_self]
    rfl
  · rintro - t rfl
    exact .pure ⟨rfl, m, hloop, hwritten, (if_pos hgrow).symm⟩

end

/-! ## The state after a write -/

section

variable {off n : Nat} {m : Fs} {k : Fin ninode} {new : List Nat}

/-- What does not depend on whether the file has got a new size. -/
theorem writtenTo_cases {P : Fs → Prop} (hres : P (resized m ip (off + n))) (hsame : P m) :
    P (writtenTo s ip off n m) := by
  rw [writtenTo]
  split
  · exact hres
  · exact hsame

theorem writtenTo_ne (hk : k ≠ ip) : (writtenTo s ip off n m).icache k = m.icache k :=
  writtenTo_cases (P := fun t => t.icache k = m.icache k) (resized_ne hk) rfl

theorem writtenTo_keeps (k : Fin ninode) :
    ((writtenTo s ip off n m).icache k).ref = (m.icache k).ref ∧
      ((writtenTo s ip off n m).icache k).valid = (m.icache k).valid ∧
      ((writtenTo s ip off n m).icache k).inum = (m.icache k).inum :=
  writtenTo_cases (P := fun t => (t.icache k).ref = (m.icache k).ref ∧
    (t.icache k).valid = (m.icache k).valid ∧ (t.icache k).inum = (m.icache k).inum)
    (withNode_keeps k) ⟨rfl, rfl, rfl⟩

theorem writtenTo_type : ((writtenTo s ip off n m).icache ip).node.type = (m.icache ip).node.type :=
  writtenTo_cases (P := fun t => (t.icache ip).node.type = (m.icache ip).node.type)
    (by rw [resized_self]) rfl

theorem writtenTo_allocs : (writtenTo s ip off n m).allocs = m.allocs :=
  writtenTo_cases (P := fun t => t.allocs = m.allocs) rfl rfl

theorem writtenTo_logs : Logs (· = iblock (m.icache ip).inum) m (writtenTo s ip off n m) := by
  refine writtenTo_cases (P := fun t => Logs (· = iblock (m.icache ip).inum) m t) ?_ (.of_log_eq rfl)
  have hset : Logs (· = iblock (m.icache ip).inum) m
    (withNode m ip { (m.icache ip).node with size := BitVec.ofNat 32 (off + n) }) := .of_log_eq rfl
  have hflush : Logs _ _ (resized m ip (off + n)) := logs_flushed
  rw [(withNode_keeps ip).2.2] at hflush
  exact hset.trans hflush

section

variable (hinv : MapInv L g m) (hip : Held m.icache ip)

include hinv hip

theorem writtenTo_refsOf : refsOf L g (writtenTo s ip off n m) = refsOf L g m :=
  writtenTo_cases (P := fun t => refsOf L g t = refsOf L g m) (refsOf_resized hinv.cache hip) rfl

theorem writtenTo_contentOf : contentOf L g (writtenTo s ip off n m) = contentOf L g m :=
  writtenTo_cases (P := fun t => contentOf L g t = contentOf L g m)
    (contentOf_resized hinv.cache hip) rfl

theorem writtenTo_used : (vol g (writtenTo s ip off n m)).used = (vol g m).used :=
  writtenTo_cases (P := fun t => (vol g t).used = (vol g m).used) (used_resized hinv.cache hip) rfl

theorem writtenTo_inv : MapInv L g (writtenTo s ip off n m) :=
  writtenTo_cases (hinv.resized hip) hinv

end

theorem writtenTo_fileSize (hcache : SameBut ip s m) (hoff : off ≤ fileSize s ip)
    (hlt : off + n < 2 ^ 32) :
    fileSize (writtenTo s ip off n m) ip = max (fileSize s ip) (off + n) := by
  have hm : fileSize m ip = fileSize s ip := by
    obtain ⟨a, ha⟩ := hcache.self
    rw [fileSize, ha, fileSize]
  rw [writtenTo]
  split
  · rename_i h
    rw [fileSize, resized_self]
    simp only [BitVec.toNat_ofNat, Nat.mod_eq_of_lt hlt]
    omega
  · omega

end

/-! ## Storing an inode and reading it back -/

/-- `f` is a cache entry that `iget` has just set up for the inode of `i`. -/
structure Renewed (i f : Inode) : Prop where
  dev : f.dev = i.dev
  inum : f.inum = i.inum
  ref : 0 < f.ref
  idle : f.busy = false
  empty : f.valid = false

/-- The other inodes in the block of inode `i`, and all other blocks, are as before. -/
def OtherInodes (i : Nat) (s t : Fs) : Prop :=
  (∀ k < ipb, k ≠ i % ipb → (t.disk (iblock i)).dinode k = (s.disk (iblock i)).dinode k) ∧
    ∀ b, b ≠ iblock i → t.disk b = s.disk b

def diskInode (s : Fs) (i : Nat) : Dinode := (s.disk (iblock i)).dinode (i % ipb)

theorem otherInodes_flushed : OtherInodes (s.icache ip).inum s (flushed s ip) := by
  refine ⟨fun k hk hne => ?_, fun b hb => update_of_ne hb ..⟩
  rw [flushed, put_disk, update_self, dinode_setDinode_ne hk hne]

theorem diskInode_flushed : diskInode (flushed s ip) (s.icache ip).inum = { (s.icache ip).node with
      ownerid := (diskInode s (s.icache ip).inum).ownerid
      groupid := (diskInode s (s.icache ip).inum).groupid } := by
  rw [diskInode, flushed, put_disk, update_self]
  exact dinode_setDinode_same (Nat.mod_lt _ (by decide))

theorem ends_bread {dev b : Nat} : Ends (Fs.bread dev b) s
    (fun v t => (dev = rootdev ∧ b < s.disksize) ∧ v = s.disk b ∧ t = s) fun _ _ => True := by
  rw [Fs.bread]
  refine .get_bind (.ite (fun _ => .throw trivial) fun hdev => ?_)
  refine .ite (fun _ => .throw trivial) fun hb => .pure ⟨⟨?_, Nat.not_le.mp hb⟩, rfl, rfl⟩
  exact not_not.mp hdev

theorem ends_iupdate_flushed : Ends (Fs.iupdate ip) s
    (fun _ t => ((s.icache ip).dev = rootdev ∧ iblock (s.icache ip).inum < s.disksize) ∧
      t = flushed s ip) fun _ _ => True := by
  rw [Fs.iupdate]
  refine .gets_bind (ends_bread.bind (fun _ _ h => h) fun v t h => ?_)
  obtain ⟨hin, rfl, rfl⟩ := h
  exact ends_logWrite.mono (fun _ _ h => ⟨hin, h.2⟩) fun _ _ _ => trivial

/-- `ilock` on an entry without contents reads the inode from the disk. -/
theorem run_ilock_empty (hdev : (s.icache ip).dev = rootdev)
    (hblk : iblock (s.icache ip).inum < s.disksize) (href : 0 < (s.icache ip).ref)
    (hidle : (s.icache ip).busy = false) (hempty : (s.icache ip).valid = false)
    (htype : (diskInode s (s.icache ip).inum).type ≠ 0) :
    ∃ u, run (Fs.ilock ip) s = (.ok (), u) ∧ u.disk = s.disk ∧
      (u.icache ip).node = diskInode s (s.icache ip).inum := by
  have hends : Ends (Fs.ilock ip) s
      (fun _ u => u.disk = s.disk ∧ (u.icache ip).node = diskInode s (s.icache ip).inum)
      fun _ _ => False := by
    rw [Fs.ilock]
    refine .gets_bind (.ite (fun h => absurd href (Nat.not_lt.mpr (Nat.le_of_lt_succ h))) fun _ => ?_)
    refine .ite (fun h => absurd h (by simp [hidle])) fun _ => .modify_bind ?_
    refine .ite (fun _ => ?_) fun h => absurd hempty (by simpa using h)
    rw [hdev]
    refine .bind_ok (run_bread hblk) (.modify_bind (.ite (fun h => absurd h htype) fun _ => ?_))
    refine .pure ⟨rfl, ?_⟩
    simp [diskInode]
  obtain ⟨_, u, hrun, hu⟩ := hends.returns
  exact ⟨u, hrun, hu⟩

/-- `iupdate` and then `ilock` through a fresh cache entry give back every field of the inode
    exactly if the ids of owner and group on the disk are those of the inode: `iupdate` does not
    store these two.  The other inodes and blocks stay as they are. -/
theorem iupdate_ilock_iff {t : Fs} {jp : Fin ninode} {f : Inode}
    (hrun : run (Fs.iupdate ip) s = (.ok (), t)) (htype : (s.icache ip).node.type ≠ 0)
    (hf : Renewed (s.icache ip) f) :
    let i := s.icache ip
    let old := diskInode s i.inum
    ∃ u, run (Fs.ilock jp) { t with icache := update t.icache jp f } = (.ok (), u) ∧
      ((u.icache jp).node = i.node ∧ OtherInodes i.inum s u ↔
        old.ownerid = i.node.ownerid ∧ old.groupid = i.node.groupid) := by
  intro i old
  obtain ⟨⟨hdev, hblk⟩, rfl⟩ := ends_iupdate_flushed.of_ok hrun
  let t : Fs := { flushed s ip with icache := update (flushed s ip).icache jp f }
  have hslot : t.icache jp = f := update_self ..
  have hnode : diskInode t (t.icache jp).inum =
      { i.node with ownerid := old.ownerid, groupid := old.groupid } := by
    rw [hslot, hf.inum]
    exact diskInode_flushed
  obtain ⟨u, hlock, hdisk, hread⟩ := @run_ilock_empty t jp (by rw [hslot, hf.dev, hdev])
    (by rw [hslot, hf.inum]; exact hblk) (by rw [hslot]; exact hf.ref) (by rw [hslot, hf.idle])
    (by rw [hslot, hf.empty]) (by rw [hnode]; exact htype)
  refine ⟨u, hlock, ?_⟩
  have hother : OtherInodes i.inum s u := by
    rw [OtherInodes, hdisk]
    exact otherInodes_flushed
  rw [hread, hnode, and_iff_left hother, Dinode.ext_iff]
  simp

/-- A disk of zeros, and in memory an inode that belongs to a user. -/
def ownedFs (owner : BitVec 16) : Fs where
  disk _ := 0
  disksize := 64
  log := ⟨0, 30, 1, false, rootdev, []⟩
  icache _ := ⟨rootdev, 1, 1, false, true, { Dinode.zero with type := tFile, ownerid := owner }⟩
  devsw _ := ⟨none, none⟩
  allocs := []

def freshEntry : Inode := ⟨rootdev, 1, 1, false, false, .zero⟩

/-- `iupdate`, then `ilock` through the fresh entry. -/
def storeAndLoad (ip : Fin ninode) : FsM Unit := do
  Fs.iupdate ip
  Fs.setInode ip fun _ => freshEntry
  Fs.ilock ip

/-- The owner of an inode is lost with its cache entry. -/
theorem iupdate_loses_owner :
    let i := (ownedFs 5).icache ⟨0, by decide⟩
    let u := (run (storeAndLoad ⟨0, by decide⟩) (ownedFs 5)).2
    Renewed i freshEntry ∧ fault (storeAndLoad ⟨0, by decide⟩) (ownedFs 5) = none ∧
      i.node.type ≠ 0 ∧ i.node.ownerid = 5 ∧ (u.icache ⟨0, by decide⟩).node.ownerid = 0 :=
  ⟨⟨rfl, rfl, by decide, rfl, rfl⟩, by decide +kernel, by decide, rfl, by decide +kernel⟩

def grownNode : Dinode :=
  ⟨tFile, 0, 0, 2, 99, 1, 0x700, 700, fun k => if k.val < 2 then BitVec.ofNat 32 (40 + k) else 0⟩

/-- The file is longer in memory than on the disk, and has one more link. -/
def grownFs : Fs := { ownedFs 99 with
  disk := fun b => if b = iblock 1 then
    (0 : Block).setDinode 1 { grownNode with nlink := 1, size := 600 } else 0
  icache := fun _ => ⟨rootdev, 1, 1, false, true, grownNode⟩ }

/-- The disk knows the owner, so the inode comes back as it was. -/
theorem iupdate_ilock_grown : ∃ t u, run (Fs.iupdate ⟨0, by decide⟩) grownFs = (.ok (), t) ∧
    run (Fs.ilock ⟨1, by decide⟩) { t with icache := update t.icache ⟨1, by decide⟩ freshEntry } =
      (.ok (), u) ∧
    (u.icache ⟨1, by decide⟩).node = grownNode := by
  have hrun : run (Fs.iupdate ⟨0, by decide⟩) grownFs =
      (.ok (), (run (Fs.iupdate ⟨0, by decide⟩) grownFs).2) := rfl
  obtain ⟨u, hlock, hiff⟩ := @iupdate_ilock_iff grownFs ⟨0, by decide⟩ _ ⟨1, by decide⟩ freshEntry hrun
    (by decide) ⟨rfl, rfl, by decide, rfl, rfl⟩
  exact ⟨_, u, hrun, hlock, (hiff.mpr (by decide +kernel)).1⟩

end Xv6Memfs.Verified
