import Xv6Memfs.Kernel.FileWrite
import Xv6Memfs.Verified.StoreRefine

/-! # What filewrite returns

`filewrite` hands its bytes to `writei` in turns, each in a transaction of its own, and counts on
`writei` to accept all of a turn or none.  An inode does, and panics when the disk is full; the
console does; `cpuid_write` does not.  When the data region is full but the disk is not, an inode
gets blocks of the log, which the next commit overwrites. -/

namespace Xv6Memfs.Verified

open Lib Lib.Exec Lib.Prog Function

variable {g : Superblock} {s t u m : Fs} {a b : Store} {ip : Fin ninode} {f : Fin nfile} {off n : Nat}
  {src : List Byte}

/-! ## Blocks that a write allocates -/

/-- In a file without holes exactly the blocks behind the end are missing. -/
theorem needsAll_eq (hs : VolInv ∅ g s) (hf : HoleFree g s) (hip : Held s.icache ip)
    (hoff : off ≤ fileSize s ip) (hfits : off + n ≤ maxfile * bsize) (hn : 0 < n) :
    needsAll (live g s) g s (s.icache ip).inum (blocksOf off n) =
      newBlocks (fileSize s ip) off n (indOf s ip != 0) := by
  classical
  have hmem := hs.alive ip hip (Set.notMem_empty ip)
  have hcov := (hf _ hmem).2
  rw [nodes_of_held hs.maps.cache hip] at hcov
  rw [needsAll, newBlocks, refsOf_maxfile hs.maps hip hmem]
  congr 1
  · have hnodup := (nodup_blocksOf off n).filter
      (fun bn => decide (refsOf (live g s) g s ((s.icache ip).inum, bn) = 0))
    rw [List.countP_eq_length_filter, ← List.toFinset_card_of_nodup hnodup, ← Nat.card_Ico]
    congr 1
    ext bn
    have hstart := div_le_ceilBlocks hoff
    rw [List.mem_toFinset, List.mem_filter, decide_eq_true_eq, Finset.mem_Ico, mem_blocksOf']
    constructor
    · rintro ⟨hbn, hzero⟩
      have hlt := lt_maxfile_of_mem hfits (mem_blocksOf'.mpr hbn)
      refine ⟨?_, hbn.2.2⟩
      by_contra hlow
      exact (hcov bn hlt).mpr (Nat.lt_of_not_le hlow) hzero
    · rintro ⟨hlow, hend⟩
      have hbn : bn ∈ blocksOf off n := mem_blocksOf'.mpr ⟨hn, Nat.le_trans hstart hlow, hend⟩
      refine ⟨mem_blocksOf'.mp hbn, ?_⟩
      by_contra hne
      exact Nat.not_lt.mpr hlow ((hcov bn (lt_maxfile_of_mem hfits hbn)).mp hne)
  · congr 1
    simp only [bne_eq_false_iff_eq, eq_iff_iff]
    refine and_congr_left fun _ => ⟨?_, fun hend => ?_⟩
    · rintro ⟨bn, hbn, hlow⟩
      have := (mem_blocksOf'.mp hbn).2.2
      omega
    · refine ⟨ceilBlocks (off + n) - 1, mem_blocksOf'.mpr ⟨hn, ?_, by omega⟩, by omega⟩
      simp only [ceilBlocks, bsize] at hend ⊢
      omega

/-! ## A turn

Between the turns nobody is in a transaction and the inode is unlocked. -/

def hasIndirect (g : Superblock) (s : Fs) (i : Nat) : Bool := ((vol g s).inode i).addr ndirect != 0

/-- The number of free blocks in front of the log. -/
def freeBlocks (g : Superblock) (s : Fs) : Nat := clearCount (g.size - g.nlog) (vol g s).used

theorem freeBlocks_pos {b : Nat} (hb : b < g.size - g.nlog) (hfree : (vol g s).used b = false) : 0 < freeBlocks g s := by
  rw [freeBlocks, clearCount, Finset.card_pos]
  exact ⟨b, Finset.mem_filter.mpr ⟨Finset.mem_range.mpr hb, hfree⟩⟩

/-! ## Blocks of the log -/

/-- How many blocks of the log have been handed out. -/
def strays (g : Superblock) (s : Fs) : Nat := s.allocs.countP (g.size - g.nlog ≤ ·)

theorem strays_append {new : List Nat} (h : t.allocs = new ++ s.allocs) :
    strays g t = new.countP (g.size - g.nlog ≤ ·) + strays g s := by
  rw [strays, h, List.countP_append, strays]

theorem strays_congr (h : t.allocs = s.allocs) : strays g t = strays g s := by rw [strays, h, strays]

/-- None is taken back. -/
def StraysStay (g : Superblock) (s t : Fs) : Prop := strays g s ≤ strays g t

instance : Std.Refl (StraysStay g) := ⟨fun _ => le_rfl⟩

instance : IsTrans Fs (StraysStay g) := ⟨fun _ _ _ => le_trans⟩

theorem StraysStay.call (c : Call) : Keeps (StraysStay g) c.exec := by
  have hsteps : CallSteps (StraysStay g) :=
    ⟨fun _ => ⟨fun _ _ _ _ => le_rfl, fun _ _ => le_rfl, fun _ b => (List.sublist_cons_self b _).countP_le⟩,
      fun _ _ _ => le_rfl⟩
  cases c
  case beginOp =>
    intro s
    change Ends Fs.beginOp s _ _
    rw [Ends, run, Fs.beginOp]
    cases s.log.beginOp with
    | none => exact le_rfl
    | some l => exact le_rfl
  case endOp => exact DiskOnly.endOp.keeps.mono fun s t h => (strays_congr (by rw [h.eq])).ge
  all_goals exact hsteps.call (by simp)

/-- The file system is in order and at rest, with no file in the log area, and `ip` is a reference to
    an inode that nobody has locked; the log is long enough for one turn. -/
structure AtRest (g : Superblock) (ip : Fin ninode) (s : Fs) (a : Store) : Prop where
  abs : Abstracts g s a
  apart : LogApart g s
  ref : (a.slot ip).ref > 0
  unlocked : (a.slot ip).busy = false
  alive : (a.inode ip).type ≠ 0
  outstanding : s.log.outstanding = 0
  committing : s.log.committing = false
  empty : s.log.lh = []
  room : nbitmap g + 15 < logsize ∧ nbitmap g + 15 < s.log.size - 1

def lockedStore (a : Store) (ip : Fin ninode) : Store :=
  a.setSlot ip { a.slot ip with busy := true, valid := true }

/-- Inside the transaction, with the inode locked. -/
structure Inside (g : Superblock) (ip : Fin ninode) (s : Fs) (a : Store) (t : Fs) : Prop where
  abs : Abstracts g t (lockedStore a ip)
  apart : LogApart g t
  vol : vol g t = vol g s
  allocs : t.allocs = s.allocs
  log : t.log = { s.log with outstanding := 1 }

theorem slot_lockedStore : (lockedStore a ip).slot ip = { a.slot ip with busy := true, valid := true } :=
  update_self ..

theorem inode_lockedStore : (lockedStore a ip).inode ip = a.inode ip := by
  rw [Store.inode, slot_lockedStore]
  rfl

theorem beginOp_idle {l : Log} (hout : l.outstanding = 0) (hcom : l.committing = false) (hlh : l.lh = []) :
    l.beginOp = some { l with outstanding := 1 } := by
  obtain ⟨start, size, outstanding, committing, dev, lh⟩ := l
  cases hout
  cases hcom
  cases hlh
  rfl

theorem AtRest.run_beginOp (h : AtRest g ip s a) :
    run Fs.beginOp s = (.ok (), { s with log := { s.log with outstanding := 1 } }) := by
  rw [run, Fs.beginOp, beginOp_idle h.outstanding h.committing h.empty]

theorem AtRest.enter (h : AtRest g ip s a) :
    ∃ t, run (Fs.ilock ip) { s with log := { s.log with outstanding := 1 } } = (.ok (), t) ∧
      Inside g ip s a t := by
  have habs : Abstracts g { s with log := { s.log with outstanding := 1 } } a := h.abs.withLog _
  have hstore : run (Store.ilock ip) a = (.ok (), lockedStore a ip) := by
    have href := h.ref
    rw [Store.run_ilock, if_neg (by omega), h.unlocked, if_neg Bool.false_ne_true,
      if_neg fun hnone => h.alive hnone.2]
    rfl
  have hends := (refines_ilock (fun _ => False) ip _ a habs).of_ok hstore
  have hspec := @ends_ilock g { s with log := { s.log with outstanding := 1 } } ip
    habs.vol.maps.layout habs.vol.maps.cache
  obtain ⟨_, t, hrun, -, ht⟩ := hends.returns
  have hbegun : LogApart g { s with log := { s.log with outstanding := 1 } } :=
    h.apart.of_meta h.abs.vol ⟨rfl, rfl, rfl, rfl, id⟩ (fun _ hb => hb) fun _ hb => .inl hb
  have happart := hbegun.step (c := .ilock ip) habs.vol trivial (Nat.zero_le _) (callStep_of_run hrun)
  obtain ⟨-, -, ⟨-, rfl⟩ | ⟨-, -, rfl⟩⟩ := hspec.of_ok hrun
  · exact ⟨_, hrun, ht, happart, rfl, rfl, rfl⟩
  · exact ⟨_, hrun, ht, happart, rfl, rfl, rfl⟩

/-- State `v`, after the transaction, has what state `t` inside it had. -/
structure Leaves (g : Superblock) (ip : Fin ninode) (t : Fs) (b : Store) (v : Fs) (c : Store) : Prop where
  rest : AtRest g ip v c
  node : c.inode ip = b.inode ip
  inum : (c.slot ip).inum = (b.slot ip).inum
  devsw : c.devsw = b.devsw
  inode : (vol g v).inode = (vol g t).inode
  used : (vol g v).used = (vol g t).used
  allocs : v.allocs = t.allocs

theorem AtRest.leave (h : AtRest g ip s a) (habs : Abstracts g t b) (happart : LogApart g t)
    (hslot : b.slot = (lockedStore a ip).slot) (htype : (b.inode ip).type ≠ 0)
    (hlog : t.log = { s.log with outstanding := 1, lh := t.log.lh }) :
    ∃ u v c, run (Fs.iunlock ip) t = (.ok (), u) ∧ run Fs.endOp u = (.ok (), v) ∧ Leaves g ip t b v c := by
  have hself : b.slot ip = { a.slot ip with busy := true, valid := true } := by
    rw [hslot, slot_lockedStore]
  have href : (b.slot ip).ref > 0 := by
    rw [hself]
    exact h.ref
  have hbusy : (b.slot ip).busy = true := by rw [hself]
  have hstore : run (Store.iunlock ip) b = (.ok (), b.setSlot ip { b.slot ip with busy := false }) := by
    rw [Store.run_iunlock, hbusy, if_neg (by simp only [Bool.true_eq_false, false_or]; omega)]
  obtain ⟨_, u, hrun, -, hu⟩ := ((refines_iunlock (fun _ => False) ip t b habs).of_ok hstore).returns
  obtain rfl : u = withSlot t ip { slots t ip with busy := false } := by
    rw [run_iunlock] at hrun
    split at hrun
    · cases hrun
    · cases hrun
      rfl
  have hu' : LogApart g (withSlot t ip { slots t ip with busy := false }) := happart.withSlot
  obtain ⟨v, hend, hagree, hended⟩ := hu'.log.run_endOp (by rw [withSlot_log, hlog]; exact h.committing)
  rw [withSlot_log, hlog] at hended
  have hfront := hu'.front hu.vol
  have hnew : (b.setSlot ip { b.slot ip with busy := false }).slot ip = { b.slot ip with busy := false } :=
    update_self ..
  have hinode : (b.setSlot ip { b.slot ip with busy := false }).inode ip = b.inode ip := by
    rw [Store.inode, hnew]
    rfl
  have hlog' : v.log = { s.log with outstanding := 0, lh := [] } := hended
  refine ⟨_, v, b.setSlot ip { b.slot ip with busy := false }, hrun, hend,
    ⟨hu.commit hu' hagree, hu'.ended hu.vol hagree (by rw [withSlot_log, hlog]; exact hended), ?_, ?_, ?_,
      by rw [hlog'], by rw [hlog']; exact h.committing, by rw [hlog'], by rw [hlog']; exact h.room⟩,
    hinode, by rw [hnew], rfl, hagree.inode hfront, hagree.used hfront, by rw [hagree.rest.eq]; rfl⟩
  · rw [hnew]
    exact href
  · rw [hnew]
  · rw [hinode]
    exact htype

/-! ## The write of a turn -/

theorem length_blocksOf_le (hn : n ≤ SysM.writeMax) : (blocksOf off n).length ≤ 14 := by
  have hmax : SysM.writeMax = 6656 := rfl
  rw [blocksOf]
  split
  · simp
  · rw [List.length_range']
    simp only [bsize]
    omega

theorem Abstracts.indOf_eq (h : Abstracts g s a) (hip : Held s.icache ip) :
    (indOf s ip != 0) = hasIndirect g s (s.icache ip).inum := by
  rw [indOf, hasIndirect, h.synced ip hip (Set.notMem_empty ip)]
  by_cases hzero : (s.icache ip).node.addr ndirect = 0
  · rw [hzero]
    rfl
  · have hnat : ((s.icache ip).node.addr ndirect).toNat ≠ 0 :=
      fun h => hzero (BitVec.eq_of_toNat_eq (by rw [h]; rfl))
    rw [bne_iff_ne.mpr hnat, bne_iff_ne.mpr hzero]

/-- After a loop over `[off, off + n)` there is an indirect block if the range needs one. -/
theorem LoopPost.hasIndirect {A I : Prop} {L : Set Nat} (h : LoopPost L g ip A I (blocksOf off n) s t)
    (hs : MapInv L g s) (hip : Held s.icache ip) (hL : (s.icache ip).inum ∈ L)
    (hfits : off + n ≤ maxfile * bsize) (hn : 0 < n) :
    (indOf t ip != 0) = (indOf s ip != 0 || decide (ndirect < ceilBlocks (off + n))) := by
  obtain ⟨new, hgrows, -⟩ := h.grows
  have hind : refsOf L g t ((s.icache ip).inum, maxfile) = indOf t ip := by
    rw [← hgrows.inum]
    exact refsOf_maxfile hgrows.inv (hgrows.cache.held hip) (hgrows.inum ▸ hL)
  rw [← hind, ← refsOf_maxfile hs hip hL]
  by_cases hfar : ndirect < ceilBlocks (off + n)
  · -- the last block of the range stands in the indirect block
    have hlast : ceilBlocks (off + n) - 1 ∈ blocksOf off n := by
      refine mem_blocksOf'.mpr ⟨hn, ?_, by omega⟩
      simp only [ceilBlocks, bsize] at hfar ⊢
      omega
    have hne := refsOf_maxfile_ne_zero hL (by omega) (lt_maxfile_of_mem hfits hlast) (h.filled _ hlast)
    rw [decide_eq_true hfar, Bool.or_true, bne_iff_ne]
    exact hne
  · have hsame := h.onlyInd fun bn hbn => by
      have := (mem_blocksOf'.mp hbn).2.2
      omega
    rw [hsame, decide_eq_false hfar, Bool.or_false]

/-- In a transaction of its own `writei` takes all the bytes if there are enough free blocks in front
    of the log.  If not, it panics or gets blocks of the log. -/
theorem ends_writei_turn (habs : Abstracts g t b) (happart : LogApart g t) (hip : Held t.icache ip)
    (hdev : (b.inode ip).type ≠ tDev) (hpos : 0 < src.length) (hmax : src.length ≤ SysM.writeMax)
    (hoff : off ≤ (b.inode ip).data.length) (hfits : off + src.length ≤ maxfile * bsize)
    (hout : t.log.outstanding = 1) (hlh : t.log.lh = [])
    (hroom : nbitmap g + 15 < logsize ∧ nbitmap g + 15 < t.log.size - 1) {need : Nat}
    (hneed : newBlocks (b.inode ip).data.length off src.length (hasIndirect g t (b.slot ip).inum) = need) :
    Ends (Fs.writei ip src off) t (fun r v => r = some src.length ∧
        ((freeBlocks g t < need ∧ strays g t < strays g v) ∨
          (Abstracts g v (b.setNode (b.slot ip).inum ((b.inode ip).write off src)) ∧ LogApart g v ∧
            v.log = { t.log with lh := v.log.lh } ∧ strays g v = strays g t ∧
            freeBlocks g v + need = freeBlocks g t ∧
            hasIndirect g v (b.slot ip).inum =
              (hasIndirect g t (b.slot ip).inum || decide (ndirect < ceilBlocks (off + src.length))))))
      (fun _ _ => freeBlocks g t < need) := by
  have hnot := Set.notMem_empty ip
  have hmem := habs.vol.alive ip hip hnot
  have htype : (t.icache ip).node.type ≠ tDev := by
    rw [habs.inode_eq hip] at hdev
    exact hdev
  rw [habs.length_data hip] at hoff hneed
  rw [habs.inum_eq, ← habs.indOf_eq hip] at hneed ⊢
  have hneeds := (needsAll_eq habs.vol habs.holeFree hip hoff hfits hpos).trans hneed
  have hlt : off < 2 ^ 32 ∧ src.length < 2 ^ 32 := by
    have : maxfile * bsize < 2 ^ 32 := by decide
    omega
  have hwants : wants g t (.writei ip src off) = need := by
    rw [wants, indices, if_neg (by rw [not_or]; exact ⟨htype, by omega⟩), hneeds]
  have hcall := ends_call_writei habs.vol hnot ⟨hip, hlt.1, hlt.2⟩
  have hkept := @kept_call g t (.writei ip src off) fun hend => by cases hend
  have hwrite := ends_writei htype hoff (loopPre_live habs.vol hnot hip hfits)
  refine ((hcall.and hkept).and hwrite).mono ?_ ?_
  · rintro r v ⟨⟨hcalled, hkept⟩, hr, m, hloop, hwritten, rfl⟩
    obtain ⟨new, hgrows, hnew⟩ := hloop.grows
    rw [hneeds] at hnew
    have hallocs : (writtenTo t ip off src.length m).allocs = new ++ t.allocs :=
      writtenTo_allocs.trans hgrows.allocd.allocs
    refine ⟨hr, ?_⟩
    by_cases hfree : freeBlocks g t < need
    · -- too few blocks in front of the log for all of `new`
      refine .inl ⟨hfree, ?_⟩
      rw [strays_append hallocs]
      refine Nat.lt_add_of_pos_left (List.countP_pos_iff.mpr ?_)
      by_contra hlow
      push Not at hlow
      have hcount := hgrows.allocd.clearCount fun b hb =>
        Nat.lt_of_not_le fun hge => hlow b hb (decide_eq_true hge)
      rw [hnew] at hcount
      rw [freeBlocks] at hfree
      omega
    have hlow := hgrows.allocd.low (g.size - g.nlog) (hnew ▸ Nat.not_lt.mp hfree)
    have hc := hcalled.carries (habs.holeFree.inPlace habs.vol ⟨hip, hnot⟩)
    have habs' := habs.written hip hoff hfits hloop hwritten hc
    have hipm : Held m.icache ip := hgrows.cache.held hip
    have hkeeps := @writtenTo_keeps t ip off src.length m ip
    have hipv : Held (writtenTo t ip off src.length m).icache ip := by
      rw [Held, hkeeps.1, hkeeps.2.1]
      exact hipm
    have hind := hloop.hasIndirect habs.vol.maps hip hmem hfits hpos
    have hindv : indOf (writtenTo t ip off src.length m) ip = indOf m ip := by
      rw [indOf, indOf]
      exact writtenTo_cases (P := fun v => ((v.icache ip).node.addr ndirect).toNat =
        ((m.icache ip).node.addr ndirect).toNat) (by rw [resized_self]; rfl) rfl
    refine .inr ⟨?_, ?_, ?_, ?_, ?_, ?_⟩
    · rw [← habs.inum_eq]
      exact habs'
    · exact LogApart.called hcalled habs.vol (by rw [HasBlocks, hwants]; exact Nat.not_lt.mp hfree)
        happart hkept
    · obtain ⟨F, -, hlogs⟩ := hloop.trail.logs
      have hkept := (@writtenTo_logs t ip off src.length m).kept
      rw [hlogs.kept] at hkept
      exact hkept
    · rw [strays_append hallocs, List.countP_eq_zero.mpr fun b hb => by
        rw [decide_eq_true_eq]
        exact Nat.not_le.mpr (hlow b hb), Nat.zero_add]
    · rw [freeBlocks, writtenTo_used hgrows.inv hipm, ← hnew]
      exact hgrows.allocd.clearCount hlow
    · rw [← hind, ← hindv, habs'.indOf_eq hipv, hkeeps.2.2, hgrows.inum]
  · rintro e v ⟨-, hstop⟩
    by_contra hfree
    refine hstop.elim (by rw [hlh]; exact List.nodup_nil) ?_ (by
      rw [hneeds]
      exact (Nat.not_lt.mp hfree).trans (clearCount_mono (Nat.sub_le _ _)))
    have hblocks := @length_blocksOf_le off src.length hmax
    rw [LogRoom, hout, hlh, if_pos trivial, if_pos trivial, List.length_nil]
    omega

/-! ## How much a file takes -/

/-- How many of `n` bytes a file of `size` bytes takes at `off`: the turns that end below the
    largest file size. -/
def takes (size off n : Nat) : Nat :=
  if size < off then 0
  else if off + n ≤ maxfile * bsize then n
  else (maxfile * bsize - off) / SysM.writeMax * SysM.writeMax

/-- The blocks that have to be allocated for `n` bytes at `off`. -/
def cost (size off n : Nat) (ind : Bool) : Nat := if n = 0 then 0 else newBlocks size off n ind

theorem takes_le (size off n : Nat) : takes size off n ≤ n := by
  rw [takes]
  have hmax : SysM.writeMax = 6656 := rfl
  split
  · omega
  · split
    · exact Nat.le_refl n
    · rw [hmax]
      omega

theorem takes_refused {size n1 : Nat} (hn1 : n1 = min n SysM.writeMax)
    (hbad : size < off ∨ maxfile * bsize < off + n1) : takes size off n = 0 := by
  have hmax : SysM.writeMax = 6656 := rfl
  rw [takes]
  split
  · rfl
  · rw [if_neg (by omega), hmax, Nat.div_eq_of_lt (by omega), Nat.zero_mul]

theorem takes_turn {size n1 : Nat} (hn1 : n1 = min n SysM.writeMax) (hoff : off ≤ size)
    (hfits : off + n1 ≤ maxfile * bsize) :
    takes size off n = n1 + takes (max size (off + n1)) (off + n1) (n - n1) := by
  have hmax : SysM.writeMax = 6656 := rfl
  rw [takes, takes, if_neg (show ¬size < off by omega), if_neg (show ¬max size (off + n1) < off + n1 by omega)]
  by_cases hall : off + n ≤ maxfile * bsize
  · rw [if_pos hall, if_pos (by omega)]
    omega
  · rw [if_neg hall, if_neg (by omega), hmax]
    omega

theorem ceilBlocks_max (x y : Nat) : ceilBlocks (max x y) = max (ceilBlocks x) (ceilBlocks y) := by
  simp only [ceilBlocks, bsize]
  omega

theorem cost_turn {size n1 k : Nat} {ind : Bool} (hpos : 0 < n1) :
    cost size off (n1 + k) ind = newBlocks size off n1 ind +
      cost (max size (off + n1)) (off + n1) k (ind || decide (ndirect < ceilBlocks (off + n1))) := by
  have hmono := ceilBlocks_mono (show off + n1 ≤ off + n1 + k by omega)
  rw [cost, if_neg (by omega), cost]
  by_cases hk : k = 0
  · rw [if_pos hk, hk]
    rfl
  · rw [if_neg hk, newBlocks, newBlocks, newBlocks, ceilBlocks_max, ← Nat.add_assoc]
    generalize ceilBlocks (off + n1 + k) = x at *
    generalize ceilBlocks (off + n1) = y at *
    generalize ceilBlocks size = z at *
    cases ind with
    | true =>
      simp only [Bool.true_or, Bool.true_eq_false, and_false, if_false]
      omega
    | false =>
      simp only [Bool.false_or, decide_eq_false_iff_not, and_true]
      split <;> split <;> split <;> omega

theorem Node.write_nil (v : Node) (off : Nat) : v.write off [] = v := by
  rw [Node.write]
  simp

theorem Node.length_write (v : Node) {off : Nat} (hoff : off ≤ v.data.length) (src : List Byte) :
    (v.write off src).data.length = max v.data.length (off + src.length) := by
  rw [Node.write]
  simp only [List.length_append, List.length_take, List.length_drop]
  omega

theorem Node.write_write (v : Node) {off : Nat} (hoff : off ≤ v.data.length) (src src' : List Byte) :
    (v.write off src).write (off + src.length) src' = v.write off (src ++ src') := by
  have hlen : (v.data.take off ++ src).length = off + src.length := by
    rw [List.length_append, List.length_take, Nat.min_eq_left hoff]
  have hdrop : (v.data.take off ++ src ++ v.data.drop (off + src.length)).drop
      (off + src.length + src'.length) = v.data.drop (off + (src ++ src').length) := by
    rw [List.drop_append, hlen, List.drop_eq_nil_of_le (by omega), List.nil_append, List.drop_drop,
      List.length_append]
    congr 1
    omega
  rw [Node.write, Node.write, Node.write]
  dsimp only
  rw [List.take_left' hlen, hdrop]
  simp only [List.append_assoc]

/-! ## What has been accepted

The machine keeps a record of the bytes that `writei` has said it took. -/

def acceptedBy : (c : Call) → c.Res → List Byte
  | .writei _ src _, some n => src.take n
  | _, _ => []

/-- The file system, with what its inodes and devices have accepted. -/
def accepting (c : Call) : Exec (Fs × List Byte) Stop c.Res := fun p =>
  match run c.exec p.1 with
  | (.ok r, t) => (.ok r, (t, p.2 ++ acceptedBy c r))
  | (.error e, t) => (.error e, (t, p.2))

theorem run_accepting_ok (c : Call) {r : c.Res} {acc : List Byte} (h : run c.exec s = (.ok r, t)) :
    run (accepting c) (s, acc) = (.ok r, (t, acc ++ acceptedBy c r)) := by
  rw [run, accepting, h]

/-- What a call does, it does with the record. -/
theorem ends_accepting {c : Call} {acc : List Byte} {Q : c.Res → Fs → Prop} {E : Stop → Fs → Prop}
    (h : Ends c.exec s Q E) :
    Ends (accepting c) (s, acc) (fun r q => Q r q.1) fun e q => E e q.1 := by
  match hrun : run c.exec s with
  | (.ok r, t) =>
    rw [Ends, run, accepting, hrun]
    exact h.of_ok hrun
  | (.error e, t) =>
    rw [Ends, run, accepting, hrun]
    exact h.of_error hrun

theorem straysStay_exec {α : Type} (p : FsProg α) {acc : List Byte} : Ends (Prog.exec id accepting p) (s, acc)
    (fun _ q => StraysStay g s q.1) fun _ q => StraysStay g s q.1 := by
  induction p generalizing s acc with
  | ret a => exact .pure le_rfl
  | stop e => exact .throw le_rfl
  | call c k ih =>
    rw [exec_call]
    exact (ends_accepting (StraysStay.call c s)).bind (fun _ _ h => h) fun r q h =>
      (ih r).mono (fun _ _ h' => h.trans h') fun _ _ h' => h.trans h'

def advanced (tab : Tables) (f : Fin nfile) (r : Option Nat) : Tables :=
  tab.setFile f { tab.file f with off := ((tab.file f).off + r.getD 0) % 2 ^ 32 }

/-- The loop after a turn of `n1` bytes, for which `writei` has returned `r`. -/
def afterTurn (f : Fin nfile) (ip : Fin ninode) (fuel : Nat) (src : List Byte) (n1 : Nat) (tab : Tables) :
    Option Nat → FsProg (Bool × Tables)
  | none => pure (false, advanced tab f none)
  | some n =>
    if n ≠ n1 then .stop (.panic .shortFilewrite)
    else SysM.filewriteLoop f ip fuel (src.drop n1) (advanced tab f (some n))

/-- The loop with the record. -/
def writing (f : Fin nfile) (ip : Fin ninode) (fuel : Nat) (src : List Byte) (tab : Tables) :
    Exec (Fs × List Byte) Stop (Bool × Tables) :=
  Prog.exec id accepting (SysM.filewriteLoop f ip fuel src tab)

/-- A turn in which `writei` returns `r` leads to `v`. -/
def TurnTo (f : Fin nfile) (ip : Fin ninode) (s : Fs) (src : List Byte) (n off : Nat) (r : Option Nat)
    (v : Fs) : Prop :=
  ∀ fuel tab acc, (tab.file f).off = off → run (writing f ip (fuel + 1) src tab) (s, acc) =
    run (Prog.exec id accepting (afterTurn f ip fuel src n tab r))
      (v, acc ++ acceptedBy (.writei ip (src.take n) off) r)

section

variable {tab : Tables} {fuel : Nat} {acc : List Byte} {r : Option Nat} {s1 s2 s3 s4 s5 : Fs}

theorem filewriteLoop_turn (hne : src ≠ []) (hn1 : min src.length SysM.writeMax = n) :
    SysM.filewriteLoop f ip (fuel + 1) src tab = .call .beginOp fun _ => .call (.ilock ip) fun _ =>
        .call (.writei ip (src.take n) (tab.file f).off) fun r =>
          .call (.iunlock ip) fun _ => .call .endOp fun _ => afterTurn f ip fuel src n tab r := by
  subst hn1
  rw [SysM.filewriteLoop, if_neg hne]
  change Prog.call _ _ = _
  congr 1
  funext _
  change Prog.call _ _ = _
  congr 1
  funext _
  change Prog.call _ _ = _
  congr 1
  funext r
  cases r with
  | none => rfl
  | some n =>
    change Prog.call _ (fun _ => Prog.call _ fun _ =>
      (if n ≠ min src.length SysM.writeMax then SysM.panic .shortFilewrite
        else SysM.filewriteLoop f ip fuel (src.drop (min src.length SysM.writeMax)))
        (advanced tab f (some n))) = _
    simp only [Script.ite_apply]
    rfl

section

variable (hne : src ≠ []) (hn1 : min src.length SysM.writeMax = n)
  (hbegin : run Fs.beginOp s = (.ok (), s1)) (hlock : run (Fs.ilock ip) s1 = (.ok (), s2))

include hne hn1 hbegin hlock

theorem turnTo (hwrite : run (Fs.writei ip (src.take n) off) s2 = (.ok r, s3))
    (hunlock : run (Fs.iunlock ip) s3 = (.ok (), s4)) (hend : run Fs.endOp s4 = (.ok (), s5)) :
    TurnTo f ip s src n off r s5 := by
  intro fuel tab acc hoff
  rw [writing, filewriteLoop_turn hne hn1, hoff]
  simp only [exec_call]
  rw [run_bind_ok (run_accepting_ok .beginOp hbegin),
    run_bind_ok (run_accepting_ok (.ilock ip) hlock),
    run_bind_ok (run_accepting_ok (.writei ip _ _) hwrite),
    run_bind_ok (run_accepting_ok (.iunlock ip) hunlock),
    run_bind_ok (run_accepting_ok .endOp hend)]
  simp [acceptedBy]

/-- A block of the log stays on the record, whatever `filewrite` does from then on. -/
theorem ends_writing_strays {N : Nat} (hoff : (tab.file f).off = off)
    (hwrite : Ends (Fs.writei ip (src.take n) off) s2 (fun _ t => N < strays g t) fun _ _ => True) :
    Ends (writing f ip (fuel + 1) src tab) (s, acc) (fun _ q => N < strays g q.1) fun _ _ => True := by
  rw [writing, filewriteLoop_turn hne hn1, hoff]
  simp only [exec_call]
  refine .bind_ok (run_accepting_ok .beginOp hbegin) (.bind_ok (run_accepting_ok (.ilock ip) hlock) ?_)
  refine (ends_accepting (c := .writei ip _ _) hwrite).bind (fun _ _ h => h) fun r q h => ?_
  exact (straysStay_exec (.call (.iunlock ip) fun _ => .call .endOp fun _ => afterTurn f ip fuel src n tab r)).mono
    (fun _ _ hstay => h.trans_le hstay) fun _ _ _ => trivial

end

theorem run_writing_nil : run (writing f ip fuel [] tab) (s, acc) = (.ok (true, tab), (s, acc)) := by
  cases fuel with
  | zero => rfl
  | succ fuel =>
    rw [writing, SysM.filewriteLoop, if_pos rfl]
    rfl

/-- The first `k` bytes of `src` have been written to the file. -/
structure Took (g : Superblock) (ip : Fin ninode) (s : Fs) (v : Node) (off : Nat) (src acc : List Byte)
    (k : Nat) (r : Bool × Tables) (q : Fs × List Byte) : Prop where
  all : r.1 = true ↔ k = src.length
  accepted : q.2 = acc ++ src.take k
  rest : ∃ b, AtRest g ip q.1 b ∧ b.inode ip = v.write off (src.take k)
  tidy : strays g q.1 = strays g s

theorem Took.nil (h : AtRest g ip s a) : Took g ip s (a.inode ip) off [] acc 0 (true, tab) (s, acc) :=
  ⟨by simp, by simp, ⟨a, h, (Node.write_nil _ _).symm⟩, rfl⟩

theorem Took.append {v : Node} {src' : List Byte} {k : Nat} {r : Bool × Tables} {q : Fs × List Byte}
    (hoff : off ≤ v.data.length) (htidy : strays g t = strays g s)
    (h : Took g ip t (v.write off src) (off + src.length) src' (acc ++ src) k r q) :
    Took g ip s v off (src ++ src') acc (src.length + k) r q where
  all := by
    rw [h.all, List.length_append]
    omega
  accepted := by rw [h.accepted, List.take_length_add_append, List.append_assoc]
  rest := by
    obtain ⟨b, hb, hnode⟩ := h.rest
    exact ⟨b, hb, by rw [hnode, Node.write_write _ hoff, List.take_length_add_append]⟩
  tidy := h.tidy.trans htidy

section

variable (hin : Inside g ip s a t)

include hin

theorem Inside.held (href : (a.slot ip).ref > 0) : Held t.icache ip := by
  refine hin.abs.held_iff.mp ?_
  rw [Store.Held, slot_lockedStore]
  exact ⟨href, rfl⟩

theorem Inside.freeBlocks : freeBlocks g t = freeBlocks g s := by
  rw [Verified.freeBlocks, hin.vol, Verified.freeBlocks]

theorem Inside.hasIndirect (i : Nat) : hasIndirect g t i = hasIndirect g s i := by
  rw [Verified.hasIndirect, hin.vol, Verified.hasIndirect]

theorem Inside.log_eq : t.log = { s.log with outstanding := 1, lh := t.log.lh } := by
  rw [hin.log]

theorem Inside.type_ne (href : (a.slot ip).ref > 0)
    (hdev : (a.inode ip).type ≠ tDev) : (t.icache ip).node.type ≠ tDev := by
  have htype := hin.abs.inode_eq (hin.held href)
  rw [inode_lockedStore] at htype
  rw [htype] at hdev
  exact hdev

theorem Inside.fileSize (href : (a.slot ip).ref > 0) :
    fileSize t ip = (a.inode ip).data.length := by
  rw [← hin.abs.length_data (hin.held href), inode_lockedStore]

end

section

variable (h : AtRest g ip s a) (hne : src ≠ []) (hn1 : min src.length SysM.writeMax = n)

include h hne hn1

theorem AtRest.turn (hin : Inside g ip s a t)
    (hlock : run (Fs.ilock ip) { s with log := { s.log with outstanding := 1 } } = (.ok (), t))
    (hwrite : run (Fs.writei ip (src.take n) off) t = (.ok r, m)) (habs : Abstracts g m b)
    (happart : LogApart g m) (hslot : b.slot = (lockedStore a ip).slot) (htype : (b.inode ip).type ≠ 0)
    (hlog : m.log = { t.log with lh := m.log.lh }) (f : Fin nfile) :
    ∃ v c, TurnTo f ip s src n off r v ∧ Leaves g ip m b v c := by
  have hlog' : m.log = { s.log with outstanding := 1, lh := m.log.lh } := by rw [hlog, hin.log]
  obtain ⟨u, v, c, hunlock, hend, hleaves⟩ := h.leave habs happart hslot htype hlog'
  exact ⟨v, c, turnTo hne hn1 h.run_beginOp hlock hwrite hunlock hend, hleaves⟩

theorem AtRest.turn_refused (hdev : (a.inode ip).type ≠ tDev) (hoff32 : off < 2 ^ 32)
    (hbad : (a.inode ip).data.length < off ∨ maxfile * bsize < off + n) (f : Fin nfile) :
    ∃ v c, TurnTo f ip s src n off none v ∧ AtRest g ip v c ∧ c.inode ip = a.inode ip ∧
      v.allocs = s.allocs := by
  obtain ⟨t, hlock, hin⟩ := h.enter
  have hlen : (src.take n).length = n := by
    rw [List.length_take]
    omega
  have hwrite : run (Fs.writei ip (src.take n) off) t = (.ok none, t) := by
    have hsmall : (src.take n).length < 2 ^ 32 := by
      have : SysM.writeMax = 6656 := rfl
      omega
    refine run_writei_none (hin.type_ne h.ref hdev) hoff32 hsmall ?_
    rwa [hin.fileSize h.ref, hlen]
  obtain ⟨v, c, hturn, hleaves⟩ := h.turn hne hn1 hin hlock hwrite hin.abs hin.apart rfl
    (by rw [inode_lockedStore]; exact h.alive) rfl f
  exact ⟨v, c, hturn, hleaves.rest, hleaves.node.trans inode_lockedStore, hleaves.allocs.trans hin.allocs⟩

/-- A turn that the file takes, if there are enough free blocks in front of the log. -/
theorem AtRest.turn_taken (hdev : (a.inode ip).type ≠ tDev) (hoff : off ≤ (a.inode ip).data.length)
    (hfits : off + n ≤ maxfile * bsize) (f : Fin nfile) {need : Nat}
    (hneed : newBlocks (a.inode ip).data.length off n (hasIndirect g s (a.slot ip).inum) = need) :
    (∃ v c, TurnTo f ip s src n off (some n) v ∧ AtRest g ip v c ∧
      c.inode ip = (a.inode ip).write off (src.take n) ∧ strays g v = strays g s ∧
      freeBlocks g v + need = freeBlocks g s ∧ hasIndirect g v (c.slot ip).inum =
        (hasIndirect g s (a.slot ip).inum || decide (ndirect < ceilBlocks (off + n)))) ∨
    (freeBlocks g s < need ∧ ∀ fuel tab acc, (tab.file f).off = off →
      Ends (writing f ip (fuel + 1) src tab) (s, acc) (fun _ q => strays g s < strays g q.1)
        fun _ _ => True) := by
  obtain ⟨t, hlock, hin⟩ := h.enter
  have hpos : 0 < src.length := List.length_pos_iff.mpr hne
  have hmax : SysM.writeMax = 6656 := rfl
  have hlen : (src.take n).length = n := by
    rw [List.length_take]
    omega
  have hinum : ((lockedStore a ip).slot ip).inum = (a.slot ip).inum := by rw [slot_lockedStore]
  have hends := @ends_writei_turn g t (lockedStore a ip) ip off (src.take n) hin.abs hin.apart
    (hin.held h.ref) (by rwa [inode_lockedStore]) (by omega) (by omega) (by rwa [inode_lockedStore])
    (by omega) (by rw [hin.log]) (by rw [hin.log]; exact h.empty) (by rw [hin.log]; exact h.room) need
    (by rw [inode_lockedStore, hinum, hin.hasIndirect, hlen]; exact hneed)
  rw [inode_lockedStore, hinum, hin.freeBlocks, hin.hasIndirect, hlen, strays_congr hin.allocs] at hends
  by_cases hfull : freeBlocks g s < need
  · refine .inr ⟨hfull, fun fuel tab acc hoff => ends_writing_strays hne hn1 h.run_beginOp hlock hoff ?_⟩
    refine hends.mono ?_ fun _ _ _ => trivial
    rintro r v ⟨-, ⟨-, hstrays⟩ | ⟨-, -, -, -, hfree, -⟩⟩
    · exact hstrays
    · omega
  match hwrite : run (Fs.writei ip (src.take n) off) t with
  | (.error e, m) => exact absurd (hends.of_error hwrite) hfull
  | (.ok r, m) =>
    obtain ⟨rfl, ⟨h', -⟩ | ⟨habs, happart, hlog, htidy, hfree, hind⟩⟩ := hends.of_ok hwrite
    · exact absurd h' hfull
    have hself : ((lockedStore a ip).setNode (a.slot ip).inum ((a.inode ip).write off (src.take n))).inode ip =
        (a.inode ip).write off (src.take n) := by
      rw [Store.inode]
      change update a.node _ _ ((lockedStore a ip).slot ip).inum = _
      rw [hinum, update_self]
    obtain ⟨v, c, hturn, hleaves⟩ := h.turn hne hn1 hin hlock hwrite habs happart rfl
      (by rw [hself]; exact h.alive) hlog f
    refine .inl ⟨v, c, hturn, hleaves.rest, hleaves.node.trans hself, ?_, ?_, ?_⟩
    · exact (strays_congr hleaves.allocs).trans htidy
    · rw [← hfree, freeBlocks, hleaves.used, freeBlocks]
    · rw [← hind, hasIndirect, hleaves.inode, hleaves.inum, hasIndirect]
      exact congrArg (fun i => ((vol g m).inode i).addr ndirect != 0) hinum

end

/-- What the loop does with `src` for a regular file: it writes what the file takes, if there are
    enough free blocks in front of the log.  If not, it panics, waits or hands out blocks of the log. -/
theorem ends_writing_file (f : Fin nfile) (tab : Tables) (acc : List Byte) (h : AtRest g ip s a)
    (hdev : (a.inode ip).type ≠ tDev) (hfuel : src.length ≤ fuel) (hoff : (tab.file f).off = off)
    (hoff32 : off < 2 ^ 32) {k c : Nat} (hk : takes (a.inode ip).data.length off src.length = k)
    (hc : cost (a.inode ip).data.length off k (hasIndirect g s (a.slot ip).inum) = c) :
    Ends (writing f ip fuel src tab) (s, acc)
      (fun r q => (Took g ip s (a.inode ip) off src acc k r q ∧ c ≤ freeBlocks g s) ∨
        (strays g s < strays g q.1 ∧ freeBlocks g s < c)) fun _ _ => freeBlocks g s < c := by
  subst hc
  -- by induction on the turns; the state after a turn is again at rest
  induction fuel generalizing src tab s a off acc k with
  | zero =>
    obtain rfl : src = [] := List.eq_nil_of_length_eq_zero (Nat.le_zero.mp hfuel)
    obtain rfl : k = 0 := Nat.le_zero.mp (hk ▸ takes_le _ _ _)
    exact .ok run_writing_nil (.inl ⟨.nil h, by simp [cost]⟩)
  | succ fuel ih =>
    by_cases hne : src = []
    · subst hne
      obtain rfl : k = 0 := Nat.le_zero.mp (hk ▸ takes_le _ _ _)
      exact .ok run_writing_nil (.inl ⟨.nil h, by simp [cost]⟩)
    have hpos : 0 < src.length := List.length_pos_iff.mpr hne
    have hmax : SysM.writeMax = 6656 := rfl
    obtain ⟨n1, hn1⟩ : ∃ n1, min src.length SysM.writeMax = n1 := ⟨_, rfl⟩
    have hlen : (src.take n1).length = n1 := by
      rw [List.length_take]
      omega
    by_cases hbad : (a.inode ip).data.length < off ∨ maxfile * bsize < off + n1
    · obtain rfl : k = 0 := hk ▸ takes_refused hn1.symm hbad
      obtain ⟨v, c, hturn, hrest, hinode, hallocs⟩ := h.turn_refused hne hn1 hdev hoff32 hbad f
      refine .ok (hturn fuel tab acc hoff)
        (.inl ⟨⟨?_, by simp [acceptedBy], ⟨c, hrest, ?_⟩, strays_congr hallocs⟩, by simp [cost]⟩)
      · simp only [Bool.false_eq_true, false_iff]
        omega
      · rw [List.take_zero, Node.write_nil, hinode]
    rw [not_or, Nat.not_lt, Nat.not_lt] at hbad
    obtain ⟨k', hk'⟩ : ∃ k', takes (max (a.inode ip).data.length (off + n1)) (off + n1) (src.length - n1) = k' :=
      ⟨_, rfl⟩
    obtain rfl : k = n1 + k' := by
      rw [← hk, ← hk']
      exact takes_turn hn1.symm hbad.1 hbad.2
    rw [cost_turn (by omega)]
    obtain ⟨v, c, hturn, hrest, hinode, htidy, hfree, hind⟩ | ⟨hfull, hstop⟩ :=
      h.turn_taken hne hn1 hdev hbad.1 hbad.2 f rfl
    · have hsize : (c.inode ip).data.length = max (a.inode ip).data.length (off + n1) := by
        rw [hinode, Node.length_write _ hbad.1, hlen]
      have hend32 : off + n1 < 2 ^ 32 := Nat.lt_of_le_of_lt hbad.2 (by decide)
      have hnext : ((advanced tab f (some n1)).file f).off = off + n1 := by
        have hfile : (advanced tab f (some n1)).file f =
            { tab.file f with off := ((tab.file f).off + n1) % 2 ^ 32 } := update_self ..
        rw [hfile, hoff]
        exact Nat.mod_eq_of_lt hend32
      have hih := ih (advanced tab f (some n1)) (acc ++ src.take n1) hrest (by rw [hinode]; exact hdev)
        (show (src.drop n1).length ≤ fuel by rw [List.length_drop]; omega) hnext hend32
        (show _ = k' by rw [hsize, List.length_drop]; exact hk')
      rw [hsize, hinode, hind] at hih
      have hacc : acceptedBy (.writei ip (src.take n1) off) (some n1) = src.take n1 := by
        rw [acceptedBy, List.take_take, Nat.min_self]
      rw [Ends, hturn fuel tab acc hoff, afterTurn, if_neg (not_not.mpr rfl), hacc]
      refine hih.mono ?_ fun _ _ hfull => by omega
      rintro r q (⟨htook, hcost⟩ | ⟨hstrays, hfull⟩)
      · have htook' : Took g ip v ((a.inode ip).write off (src.take n1)) (off + (src.take n1).length)
            (src.drop n1) (acc ++ src.take n1) k' r q := by rwa [hlen]
        have happ := htook'.append hbad.1 htidy
        rw [List.take_append_drop, hlen] at happ
        exact .inl ⟨happ, by omega⟩
      · exact .inr ⟨by omega, by omega⟩
    · refine (hstop fuel tab acc hoff).mono (fun r q hstrays => .inr ⟨hstrays, ?_⟩) fun _ _ _ => ?_
      all_goals omega

/-! ## Devices -/

/-- What the device of an inode returns for some bytes. -/
def deviceWrite (a : Store) (ip : Fin ninode) (src : List Byte) : Option Nat :=
  ((a.device (a.inode ip).attrs.major).bind (·.write)).bind fun write => write src

theorem AtRest.turn_device (h : AtRest g ip s a) (hne : src ≠ []) (hn1 : min src.length SysM.writeMax = n)
    (hdev : (a.inode ip).type = tDev) (f : Fin nfile) :
    ∃ v c, (∀ off, TurnTo f ip s src n off (deviceWrite a ip (src.take n)) v) ∧ AtRest g ip v c ∧
      c.inode ip = a.inode ip ∧ c.devsw = a.devsw := by
  obtain ⟨t, hlock, hin⟩ := h.enter
  have htype := hin.abs.inode_eq (hin.held h.ref)
  rw [inode_lockedStore] at htype
  have hfs : (t.icache ip).node.type = tDev := by
    rw [htype] at hdev
    exact hdev
  have hmajor : (a.inode ip).attrs.major = (t.icache ip).node.major := by
    rw [htype]
    rfl
  have hwrite : ∀ off, run (Fs.writei ip (src.take n) off) t = (.ok (deviceWrite a ip (src.take n)), t) := by
    intro off
    have hdevice := hin.abs.device_eq (t.icache ip).node.major
    rw [Fs.writei, run_bind_ok (run_get t)]
    simp only [hfs, if_true]
    rw [← hdevice, ← hmajor]
    rfl
  obtain ⟨u, v, c, hunlock, hend, hleaves⟩ :=
    h.leave hin.abs hin.apart rfl (by rw [inode_lockedStore]; exact h.alive) hin.log_eq
  exact ⟨v, c, fun off => turnTo hne hn1 h.run_beginOp hlock (hwrite off) hunlock hend, hleaves.rest,
    hleaves.node.trans inode_lockedStore, hleaves.devsw⟩

theorem ends_writing_console (f : Fin nfile) (tab : Tables) (acc : List Byte) (h : AtRest g ip s a)
    (hdev : (a.inode ip).type = tDev) (hconsole : ∀ src, deviceWrite a ip src = consolewrite src)
    (hfuel : src.length ≤ fuel) : Ends (writing f ip fuel src tab) (s, acc)
      (fun r q => r.1 = true ∧ q.2 = acc ++ src) fun _ _ => False := by
  induction fuel generalizing src tab s a acc with
  | zero =>
    obtain rfl : src = [] := List.eq_nil_of_length_eq_zero (Nat.le_zero.mp hfuel)
    exact .ok run_writing_nil ⟨rfl, (List.append_nil acc).symm⟩
  | succ fuel ih =>
    by_cases hne : src = []
    · subst hne
      exact .ok run_writing_nil ⟨rfl, (List.append_nil acc).symm⟩
    have hpos : 0 < src.length := List.length_pos_iff.mpr hne
    obtain ⟨n, hn⟩ : ∃ n, min src.length SysM.writeMax = n := ⟨_, rfl⟩
    have hlen : (src.take n).length = n := by
      rw [List.length_take]
      omega
    obtain ⟨v, c, hturn, hrest, hinode, hdevsw⟩ := h.turn_device hne hn hdev f
    have hnext : ∀ src, deviceWrite c ip src = consolewrite src := fun src => by
      rw [← hconsole src, deviceWrite, deviceWrite, Store.device, Store.device, hinode, hdevsw]
    rw [Ends, hturn _ fuel tab acc rfl, hconsole, consolewrite, hlen, afterTurn, if_neg (not_not.mpr rfl),
      acceptedBy, List.take_take, Nat.min_self]
    have hmax : SysM.writeMax = 6656 := rfl
    refine (ih (advanced tab f (some n)) (acc ++ src.take n) hrest (by rw [hinode]; exact hdev) hnext
      (by rw [List.length_drop]; omega)).mono ?_ fun _ _ h => h
    rintro r q ⟨hr, hq⟩
    exact ⟨hr, by rw [hq, List.append_assoc, List.take_append_drop]⟩

end

theorem Installed.deviceWrite (h : Installed a.devsw) :
    ((a.inode ip).attrs.major = 1 ∧ ∀ src, deviceWrite a ip src = consolewrite src) ∨
      ((a.inode ip).attrs.major = 2 ∧ ∀ src, deviceWrite a ip src = cpuidWrite src) ∨
      ((a.inode ip).attrs.major ≠ 2 ∧ ∀ src, deviceWrite a ip src = none) := by
  simp only [Verified.deviceWrite, Store.device]
  generalize (a.inode ip).attrs.major = major
  split
  · rename_i hrange
    by_cases hone : major = 1
    · subst hone
      have hwrite : (a.devsw ⟨(1 : BitVec 16).toInt.toNat, hrange.2⟩).write = _ := h.console
      exact .inl ⟨rfl, fun src => by rw [Option.bind_some, hwrite, Option.bind_some]⟩
    by_cases htwo : major = 2
    · subst htwo
      have hwrite : (a.devsw ⟨(2 : BitVec 16).toInt.toNat, hrange.2⟩).write = _ := h.cpuid
      exact .inr (.inl ⟨rfl, fun src => by rw [Option.bind_some, hwrite, Option.bind_some]⟩)
    have hwrite := h.none ⟨major.toInt.toNat, hrange.2⟩
      (fun heq => hone (BitVec.eq_of_toInt_eq (by
        have : major.toInt.toNat = 1 := congrArg Fin.val heq
        change major.toInt = 1
        omega)))
      (fun heq => htwo (BitVec.eq_of_toInt_eq (by
        have : major.toInt.toNat = 2 := congrArg Fin.val heq
        change major.toInt = 2
        omega)))
    exact .inr (.inr ⟨htwo, fun src => by rw [Option.bind_some, hwrite, Option.bind_none]⟩)
  · rename_i hrange
    refine .inr (.inr ⟨?_, fun src => rfl⟩)
    rintro rfl
    exact hrange (by decide)

/-! ## filewrite -/

/-- `filewrite(f, addr, n)` on an inode keeps its contract: it returns `n` or -1, and `n` exactly
    when all the bytes have been accepted, in order; the bytes accepted by a file are in it, and no
    block of the log has been handed out for them. -/
def Honours (g : Superblock) (s : Fs) (v : Node) (tab : Tables) (f : Fin nfile) (ip : Fin ninode)
    (src : List Byte) (n piped : Int) : Prop :=
  ∃ r tab' q, run (Prog.exec id accepting (SysM.filewrite f src n piped tab)) (s, []) = (.ok (r, tab'), q) ∧
    (r = n ∨ r = -1) ∧ (0 ≤ n → (r = n ↔ q.2 = src)) ∧
    (v.type ≠ tDev → (∃ b, AtRest g ip q.1 b ∧ b.inode ip = v.write (tab.file f).off q.2) ∧
      strays g q.1 = strays g s)

section

variable {tab : Tables} {z piped : Int} {v : Node} (hwritable : (tab.file f).writable = true)
  (htype : (tab.file f).type = .inode ip)

include hwritable htype

/-- The loop, and then `return i == n ? n : -1`. -/
theorem exec_filewrite : Prog.exec id accepting (SysM.filewrite f src z piped tab) =
    writing f ip src.length src tab >>= fun r => pure (if r.1 = true ∧ 0 ≤ z then z else -1, r.2) := by
  rw [SysM.filewrite, Script.get_bind, Script.ite_apply, hwritable, if_neg (by decide), htype, writing]
  exact exec_bind ..

theorem Honours.loop (h : Honours g s v tab f ip src z piped) :
    ∃ r q, run (writing f ip src.length src tab) (s, []) = (.ok r, q) ∧
      (v.type ≠ tDev → strays g q.1 = strays g s) := by
  obtain ⟨r, tab', q, hrun, -, -, hfile⟩ := h
  rw [exec_filewrite hwritable htype] at hrun
  obtain ⟨r, q, hloop, hret⟩ := bind_eq_ok.mp hrun
  cases hret
  exact ⟨r, q, hloop, fun hdev => (hfile hdev).2⟩

theorem honours_of_loop {r : Bool × Tables} {q : Fs × List Byte}
    (hrun : run (writing f ip src.length src tab) (s, []) = (.ok r, q)) (hall : r.1 = true ↔ q.2 = src)
    (hfile : v.type ≠ tDev → (∃ b, AtRest g ip q.1 b ∧ b.inode ip = v.write (tab.file f).off q.2) ∧
      strays g q.1 = strays g s) : Honours g s v tab f ip src z piped := by
  refine ⟨if r.1 = true ∧ 0 ≤ z then z else -1, r.2, q, ?_, ?_, fun hpos => ?_, hfile⟩
  · rw [exec_filewrite hwritable htype, run_bind_ok hrun]
    rfl
  · split
    · exact .inl rfl
    · exact .inr rfl
  · rw [← hall]
    split
    · rename_i h
      simp [h.1]
    · rename_i h
      have hfalse : ¬r.1 = true := fun hr => h ⟨hr, hpos⟩
      refine ⟨fun hneg => ?_, fun hr => absurd hr hfalse⟩
      omega

end

section

variable {tab : Tables} {z piped : Int}

/-- `filewrite` keeps its contract unless there are bytes to write to the cpuid device, or the
    disk has too few free blocks in front of the log for what the file would take. -/
theorem filewrite_honours_iff (h : AtRest g ip s a) (hdevs : Installed s.devsw)
    (hwritable : (tab.file f).writable = true) (htype : (tab.file f).type = .inode ip)
    (hoff : (tab.file f).off < 2 ^ 32) (hlen : src.length = z.toNat) :
    Honours g s (a.inode ip) tab f ip src z piped ↔
      if (a.inode ip).type = tDev then (a.inode ip).attrs.major = 2 → z ≤ 0
      else cost (a.inode ip).data.length (tab.file f).off
        (takes (a.inode ip).data.length (tab.file f).off z.toNat)
        (hasIndirect g s (a.slot ip).inum) ≤ freeBlocks g s := by
  rw [← hlen]
  by_cases hdev : (a.inode ip).type = tDev
  · rw [if_pos hdev]
    have hno : ∀ {q : Fs × List Byte}, (a.inode ip).type ≠ tDev → (∃ b, AtRest g ip q.1 b ∧
        b.inode ip = (a.inode ip).write (tab.file f).off q.2) ∧ strays g q.1 = strays g s :=
      fun hne => absurd hdev hne
    by_cases hne : src = []
    · -- the loop is not entered
      subst hne
      have hz : z ≤ 0 := by
        rw [List.length_nil] at hlen
        omega
      exact ⟨fun _ _ => hz, fun _ => honours_of_loop hwritable htype run_writing_nil (by simp) hno⟩
    have hpos := List.length_pos_iff.mpr hne
    obtain ⟨m, hm⟩ : ∃ m, src.length = m + 1 := Nat.exists_eq_add_one.mpr hpos
    obtain ⟨w, c, hturn, -⟩ := h.turn_device hne rfl hdev f
    have hloop := hturn _ m tab [] rfl
    rw [← hm] at hloop
    obtain ⟨hmajor, hconsole⟩ | ⟨hmajor, hcpuid⟩ | ⟨hmajor, hnone⟩ :=
      @Installed.deviceWrite a ip (h.abs.devsw ▸ hdevs)
    · obtain ⟨r, q, hrun, hr, hq⟩ := (ends_writing_console f tab [] h hdev hconsole le_rfl).returns
      refine ⟨fun _ htwo => ?_, fun _ => honours_of_loop hwritable htype hrun (by simp [hr, hq]) hno⟩
      rw [hmajor] at htwo
      cases htwo
    · -- `cpuid_write` says that it took nothing
      have hmax : SysM.writeMax = 6656 := rfl
      rw [hcpuid, cpuidWrite, afterTurn, if_pos (by omega)] at hloop
      refine ⟨fun hhon => ?_, fun hcond => absurd (hcond hmajor) (by omega)⟩
      obtain ⟨r, q, hrun, -⟩ := hhon.loop hwritable htype
      cases hloop.symm.trans hrun
    · rw [hnone, afterTurn] at hloop
      refine ⟨fun _ htwo => absurd htwo hmajor, fun _ => honours_of_loop hwritable htype hloop ?_ hno⟩
      simp [acceptedBy, Ne.symm hne]
  · rw [if_neg hdev]
    have hloop := ends_writing_file f tab [] h hdev (Nat.le_refl src.length) rfl hoff rfl rfl
    constructor
    · intro hhon
      obtain ⟨r, q, hrun, htidy⟩ := hhon.loop hwritable htype
      obtain ⟨-, hcost⟩ | ⟨hstrays, -⟩ := hloop.of_ok hrun
      · exact hcost
      · exact absurd (htidy hdev) hstrays.ne'
    · intro hcost
      have htakes := takes_le (a.inode ip).data.length (tab.file f).off src.length
      match hrun : run (writing f ip src.length src tab) (s, []) with
      | (.error e, q) => exact absurd (hloop.of_error hrun) (Nat.not_lt.mpr hcost)
      | (.ok r, q) =>
        obtain ⟨htook, -⟩ | ⟨-, hfull⟩ := hloop.of_ok hrun
        · refine honours_of_loop hwritable htype hrun ?_ fun _ => ⟨?_, htook.tidy⟩
          · rw [htook.all, htook.accepted, List.nil_append, List.take_eq_self_iff]
            omega
          · rw [htook.accepted, List.nil_append]
            exact htook.rest
        · exact absurd hfull (Nat.not_lt.mpr hcost)

end

/-! ## A file and a device -/

def soleDevs (k : Fin ndev) : Device :=
  ⟨none, if k = console then some consolewrite else if k = cpuid then some cpuidWrite else none⟩

theorem soleOpen_atRest {d : Dinode} (htype : d.type ≠ 0) (haddrs : ∀ k, d.addr k = 0) (hsize : d.size = 0) :
    AtRest sampleSb sampleIp (soleOpen d 29 soleDevs) (soleStore d 29 soleDevs) := by
  have hroom : nbitmap sampleSb + 15 < logsize ∧ nbitmap sampleSb + 15 < logsize - 1 := by decide
  refine ⟨sole_abstracts htype haddrs hsize (by decide) (by decide), sole_apart (by decide), ?_, ?_, ?_, rfl, rfl,
    rfl, hroom⟩
  · rw [soleStore_slot]
    decide
  · rw [soleStore_slot]
  · rw [soleStore_inode htype hsize]
    exact htype

theorem soleOpen_hasIndirect {d : Dinode} (haddrs : ∀ k, d.addr k = 0) :
    hasIndirect sampleSb (soleOpen d 29 soleDevs) 1 = false := by
  have hnode : (vol sampleSb (soleOpen d 29 soleDevs)).inode 1 = d := @soleFs_inode d 29 soleDevs
  rw [hasIndirect, hnode, haddrs]
  rfl

theorem soleDevs_installed : Installed soleDevs where
  console := rfl
  cpuid := rfl
  none k hcon hcpu := by rw [soleDevs, if_neg hcon, if_neg hcpu]

/-- The tables with the inode open for writing. -/
def soleTables : Tables where
  file _ := ⟨.inode sampleIp, 1, false, true, 0⟩
  task _ := ⟨.unused, none, fun _ => none, none⟩
  pipe _ := ⟨false, false⟩
  freelist := []
  others := []
  made _ := 0
  freed _ := 0

def cpuidNode : Dinode := { Dinode.zero with type := tDev, major := 2, nlink := 1 }

/-- One byte is written to an empty file. -/
theorem filewrite_honours_file :
    Honours sampleSb (soleOpen fileNode 29 soleDevs) ((soleStore fileNode 29 soleDevs).inode sampleIp) soleTables
      ⟨0, by decide⟩ sampleIp [0x61] 1 0 := by
  have htype : fileNode.type ≠ 0 := by decide
  have hinode := @soleStore_inode fileNode 29 soleDevs htype rfl
  refine (filewrite_honours_iff (soleOpen_atRest htype fileNode_addr rfl)
    soleDevs_installed rfl rfl (by decide) rfl).mpr ?_
  have hind := soleOpen_hasIndirect fileNode_addr
  have hfree : (vol sampleSb (soleOpen fileNode 29 soleDevs)).used 29 = false :=
    Bool.eq_false_iff.mpr fun hused => absurd ((@soleFs_used fileNode 29 soleDevs (by decide) 29).mp hused) (by decide)
  have hpos := freeBlocks_pos (show 29 < sampleSb.size - sampleSb.nlog by decide) hfree
  rw [hinode, if_neg (by decide), soleStore_slot, hind]
  exact hpos

/-- One byte is written to the cpuid device. -/
theorem filewrite_cpuid_panics :
    AtRest sampleSb sampleIp (soleOpen cpuidNode 29 soleDevs) (soleStore cpuidNode 29 soleDevs) ∧
      Installed soleDevs ∧ fault (Prog.exec id accepting (SysM.filewrite ⟨0, by decide⟩ [0x61] 1 0 soleTables))
        (soleOpen cpuidNode 29 soleDevs, []) = some (.panic .shortFilewrite) :=
  ⟨soleOpen_atRest (by decide) (by simp [cpuidNode, Dinode.addr, Dinode.zero]) rfl, soleDevs_installed,
    by decide +kernel⟩

end Xv6Memfs.Verified
